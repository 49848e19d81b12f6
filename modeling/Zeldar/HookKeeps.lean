import Zeldar.A64Frame
import Zeldar.HookReplay
import Zeldar.TrampolinePool

namespace Zeldar
open A64

theorem WordsAt.drop {m : Mem} {a : Addr} {ws : List Word} (h : WordsAt m a ws) (k : ℕ) :
    WordsAt m (wordAt a k) (ws.drop k) := by
  intro i w hw
  rw [List.getElem?_drop] at hw
  rw [wordAt_add]
  exact h (k+i) w hw

section Placed
variable {tr : Addr → Addr} {slot : Slot tr} {n : ℕ} {src : Source tr n slot} {mach : Machine}
  {m : Mem}

/-- The memory `m` has in the slot what `__fix_instructions` has put there. -/
def Keeps (src : Source tr n slot) (mach : Machine) (m : Mem) : Prop :=
  ∃ mach', fixInstructions tr mach src.rw src.rx n slot.rw slot.rx = .ok mach' ∧
    ∀ x, slot.bytes x → m x = mach'.mem x

theorem wordsAt_of_slot {m' : Mem} {pos : ℕ} {ws : List Word} (hm : ∀ x, slot.bytes x → m x = m' x)
    (hl : pos+ws.length ≤ trampolineSize) (h : WordsAt m' (wordAt slot.rx pos) ws) :
    WordsAt m (wordAt slot.rx pos) ws := by
  have ht : trampolineSize = 50 := rfl
  apply h.congr (by omega)
  intro x hx
  apply hm
  unfold Slot.bytes
  rw [ht] at hl ⊢
  unfold wordAt at hx
  bv_omega

/-- The words of a plan stand where the loop emitted them, unless a fix-up is to come. -/
theorem Keeps.plan (hm : Keeps src mach m) {k : ℕ} (hk : k < n) (hi : k < maxInstructions)
    (hf : (loopPlan tr (src.start mach) ⟨k,hi⟩).forward = none) :
    WordsAt m (src.code mach k) (loopPlan tr (src.start mach) ⟨k,hi⟩).words := by
  obtain ⟨mach',hrun,hm⟩ := hm
  have hrep := (@loop_represents tr slot n src mach k hk.le).2
  have hlast := @pos_le tr slot n src mach (k+1) hk
  rw [pos_succ src mach hi] at hlast
  rw [code_eq src mach hk.le]
  apply wordsAt_of_slot hm (hlast.trans (by decide))
  intro i w hw
  rw [wordAt_add]
  apply read_settled hk _ hrun
  rw [loopReloc_succ hi]
  exact hrep.settled ⟨k,hi⟩ hf hw

/-- Behind them stands the jump back. -/
theorem Keeps.tail (hm : Keeps src mach m) :
    WordsAt m (src.code mach n) (jumpWords (wordAt src.rx n) (src.code mach n)) := by
  obtain ⟨mach',hrun,hm⟩ := hm
  obtain ⟨m1,hm1,hmem⟩ := fixInstructions_overlay src mach
  rw [hrun] at hm1
  cases hm1
  have hlast := pos_le src mach le_rfl
  have hj := jumpWords_length (wordAt src.rx n) (src.code mach n)
  rw [code_eq src mach le_rfl] at hj ⊢
  unfold Source.pos at hlast hj ⊢
  apply wordsAt_of_slot hm (by unfold trampolineSize maxInstructions; omega)
  rw [hmem]
  exact (wordsAt_append.mp (wordsAt_overlay _ (by rw [List.length_append]; omega))).2

theorem code_zero : src.code mach 0 = slot.rx := rfl

theorem loopPlan_eq {k : ℕ} {hi : k < maxInstructions} {p : Plan}
    (h : stepPlan tr (loopState tr (src.start mach) k) ⟨k,hi⟩ = .ok p) :
    loopPlan tr (src.start mach) ⟨k,hi⟩ = p := by
  simp only [loopPlan, h]

/-- A plain word is copied. -/
theorem Keeps.plain (hm : Keeps src mach m) {k : ℕ} (hk : k < n) (hi : k < maxInstructions)
    {w : Word} (hw : mach.mem.read32 (wordAt src.rx k) = w) (hp : Plain w) :
    m.read32 (src.code mach k) = w ∧ src.code mach (k+1) = wordAt (src.code mach k) 1 := by
  have hrep := (@loop_represents tr slot n src mach k hk.le).2
  have he := loopPlan_eq (@stepPlan_plain tr _ ⟨k,hi⟩ w ((hrep.load_source hk).trans hw) hp)
  have hwords := hm.plan hk hi (by rw [he])
  have hnext := @code_succ tr slot n src mach k hk hi
  rw [he] at hwords hnext
  exact ⟨(wordsAt_cons.mp hwords).1,hnext⟩

/-- A branch out of the range goes where it went. -/
theorem Keeps.branch (hm : Keeps src mach m) (hn : 0 < n) {target : Addr}
    (hw : mach.mem.read32 src.rx = branchWord 0x14000000 (target-src.rx))
    (hd : (target-src.rx).toNat%4 = 0)
    (ho : wordOffset (((target-src.rx).sshiftRight 2).setWidth 26) = target-src.rx)
    (hr : 4*n ≤ (target-src.rx).toNat) : Transfers m slot.rx target := by
  have hrep := (@loop_represents tr slot n src mach 0 (Nat.zero_le _)).2
  have hload := hrep.load_source hn
  rw [wordAt_zero, hw] at hload
  have hopc : (0x14000000:Word) &&& fieldMask 0 26 = 0 := by decide
  have hop := branchWord_opcode (target-src.rx) hopc
  -- the word is a B, and its handler reads the target back
  have hkind : refKind (branchWord 0x14000000 (target-src.rx)) = some .branch := by
    unfold refKind
    rw [if_pos (Or.inl hop)]
  have ht : branchTarget (loopState tr (src.start mach) 0).inprx
      (branchWord 0x14000000 (target-src.rx)) = target := by
    rw [branchTarget_eq, branchWord_imm _ hopc, ho, hrep.inprx, wordAt_zero]
    ring
  obtain ⟨hp,-⟩ := @loopPlan_ok tr slot n src mach 0 hn (by decide)
  have hplan := hp
  rw [stepPlan_branch hload hkind, hop] at hplan
  have hs := slot.aligned
  have hsrc := src.aligned
  have hout : (loopState tr (src.start mach) 0).outprx = slot.rx := rfl
  obtain ⟨hf,htrans⟩ := branchPlan_transfers (by
    rw [ht]
    intro hin
    have hlt := hrep.range hin
    omega) (by
    rw [ht, hout]
    bv_omega) hplan
  have h := htrans m (hm.plan hn (by decide) hf)
  rwa [ht] at h

/-- The load of X17 from a literal at `+8` loads the same. -/
theorem Keeps.ldr (hm : Keeps src mach m) {k : ℕ} (hk : k < n) (hi : k < maxInstructions) {v : Addr}
    (hw : mach.mem.read32 (wordAt src.rx k) = 0x58000051)
    (hlit : WordsAt mach.mem (wordAt src.rx (k+2)) [v.extractLsb' 0 32,v.extractLsb' 32 32])
    (hexec : ∀ i < 2, tr (wordAt src.rx (k+2+i)) = wordAt src.rx (k+2+i))
    (happart : Sep src.rx (4*(k+4)) slot.rx (4*trampolineSize))
    (hkept : ¬(src.start mach).ctx.isInFixingRange (wordAt src.rx (k+2)) = true →
      m.read64 (wordAt src.rx (k+2)) = v) :
    Loads17 m (src.code mach k) (src.code mach (k+1)) v := by
  have hrep := (@loop_represents tr slot n src mach k hk.le).2
  have hload := (hrep.load_source hk).trans hw
  obtain ⟨hp,-⟩ := @loopPlan_ok tr slot n src mach k hk hi
  have hplan := hp
  rw [stepPlan_ldr17 hload] at hplan
  have hin : wordAt (loopState tr (src.start mach) k).inprx 2 = wordAt src.rx (k+2) := by
    rw [hrep.inprx, wordAt_add]
  -- the copied literal is read while the slot is being filled, which is apart from it
  have hcopy : ∀ head : List Word, head.length ≤ 5 → ∀ i < 2,
      ((loopState tr (src.start mach) k).emitWords tr head).m.load32 tr
        (wordAt (wordAt (loopState tr (src.start mach) k).inprx 2) i) =
          v.extractLsb' (32*i) 32 := by
    intro head hhead i hi2
    have hs := hrep.small
    have hmax : maxInstructions = 5 := rfl
    have hsize : trampolineSize = 50 := rfl
    have hlen : (loopReloc slot (src.start mach) k).out.length+head.length ≤ trampolineSize := by
      omega
    have hmem := emitWords_overlay head _ _ hrep.mem hrep.outprw hlen
    have hread : mach.mem.read32 (wordAt src.rx (k+2+i)) = v.extractLsb' (32*i) 32 := by
      rw [← wordAt_add]
      exact hlit i _ (by interval_cases i <;> rfl)
    rw [hin, wordAt_add, Machine.load32, hexec i hi2, hmem, read32_overlay_of_sep, hread]
    apply (happart.word (by omega : k+2+i < k+4)).mono le_rfl
    rw [List.length_append]
    omega
  obtain ⟨hf,hloads⟩ := litPlan_loads17 (by rw [hrep.inprx]; exact wordAt_aligned src.aligned k)
    hrep.outprx_aligned hcopy hplan
  rw [hin, loopState_range hk.le] at hloads
  have h := hloads m (hm.plan hk hi hf) hkept
  rw [code_succ src mach hk hi]
  exact h

/-- Without a literal in the range, and near enough to it, the load goes back for what is there. -/
theorem Keeps.reload (hm : Keeps src mach m) (hn : 0 < n)
    (hw : mach.mem.read32 src.rx = 0x58000051)
    (hr : (src.start mach).ctx.isInFixingRange (wordAt src.rx 2) = false)
    (hnear : (0x3ffff:BitVec 64).ule
      (llabs ((wordAt src.rx 2-slot.rx).sshiftRight 2)+(7+1-4)/4) = false) :
    Loads17 m slot.rx (src.code mach 1) (m.read64 (wordAt src.rx 2)) := by
  have hi : 0 < maxInstructions := by decide
  have hrep := (@loop_represents tr slot n src mach 0 (Nat.zero_le _)).2
  have hload := hrep.load_source hn
  rw [wordAt_zero, hw] at hload
  obtain ⟨hp,-⟩ := @loopPlan_ok tr slot n src mach 0 hn hi
  have hplan := hp
  rw [stepPlan_ldr17 hload] at hplan
  have hin : (loopState tr (src.start mach) 0).inprx = src.rx := by rw [hrep.inprx, wordAt_zero]
  have hout : (loopState tr (src.start mach) 0).outprx = slot.rx := rfl
  obtain ⟨hf,hloads⟩ := litPlan_reloads17 (by rw [hin]; exact src.aligned) hrep.outprx_aligned (by
    rw [hin, hout, loopState_range (Nat.zero_le _), hr, hnear]
    decide) hplan
  have h := hloads m (hm.plan hn hi hf)
  rw [hin, hout] at h
  rw [code_succ src mach hn hi, code_zero]
  exact h

/-- A branch to itself, in the range, goes on branching to itself. -/
theorem Keeps.self (hm : Keeps src mach m) (hn : 0 < n)
    (hw : mach.mem.read32 src.rx = 0x14000000)
    (hr : (src.start mach).ctx.isInFixingRange src.rx = true) :
    m.read32 slot.rx = 0x14000000 := by
  have hi : 0 < maxInstructions := by decide
  have hrep := (@loop_represents tr slot n src mach 0 (Nat.zero_le _)).2
  have hload := hrep.load_source hn
  rw [wordAt_zero, hw] at hload
  obtain ⟨hp,-⟩ := @loopPlan_ok tr slot n src mach 0 hn hi
  have hplan := hp
  have ht : branchTarget (loopState tr (src.start mach) 0).inprx 0x14000000 = src.rx := by
    rw [branchTarget_eq, hrep.inprx, wordAt_zero]
    exact BitVec.add_zero _
  have hidx : Context.index ((loopState tr (src.start mach) 0).ctx.getRefInsIndex src.rx) =
      .ok ⟨0,hi⟩ := by
    rw [Context.getRefInsIndex, hrep.basep, BitVec.sub_self]
    rfl
  -- the address recorded for the instruction is the cursor, so the distance is none
  have hins : (((loopState tr (src.start mach) 0).resetCurrentIns ⟨0,hi⟩
      (loopState tr (src.start mach) 0).outprx).ctx.dat ⟨0,hi⟩).ins =
      (loopState tr (src.start mach) 0).outprx := by
    simp only [FixState.resetCurrentIns, Context.resetCurrentIns, Function.update_self]
  rw [stepPlan_branch hload (by decide)] at hplan
  simp only [branchPlan, ht, loopState_range (Nat.zero_le n), hr, ↓reduceIte, referencePlan, hidx,
    bind, Except.bind, le_refl, hins, pure, Except.pure, Except.ok.injEq, BitVec.sub_self] at hplan
  have hwords := hm.plan hn hi (by rw [← hplan])
  rw [← hplan] at hwords
  rw [code_zero] at hwords
  rw [(wordsAt_cons.mp hwords).1]
  decide

/-- Leading NOPs are copied, and passed. -/
theorem Keeps.nops (hm : Keeps src mach m) {j : ℕ} (hj : j ≤ n)
    (hw : WordsAt mach.mem src.rx (nops j)) {t : Addr} (h : Transfers m (src.code mach j) t) :
    Transfers m slot.rx t := by
  have hc := src.count
  induction j with
  | zero => exact h
  | succ j ih =>
    have hsplit : Zeldar.nops (j+1) = Zeldar.nops j++[aarch64Nop] := List.replicate_succ'
    rw [hsplit] at hw
    obtain ⟨hinit,hlast⟩ := wordsAt_append.mp hw
    rw [nops_length] at hlast
    obtain ⟨hnop,hnext⟩ := hm.plain hj (by omega) (wordsAt_cons.mp hlast).1 (by decide)
    rw [hnext] at h
    refine ih (by omega) hinit (transfers_nops 1 ?_ h)
    exact wordsAt_cons.mpr ⟨hnop,by simp [WordsAt]⟩

/-- A far jump, relocated as a whole. -/
theorem Keeps.far (hm : Keeps src mach m) {j : ℕ} (hn : n = j+4) {c : Addr}
    (hw : WordsAt mach.mem src.rx (Zeldar.nops j++absoluteJump c))
    (hexec : ∀ l < n, tr (wordAt src.rx l) = wordAt src.rx l)
    (hr : (src.start mach).ctx.isInFixingRange (wordAt src.rx (j+2)) = true) :
    Transfers m slot.rx c := by
  have hc := src.count
  subst hn
  obtain ⟨hnops,hjump⟩ := wordsAt_append.mp hw
  rw [nops_length] at hjump
  obtain ⟨h0,hjump⟩ := wordsAt_cons.mp hjump
  obtain ⟨h1,hlit⟩ := wordsAt_cons.mp hjump
  rw [wordAt_add] at h1 hlit
  rw [wordAt_add] at hlit
  have hl := @Keeps.ldr tr slot (j+4) src mach m hm j (by omega) (by omega) c h0 hlit
    (fun i hi => hexec _ (by omega)) src.apart (fun h => absurd hr h)
  obtain ⟨hbr,-⟩ := @Keeps.plain tr slot (j+4) src mach m hm (j+1) (by omega) (by omega) _ h1
    (by decide)
  exact hm.nops (by omega) hnops (hl.br hbr)

/-- The first word of a far jump, relocated alone; the others are where they were. -/
theorem Keeps.resume (hm : Keeps src mach m) (hn : n = 1) {j : ℕ} (hj : j ≤ 1) {c : Addr}
    (hw : WordsAt mach.mem src.rx (Zeldar.nops j++absoluteJump c))
    (hrest : WordsAt m (wordAt src.rx 1) ((Zeldar.nops j++absoluteJump c).drop 1))
    (hexec : ∀ l < j+4, tr (wordAt src.rx l) = wordAt src.rx l)
    (happart : Sep src.rx (4*(j+4)) slot.rx (4*trampolineSize))
    (hnear : j = 0 → isFar (src.code mach 1) (wordAt src.rx 1) = false) :
    Transfers m slot.rx c := by
  subst hn
  have hcode : (src.code mach 1).toNat%4 = 0 := by
    rw [code_eq src mach le_rfl]
    exact wordAt_aligned slot.aligned _
  have htail := hm.tail
  -- the word moved is the load of X17, or the NOP before it
  by_cases h0 : j = 0
  · subst h0
    have hjump : WordsAt mach.mem src.rx (absoluteJump c) := hw
    have hrest : WordsAt m (wordAt src.rx 1) ((absoluteJump c).drop 1) := hrest
    obtain ⟨hldr,hjump⟩ := wordsAt_cons.mp hjump
    have hlit := (wordsAt_cons.mp hjump).2
    obtain ⟨hbr,hlit'⟩ := wordsAt_cons.mp hrest
    rw [wordAt_add] at hlit hlit'
    have hfar := hnear rfl
    unfold isFar at hfar
    have hsrc := wordAt_aligned src.aligned 1
    have hd : (wordAt src.rx 1-src.code mach 1).toNat%4 = 0 := by bv_omega
    have hword : m.read32 (src.code mach 1) =
        branchWord 0x14000000 (wordAt src.rx 1-src.code mach 1) := by
      unfold jumpWords at htail
      rw [hfar] at htail
      exact (wordsAt_cons.mp htail).1
    -- the load, the branch back that keeps X17, and the BR that still stands behind it
    have hl := @Keeps.ldr tr slot 1 src mach m hm 0 (by decide) (by decide) c
      (by rwa [wordAt_zero]) hlit (fun i hi => hexec _ (by omega)) happart
      (fun _ => read64_literal hlit')
    exact (hl.branch hword (branchOffset_of_near hd hfar)).br hbr
  · obtain rfl : j = 1 := by omega
    have hnop := (wordsAt_append.mp hw).1
    have hback := transfers_jumpWords hcode (wordAt_aligned src.aligned 1) htail
    exact hm.nops le_rfl hnop (hback.trans (transfers_absoluteJump hrest))

/-- A trampoline that holds a NOP and a near jump back. -/
theorem Keeps.nop_resumes {tr : Addr → Addr} {slot : Slot tr} {src : Source tr 1 slot}
    {mach : Machine} {m : Mem} (hm : Keeps src mach m) (hw : mach.mem.read32 src.rx = aarch64Nop)
    (hnear : isFar (wordAt slot.rx 1) (wordAt src.rx 1) = false) (c : Cpu) (hc : c.mem = m)
    (hpc : c.pc = slot.rx) : Reaches c { c with pc := wordAt src.rx 1 } := by
  rw [← wordAt_zero src.rx] at hw
  obtain ⟨hnop,hnext⟩ := hm.plain (by decide) (by decide) hw (by decide)
  have htail := hm.tail
  rw [Nat.zero_add] at hnext
  rw [hnext, code_zero] at htail
  rw [code_zero] at hnop
  unfold jumpWords at htail
  unfold isFar at hnear
  rw [hnear] at htail
  have hd : (wordAt src.rx 1-wordAt slot.rx 1).toNat%4 = 0 := by
    have h1 := wordAt_aligned src.aligned 1
    have h2 := wordAt_aligned slot.aligned 1
    bv_omega
  subst hc
  have hfirst := @step_nop c (by rw [hpc]; exact hnop)
  have hback := @reaches_branch { c with pc := wordAt slot.rx 1 } (wordAt src.rx 1)
    (wordsAt_cons.mp htail).1 (branchOffset_of_near hd hnear)
  rw [hpc] at hfirst
  exact Reaches.head hfirst hback

/-- Words that do not cross the middle of the address space pass the range test. -/
theorem range_of_span {l : ℕ} (hl : l < n)
    (hspan : src.rx.toNat < 2^63 → src.rx.toNat+4*n < 2^63) :
    (src.start mach).ctx.isInFixingRange (wordAt src.rx l) = true := by
  have hc := src.count
  unfold maxInstructions at hc
  have hstart : (src.start mach).ctx.basep = src.rx ∧
      (src.start mach).ctx.endp = wordAt src.rx n := ⟨rfl,rfl⟩
  have hn : (wordAt src.rx n).toNat = (src.rx.toNat+4*n)%2^64 := by
    unfold wordAt
    bv_omega
  have hw : (wordAt src.rx l).toNat = (src.rx.toNat+4*l)%2^64 := by
    unfold wordAt
    bv_omega
  have h1 := BitVec.toInt_eq_toNat_cond src.rx
  have h2 := BitVec.toInt_eq_toNat_cond (wordAt src.rx l)
  have h3 := BitVec.toInt_eq_toNat_cond (wordAt src.rx n)
  simp only [Context.isInFixingRange, hstart, Bool.and_eq_true, BitVec.sle_eq_decide,
    BitVec.slt_eq_decide, decide_eq_true_eq]
  split_ifs at h1 h2 h3 <;> omega

end Placed

/-- What a call that got a slot leaves: the trampoline, the patch, and all else as it was. -/
theorem hook_leaves {env : HookEnv} {h c : Addr} {st st' : HookState} (slot : Slot env.tr)
    (hh : h.toNat%4 = 0) (h0 : h ≠ 0) (c0 : c ≠ 0) (halias : env.Aliases h c)
    (halloc : (allocForTrampoline env.jit st.index).2 = some (slot.rx,slot.rw))
    (hap : Sep h (4*patchCount h c) slot.rx (4*trampolineSize))
    (hhook : hook env st h c true = .ok (slot.rx,st')) :
    Keeps (halias.source hh slot hap) st.m st'.m.mem ∧ WordsAt st'.m.mem h (jumpWords c h) ∧
      ∀ x, 4*patchCount h c ≤ (x-h).toNat → ¬slot.bytes x → st'.m.mem x = st.m.mem x := by
  obtain ⟨m1,st1,hhook1,hfix,hkept,-,hpatch,hframe⟩ :=
    hook_changes st slot hh h0 c0 halias halloc hap
  obtain rfl : st1 = st' := by
    have he := hhook1.symm.trans hhook
    simp only [Except.ok.injEq, Prod.mk.injEq] at he
    exact he.2
  exact ⟨⟨m1,hfix,hkept⟩,hpatch,hframe⟩

/-- The places that a call changes: `n` words of the function, and its slot. -/
def Changed {tr : Addr → Addr} (h : Addr) (n : ℕ) (slot : Slot tr) (x : Addr) : Prop :=
  (x-h).toNat < 4*n ∨ slot.bytes x

instance {tr : Addr → Addr} (h : Addr) (n : ℕ) (slot : Slot tr) (x : Addr) :
    Decidable (Changed h n slot x) := inferInstanceAs (Decidable (_ ∨ _))

/-- A memory of NOPs. -/
def nopMem : Mem := fun x => aarch64Nop.extractLsb' (8*(x.toNat%4)) 8

theorem nopMem_read {a : Addr} (ha : a.toNat%4 = 0) : nopMem.read32 a = aarch64Nop := by
  have h1 : (a+1).toNat%4 = 1 := by bv_omega
  have h2 : (a+2).toNat%4 = 2 := by bv_omega
  have h3 : (a+3).toNat%4 = 3 := by bv_omega
  unfold Mem.read32 nopMem
  rw [ha, h1, h2, h3]
  decide

section View

/-- How far the writable view of a place is from it. -/
def viewDistance : Addr := 0x10000000000

/-- 1 GiB from `base` on with a writable view, and a pool that starts `pool` words into it. -/
def viewEnv (base : Addr) (pool : ℕ) : HookEnv where
  tr a := if a-(base+viewDistance) < 0x40000000 then a-viewDistance else a
  window a _ := a+viewDistance
  reserve _ _ := 0
  jit := ⟨wordAt base pool,wordAt base pool+viewDistance,0x1000,0⟩

variable {base : Addr} {pool : ℕ}

theorem wordAt_view (a : Addr) (l : ℕ) :
    wordAt (a+viewDistance) l = wordAt a l+viewDistance := by
  unfold wordAt
  ring

theorem viewEnv_tr {l : ℕ} (hl : l < 2^28) :
    (viewEnv base pool).tr (wordAt base l+viewDistance) = wordAt base l ∧
      (viewEnv base pool).tr (wordAt base l) = wordAt base l := by
  have hview : wordAt base l+viewDistance-(base+viewDistance) < 0x40000000 := by
    unfold wordAt
    bv_omega
  have hplace : ¬wordAt base l-(base+viewDistance) < 0x40000000 := by
    unfold wordAt viewDistance
    bv_omega
  have htr (a : Addr) : (viewEnv base pool).tr a =
      if a-(base+viewDistance) < 0x40000000 then a-viewDistance else a := rfl
  rw [htr, htr, if_pos hview, if_neg hplace]
  exact ⟨BitVec.add_sub_cancel _ _,rfl⟩

/-- Where the base and the pool may be. -/
structure ViewPlaced (base : Addr) (pool : ℕ) : Prop where
  aligned : base.toNat%4 = 0
  low : base.toNat < 2^63
  pos : 0 < pool
  high : pool ≤ 2^27

instance : Decidable (ViewPlaced base pool) :=
  decidable_of_iff (base.toNat%4 = 0 ∧ base.toNat < 2^63 ∧ 0 < pool ∧ pool ≤ 2^27)
    ⟨fun ⟨h1,h2,h3,h4⟩ => ⟨h1,h2,h3,h4⟩,fun ⟨h1,h2,h3,h4⟩ => ⟨h1,h2,h3,h4⟩⟩

/-- The words of the slots are within the range that has a view. -/
theorem ViewPlaced.word_lt (hv : ViewPlaced base pool) {k l : ℕ} (hk : k ≤ hookMax)
    (hl : l ≤ trampolineSize) : pool+trampolineSize*k+l < 2^28 := by
  have hlt := slot_word_lt hk hl
  have hpool := hv.high
  omega

/-- None of them is at the null pointer, in either view. -/
theorem ViewPlaced.ne_zero (hv : ViewPlaced base pool) {l : ℕ} (hp : pool ≤ l) (hl : l < 2^28) :
    wordAt base l ≠ 0 ∧ wordAt base l+viewDistance ≠ 0 := by
  have hlow := hv.low
  have hpos := hv.pos
  unfold wordAt viewDistance
  exact ⟨by bv_omega,by bv_omega⟩

theorem slotAt_view (base : Addr) (pool k l : ℕ) :
    wordAt (wordAt (viewEnv base pool).jit.rw (trampolineSize*k)) l =
      wordAt base (pool+trampolineSize*k+l)+viewDistance := by
  change wordAt (wordAt (wordAt base pool+viewDistance) _) l = _
  rw [wordAt_view, wordAt_view, wordAt_add, wordAt_add, Nat.add_assoc]

theorem slotAt_view' (base : Addr) (pool k l : ℕ) :
    wordAt (wordAt (viewEnv base pool).jit.ro (trampolineSize*k)) l =
      wordAt base (pool+trampolineSize*k+l) := by
  change wordAt (wordAt (wordAt base pool) _) l = _
  rw [wordAt_add, wordAt_add, Nat.add_assoc]

/-- The slot of the `k`-th request. -/
def viewSlot (hv : ViewPlaced base pool) (k : ℕ) (hk : k ≤ hookMax) :
    Slot (viewEnv base pool).tr where
  rw := wordAt (viewEnv base pool).jit.rw (trampolineSize*k)
  rx := wordAt (viewEnv base pool).jit.ro (trampolineSize*k)
  aligned := wordAt_aligned (wordAt_aligned hv.aligned _) _
  aliased l hl := by
    rw [slotAt_view, slotAt_view']
    exact (viewEnv_tr (hv.word_lt hk hl.le)).1
  executed l hl := by
    rw [slotAt_view']
    exact (viewEnv_tr (hv.word_lt hk hl.le)).2
  nonnull l hl := by
    rw [slotAt_view]
    exact (hv.ne_zero (by omega) (hv.word_lt hk hl.le)).2
  placed := by
    have h := slotAt_view' base pool k 0
    rw [wordAt_zero] at h
    rw [h]
    exact (hv.ne_zero (by omega) (hv.word_lt hk (Nat.zero_le _))).1

theorem nearView : ViewPlaced 0 0x8000 := by decide

section Places
variable {i : ℕ}

theorem view_executed (hi : i+5 ≤ 2^28) {k : ℕ} (hk : k < 5) :
    (viewEnv base pool).tr (wordAt (wordAt base i) k) = wordAt (wordAt base i) k := by
  rw [wordAt_add]
  exact (viewEnv_tr (by omega)).2

theorem view_window (hi : i+5 ≤ 2^28) (c : Addr) :
    (viewEnv base pool).Aliases (wordAt base i) c := by
  intro k hk
  have hk5 : k < 5 := by
    have hw : (windowSize (wordAt base i) c).toNat ≤ 20 := by
      unfold windowSize
      split_ifs <;> decide
    omega
  change (viewEnv base pool).tr (wordAt (wordAt base i+viewDistance) k) = _
  rw [wordAt_view, wordAt_add]
  exact (viewEnv_tr (by omega)).1

/-- A patch in front of the pool is off its slots. -/
theorem view_apart (hv : ViewPlaced base pool) {k : ℕ} (hk : k ≤ hookMax) (hi : i+5 ≤ pool) {n : ℕ}
    (hn : n ≤ 5) : Sep (wordAt base i) (4*n) (viewSlot hv k hk).rx (4*trampolineSize) := by
  have hlt := hv.word_lt hk le_rfl
  have ht : trampolineSize = 50 := rfl
  have hrx := slotAt_view' base pool k 0
  rw [wordAt_zero, Nat.add_zero] at hrx
  have hs : (viewSlot hv k hk).rx = wordAt base (pool+trampolineSize*k) := hrx
  rw [hs]
  rw [ht] at hlt ⊢
  have hij : i+5 ≤ pool+50*k := hi.trans (Nat.le_add_right _ _)
  generalize pool+50*k = j at hlt hij
  unfold wordAt
  refine ⟨?_,?_⟩ <;> bv_omega

end Places

end View

end Zeldar
