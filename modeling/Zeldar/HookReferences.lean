import Zeldar.HookOutside
import Zeldar.HookSettle

namespace Zeldar
open A64

/-- The word at `a` is `w` with its reference moved to the code from `code` to `stop`: to its
start, or to the word after its alignment NOPs. -/
structure Retargeted (m : Mem) (κ : RefKind) (w : Word) (a code stop : Addr) : Prop where
  keep : m.read32 a &&& ~~~κ.mask = w &&& ~~~κ.mask
  target : ∃ pad d, (pad = 0 ∨ 4*pad < (stop-code).toNat) ∧
    (∀ k < pad, m.read32 (wordAt code k) = aarch64Nop) ∧
    reference (decode (m.read32 a)) = some (κ,d) ∧ a+d = wordAt code pad+refLow κ w

/-- The target as the handler of the kind computes it. -/
def handlerTarget (κ : RefKind) (pc : Addr) (w : Word) : Addr :=
  match κ with
  | .branch => branchTarget pc w
  | .address => adrTarget pc w
  | κ => condTarget pc (~~~κ.mask) w

/-- For branches, and for all forward references, it is the target of the instruction. -/
theorem handlerTarget_eq {κ : RefKind} {pc : Addr} {w : Word} {d : Addr}
    (href : reference (decode w) = some (κ,d))
    (hdir : κ = .branch ∨ 4 ≤ d.toNat ∧ d.toNat < 2^20) :
    handlerTarget κ pc w = pc+d ∧ refKind w = some κ := by
  rw [reference_decode] at href
  cases hk : refKind w with
  | none =>
    rw [hk] at href
    cases href
  | some κ' =>
    rw [hk, Option.map_some, Option.some.injEq, Prod.mk.injEq] at href
    obtain ⟨rfl,rfl⟩ := href
    refine ⟨?_,rfl⟩
    have hl := refLow_lt κ' w
    -- only the branch handler reads its field as signed, the others are right forwards
    have hfwd : κ' = .branch ∨ (wordOffset (w.extractLsb' κ'.lo κ'.width)).toNat < 2^63 := by
      rcases hdir with h | h
      · exact Or.inl h
      · refine Or.inr ?_
        generalize wordOffset (w.extractLsb' κ'.lo κ'.width) = x at h ⊢
        generalize refLow κ' w = y at h hl
        bv_omega
    cases κ' with
    | branch =>
      have h0 : refLow .branch w = 0#64 := rfl
      rw [h0, BitVec.add_zero]
      exact branchTarget_eq pc w
    | address => exact adrTarget_eq pc w (hfwd.resolve_left (by decide))
    | cond =>
      have h0 : refLow .cond w = 0#64 := rfl
      rw [h0, BitVec.add_zero]
      exact condTarget_eq (Or.inl rfl) pc w (hfwd.resolve_left (by decide))
    | test =>
      have h0 : refLow .test w = 0#64 := rfl
      rw [h0, BitVec.add_zero]
      exact condTarget_eq (Or.inr rfl) pc w (hfwd.resolve_left (by decide))

section Plan
variable {tr : Addr → Addr} {s : FixState} {idx : Fin maxInstructions} {w : Word} {κ : RefKind}

/-- A target inside the range leads to the reference block, with words the kind can hold. -/
theorem stepPlan_reference (hb : s.ctx.basep.toNat%4 = 0) (hw : s.m.load32 tr s.inprw = w)
    (hk : refKind w = some κ)
    (hr : s.ctx.isInFixingRange (handlerTarget κ s.inprx w) = true) :
    ∃ t encode ad, stepPlan tr s idx = referencePlan s idx t encode κ.lo ad ∧
      s.ctx.getRefInsIndex t = s.ctx.getRefInsIndex (handlerTarget κ s.inprx w) ∧
      encode 0 = w &&& ~~~κ.mask ∧ (κ = .branch → ∀ d, Encodes κ w (encode d) d) ∧
      ∀ v : Word, v <<< κ.lo &&& ad = v <<< κ.lo &&& κ.mask := by
  -- each handler encodes, asks for the index of its target and merges in its own way
  cases κ with
  | branch =>
    refine ⟨branchTarget s.inprx w,branchWord (w &&& 0xfc000000),0x03ffffff,?_,rfl,?_,?_,?_⟩
    · rw [stepPlan_branch hw hk]
      simp only [handlerTarget] at hr
      simp only [branchPlan, hr, ↓reduceIte]
      rfl
    · rw [branchWord_eq]
      simp
      rfl
    · exact fun _ d => encodes_branchWord w d
    · exact fun v => rfl
  | cond =>
    refine ⟨condTarget s.inprx (~~~RefKind.cond.mask) w,condWord (~~~RefKind.cond.mask) w,
      ~~~(~~~RefKind.cond.mask),?_,rfl,?_,fun h => absurd h (by decide),?_⟩
    · rw [stepPlan_cond (Or.inl rfl) hw hk]
      simp only [handlerTarget] at hr
      simp only [condPlan, hr, ↓reduceIte]
      rfl
    · simp [condWord]
    · exact fun v => by rw [BitVec.not_not]
  | test =>
    refine ⟨condTarget s.inprx (~~~RefKind.test.mask) w,condWord (~~~RefKind.test.mask) w,
      ~~~(~~~RefKind.test.mask),?_,rfl,?_,fun h => absurd h (by decide),?_⟩
    · rw [stepPlan_cond (Or.inr rfl) hw hk]
      simp only [handlerTarget] at hr
      simp only [condPlan, hr, ↓reduceIte]
      rfl
    · simp [condWord]
    · exact fun v => by rw [BitVec.not_not]
  | address =>
    -- an ADR refers to the word that holds its target
    refine ⟨adrTarget s.inprx w &&& ~~~3,adrWord w,0x00ffffff,?_,refIndex_align hb _,?_,
      fun h => absurd h (by decide),?_⟩
    · rw [stepPlan_address hw hk]
      simp only [handlerTarget] at hr
      simp only [adrPlan, hr, ↓reduceIte]
      rfl
    · have hm : ~~~RefKind.address.mask = 0xff00001f := by decide
      simp [adrWord, hm]
    · intro v
      have hm : RefKind.address.mask = 0x00ffffe0 := by decide
      -- the merge mask of the ADR is five bits too wide, where the shifted field is zero
      have h5 : v <<< RefKind.address.lo &&& 0x0000001f = 0 := by
        apply BitVec.eq_of_getLsbD_eq
        intro i hi
        interval_cases i <;> simp [RefKind.lo]
      have hs : (0x00ffffff:Word) = 0x00ffffe0 ||| 0x0000001f := by decide
      rw [hm, hs, BitVec.and_or_distrib_left, h5]
      simp

end Plan

theorem referencePlan_eq {s : FixState} {idx r : Fin maxInstructions} {t : Addr}
    (hx : s.ctx.getRefInsIndex t = r.val) (encode : Addr → Word) (ls : ℕ) (ad : Word) :
    referencePlan s idx t encode ls ad =
      if r ≤ idx then
        .ok ⟨[encode (((s.resetCurrentIns idx s.outprx).ctx.dat r).ins-s.outprx)],s.outprx,none⟩
      else .ok ⟨[encode 0],s.outprx,some ⟨r,ls,ad⟩⟩ := by
  simp only [referencePlan, Context.index, hx, r.isLt, ↓reduceDIte, bind, Except.bind, pure,
    Except.pure, Fin.eta]

theorem stepPlan_outside {tr : Addr → Addr} {s : FixState} {idx : Fin maxInstructions} {w : Word}
    {κ : RefKind} (hw : s.m.load32 tr s.inprw = w) (hk : refKind w = some κ)
    (hd : (handlerTarget κ s.inprx w-s.outprx).toNat%4 = (refLow κ w).toNat)
    (hr : ¬s.ctx.isInFixingRange (handlerTarget κ s.inprx w) = true) {p : Plan}
    (hp : stepPlan tr s idx = .ok p) :
    p.forward = none ∧ ∃ v, p.words[0]? = some v ∧
      Outside κ w v (handlerTarget κ s.inprx w-s.outprx) p.words.length := by
  cases κ with
  | branch =>
    rw [stepPlan_branch hw hk] at hp
    exact branchPlan_outside (refKind_cases hk) hd hr hp
  | cond =>
    rw [stepPlan_cond (Or.inl rfl) hw hk] at hp
    exact condPlan_outside (Or.inl rfl) hd hr hp
  | test =>
    rw [stepPlan_cond (Or.inr rfl) hw hk] at hp
    exact condPlan_outside (Or.inr rfl) hd hr hp
  | address =>
    rw [stepPlan_address hw hk] at hp
    exact adrPlan_outside hd hr hp

section Final
variable {tr : Addr → Addr} {slot : Slot tr} {n : ℕ} {src : Source tr n slot} {mach : Machine}
  {κ : RefKind} {w : Word} {i j : ℕ}

theorem loopState_range (hi : i ≤ n) (t : Addr) :
    (loopState tr (src.start mach) i).ctx.isInFixingRange t =
      (src.start mach).ctx.isInFixingRange t := by
  obtain ⟨-,h⟩ := @loop_represents tr slot n src mach i hi
  simp only [Context.isInFixingRange, h.basep, h.endp]
  rfl

theorem loopState_refIndex (hi : i ≤ n) (t : Addr) :
    (loopState tr (src.start mach) i).ctx.getRefInsIndex t = (t-src.rx).toNat/4 := by
  obtain ⟨-,h⟩ := @loop_represents tr slot n src mach i hi
  simp only [Context.getRefInsIndex, h.basep]

/-- In the finished trampoline the word holds the distance to the recorded address. -/
theorem final_reference (hi : i < n) (hj : j < maxInstructions)
    (hw : mach.mem.read32 (wordAt src.rx i) = w) (hk : refKind w = some κ)
    (hr : (src.start mach).ctx.isInFixingRange (handlerTarget κ (wordAt src.rx i) w) = true)
    (hidx : (handlerTarget κ (wordAt src.rx i) w-src.rx).toNat/4 = j)
    (hdir : κ = .branch ∨ i < j) {mach' : Machine} (hjn : j < n)
    (hrun : fixInstructions tr mach src.rw src.rx n slot.rw slot.rx = .ok mach') :
    Encodes κ w (mach'.mem.read32 (loopState tr (src.start mach) i).outprx)
      ((loopPlan tr (src.start mach) ⟨j,hj⟩).ins-(loopState tr (src.start mach) i).outprx) := by
  have hc := src.count
  have him : i < maxInstructions := by omega
  obtain ⟨-,h⟩ := @loop_represents tr slot n src mach i hi.le
  obtain ⟨hp,hv⟩ := @loopPlan_ok tr slot n src mach i hi him
  have hload := (h.load_source hi).trans hw
  rw [← loopState_range hi.le, ← h.inprx] at hr
  obtain ⟨t,encode,ad,hplan,ht,h0,henc,had⟩ :=
    @stepPlan_reference tr _ ⟨i,him⟩ w κ (by rw [h.basep]; exact src.aligned) hload hk hr
  rw [h.inprx, loopState_refIndex hi.le, loopState_refIndex hi.le, hidx] at ht
  rw [hplan, @referencePlan_eq _ ⟨i,him⟩ ⟨j,hj⟩ t
    (by rw [loopState_refIndex hi.le]; exact ht)] at hp
  have hloop := @loopReloc_succ tr slot (src.start mach) i him
  rw [h.outprx]
  by_cases hji : (⟨j,hj⟩:Fin maxInstructions) ≤ ⟨i,him⟩
  · -- a backward reference, or one to itself, is encoded at once
    rw [if_pos hji, Except.ok.injEq] at hp
    have hle : j ≤ i := hji
    have hbranch : κ = .branch := hdir.resolve_right (by omega)
    have hins : (((loopState tr (src.start mach) i).resetCurrentIns ⟨i,him⟩
        (loopState tr (src.start mach) i).outprx).ctx.dat ⟨j,hj⟩).ins =
          (loopPlan tr (src.start mach) ⟨j,hj⟩).ins := by
      -- an instruction that refers to itself finds its address set by the reset
      by_cases he : j = i
      · subst he
        rw [← hp]
        simp [FixState.resetCurrentIns, Context.resetCurrentIns]
      · have hne : (⟨j,hj⟩:Fin maxInstructions) ≠ ⟨i,him⟩ := by
          simpa using he
        rw [← @ins_of_lt tr slot (src.start mach) j i hj (by omega) (by omega), ← h.ins]
        simp [FixState.resetCurrentIns, Context.resetCurrentIns, hne]
    rw [hins] at hp
    have hset := h.settled ⟨i,him⟩ (congrArg Plan.forward hp).symm
      (by rw [← hp]; rfl : (loopPlan tr (src.start mach) ⟨i,him⟩).words[0]? =
        some (encode ((loopPlan tr (src.start mach) ⟨j,hj⟩).ins-
          (loopState tr (src.start mach) i).outprx)))
    rw [← hloop] at hset
    have hread := read_settled (by omega) hset hrun
    rw [Nat.add_zero] at hread
    rw [hread, ← h.outprx]
    exact henc hbranch _
  · -- a forward reference waits for its instruction
    rw [if_neg hji, Except.ok.injEq] at hp
    have hwait := h.waits hv (congrArg Plan.forward hp).symm
      (by rw [← hp]; rfl : (loopPlan tr (src.start mach) ⟨i,him⟩).words[0]? = some (encode 0))
    rw [← hloop] at hwait
    have hlt : i < j := by
      simp only [Fin.mk_le_mk] at hji
      omega
    have hsettle := @Waiting.settle tr slot _ _ _ _ (waiting_of_le hlt le_rfl hwait)
      (loopPlan tr (src.start mach) ⟨j,hj⟩)
    rw [← loopReloc_succ hj] at hsettle
    rw [read_settled (by omega) hsettle hrun, h0]
    exact encodes_fixedWord w _ _ rfl had

end Final

section Code
variable {tr : Addr → Addr} {slot : Slot tr} {n : ℕ} (src : Source tr n slot) (mach : Machine)

/-- The address of the code emitted for instruction `k`. -/
def Source.code (k : ℕ) : Addr := (loopState tr (src.start mach) k).outprx

/-- How many words are emitted before it. -/
def Source.pos (k : ℕ) : ℕ := (loopReloc slot (src.start mach) k).out.length

theorem code_eq {k : ℕ} (hk : k ≤ n) : src.code mach k = wordAt slot.rx (src.pos mach k) :=
  (@loop_represents tr slot n src mach k hk).2.outprx

theorem pos_le {k : ℕ} (hk : k ≤ n) : src.pos mach k ≤ 45 := by
  have h := (@loop_represents tr slot n src mach k hk).2.small
  have hc := src.count
  unfold maxInstructions at hc
  unfold Source.pos
  omega

theorem pos_succ {k : ℕ} (hk : k < maxInstructions) : src.pos mach (k+1) =
    src.pos mach k+(loopPlan tr (src.start mach) ⟨k,hk⟩).words.length := by
  unfold Source.pos
  rw [loopReloc_succ hk, apply_length]

theorem code_succ {k : ℕ} (hk : k < n) (hi : k < maxInstructions) : src.code mach (k+1) =
    wordAt (src.code mach k) (loopPlan tr (src.start mach) ⟨k,hi⟩).words.length := by
  rw [code_eq src mach hk, code_eq src mach hk.le, pos_succ src mach hi, wordAt_add]

theorem pos_mono {k l : ℕ} (hkl : k ≤ l) (hl : l ≤ maxInstructions) :
    src.pos mach k ≤ src.pos mach l := by
  induction l, hkl using Nat.le_induction with
  | base => exact le_rfl
  | succ l hkl ih =>
    rw [pos_succ src mach (by omega)]
    exact (ih (by omega)).trans (Nat.le_add_right _ _)

/-- Within a slot every distance fits every field. -/
theorem wordOffset_slot (κ : RefKind) (a : Addr) {k l : ℕ} (hk : k ≤ 50) (hl : l ≤ 50) :
    wordOffset (((wordAt a k-wordAt a l).sshiftRight 2).setWidth κ.width) =
      wordAt a k-wordAt a l := by
  have hd : (wordAt a k-wordAt a l).toNat%4 = 0 := by
    rw [wordAt_sub]
    bv_omega
  have hi : (wordAt a k-wordAt a l).toInt = 4*(k:ℤ)-4*l := by
    rw [wordAt_sub, BitVec.toInt_eq_toNat_cond]
    split_ifs <;> bv_omega
  have hp : (2:ℤ)^13 ≤ 2^(κ.width-1) := by cases κ <;> decide
  apply displacement_of_range _ (by cases κ <;> decide) (by cases κ <;> decide) hd <;>
    rw [hi] <;> omega

variable {src mach} {κ : RefKind} {w : Word} {i j : ℕ} {mach' : Machine}

/-- A retargeted reference stays inside the slot, at or past the code it refers to. -/
theorem Retargeted.in_slot (hj : j < n)
    (h : Retargeted mach'.mem κ w (src.code mach i) (src.code mach j) (src.code mach (j+1))) :
    ∃ q d, src.pos mach j ≤ q ∧ q ≤ 45 ∧
      reference (decode (mach'.mem.read32 (src.code mach i))) = some (κ,d) ∧
      src.code mach i+d = wordAt slot.rx q+refLow κ w ∧
      ∀ k < q-src.pos mach j, mach'.mem.read32 (wordAt (src.code mach j) k) = aarch64Nop := by
  obtain ⟨pad,d,hpad,hnop,href,hd⟩ := h.target
  have hc := src.count
  have h1 := pos_le src mach hj.le
  have h2 := pos_le src mach hj
  have hm := pos_mono src mach (Nat.le_succ j) (by omega)
  rw [code_eq src mach hj.le, wordAt_add] at hd
  rw [code_eq src mach hj.le, code_eq src mach hj, wordAt_sub] at hpad
  refine ⟨src.pos mach j+pad,d,Nat.le_add_right _ _,?_,href,hd,?_⟩
  · rcases hpad with rfl | hpad
    · exact h1
    · bv_omega
  · intro k hk
    exact hnop k (by omega)

theorem sub_mod_four {t a b : Addr} (ha : a.toNat%4 = 0) (hb : b.toNat%4 = 0) :
    (t-b).toNat%4 = (t-a).toNat%4 := by
  bv_omega

theorem slot_offset {base a t low : Addr} {q : ℕ} (hd : a+(t-a) = wordAt base q+low)
    (hq : q ≤ 45) (hl : low.toNat < 4) : (t-base).toNat = 4*q+low.toNat := by
  unfold wordAt at hd
  bv_omega

theorem slot_skip {base low : Addr} {p q k : ℕ}
    (hd : wordAt base p+(BitVec.ofNat 64 (4*k)+low) = wordAt base q+low) :
    wordAt base (p+k) = wordAt base q := by
  unfold wordAt at hd ⊢
  bv_omega

/-- For a target outside the range the instruction never refers to code of the slot. -/
theorem not_retargeted_of_outside (hi : i < n) (hj : j < n)
    (hw : mach.mem.read32 (wordAt src.rx i) = w) (hk : refKind w = some κ)
    (hr : ¬(src.start mach).ctx.isInFixingRange (handlerTarget κ (wordAt src.rx i) w) = true)
    (hin : (handlerTarget κ (wordAt src.rx i) w-src.rx).toNat < 4*n)
    (hlow : (handlerTarget κ (wordAt src.rx i) w-src.rx).toNat%4 = (refLow κ w).toNat)
    (hdir : κ = .branch ∨ i < j)
    (hrun : fixInstructions tr mach src.rw src.rx n slot.rw slot.rx = .ok mach') :
    ¬Retargeted mach'.mem κ w (src.code mach i) (src.code mach j) (src.code mach (j+1)) := by
  intro h
  obtain ⟨q,d,hq,hq45,href,hd,-⟩ := h.in_slot hj
  obtain ⟨-,hrep⟩ := @loop_represents tr slot n src mach i hi.le
  have hc := src.count
  have him : i < maxInstructions := by omega
  have hcode := code_eq src mach hi.le
  have hload := (hrep.load_source hi).trans hw
  rw [← loopState_range hi.le] at hr
  rw [← hrep.inprx] at hr hin hlow
  have hdist : (handlerTarget κ (loopState tr (src.start mach) i).inprx w-
      (loopState tr (src.start mach) i).outprx).toNat%4 = (refLow κ w).toNat := by
    rw [sub_mod_four src.aligned hrep.outprx_aligned]
    exact hlow
  obtain ⟨hfwd,v,hv,hout⟩ := stepPlan_outside hload hk hdist hr
    (@loopPlan_ok tr slot n src mach i hi him).1
  -- the word is settled at once, so it is the one in the finished trampoline
  have hset := hrep.settled ⟨i,him⟩ hfwd hv
  rw [← loopReloc_succ him] at hset
  have hread := read_settled (by omega) hset hrun
  rw [Nat.add_zero, ← hrep.outprx] at hread
  have hkeep := h.keep
  rw [Source.code, hread] at hkeep href
  have hkv := refKind_of_keep hkeep hk
  rw [reference_decode, hkv, Option.map_some, refLow_of_keep hkeep, Option.some.injEq,
    Prod.mk.injEq] at href
  rcases hout with hnone | ⟨hfield,hnear⟩ | ⟨hκ,k,hk2,hks,hfield⟩
  · rw [hnone] at hkv
    cases hkv
  · -- the target itself is among the source words, which are apart from the slot
    rw [hfield, hnear] at href
    rw [← href.2, Source.code] at hd
    have hoff := src.apart.symm.offset hin
    have hl := refLow_lt κ w
    generalize handlerTarget κ (loopState tr (src.start mach) i).inprx w = t at hd hoff
    rw [slot_offset hd hq45 hl] at hoff
    unfold trampolineSize maxInstructions at hoff
    omega
  · -- a word emitted for this instruction comes before the code of a later one
    have hlt : i < j := hdir.resolve_left hκ
    have hpos := pos_succ src mach him
    have hmono : src.pos mach (i+1) ≤ src.pos mach j := pos_mono src mach hlt (by omega)
    have hoffset : wordOffset (BitVec.ofNat κ.width k) = BitVec.ofNat 64 (4*k) := by
      interval_cases k <;> cases κ <;> rfl
    rw [hfield, hoffset] at href
    rw [← href.2, hcode] at hd
    have he := wordAt_injective slot.rx (by omega) (by omega) (slot_skip hd)
    omega

/-- A plan that records its own code is what the reference then refers to. -/
theorem retargeted_of_starts (hi : i < n) (hj : j < n) (hjm : j < maxInstructions)
    (hk : refKind w = some κ)
    (he : Encodes κ w (mach'.mem.read32 (src.code mach i))
      ((loopPlan tr (src.start mach) ⟨j,hjm⟩).ins-src.code mach i))
    (hs : (loopPlan tr (src.start mach) ⟨j,hjm⟩).Starts (src.code mach j))
    (hrun : fixInstructions tr mach src.rw src.rx n slot.rw slot.rx = .ok mach') :
    Retargeted mach'.mem κ w (src.code mach i) (src.code mach j) (src.code mach (j+1)) := by
  obtain ⟨pad,hins,hpad,hnops⟩ := hs
  obtain ⟨-,h⟩ := @loop_represents tr slot n src mach j hj.le
  have hc := src.count
  have hpos := pos_succ src mach hjm
  have hp1 : src.pos mach (j+1) ≤ 45 := pos_le src mach hj
  have hpi := pos_le src mach hi.le
  have hle : pad ≤ (loopPlan tr (src.start mach) ⟨j,hjm⟩).words.length := by
    rcases hpad with rfl | hpad
    · exact Nat.zero_le _
    · exact hpad.1.le
  have href := he.reference hk
  rw [hins, code_eq src mach hj.le, code_eq src mach hi.le, wordAt_add,
    wordOffset_slot κ slot.rx (by omega) (by omega)] at href
  rw [← code_eq src mach hi.le] at href
  -- the reference may lead to the padding before the code, which is NOPs
  refine ⟨he.keep,pad,_,?_,?_,href,?_⟩
  · rcases hpad with rfl | hpad
    · exact Or.inl rfl
    · refine Or.inr ?_
      have hl := hpad.1
      rw [code_eq src mach hj.le, code_eq src mach hj, wordAt_sub, hpos]
      bv_omega
  · -- the padding stays as it was emitted: no fix-up is recorded on it
    intro k hk
    rcases hpad with rfl | hpad
    · omega
    · have hset := h.settled ⟨j,hjm⟩ hpad.2 (hnops k hk)
      rw [← loopReloc_succ hjm] at hset
      rw [code_eq src mach hj.le, wordAt_add]
      exact read_settled (by omega) hset hrun
  · rw [code_eq src mach hj.le, wordAt_add]
    bv_omega

theorem view_distance (rw rx : Addr) (k l : ℕ) :
    wordAt rw k-wordAt rx l-(wordAt rx k-wordAt rx l) = rw-rx := by
  unfold wordAt
  ring

theorem view_aligned {rw rx : Addr} (h : (rw-rx).toNat%4096 = 0) (k l : ℕ) :
    (wordAt rw k-wordAt rx l).toNat%4 = 0 := by
  unfold wordAt
  bv_omega

theorem add_distance {a b x low : Addr} (h : a+(x+low) = b+low) : x = b-a := by
  calc
    x = a+(x+low)-a-low := by ring
    _ = b-a := by rw [h]; ring

/-- An ADRP recorded at its read-write cursor is referred to correctly exactly when the two views
are as far apart as a multiple of the reach of the field. -/
theorem retargeted_iff_of_recordsRw (hi : i < n) (hj : j < n) (hjm : j < maxInstructions)
    (hpage : (slot.rw-slot.rx).toNat%4096 = 0) (hk : refKind w = some κ)
    (he : Encodes κ w (mach'.mem.read32 (src.code mach i))
      ((loopPlan tr (src.start mach) ⟨j,hjm⟩).ins-src.code mach i))
    (hrw : RecordsRw (loopState tr (src.start mach) j) (mach.mem.read32 (wordAt src.rx j)))
    (hrun : fixInstructions tr mach src.rw src.rx n slot.rw slot.rx = .ok mach') :
    Retargeted mach'.mem κ w (src.code mach i) (src.code mach j) (src.code mach (j+1)) ↔
      (slot.rw-slot.rx).toNat%2^(κ.width+2) = 0 := by
  obtain ⟨-,h⟩ := @loop_represents tr slot n src mach j hj.le
  obtain ⟨hins,hfwd,v,hv,hnop⟩ := adrpPlan_recordsRw hrw
  have hplan : adrpPlan (loopState tr (src.start mach) j) (mach.mem.read32 (wordAt src.rx j)) =
      loopPlan tr (src.start mach) ⟨j,hjm⟩ := by
    have hp := (@loopPlan_ok tr slot n src mach j hj hjm).1
    rw [stepPlan_adrp (h.load_source hj) hrw.1] at hp
    exact Except.ok.inj hp
  rw [hplan] at hins hfwd hv
  have hpos : (loopReloc slot (src.start mach) j).out.length = src.pos mach j := rfl
  rw [h.outprw, hpos] at hins
  have hcj := code_eq src mach hj.le
  have hci := code_eq src mach hi.le
  have hslot := @wordOffset_slot κ slot.rx _ _ ((pos_le src mach hj.le).trans (by decide))
    ((pos_le src mach hi.le).trans (by decide))
  have hw : κ.width+2 ≤ 64 := by cases κ <;> decide
  have href := he.reference hk
  rw [hins, hci] at href
  -- the two distances, to the read-write view of the code and to the code
  have hx := view_distance slot.rw slot.rx (src.pos mach j) (src.pos mach i)
  have hx4 := view_aligned hpage (src.pos mach j) (src.pos mach i)
  generalize wordAt slot.rw (src.pos mach j)-wordAt slot.rx (src.pos mach i) = x at href hx hx4
  constructor
  · intro hret
    obtain ⟨q,d,hq,-,href',hd,hnops⟩ := hret.in_slot hj
    have hset := h.settled ⟨j,hjm⟩ hfwd hv
    rw [← loopReloc_succ hjm] at hset
    have hread := read_settled (by omega) hset hrun
    rw [Nat.add_zero, hpos, ← hcj] at hread
    have hqj : q = src.pos mach j := by
      by_contra hne
      have h0 := hnops 0 (by omega)
      rw [wordAt_zero, hread] at h0
      exact hnop h0
    rw [hci, href, Option.some.injEq, Prod.mk.injEq] at href'
    rw [← href'.2, hqj, hci] at hd
    have hy := add_distance hd
    rw [← hx, ← setWidth_eq_iff hw, ← hy]
    exact (displacement_setWidth x hw hx4).symm
  · intro hD
    rw [← hx, ← setWidth_eq_iff hw] at hD
    rw [quarter_setWidth hw hD, hslot] at href
    refine ⟨he.keep,0,_,Or.inl rfl,by simp,by rw [hci]; exact href,?_⟩
    rw [hcj, hci, wordAt_zero]
    ring

theorem target_offset {rx d : Addr} {i j : ℕ} (hj : j < 2^60)
    (h : (wordAt rx i+d-wordAt rx j).toNat < 4) :
    (wordAt rx i+d-rx).toNat = 4*j+(wordAt rx i+d-wordAt rx j).toNat := by
  unfold wordAt at h ⊢
  bv_omega

theorem target_forward {rx d : Addr} {i j : ℕ} (hij : i < j) (hj : j ≤ 5)
    (h : (wordAt rx i+d-wordAt rx j).toNat < 4) : 4 ≤ d.toNat ∧ d.toNat < 2^20 := by
  unfold wordAt at h
  bv_omega

theorem target_low (rx d : Addr) (i : ℕ) : (wordAt rx i+d-rx).toNat%4 = d.toNat%4 := by
  unfold wordAt
  bv_omega

theorem retargeted_iff (hi : i < n) (hj : j < n) (hpage : (slot.rw-slot.rx).toNat%4096 = 0)
    {d : Addr} (href : reference (decode (mach.mem.read32 (wordAt src.rx i))) = some (κ,d))
    (htarget : (wordAt src.rx i+d-wordAt src.rx j).toNat < 4) (hdir : κ = .branch ∨ i < j)
    (hrun : fixInstructions tr mach src.rw src.rx n slot.rw slot.rx = .ok mach') :
    Retargeted mach'.mem κ (mach.mem.read32 (wordAt src.rx i)) (src.code mach i)
        (src.code mach j) (src.code mach (j+1)) ↔
      (src.start mach).ctx.isInFixingRange (wordAt src.rx i+d) = true ∧
        (RecordsRw (loopState tr (src.start mach) j) (mach.mem.read32 (wordAt src.rx j)) →
          (slot.rw-slot.rx).toNat%2^(κ.width+2) = 0) := by
  have hc := src.count
  unfold maxInstructions at hc
  have hjm : j < maxInstructions := by
    unfold maxInstructions
    omega
  obtain ⟨ht,hk⟩ := @handlerTarget_eq κ (wordAt src.rx i) _ d href
    (hdir.imp_right fun hij => target_forward hij (by omega) htarget)
  have hoff := target_offset (by omega) htarget
  have hlow : (wordAt src.rx i+d-src.rx).toNat%4 =
      (refLow κ (mach.mem.read32 (wordAt src.rx i))).toNat := by
    rw [← reference_low href]
    exact target_low src.rx d i
  -- inside the range the word holds the recorded address; outside it holds the old target
  by_cases hr : (src.start mach).ctx.isInFixingRange (wordAt src.rx i+d) = true
  · have he := @final_reference tr slot n src mach κ _ i j hi hjm rfl hk (by rwa [ht])
      (by rw [ht]; omega) hdir mach' hj hrun
    -- an ADRP records its RW address, all others their RX one
    by_cases hrw : RecordsRw (loopState tr (src.start mach) j) (mach.mem.read32 (wordAt src.rx j))
    · rw [retargeted_iff_of_recordsRw hi hj hjm hpage hk he hrw hrun]
      simp only [hr, hrw, true_and, forall_const]
    · have h := @loop_represents tr slot n src mach j hj.le
      have hs := stepPlan_starts (h.2.load_source hj) (loopPlan_ok mach hj hjm).1 hrw
      have hret := retargeted_of_starts hi hj hjm hk he hs hrun
      simp only [hret, hr, hrw, false_implies, and_self]
  · have hnot := not_retargeted_of_outside hi hj rfl hk (by rwa [ht]) (by rw [ht]; omega)
      (by rwa [ht]) hdir hrun
    simp only [hnot, hr, Bool.false_eq_true, false_and]

end Code

/-- A reference between relocated instructions follows the relocation exactly when its target
passes the range check and is not an ADRP recorded at its read-write cursor, unless the field
cannot tell the two views apart. -/
theorem reference_follows_relocation_iff {tr : Addr → Addr} {slot : Slot tr} {n i j : ℕ}
    (src : Source tr n slot) (mach : Machine) (hpage : (slot.rw-slot.rx).toNat%4096 = 0)
    (hi : i < n) (hj : j < n) {κ : RefKind} {d : Addr}
    (href : reference (decode (mach.mem.read32 (wordAt src.rx i))) = some (κ,d))
    (htarget : (wordAt src.rx i+d-wordAt src.rx j).toNat < 4) (hdir : κ = .branch ∨ i < j) :
    ∃ mach', fixInstructions tr mach src.rw src.rx n slot.rw slot.rx = .ok mach' ∧
      (∀ k ≤ n, fixLoop tr k (src.start mach) = .ok (loopState tr (src.start mach) k)) ∧
      (Retargeted mach'.mem κ (mach.mem.read32 (wordAt src.rx i)) (src.code mach i)
          (src.code mach j) (src.code mach (j+1)) ↔
        (src.start mach).ctx.isInFixingRange (wordAt src.rx i+d) = true ∧
          (RecordsRw (loopState tr (src.start mach) j) (mach.mem.read32 (wordAt src.rx j)) →
            (slot.rw-slot.rx).toNat%2^(κ.width+2) = 0)) := by
  obtain ⟨mach',hrun,-⟩ := fixInstructions_overlay src mach
  exact ⟨mach',hrun,fun k hk => (loop_represents mach hk).1,
    retargeted_iff hi hj hpage href htarget hdir hrun⟩

/-- Read-write views 16 MiB above what they alias. -/
def nearViews (a : Addr) : Addr := a &&& 0x00ffffff

theorem nearViews_aligned : (0x20000:Addr).toNat%4 = 0 := by decide

theorem nearViews_placed : (0x20000:Addr) ≠ 0 := by decide

def nearViewsSlot : Slot nearViews where
  rw := 0x01020000
  rx := 0x20000
  aligned := nearViews_aligned
  aliased := by decide
  executed := by decide
  nonnull := by decide
  placed := nearViews_placed

def nearViewsSource : Source nearViews 2 nearViewsSlot where
  rw := 0x01001000
  rx := 0x1000
  aligned := by decide
  aliased := by decide
  apart := by decide
  count := by decide

def twoWords (w v : Word) : Machine := ⟨overlay (fun _ => 0) 0x1000 [w,v],[]⟩

theorem twoWords_read (w v : Word) :
    (twoWords w v).mem.read32 (wordAt nearViewsSource.rx 0) = w ∧
      (twoWords w v).mem.read32 (wordAt nearViewsSource.rx 1) = v :=
  ⟨read32_overlay _ _ _ (by decide) rfl,read32_overlay _ _ _ (by decide) rfl⟩

/-- A branch over two NOPs keeps its target. -/
theorem reference_follows_relocation_nop :
    ∃ mach', fixInstructions nearViews (twoWords 0x14000001 0xd503201f) 0x01001000 0x1000 2
        0x01020000 0x20000 = .ok mach' ∧
      Retargeted mach'.mem .branch 0x14000001
        (nearViewsSource.code (twoWords 0x14000001 0xd503201f) 0)
        (nearViewsSource.code (twoWords 0x14000001 0xd503201f) 1)
        (nearViewsSource.code (twoWords 0x14000001 0xd503201f) 2) := by
  obtain ⟨h0,h1⟩ := twoWords_read 0x14000001 0xd503201f
  have h := @reference_follows_relocation_iff nearViews nearViewsSlot 2 0 1 nearViewsSource
    (twoWords 0x14000001 0xd503201f) (by decide) (by decide) (by decide) .branch 4
    (by rw [h0]; decide) (by decide) (Or.inl rfl)
  rw [h0, h1] at h
  obtain ⟨mach',hrun,-,hiff⟩ := h
  exact ⟨mach',hrun,hiff.mpr ⟨by decide,fun hrw => absurd hrw.1 (by decide)⟩⟩

/-- A branch to the ADRP after it is sent to the read-write view of its code. -/
theorem reference_to_adrp_lost :
    ∃ mach', fixInstructions nearViews (twoWords 0x14000001 0x90000000) 0x01001000 0x1000 2
        0x01020000 0x20000 = .ok mach' ∧ reference (decode 0x14000001) = some (.branch,4) ∧
      ¬Retargeted mach'.mem .branch 0x14000001
        (nearViewsSource.code (twoWords 0x14000001 0x90000000) 0)
        (nearViewsSource.code (twoWords 0x14000001 0x90000000) 1)
        (nearViewsSource.code (twoWords 0x14000001 0x90000000) 2) := by
  obtain ⟨h0,h1⟩ := twoWords_read 0x14000001 0x90000000
  obtain ⟨mach',hrun,-⟩ := fixInstructions_overlay nearViewsSource (twoWords 0x14000001 0x90000000)
  refine ⟨mach',hrun,by decide,fun hret => ?_⟩
  have hiff := @retargeted_iff nearViews nearViewsSlot 2 nearViewsSource
    (twoWords 0x14000001 0x90000000) .branch 0 1 mach' (by decide) (by decide) (by decide) 4
    (by rw [h0]; decide) (by decide) (Or.inl rfl) hrun
  rw [h0, h1] at hiff
  have hrw : RecordsRw (loopState nearViews (nearViewsSource.start
      (twoWords 0x14000001 0x90000000)) 1) 0x90000000 := by
    refine ⟨by decide,Or.inl ?_⟩
    rw [loopState_range (by decide), (@loop_represents _ _ _ nearViewsSource
      (twoWords 0x14000001 0x90000000) 1 (by decide)).2.inprx]
    decide
  exact absurd ((hiff.mp hret).2 hrw) (by decide)

end Zeldar
