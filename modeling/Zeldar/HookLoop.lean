import Zeldar.HookRelocate

namespace Zeldar

theorem and_eq_zero_of_mod {x m : BitVec 64} {b : ℕ} (hx : x.toNat%2^b = 0)
    (hm : m.toNat < 2^b) : x &&& m = 0 := by
  apply BitVec.eq_of_toNat_eq
  rw [BitVec.toNat_and, ← Nat.mod_eq_of_lt hm, ← Nat.and_two_pow_sub_one_eq_mod m.toNat,
    Nat.and_comm m.toNat, ← Nat.and_assoc, Nat.and_two_pow_sub_one_eq_mod, hx, Nat.zero_and]
  rfl

/-- A padding condition that fails within three words ends the loop there. -/
theorem padCount_ok {more : Addr → Bool} {n : ℕ} {a : Addr}
    (h : ∃ k ≤ n, more (wordAt a k) = false) : ∃ pad ≤ n, padCount more n a = .ok pad := by
  induction n generalizing a with
  | zero =>
    obtain ⟨k,hk,hm⟩ := h
    obtain rfl : k = 0 := by omega
    rw [wordAt_zero] at hm
    exact ⟨0,le_rfl,by simp [padCount, hm]⟩
  | succ n ih =>
    by_cases hm : more a = true
    · obtain ⟨k,hk,hmk⟩ := h
      cases k with
      | zero => simp [hm] at hmk
      | succ k =>
        rw [Nat.add_comm k 1, ← wordAt_add] at hmk
        obtain ⟨pad,hp,he⟩ := ih ⟨k,by omega,hmk⟩
        exact ⟨pad+1,by omega,by simp [padCount, hm, he, Except.map]⟩
    · exact ⟨0,by omega,by simp [padCount, hm]⟩

/-- The cursor reaches any alignment up to sixteen within three words. -/
theorem padCount_cursor {a : Addr} (ha : a.toNat%4 = 0) (m : BitVec 64) (hm : m.toNat < 16) :
    ∃ pad ≤ 3, padCount (fun a => wordAt a 2 &&& m != 0) 3 a = .ok pad := by
  apply padCount_ok
  refine ⟨(16-(wordAt a 2).toNat%16)%16/4,by omega,?_⟩
  have hmod : (wordAt (wordAt a ((16-(wordAt a 2).toNat%16)%16/4)) 2).toNat%2^4 = 0 := by
    unfold wordAt
    bv_omega
  simp only [and_eq_zero_of_mod hmod hm, bne_self_eq_false]

theorem sshiftRight_two_mod (x : BitVec 64) : (x.sshiftRight 2).toNat%2^2 = x.toNat/4%4 := by
  have h := toInt_sshiftRight_two x
  have hx := BitVec.toInt_eq_toNat_cond x
  have hy := BitVec.toInt_eq_toNat_cond (x.sshiftRight 2)
  split_ifs at hx hy <;> omega

/-- The word distance to a target reaches any alignment up to four within three words. -/
theorem padCount_distance (target a : Addr) (m : BitVec 64) (hm : m.toNat < 4) :
    ∃ pad ≤ 3, padCount (fun a => (target-a).sshiftRight 2 &&& m != 0) 3 a = .ok pad := by
  apply padCount_ok
  refine ⟨(target-a).toNat/4%4,by omega,?_⟩
  have hmod : ((target-wordAt a ((target-a).toNat/4%4)).sshiftRight 2).toNat%2^2 = 0 := by
    rw [sshiftRight_two_mod]
    unfold wordAt
    bv_omega
  simp only [and_eq_zero_of_mod hmod hm, bne_self_eq_false]

/-- A target that passes the range check is one of the `n` words. -/
theorem offset_of_range {c : Context} {n : ℕ} {t : Addr} (hn : n ≤ maxInstructions)
    (he : c.endp = wordAt c.basep n) (ht : c.isInFixingRange t = true) :
    (t-c.basep).toNat < 4*n := by
  unfold maxInstructions at hn
  simp only [Context.isInFixingRange, Bool.and_eq_true, BitVec.sle_eq_decide,
    BitVec.slt_eq_decide, decide_eq_true_eq, he] at ht
  have h1 := BitVec.toInt_eq_toNat_cond c.basep
  have h2 := BitVec.toInt_eq_toNat_cond t
  have h3 := BitVec.toInt_eq_toNat_cond (wordAt c.basep n)
  have h4 : (wordAt c.basep n).toNat = (c.basep.toNat+4*n)%2^64 := by
    unfold wordAt
    bv_omega
  have h5 : (t-c.basep).toNat = (t.toNat+2^64-c.basep.toNat)%2^64 := by bv_omega
  split_ifs at h1 h2 h3 <;> omega

/-- Rounding a target down to its word does not change its index. -/
theorem refIndex_align {c : Context} (hb : c.basep.toNat%4 = 0) (t : Addr) :
    c.getRefInsIndex (t &&& ~~~3) = c.getRefInsIndex t := by
  have ht := roundDown_toNat t 3 2 rfl
  simp only [Context.getRefInsIndex]
  generalize t &&& ~~~3 = x at ht
  bv_omega

/-- The loop stands at word `i` of the `n` words from `rx`, with its output cursor at a word. -/
structure Located (rx : Addr) (n i : ℕ) (s : FixState) : Prop where
  basep : s.ctx.basep = rx
  endp : s.ctx.endp = wordAt rx n
  inprx : s.inprx = wordAt rx i
  base_aligned : rx.toNat%4 = 0
  outprx_aligned : s.outprx.toNat%4 = 0
  count : n ≤ maxInstructions

section Plans
variable {tr : Addr → Addr} {rx : Addr} {n i : ℕ} {s : FixState} (h : Located rx n i s)

include h in
theorem Located.range {t : Addr} (ht : s.ctx.isInFixingRange t = true) : (t-rx).toNat < 4*n := by
  have he : s.ctx.endp = wordAt s.ctx.basep n := by rw [h.endp, h.basep]
  rw [← h.basep]
  exact offset_of_range h.count he ht

variable (hi : i < maxInstructions)
include h

theorem Located.index : Context.index (s.ctx.getRefInsIndex s.inprx) = .ok ⟨i,hi⟩ := by
  have hr : s.ctx.getRefInsIndex s.inprx = i := by
    unfold maxInstructions at hi
    simp only [Context.getRefInsIndex, h.inprx, h.basep, wordAt]
    bv_omega
  simp only [Context.index, hr, hi, ↓reduceDIte]

/-- A target of the range has an index, so the reference is encoded or recorded. -/
theorem Located.referencePlan_ok {t : Addr} (encode : Addr → Word) (ls : ℕ) (ad : Word)
    (ht : (t-rx).toNat < 4*n) :
    ∃ p, referencePlan s ⟨i,hi⟩ t encode ls ad = .ok p ∧ p.Valid ⟨i,hi⟩ := by
  have hc := h.count
  have hidx : s.ctx.getRefInsIndex t < maxInstructions := by
    simp only [Context.getRefInsIndex, h.basep]
    omega
  simp only [referencePlan, Context.index, hidx, ↓reduceDIte, bind, Except.bind, pure, Except.pure]
  split_ifs with hle
  · exact ⟨_,rfl,by simp,by simp⟩
  · refine ⟨_,rfl,by simp,?_⟩
    intro f hf
    cases hf
    exact ⟨lt_of_not_ge hle,rfl⟩

theorem Located.branchPlan_ok (opc ins : Word) :
    ∃ p, branchPlan s ⟨i,hi⟩ opc ins = .ok p ∧ p.Valid ⟨i,hi⟩ := by
  simp only [branchPlan, pure, Except.pure]
  by_cases hr : s.ctx.isInFixingRange (branchTarget s.inprx ins) = true
  · simp only [hr, ↓reduceIte]
    exact h.referencePlan_ok hi _ _ _ (h.range hr)
  · simp only [hr, Bool.false_eq_true, ↓reduceIte]
    split_ifs <;> exact ⟨_,rfl,by simp [nops, absoluteJump],by simp⟩

theorem Located.condPlan_ok (lmask ins : Word) :
    ∃ p, condPlan s ⟨i,hi⟩ lmask ins = .ok p ∧ p.Valid ⟨i,hi⟩ := by
  simp only [condPlan, pure, Except.pure]
  by_cases hr : s.ctx.isInFixingRange (condTarget s.inprx lmask ins) = true
  · simp only [hr, ↓reduceIte]
    exact h.referencePlan_ok hi _ _ _ (h.range hr)
  · simp only [hr, Bool.false_eq_true, ↓reduceIte]
    split_ifs <;> exact ⟨_,rfl,by simp [nops, absoluteJump],by simp⟩

theorem Located.adrPlan_ok (ins : Word) :
    ∃ p, adrPlan s ⟨i,hi⟩ ins = .ok p ∧ p.Valid ⟨i,hi⟩ := by
  simp only [adrPlan, pure, Except.pure]
  by_cases hr : s.ctx.isInFixingRange (adrTarget s.inprx ins) = true
  · simp only [hr, ↓reduceIte]
    apply h.referencePlan_ok
    have ht := h.range hr
    have ha := roundDown_toNat (adrTarget s.inprx ins) 3 2 rfl
    have hs := h.base_aligned
    generalize adrTarget s.inprx ins &&& ~~~3 = x at ha ⊢
    bv_omega
  · simp only [hr, Bool.false_eq_true, ↓reduceIte]
    split_ifs <;> exact ⟨_,rfl,by simp [nops, addressLoad],by simp⟩

omit h in
theorem adrpPlan_valid (ins : Word) : (adrpPlan s ins).Valid ⟨i,hi⟩ := by
  unfold adrpPlan
  dsimp only
  by_cases hr : s.ctx.isInFixingRange (adrpTarget s.inprx ins) = true
  · rw [if_pos hr]
    exact ⟨by simp,by simp⟩
  · rw [if_neg hr]
    split_ifs <;> exact ⟨by simp [nops, addressLoad],by simp⟩

omit h in
theorem litMask_aligned {ins mask : Word} {faligned : BitVec 64}
    (hl : litMask ins = some (mask,faligned)) : faligned = 3 ∨ faligned = 7 ∨ faligned = 15 := by
  unfold litMask at hl
  split_ifs at hl <;> cases hl <;> simp

theorem Located.litPlan_ok {ins mask : Word} {faligned : BitVec 64}
    (hl : litMask ins = some (mask,faligned)) :
    ∃ p, litPlan tr s mask faligned ins = .ok p ∧ p.Valid ⟨i,hi⟩ := by
  have hf : faligned.toNat < 16 ∧ (faligned >>> 2).toNat < 4 ∧ (faligned.toNat+1)/4 ≤ 4 := by
    rcases litMask_aligned hl with rfl | rfl | rfl <;> decide
  simp only [litPlan, pure, Except.pure]
  split_ifs
  · obtain ⟨pad,hp,he⟩ := padCount_cursor h.outprx_aligned faligned hf.1
    rw [he]
    refine ⟨_,rfl,?_,by simp⟩
    simp only [nops, List.length_append, List.length_replicate, List.length_cons, List.length_nil,
      List.length_map, List.length_range]
    omega
  · obtain ⟨pad,hp,he⟩ := padCount_distance (litTarget s.inprx ins) s.outprx _ hf.2.1
    rw [he]
    refine ⟨_,rfl,?_,by simp⟩
    simp only [nops, List.length_append, List.length_replicate, List.length_singleton]
    omega

/-- What one iteration performs: the plan of the instruction, or else the copy of its word. -/
def stepPlan (tr : Addr → Addr) (s : FixState) (idx : Fin maxInstructions) : Except Fault Plan :=
  match instructionPlan tr s idx with
  | some plan => plan
  | none => .ok ⟨[s.m.load32 tr s.inprw],s.outprx,none⟩

theorem Located.stepPlan_ok : ∃ p, stepPlan tr s ⟨i,hi⟩ = .ok p ∧ p.Valid ⟨i,hi⟩ := by
  unfold stepPlan instructionPlan
  dsimp only
  by_cases hb : s.m.load32 tr s.inprw &&& 0xfc000000 = 0x14000000 ∨
      s.m.load32 tr s.inprw &&& 0xfc000000 = 0x94000000
  · rw [if_pos hb]
    exact h.branchPlan_ok hi _ _
  rw [if_neg hb]
  cases condLmask (s.m.load32 tr s.inprw) with
  | some lmask => exact h.condPlan_ok hi _ _
  | none =>
    unfold loadlitPlan
    by_cases hp : s.m.load32 tr s.inprw &&& 0xff000000 = 0xd8000000
    · rw [if_pos hp]
      exact ⟨_,rfl,by simp,by simp⟩
    rw [if_neg hp]
    cases hl : litMask (s.m.load32 tr s.inprw) with
    | some k => exact h.litPlan_ok hi hl
    | none =>
      unfold pcreladdrPlan
      simp only [Option.map_none, Option.none_or]
      split_ifs with ha hd
      · exact h.adrPlan_ok hi _
      · exact ⟨_,rfl,adrpPlan_valid hi _⟩
      · exact ⟨_,rfl,by simp,by simp⟩

end Plans

section Step
variable {tr : Addr → Addr} {slot : Slot tr} {n i : ℕ} {src : Source tr n slot} {m : Mem}
  {s : FixState} {r : Reloc} (h : Represents slot n src m i s r)
include h

theorem Represents.outprx_aligned : s.outprx.toNat%4 = 0 := by
  rw [h.outprx]
  exact wordAt_aligned slot.aligned _

theorem Represents.located : Located src.rx n i s :=
  ⟨h.basep,h.endp,h.inprx,src.aligned,h.outprx_aligned,src.count⟩

theorem Represents.range {t : Addr} (ht : s.ctx.isInFixingRange t = true) :
    (t-src.rx).toNat < 4*n :=
  h.located.range ht

variable (hi : i < maxInstructions)

theorem Represents.index : Context.index (s.ctx.getRefInsIndex s.inprx) = .ok ⟨i,hi⟩ :=
  h.located.index hi

/-- One iteration of the loop returns, and applies its plan. -/
theorem Represents.step (hn : i < n) :
    ∃ p s', stepPlan tr s ⟨i,hi⟩ = .ok p ∧ p.Valid ⟨i,hi⟩ ∧ fixInstruction tr s = .ok s' ∧
      Represents slot n src m (i+1) s' (r.apply slot ⟨i,hi⟩ p) := by
  obtain ⟨p,hp,hv⟩ := @Located.stepPlan_ok tr _ _ _ _ h.located hi
  refine ⟨p,?_⟩
  rw [fixInstruction_eq s (h.index hi)]
  have hplan := hp
  unfold stepPlan at hplan
  cases hq : instructionPlan tr s ⟨i,hi⟩ with
  | some plan =>
    simp only [hq] at hplan
    subst hplan
    exact ⟨_,hp,hv,rfl,h.perform hi p hv⟩
  | none =>
    simp only [hq, Except.ok.injEq] at hplan
    subst hplan
    have hc := h.copyInstruction hi hn
    rw [← h.load_source hn] at hc
    exact ⟨_,hp,hv,rfl,hc⟩

end Step

section Run
variable {tr : Addr → Addr}

theorem fixLoop_add (a b : ℕ) (s : FixState) :
    fixLoop tr (a+b) s = (fixLoop tr a s).bind (fixLoop tr b) := by
  induction a generalizing s with
  | zero => rw [Nat.zero_add]; rfl
  | succ a ih =>
    rw [Nat.add_right_comm, fixLoop, fixLoop]
    cases fixInstruction tr s with
    | error e => rfl
    | ok s' => exact ih s'

theorem fixLoop_succ (k : ℕ) (s : FixState) :
    fixLoop tr (k+1) s = (fixLoop tr k s).bind (fixInstruction tr) := by
  rw [fixLoop_add]
  congr 1
  funext t
  simp only [fixLoop, bind, Except.bind]
  cases fixInstruction tr t <;> rfl

/-- The state before instruction `k` is relocated. -/
def loopState (tr : Addr → Addr) (start : FixState) (k : ℕ) : FixState :=
  match fixLoop tr k start with
  | .ok s => s
  | .error _ => start

/-- The plan performed for instruction `k`. -/
def loopPlan (tr : Addr → Addr) (start : FixState) (k : Fin maxInstructions) : Plan :=
  match stepPlan tr (loopState tr start k) k with
  | .ok p => p
  | .error _ => ⟨[],0,none⟩

/-- The list of words before instruction `k` is relocated. -/
def loopReloc {tr : Addr → Addr} (slot : Slot tr) (start : FixState) : ℕ → Reloc
  | 0 => Reloc.start
  | k+1 =>
    if hk : k < maxInstructions then
      (loopReloc slot start k).apply slot ⟨k,hk⟩ (loopPlan tr start ⟨k,hk⟩)
    else loopReloc slot start k

variable {slot : Slot tr} {n : ℕ} {src : Source tr n slot}

/-- The state `__fix_instructions` starts its loop from. -/
def Source.start (src : Source tr n slot) (mach : Machine) : FixState :=
  fixStart mach src.rw src.rx n slot.rw slot.rx

/-- The loop reaches every instruction, and has emitted the words of the plans before it. -/
theorem loop_represents (mach : Machine) {k : ℕ} (hk : k ≤ n) :
    fixLoop tr k (src.start mach) = .ok (loopState tr (src.start mach) k) ∧
      Represents slot n src mach.mem k (loopState tr (src.start mach) k)
        (loopReloc slot (src.start mach) k) := by
  induction k with
  | zero => exact ⟨rfl,represents_start src mach⟩
  | succ k ih =>
    obtain ⟨hs,hr⟩ := ih (by omega)
    have hc := src.count
    have hi : k < maxInstructions := by omega
    obtain ⟨p,s',hp,-,hf,hr'⟩ := hr.step hi (by omega)
    have hs' : fixLoop tr (k+1) (src.start mach) = .ok s' := by
      rw [fixLoop_succ, hs]
      exact hf
    have hp' : loopPlan tr (src.start mach) ⟨k,hi⟩ = p := by
      simp only [loopPlan, hp]
    have hstate : loopState tr (src.start mach) (k+1) = s' := by
      simp only [loopState, hs']
    rw [hstate]
    refine ⟨hs',?_⟩
    simp only [loopReloc, hi, ↓reduceDIte, hp']
    exact hr'

theorem loopPlan_ok (mach : Machine) {k : ℕ} (hk : k < n) (hi : k < maxInstructions) :
    stepPlan tr (loopState tr (src.start mach) k) ⟨k,hi⟩ =
        .ok (loopPlan tr (src.start mach) ⟨k,hi⟩) ∧
      (loopPlan tr (src.start mach) ⟨k,hi⟩).Valid ⟨k,hi⟩ := by
  obtain ⟨p,hp,hv⟩ :=
    @Located.stepPlan_ok tr _ _ _ _ (@loop_represents tr slot n src mach k hk.le).2.located hi
  have hp' : loopPlan tr (src.start mach) ⟨k,hi⟩ = p := by
    simp only [loopPlan, hp]
  rw [hp']
  exact ⟨hp,hv⟩

/-- An iteration whose word is one of a handler performs the plan of that handler. -/
theorem loopState_perform (mach : Machine) {k : ℕ} (hk : k < n) (hi : k < maxInstructions)
    {plan : Except Fault Plan}
    (hplan : instructionPlan tr (loopState tr (src.start mach) k) ⟨k,hi⟩ = some plan) :
    plan = .ok (loopPlan tr (src.start mach) ⟨k,hi⟩) ∧
      loopState tr (src.start mach) (k+1) = (loopState tr (src.start mach) k).perform tr ⟨k,hi⟩
        (loopPlan tr (src.start mach) ⟨k,hi⟩) := by
  obtain ⟨hloop,h⟩ := @loop_represents tr slot n src mach k hk.le
  obtain ⟨hloop',-⟩ := @loop_represents tr slot n src mach (k+1) hk
  have hp := (@loopPlan_ok tr slot n src mach k hk hi).1
  simp only [stepPlan, hplan] at hp
  refine ⟨hp,?_⟩
  rw [fixLoop_succ, hloop] at hloop'
  have hstep : fixInstruction tr (loopState tr (src.start mach) k) =
      .ok (loopState tr (src.start mach) (k+1)) := hloop'
  rw [fixInstruction_eq _ (h.index hi), hplan, hp] at hstep
  dsimp only at hstep
  rw [Except.map, Except.ok.injEq] at hstep
  exact hstep.symm

/-- The words that jump to `target` from `a`: `B` within its reach, and otherwise a jump
through a literal that is aligned to eight bytes. -/
def jumpWords (target a : Addr) : List Word :=
  if (0x1ffffff:BitVec 64).ule (llabs ((target-a).sshiftRight 2)) then
    nops (if wordAt a 2 &&& 7 = 0 then 0 else 1)++absoluteJump target
  else [branchWord 0x14000000 (target-a)]

theorem jumpWords_length (target a : Addr) : (jumpWords target a).length ≤ 5 := by
  unfold jumpWords
  split_ifs <;> simp [nops, absoluteJump]

theorem fixJumpBack_eq (s : FixState) :
    fixJumpBack tr s = s.emitWords tr (jumpWords s.inprx s.outprx) := by
  have hlimit : (0x03ffffff:BitVec 64) >>> 1 = 0x1ffffff := by decide
  simp only [fixJumpBack, jumpWords, hlimit]
  by_cases hf : (0x1ffffff:BitVec 64).ule (llabs ((s.inprx-s.outprx).sshiftRight 2)) = true
  · by_cases hp : wordAt s.outprx 2 &&& 7 = 0
    · simp only [hf, hp, ne_eq, not_true_eq_false, ↓reduceIte, putAbsoluteJump_advance]
      rfl
    · simp only [hf, hp, ne_eq, not_false_eq_true, ↓reduceIte, putAbsoluteJump_advance,
        emitNop_emitWords]
  · simp only [hf, Bool.false_eq_true, ↓reduceIte, emitWords_cons, emitWords_nil, branchWord]
    rfl

/-- `__fix_instructions` returns, and lays over the slot the relocated words and the jump back. -/
theorem fixInstructions_overlay (src : Source tr n slot) (mach : Machine) :
    ∃ mach', fixInstructions tr mach src.rw src.rx n slot.rw slot.rx = .ok mach' ∧
      mach'.mem = overlay mach.mem slot.rx ((loopReloc slot (src.start mach) n).out++
        jumpWords (wordAt src.rx n)
          (wordAt slot.rx (loopReloc slot (src.start mach) n).out.length)) := by
  obtain ⟨hs,hr⟩ := @loop_represents tr slot n src mach n le_rfl
  generalize loopState tr (src.start mach) n = s at hs hr
  generalize loopReloc slot (src.start mach) n = r at hr ⊢
  unfold Source.start at hs
  have hc := src.count
  have hsmall := hr.small
  have hj := jumpWords_length (wordAt src.rx n) (wordAt slot.rx r.out.length)
  have hmem := emitWords_overlay (jumpWords (wordAt src.rx n) (wordAt slot.rx r.out.length)) r.out s
    hr.mem hr.outprw (by unfold trampolineSize maxInstructions at *; omega)
  have hrun : fixInstructions tr mach src.rw src.rx n slot.rw slot.rx =
      let done := s.emitWords tr (jumpWords (wordAt src.rx n) (wordAt slot.rx r.out.length))
      .ok (done.m.record (.clearCache slot.rw (done.outprx-slot.rx))) := by
    simp only [fixInstructions, hs, bind, Except.bind, show ¬maxInstructions < n by omega,
      ↓reduceIte, fixJumpBack_eq, hr.inprx, hr.outprx]
    rfl
  exact ⟨_,hrun,hmem⟩

end Run

end Zeldar
