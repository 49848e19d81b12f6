import Zeldar.A64Decode
import Zeldar.HookTarget

namespace Zeldar
open A64

section Plans
variable {tr : Addr → Addr} {s : FixState} {idx : Fin maxInstructions} {w : Word}

theorem refKind_cases {κ : RefKind} (h : refKind w = some κ) :
    match κ with
    | .branch => w &&& 0xfc000000 = 0x14000000 ∨ w &&& 0xfc000000 = 0x94000000
    | .cond => ¬(w &&& 0xfc000000 = 0x14000000 ∨ w &&& 0xfc000000 = 0x94000000) ∧
        (w &&& 0xff000010 = 0x54000000 ∨ w &&& 0x7e000000 = 0x34000000)
    | .test => ¬(w &&& 0xfc000000 = 0x14000000 ∨ w &&& 0xfc000000 = 0x94000000) ∧
        ¬(w &&& 0xff000010 = 0x54000000 ∨ w &&& 0x7e000000 = 0x34000000) ∧
        w &&& 0x7e000000 = 0x36000000
    | .address => ¬(w &&& 0xfc000000 = 0x14000000 ∨ w &&& 0xfc000000 = 0x94000000) ∧
        ¬(w &&& 0xff000010 = 0x54000000 ∨ w &&& 0x7e000000 = 0x34000000) ∧
        ¬w &&& 0x7e000000 = 0x36000000 ∧ w &&& 0x9f000000 = 0x10000000 := by
  -- the handlers are asked in this order, and each is asked only if those before said no
  unfold refKind at h
  by_cases h1 : w &&& 0xfc000000 = 0x14000000 ∨ w &&& 0xfc000000 = 0x94000000
  · rw [if_pos h1] at h
    cases h
    exact h1
  rw [if_neg h1] at h
  by_cases h2 : w &&& 0xff000010 = 0x54000000 ∨ w &&& 0x7e000000 = 0x34000000
  · rw [if_pos h2] at h
    cases h
    exact ⟨h1,h2⟩
  rw [if_neg h2] at h
  by_cases h3 : w &&& 0x7e000000 = 0x36000000
  · rw [if_pos h3] at h
    cases h
    exact ⟨h1,h2,h3⟩
  rw [if_neg h3] at h
  by_cases h4 : w &&& 0x3b000000 = 0x18000000
  · rw [if_pos h4] at h
    cases h
  rw [if_neg h4] at h
  by_cases h5 : w &&& 0x9f000000 = 0x10000000
  · rw [if_pos h5] at h
    cases h
    exact ⟨h1,h2,h3,h5⟩
  · rw [if_neg h5] at h
    cases h

/-- The bit that tells a branch from its negation, which the handler's comparisons spell out. -/
theorem and_7f_iff {c : Word} (hc : c &&& 0x7e000000 = c) :
    w &&& 0x7f000000 = c ∨ w &&& 0x7f000000 = c ||| 0x01000000 ↔ w &&& 0x7e000000 = c := by
  constructor
  · rintro (h | h)
    · rw [and_of_and h (by decide), hc]
    · rw [and_of_and h (by decide), BitVec.and_comm, BitVec.and_or_distrib_left, BitVec.and_comm,
        hc]
      simp
  · intro h
    have hs : w &&& 0x7f000000 = (w &&& 0x7e000000) ||| (w &&& 0x01000000) := by
      rw [← BitVec.and_or_distrib_left]
      rfl
    have ht : (0x01000000:Word) = BitVec.twoPow 32 24 := by decide
    have hb : w &&& 0x01000000 = if w.getLsbD 24 then 0x01000000 else 0 := by
      rw [ht]
      exact BitVec.and_twoPow w 24
    rw [hs, h, hb]
    split_ifs
    · exact Or.inr rfl
    · exact Or.inl (by simp)

theorem condLmask_eq (w : Word) : condLmask w =
    if w &&& 0xff000010 = 0x54000000 ∨ w &&& 0x7e000000 = 0x34000000 then
      some (~~~RefKind.cond.mask)
    else if w &&& 0x7e000000 = 0x36000000 then some (~~~RefKind.test.mask) else none := by
  have h34 := @and_7f_iff w 0x34000000 (by decide)
  have h36 := @and_7f_iff w 0x36000000 (by decide)
  have hm1 : ~~~RefKind.cond.mask = 0xff00001f := by decide
  have hm2 : ~~~RefKind.test.mask = 0xfff8001f := by decide
  have e34 : (0x34000000 ||| 0x01000000:Word) = 0x35000000 := by decide
  have e36 : (0x36000000 ||| 0x01000000:Word) = 0x37000000 := by decide
  rw [e34] at h34
  rw [e36] at h36
  simp only [condLmask, h34, h36, hm1, hm2]
  split_ifs <;> simp_all

theorem stepPlan_branch (hw : s.m.load32 tr s.inprw = w) (h : refKind w = some .branch) :
    stepPlan tr s idx = branchPlan s idx (w &&& 0xfc000000) w := by
  have hb := refKind_cases h
  simp only at hb
  subst hw
  unfold stepPlan instructionPlan
  dsimp only
  rw [if_pos hb]

theorem stepPlan_cond {κ : RefKind} (hκ : κ = .cond ∨ κ = .test)
    (hw : s.m.load32 tr s.inprw = w) (h : refKind w = some κ) :
    stepPlan tr s idx = condPlan s idx (~~~κ.mask) w := by
  have hc := refKind_cases h
  subst hw
  unfold stepPlan instructionPlan
  dsimp only
  rcases hκ with rfl | rfl
  · simp only at hc
    rw [if_neg hc.1, condLmask_eq, if_pos hc.2]
  · simp only at hc
    rw [if_neg hc.1, condLmask_eq, if_neg hc.2.1, if_pos hc.2.2]

/-- Words of the address handler are none of the words tested before it. -/
theorem litMask_of_address (h : w &&& 0x1f000000 = 0x10000000) :
    litMask w = none ∧ ¬w &&& 0xff000000 = 0xd8000000 := by
  have hno (m c : Word) (hm : m &&& 0x1f000000 = 0x1f000000) (hc : c &&& 0x1f000000 ≠ 0x10000000) :
      ¬w &&& m = c := by
    intro hl
    have hn := and_of_and hl hm
    rw [h] at hn
    exact hc hn.symm
  refine ⟨?_,hno _ _ (by decide) (by decide)⟩
  simp only [litMask, hno 0xbf000000 0x18000000 (by decide) (by decide),
    hno 0x3f000000 0x1c000000 (by decide) (by decide),
    hno 0xff000000 0x98000000 (by decide) (by decide), ↓reduceIte]

theorem stepPlan_address (hw : s.m.load32 tr s.inprw = w) (h : refKind w = some .address) :
    stepPlan tr s idx = adrPlan s idx w := by
  have hc := refKind_cases h
  simp only at hc
  subst hw
  have hl := litMask_of_address (and_of_and hc.2.2.2 (by decide : _ &&& (0x1f000000:Word) = _))
  unfold stepPlan instructionPlan loadlitPlan pcreladdrPlan
  dsimp only
  rw [if_neg hc.1, condLmask_eq, if_neg hc.2.1, if_neg hc.2.2.1, if_neg hl.2, hl.1,
    if_pos hc.2.2.2]
  rfl

/-- No earlier handler takes the word of an address computation. -/
theorem instructionPlan_address (hw : s.m.load32 tr s.inprw = w)
    (h : w &&& 0x1f000000 = 0x10000000) :
    instructionPlan tr s idx = pcreladdrPlan s idx w := by
  have h1 : ¬(w &&& 0xfc000000 = 0x14000000 ∨ w &&& 0xfc000000 = 0x94000000) :=
    not_or_intro (and_ne_of_and h 0x1c000000 (by decide) (by decide) (by decide))
      (and_ne_of_and h 0x1c000000 (by decide) (by decide) (by decide))
  have h2 : ¬(w &&& 0xff000010 = 0x54000000 ∨ w &&& 0x7e000000 = 0x34000000) :=
    not_or_intro (and_ne_of_and h 0x1f000000 (by decide) (by decide) (by decide))
      (and_ne_of_and h 0x1e000000 (by decide) (by decide) (by decide))
  have h3 : ¬w &&& 0x7e000000 = 0x36000000 :=
    and_ne_of_and h 0x1e000000 (by decide) (by decide) (by decide)
  subst hw
  have hl := litMask_of_address h
  unfold instructionPlan loadlitPlan
  dsimp only
  rw [if_neg h1, condLmask_eq, if_neg h2, if_neg h3]
  dsimp only
  rw [if_neg hl.2, hl.1]
  rfl

theorem stepPlan_adrp (hw : s.m.load32 tr s.inprw = w) (h : w &&& 0x9f000000 = 0x90000000) :
    stepPlan tr s idx = .ok (adrpPlan s w) := by
  have h4 : ¬w &&& 0x9f000000 = 0x10000000 := by
    rw [h]
    decide
  unfold stepPlan
  rw [instructionPlan_address hw (and_of_and h (by decide : _ &&& (0x1f000000:Word) = _)),
    pcreladdrPlan, if_neg h4, if_pos h]

end Plans

section Recorded
variable {tr : Addr → Addr}

/-- The plan records the address of its first word, or of the one after its alignment NOPs. -/
def Plan.Starts (p : Plan) (a : Addr) : Prop :=
  ∃ pad, p.ins = wordAt a pad ∧ (pad = 0 ∨ pad < p.words.length ∧ p.forward = none) ∧
    ∀ k < pad, p.words[k]? = some aarch64Nop

/-- An ADRP at the cursor of `s` whose handler emits no alignment NOP. -/
def RecordsRw (s : FixState) (w : Word) : Prop :=
  w &&& 0x9f000000 = 0x90000000 ∧
    (s.ctx.isInFixingRange (adrpTarget s.inprx w) = true ∨ wordAt s.outprx 2 &&& 7 = 0)

instance (s : FixState) (w : Word) : Decidable (RecordsRw s w) := inferInstanceAs (Decidable (_ ∧ _))

theorem adrpPlan_recordsRw {s : FixState} {w : Word} (h : RecordsRw s w) :
    (adrpPlan s w).ins = s.outprw ∧ (adrpPlan s w).forward = none ∧
      ∃ v, (adrpPlan s w).words[0]? = some v ∧ v ≠ aarch64Nop := by
  obtain ⟨hw,hc⟩ := h
  have hne : w ≠ aarch64Nop := by
    rintro rfl
    exact absurd hw (by decide)
  have hload : 0x58000040 ||| (w &&& 0x1f) ≠ aarch64Nop := by
    intro he
    have hb := congrArg (fun v => v.getLsbD 27) he
    have h1 : (0x58000040:Word).getLsbD 27 = true := rfl
    have h2 : aarch64Nop.getLsbD 27 = false := rfl
    simp only [BitVec.getLsbD_or, h1, h2, Bool.true_or] at hb
    cases hb
  unfold adrpPlan
  dsimp only
  by_cases hr : s.ctx.isInFixingRange (adrpTarget s.inprx w) = true
  · rw [if_pos hr]
    exact ⟨rfl,rfl,w,rfl,hne⟩
  · rw [if_neg hr, if_pos (hc.resolve_left hr)]
    exact ⟨rfl,rfl,_,rfl,hload⟩

theorem starts_at (words : List Word) (a : Addr) (f : Option Forward) :
    Plan.Starts ⟨words,a,f⟩ a := ⟨0,(wordAt_zero a).symm,Or.inl rfl,by simp⟩

theorem starts_after_nops {words : List Word} (pad : ℕ) (a : Addr) (hw : words ≠ []) :
    Plan.Starts ⟨nops pad++words,wordAt a pad,none⟩ a := by
  have hl := List.length_pos_iff.mpr hw
  refine ⟨pad,rfl,Or.inr ⟨?_,rfl⟩,?_⟩
  · rw [List.length_append, nops_length]
    omega
  · intro k hk
    rw [List.getElem?_append_left (by rwa [nops_length]), nops,
      List.getElem?_replicate_of_lt hk]

theorem referencePlan_starts {s : FixState} {idx : Fin maxInstructions} {t : Addr}
    {encode : Addr → Word} {ls : ℕ} {ad : Word} {p : Plan}
    (h : referencePlan s idx t encode ls ad = .ok p) : p.Starts s.outprx := by
  unfold referencePlan at h
  cases hx : Context.index (s.ctx.getRefInsIndex t) with
  | error e =>
    rw [hx] at h
    cases h
  | ok r =>
    simp only [hx, bind, Except.bind, pure, Except.pure] at h
    split_ifs at h <;> cases h <;> exact starts_at ..

theorem branchPlan_starts {s : FixState} {idx : Fin maxInstructions} {opc w : Word} {p : Plan}
    (h : branchPlan s idx opc w = .ok p) : p.Starts s.outprx := by
  simp only [branchPlan, pure, Except.pure] at h
  by_cases hr : s.ctx.isInFixingRange (branchTarget s.inprx w) = true
  · rw [if_pos hr] at h
    exact referencePlan_starts h
  rw [if_neg hr] at h
  split_ifs at h <;> cases h
  all_goals first
    | exact starts_at ..
    | exact starts_after_nops _ _ (by simp [absoluteJump])

theorem condPlan_starts {s : FixState} {idx : Fin maxInstructions} {lmask w : Word} {p : Plan}
    (h : condPlan s idx lmask w = .ok p) : p.Starts s.outprx := by
  simp only [condPlan, pure, Except.pure] at h
  by_cases hr : s.ctx.isInFixingRange (condTarget s.inprx lmask w) = true
  · rw [if_pos hr] at h
    exact referencePlan_starts h
  rw [if_neg hr] at h
  split_ifs at h <;> cases h <;> exact starts_at ..

theorem adrPlan_starts {s : FixState} {idx : Fin maxInstructions} {w : Word} {p : Plan}
    (h : adrPlan s idx w = .ok p) : p.Starts s.outprx := by
  simp only [adrPlan, pure, Except.pure] at h
  by_cases hr : s.ctx.isInFixingRange (adrTarget s.inprx w) = true
  · rw [if_pos hr] at h
    exact referencePlan_starts h
  rw [if_neg hr] at h
  split_ifs at h <;> cases h
  all_goals first
    | exact starts_at ..
    | exact starts_after_nops _ _ (by simp [addressLoad])

theorem litPlan_starts {s : FixState} {mask w : Word} {faligned : BitVec 64} {p : Plan}
    (h : litPlan tr s mask faligned w = .ok p) : p.Starts s.outprx := by
  simp only [litPlan, bind, Except.bind, pure, Except.pure] at h
  split_ifs at h
  · split at h
    · cases h
    · cases h
      rw [List.append_assoc]
      exact starts_after_nops _ _ (by simp)
  · split at h
    · cases h
    · cases h
      exact starts_after_nops _ _ (by simp)

/-- Only an ADRP records anything else. -/
theorem stepPlan_starts {s : FixState} {idx : Fin maxInstructions} {w : Word} {p : Plan}
    (hw : s.m.load32 tr s.inprw = w) (h : stepPlan tr s idx = .ok p) (hr : ¬RecordsRw s w) :
    p.Starts s.outprx := by
  subst hw
  unfold stepPlan instructionPlan at h
  dsimp only at h
  -- the handlers in the order in which `__fix_instructions` tries them
  by_cases hb : s.m.load32 tr s.inprw &&& 0xfc000000 = 0x14000000 ∨
      s.m.load32 tr s.inprw &&& 0xfc000000 = 0x94000000
  · rw [if_pos hb] at h
    exact branchPlan_starts h
  rw [if_neg hb] at h
  cases hc : condLmask (s.m.load32 tr s.inprw) with
  | some lmask =>
    rw [hc] at h
    exact condPlan_starts h
  | none =>
    rw [hc] at h
    unfold loadlitPlan at h
    by_cases hp : s.m.load32 tr s.inprw &&& 0xff000000 = 0xd8000000
    · rw [if_pos hp] at h
      cases h
      exact starts_at ..
    rw [if_neg hp] at h
    cases hl : litMask (s.m.load32 tr s.inprw) with
    | some k =>
      rw [hl] at h
      exact litPlan_starts h
    | none =>
      rw [hl] at h
      unfold pcreladdrPlan at h
      simp only [Option.map_none, Option.none_or] at h
      split_ifs at h with ha hd
      · exact adrPlan_starts h
      · -- an ADRP that emits an alignment NOP records its load behind it
        injection h with h
        subst h
        unfold RecordsRw at hr
        simp only [adrpPlan, not_and, not_or] at hr ⊢
        obtain ⟨h1,h2⟩ := hr hd
        rw [if_neg h1, if_neg h2]
        exact starts_after_nops 1 _ (by simp [addressLoad])
      · cases h
        exact starts_at ..

end Recorded

end Zeldar
