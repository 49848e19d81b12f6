import Zeldar.HookKinds

namespace Zeldar
open A64

section Outside
variable {tr : Addr → Addr} {s : FixState} {idx : Fin maxInstructions} {w : Word} {κ : RefKind}

/-- A distance within the reach of its field, and split into the field and the two low bits. -/
theorem wordOffset_near {n : ℕ} {d low : Addr} (hn : 0 < n) (hn' : n+2 ≤ 64) (hlow : low.toNat < 4)
    (hd : d.toNat%4 = low.toNat) (hlo : -2^(n-1) ≤ d.toInt/4) (hhi : d.toInt/4 < 2^(n-1)) :
    wordOffset ((d.sshiftRight 2).setWidth n)+low = d := by
  have h0 : (d-low).toNat%4 = 0 := by bv_omega
  have hi : (d-low).toInt = d.toInt-low.toNat := by
    have h1 := BitVec.toInt_eq_toNat_cond d
    have h2 := BitVec.toInt_eq_toNat_cond (d-low)
    have h3 : (d-low).toNat = d.toNat-low.toNat := by bv_omega
    split_ifs at h1 h2 <;> omega
  have hm : (d.toInt-low.toNat)/4 = d.toInt/4 := by
    have h1 := BitVec.toInt_eq_toNat_cond d
    split_ifs at h1 <;> omega
  have hs : (d-low).sshiftRight 2 = d.sshiftRight 2 := by
    apply BitVec.eq_of_toInt_eq
    rw [toInt_sshiftRight_two, toInt_sshiftRight_two, hi, hm]
  have h := displacement_of_range (d-low) hn hn' h0 (by rw [hi, hm]; exact hlo)
    (by rw [hi, hm]; exact hhi)
  rw [hs] at h
  rw [wordOffset, h]
  bv_omega

/-- What the first word holds when the target is outside the range: no reference, the target
itself, or one of the words emitted with it. -/
def Outside (κ : RefKind) (w v : Word) (d : Addr) (size : ℕ) : Prop :=
  refKind v = none ∨
    v.extractLsb' κ.lo κ.width = (d.sshiftRight 2).setWidth κ.width ∧
      wordOffset ((d.sshiftRight 2).setWidth κ.width)+refLow κ w = d ∨
    κ ≠ .branch ∧ ∃ k ≤ 2, k < size ∧ v.extractLsb' κ.lo κ.width = BitVec.ofNat κ.width k

/-- What a failed range test says of a distance that `llabs` can negate. -/
theorem toInt_of_near {x b : Addr} (h : ¬b.sle (llabs x) = true) (hb : b.toNat < 2^62)
    (hx : -2^63 < x.toInt) : -(b.toNat:ℤ) < x.toInt ∧ x.toInt < b.toNat := by
  apply (llabs_lt_iff _ _).mp
  have hl : (llabs x).toNat < 2^63 := (llabs_lt_iff x (2^63)).mpr ⟨by omega,by
    have h1 := BitVec.toInt_lt (x := x)
    omega⟩
  rw [BitVec.sle_eq_decide, decide_eq_true_eq, not_le] at h
  have h1 := BitVec.toInt_eq_toNat_cond b
  have h2 := BitVec.toInt_eq_toNat_cond (llabs x)
  split_ifs at h1 h2 <;> omega

theorem near_offset {d b : Addr} (h : ¬b.sle (llabs (d.sshiftRight 2)) = true)
    (hb : b.toNat < 2^(κ.width-1)) (hd : d.toNat%4 = (refLow κ w).toNat) :
    wordOffset ((d.sshiftRight 2).setWidth κ.width)+refLow κ w = d := by
  have hs := toInt_sshiftRight_two d
  have hlt := BitVec.le_toInt d
  have hn : 0 < κ.width ∧ κ.width ≤ 26 := by cases κ <;> decide
  have hp : 2^(κ.width-1) ≤ 2^25 := Nat.pow_le_pow_right (by decide) (by omega)
  obtain ⟨h1,h2⟩ := toInt_of_near h (by omega) (by rw [hs]; norm_num at hlt ⊢; omega)
  have hb' : (b.toNat:ℤ) < 2^(κ.width-1) := by exact_mod_cast hb
  rw [hs] at h1 h2
  exact wordOffset_near hn.1 (by omega) (refLow_lt κ w) hd (by omega) (by omega)

theorem branchPlan_outside {opc : Word} (hopc : opc = 0x14000000 ∨ opc = 0x94000000)
    (hd : (branchTarget s.inprx w-s.outprx).toNat%4 = 0)
    (hr : ¬s.ctx.isInFixingRange (branchTarget s.inprx w) = true) {p : Plan}
    (hp : branchPlan s idx opc w = .ok p) :
    p.forward = none ∧ ∃ v, p.words[0]? = some v ∧
      Outside .branch w v (branchTarget s.inprx w-s.outprx) p.words.length := by
  simp only [branchPlan, pure, Except.pure] at hp
  rw [if_neg hr] at hp
  split_ifs at hp with hfar hb ha ha
  all_goals cases hp
  all_goals try exact ⟨rfl,_,rfl,Or.inl (by decide)⟩
  refine ⟨rfl,_,rfl,Or.inr (Or.inl ⟨?_,near_offset hfar (by decide) hd⟩)⟩
  exact branchWord_imm _ (by rcases hopc with rfl | rfl <;> decide)

theorem condPlan_outside (hκ : κ = .cond ∨ κ = .test)
    (hd : (condTarget s.inprx (~~~κ.mask) w-s.outprx).toNat%4 = (refLow κ w).toNat)
    (hr : ¬s.ctx.isInFixingRange (condTarget s.inprx (~~~κ.mask) w) = true) {p : Plan}
    (hp : condPlan s idx (~~~κ.mask) w = .ok p) :
    p.forward = none ∧ ∃ v, p.words[0]? = some v ∧
      Outside κ w v (condTarget s.inprx (~~~κ.mask) w-s.outprx) p.words.length := by
  simp only [condPlan, pure, Except.pure] at hp
  rw [if_neg hr] at hp
  split_ifs at hp with hfar ha
  all_goals cases hp
  · refine ⟨rfl,_,rfl,Or.inr (Or.inr ⟨?_,2,le_rfl,by simp [absoluteJump, nops],?_⟩)⟩
    · rcases hκ with rfl | rfl <;> decide
    · have h := (@encodes_merge κ w 2 8 (by rcases hκ with rfl | rfl <;> rfl)).field
      have hlo : κ.lo = 5 := by rcases hκ with rfl | rfl <;> rfl
      have he : (2:Word) <<< 5 = 0x40 := by decide
      rw [hlo, he] at h
      rw [BitVec.not_not, BitVec.or_comm, hlo, h]
      rcases hκ with rfl | rfl <;> rfl
  · exact ⟨rfl,_,rfl,Or.inl (by decide)⟩
  · refine ⟨rfl,_,rfl,Or.inr (Or.inl ⟨(encodes_condWord hκ w _).field,near_offset hfar ?_ hd⟩)⟩
    rcases hκ with rfl | rfl <;> decide

/-- The load of a computed address is a literal load. -/
theorem refKind_addressLoad (w : Word) : refKind (0x58000040 ||| (w &&& 0x1f)) = none := by
  have hm (m : Word) (h : 0x1f &&& m = 0) :
      (0x58000040 ||| (w &&& 0x1f)) &&& m = 0x58000040 &&& m := by
    rw [BitVec.and_comm, BitVec.and_or_distrib_left, BitVec.and_comm m (w &&& 0x1f),
      BitVec.and_assoc, h]
    simp [BitVec.and_comm]
  have hff : ¬(0x58000040 ||| (w &&& 0x1f)) &&& 0xff000010 = 0x54000000 := by
    intro h
    have hn := and_of_and h (by decide : _ &&& (0xff000000:Word) = 0xff000000)
    rw [hm _ (by decide)] at hn
    exact absurd hn (by decide)
  unfold refKind
  rw [hm 0xfc000000 (by decide), hm 0x7e000000 (by decide), hm 0x3b000000 (by decide)]
  rw [if_neg (by decide), if_neg (not_or_intro hff (by decide)), if_neg (by decide),
    if_pos (by decide)]

theorem adrWord_field (w : Word) (d : Addr) :
    (adrWord w d).extractLsb' 5 19 = (d.sshiftRight 2).setWidth 19 := by
  have h1 : (0x00ffffff:Word) = fieldMask 0 24 := by decide
  have h2 : (0xff00001f:Word) = ~~~fieldMask 5 19 := by decide
  apply BitVec.eq_of_getLsbD_eq
  intro i hi
  simp only [adrWord, h1, h2, BitVec.getLsbD_extractLsb', hi, decide_true, Bool.true_and,
    BitVec.getLsbD_or, BitVec.getLsbD_and, BitVec.getLsbD_not, getLsbD_fieldMask,
    BitVec.getLsbD_setWidth, BitVec.getLsbD_shiftLeft, BitVec.getLsbD_sshiftRight,
    show 5+i < 32 by omega, show 5+i < 64 by omega, show 5+i < 24 by omega,
    show ¬5+i < 3 by omega, show ¬64 ≤ i by omega,
    show 2+i < 64 by omega, show 5+i-3 = 2+i by omega, Nat.zero_le, Nat.le_add_right, ↓reduceIte,
    decide_false, Bool.not_false, Bool.not_true, Bool.and_true, Bool.and_false, Bool.or_false,
    Bool.and_self, Nat.zero_add]

theorem adrPlan_outside
    (hd : (adrTarget s.inprx w-s.outprx).toNat%4 = (refLow .address w).toNat)
    (hr : ¬s.ctx.isInFixingRange (adrTarget s.inprx w) = true) {p : Plan}
    (hp : adrPlan s idx w = .ok p) :
    p.forward = none ∧ ∃ v, p.words[0]? = some v ∧
      Outside .address w v (adrTarget s.inprx w-s.outprx) p.words.length := by
  simp only [adrPlan, pure, Except.pure] at hp
  rw [if_neg hr] at hp
  split_ifs at hp with hfar ha
  all_goals cases hp
  · exact ⟨rfl,_,rfl,Or.inl (refKind_addressLoad w)⟩
  · exact ⟨rfl,_,rfl,Or.inl (by decide)⟩
  · refine ⟨rfl,_,rfl,Or.inr ?_⟩
    generalize adrTarget s.inprx w-s.outprx = d at hfar hd ⊢
    have hle := BitVec.le_toInt d
    by_cases hmin : -2^63 < d.toInt
    · obtain ⟨h1,h2⟩ := toInt_of_near hfar (by decide) hmin
      have hb : (0xfffff:Addr).toNat = 0xfffff := rfl
      rw [hb] at h1 h2
      exact Or.inl ⟨adrWord_field w d,wordOffset_near (by decide) (by decide) (refLow_lt _ w) hd
        (by norm_num [RefKind.width]; omega) (by norm_num [RefKind.width]; omega)⟩
    · -- the one distance that `llabs` leaves negative passes the range test
      have he : d = BitVec.intMin 64 := by
        apply BitVec.eq_of_toInt_eq
        rw [BitVec.toInt_intMin]
        norm_num at hle hmin ⊢
        omega
      subst he
      exact Or.inr ⟨by decide,0,by decide,by simp,(adrWord_field w _).trans rfl⟩

end Outside

end Zeldar
