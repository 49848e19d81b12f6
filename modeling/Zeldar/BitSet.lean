import Zeldar.SignedField

namespace Zeldar

/-- The bits from `low` up to, and not including, `high`. -/
structure Mask where
  low : ℕ
  high : ℕ
  deriving DecidableEq, Repr

namespace Mask

/-- `Mask<Low>`: a single bit. -/
def bit (low : ℕ) : Mask := ⟨low,low+1⟩

def count (mask : Mask) : ℕ := mask.high-mask.low

def value (mask : Mask) : BitVec 32 := ((1 <<< mask.count)-1) <<< mask.low

end Mask

/-- `BitsOf<mask>` of a word. -/
def bitsOf (mask : Mask) (data : BitVec 32) : BitVec 32 := (data &&& mask.value) >>> mask.low

/-- The word after `SetBits<mask>(value)`. -/
def setBits (mask : Mask) (data value : BitVec 32) : BitVec 32 :=
  (data &&& ~~~mask.value) ||| ((value <<< mask.low) &&& mask.value)

/-- `SignExtend`, whose result is cut to the field again: a `bits`-wide pattern. -/
def signExtend (bits : ℕ) (value : BitVec 16) : BitVec 16 :=
  ((value.setWidth bits).signExtend 64 &&& ((1 <<< bits)-1)).setWidth 16

theorem Mask.value_eq (lo hi : ℕ) : Mask.value ⟨lo,hi⟩ = fieldMask lo (hi-lo) := by
  apply BitVec.eq_of_getLsbD_eq
  intro i hi'
  have hv : Mask.value ⟨lo,hi⟩ = BitVec.ofNat 32 ((2^(hi-lo)-1) <<< lo) := by
    rw [← Nat.one_shiftLeft]
    rfl
  rw [hv, getLsbD_fieldMask, BitVec.getLsbD_ofNat, Nat.testBit_shiftLeft,
    Nat.testBit_two_pow_sub_one, Bool.and_assoc]
  by_cases h : lo ≤ i
  · simp only [h, decide_true, Bool.true_and, show i-lo < hi-lo ↔ i < lo+(hi-lo) by omega]
  · simp only [h, decide_false, Bool.false_and]

section SetBits
variable {lo hi : ℕ} (d v : BitVec 32)

theorem getLsbD_setBits (h : hi ≤ 32) (k : ℕ) :
    (setBits ⟨lo,hi⟩ d v).getLsbD k =
      if lo ≤ k ∧ k < hi then v.getLsbD (k-lo) else d.getLsbD k := by
  by_cases hk : k < 32
  · rw [setBits, Mask.value_eq]
    simp only [BitVec.getLsbD_or, BitVec.getLsbD_and, BitVec.getLsbD_not, getLsbD_fieldMask,
      BitVec.getLsbD_shiftLeft, hk, decide_true, Bool.true_and]
    by_cases hin : lo ≤ k ∧ k < hi
    · simp only [hin, show k < lo+(hi-lo) by omega, show ¬k < lo by omega, decide_true,
        decide_false, Bool.and_self, Bool.not_true, Bool.not_false, Bool.and_false, Bool.false_or,
        Bool.and_true, Bool.true_and, and_self, ↓reduceIte]
    · have hout : (decide (lo ≤ k) && decide (k < lo+(hi-lo))) = false := by
        simp only [Bool.and_eq_false_iff, decide_eq_false_iff_not]
        omega
      simp only [hout, hin, Bool.not_false, Bool.and_true, Bool.and_false, Bool.or_false,
        ↓reduceIte]
  · rw [if_neg (by omega), BitVec.getLsbD_of_ge _ _ (by omega), BitVec.getLsbD_of_ge _ _ (by omega)]

theorem getLsbD_setBits_of_ne (h : hi ≤ 32) {k : ℕ} (hk : k < lo ∨ hi ≤ k) :
    (setBits ⟨lo,hi⟩ d v).getLsbD k = d.getLsbD k := by
  rw [getLsbD_setBits d v h, if_neg (by omega)]

theorem getLsbD_setBits_bit {k : ℕ} (h : k < 32) :
    (setBits (Mask.bit k) d v).getLsbD k = v.getLsbD 0 := by
  rw [Mask.bit, getLsbD_setBits d v h, if_pos (by omega), Nat.sub_self]

/-- The field that was written reads back the low bits of the value. -/
theorem extract_setBits_self (h : hi ≤ 32) {n : ℕ} (hn : lo+n = hi) :
    (setBits ⟨lo,hi⟩ d v).extractLsb' lo n = v.setWidth n := by
  apply BitVec.eq_of_getLsbD_eq
  intro i hi'
  rw [BitVec.getLsbD_extractLsb', getLsbD_setBits d v h, if_pos (by omega), BitVec.getLsbD_setWidth,
    Nat.add_sub_cancel_left]

theorem getLsbD_setBits_bit_of_ne {k l : ℕ} (h : k < 32) (hl : l ≠ k) :
    (setBits (Mask.bit k) d v).getLsbD l = d.getLsbD l :=
  getLsbD_setBits_of_ne d v h (by omega)

/-- The other fields keep their values. -/
theorem extract_setBits_of_ne (h : hi ≤ 32) {l n : ℕ} (hn : l+n ≤ lo ∨ hi ≤ l) :
    (setBits ⟨lo,hi⟩ d v).extractLsb' l n = d.extractLsb' l n := by
  apply BitVec.eq_of_getLsbD_eq
  intro i hi'
  rw [BitVec.getLsbD_extractLsb', BitVec.getLsbD_extractLsb',
    getLsbD_setBits_of_ne d v h (by omega)]

theorem extract_setBits_bit {k l n : ℕ} (h : k < 32) (hn : l+n ≤ k ∨ k < l) :
    (setBits (Mask.bit k) d v).extractLsb' l n = d.extractLsb' l n :=
  extract_setBits_of_ne d v h (by omega)

theorem setBits_and_of_ne {m : Mask} {t : BitVec 32} (h : m.value &&& t = 0) :
    setBits m d v &&& t = d &&& t := by
  have hnot : ~~~m.value &&& t = t := by
    apply BitVec.eq_of_getLsbD_eq
    intro i hi
    have hb := congrArg (fun x => x.getLsbD i) h
    simp only [BitVec.getLsbD_and, BitVec.ofNat_eq_ofNat, BitVec.getLsbD_zero] at hb
    rw [BitVec.getLsbD_and, BitVec.getLsbD_not, decide_eq_true hi, Bool.true_and]
    cases hv : m.value.getLsbD i
    · rfl
    · rw [hv, Bool.true_and] at hb
      rw [hb]
      rfl
  rw [setBits, BitVec.and_comm, BitVec.and_or_distrib_left, BitVec.and_comm, BitVec.and_assoc, hnot,
    BitVec.and_comm t, BitVec.and_assoc, h]
  simp

/-- Clearing a field takes it out of a mask. -/
theorem setBits_zero_and (m : Mask) (t : BitVec 32) :
    setBits m d 0 &&& t = d &&& (~~~m.value &&& t) := by
  rw [setBits, ← BitVec.and_assoc]
  simp

end SetBits

end Zeldar
