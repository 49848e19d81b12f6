import Zeldar.BitSet
import Mathlib.Tactic.IntervalCases

namespace Zeldar

/-- An integer type of the language: its width and whether it is signed. -/
structure IntType where
  width : ℕ
  signed : Bool
  deriving DecidableEq, Repr

namespace IntType
variable (t : IntType)

def s16 : IntType := ⟨16,true⟩

/-- The number a bit pattern of the type stands for. -/
def valueOf (x : BitVec t.width) : ℤ := if t.signed then x.toInt else x.toNat

/-- Conversion to an integer type of width `n`. -/
def convert (n : ℕ) (x : BitVec t.width) : BitVec n :=
  if t.signed then x.signExtend n else x.setWidth n

/-- `SignExtend<bits>` at the type: the value goes through a bit-field of type
`intmax_t`, and the mask that cuts the result is an `int`. -/
def signExtend (bits : ℕ) (value : BitVec t.width) : BitVec t.width :=
  let extended := (t.convert 64 value).setWidth bits
  (extended.signExtend 64 &&& (((1#32 <<< bits)-1).signExtend 64)).setWidth t.width

end IntType

/-- The masks an instruction word is built with. -/
structure Mask.Wf (mask : Mask) : Prop where
  low_lt : mask.low < mask.high
  high_le : mask.high ≤ 32
  count_lt : mask.count < 31

/-- A read of a field as a two's complement number. -/
def signedBitsOf (mask : Mask) (data : BitVec 32) : ℤ :=
  ((bitsOf mask data).setWidth mask.count).toInt

section Bits
variable {m : Mask} (h : m.Wf) (d v : BitVec 32)
include h

theorem Mask.Wf.low_add_count : m.low+m.count = m.high := by
  have hlt := h.low_lt
  rw [Mask.count]
  omega

theorem getLsbD_mask (k : ℕ) : m.value.getLsbD k = decide (m.low ≤ k ∧ k < m.high) := by
  have hhi := h.high_le
  have hm : m.low+(m.high-m.low) = m.high := h.low_add_count
  have hv : m.value = fieldMask m.low (m.high-m.low) := Mask.value_eq m.low m.high
  rw [hv, getLsbD_fieldMask, hm, ← Bool.decide_and, ← Bool.decide_and]
  congr 1
  apply propext
  constructor
  · exact fun hk => ⟨hk.1.2,hk.2⟩
  · exact fun hk => ⟨⟨by omega,hk.1⟩,hk.2⟩

theorem getLsbD_bitsOf (k : ℕ) :
    (bitsOf m d).getLsbD k = (decide (k < m.count) && d.getLsbD (m.low+k)) := by
  have hlc := h.low_add_count
  rw [bitsOf, BitVec.getLsbD_ushiftRight, BitVec.getLsbD_and, getLsbD_mask h, Bool.and_comm]
  simp only [Nat.le_add_right, true_and, ← hlc, Nat.add_lt_add_iff_left]

theorem getLsbD_setBits_mask (k : ℕ) :
    (setBits m d v).getLsbD k =
      if m.low ≤ k ∧ k < m.high then v.getLsbD (k-m.low) else d.getLsbD k :=
  getLsbD_setBits d v h.high_le k

/-- A read after a set returns the value, cut to the field. -/
theorem bitsOf_setBits : bitsOf m (setBits m d v) = (v.setWidth m.count).setWidth 32 := by
  have hlc := h.low_add_count
  apply BitVec.eq_of_getLsbD_eq
  intro k hk
  rw [getLsbD_bitsOf h, getLsbD_setBits_mask h, BitVec.getLsbD_setWidth, BitVec.getLsbD_setWidth,
    decide_eq_true hk, Bool.true_and, Nat.add_sub_cancel_left]
  by_cases hc : k < m.count
  · rw [if_pos (by omega)]
  · simp only [hc, decide_false, Bool.false_and]

theorem bitsOf_setBits_toNat :
    (bitsOf m (setBits m d v)).toNat = v.toNat%2^(m.high-m.low) := by
  have hlt : v.toNat%2^m.count < 2^32 := (Nat.mod_le _ _).trans_lt v.isLt
  rw [bitsOf_setBits h, BitVec.toNat_setWidth, BitVec.toNat_setWidth, Nat.mod_eq_of_lt hlt,
    Mask.count]

theorem setBits_bitsOf : setBits m d (bitsOf m d) = d := by
  have hlc := h.low_add_count
  apply BitVec.eq_of_getLsbD_eq
  intro k _
  rw [getLsbD_setBits_mask h, getLsbD_bitsOf h]
  by_cases hk : m.low ≤ k ∧ k < m.high
  · rw [if_pos hk, decide_eq_true (by omega), Bool.true_and, Nat.add_sub_cancel' hk.1]
  · rw [if_neg hk]

theorem setBits_setBits (w : BitVec 32) : setBits m (setBits m d v) w = setBits m d w := by
  apply BitVec.eq_of_getLsbD_eq
  intro k _
  rw [getLsbD_setBits_mask h, getLsbD_setBits_mask h, getLsbD_setBits_mask h]
  by_cases hk : m.low ≤ k ∧ k < m.high
  · rw [if_pos hk, if_pos hk]
  · rw [if_neg hk, if_neg hk, if_neg hk]

theorem setBits_comm {m' : Mask} (h' : m'.Wf) (hd : m.value &&& m'.value = 0) (w : BitVec 32) :
    setBits m' (setBits m d v) w = setBits m (setBits m' d w) v := by
  apply BitVec.eq_of_getLsbD_eq
  intro k _
  -- no bit belongs to both fields
  have hk : ¬((m.low ≤ k ∧ k < m.high) ∧ m'.low ≤ k ∧ k < m'.high) := by
    have hb := congrArg (fun x => x.getLsbD k) hd
    simpa only [BitVec.getLsbD_and, getLsbD_mask h, getLsbD_mask h', BitVec.ofNat_eq_ofNat,
      BitVec.getLsbD_zero, ← Bool.decide_and, decide_eq_false_iff_not] using hb
  rw [getLsbD_setBits_mask h', getLsbD_setBits_mask h, getLsbD_setBits_mask h,
    getLsbD_setBits_mask h']
  by_cases hm : m.low ≤ k ∧ k < m.high
  · rw [if_pos hm, if_neg (fun hm' => hk ⟨hm,hm'⟩), if_pos hm]
  · rw [if_neg hm, if_neg hm]

end Bits

section SignExtend
variable (t : IntType)

theorem IntType.convert_eq (n : ℕ) (x : BitVec t.width) :
    t.convert n x = BitVec.ofInt n (t.valueOf x) := by
  rw [convert, valueOf]
  cases t.signed
  · rw [if_neg Bool.false_ne_true, if_neg Bool.false_ne_true]
    rw [BitVec.ofInt_natCast, BitVec.ofNat_toNat]
  · rfl

/-- The bit-field keeps the low bits of the value, and the mask cuts the bits
that its sign filled. -/
theorem IntType.signExtend_eq {bits : ℕ} (hb : bits < 31) (x : BitVec t.width) :
    t.signExtend bits x = ((BitVec.ofInt bits (t.valueOf x)).setWidth 64).setWidth t.width := by
  rw [signExtend, t.convert_eq, setWidth_ofInt (by omega)]
  congr 1
  have hmask : ((1#32 <<< bits)-1).signExtend 64 = (BitVec.allOnes bits).setWidth 64 := by
    interval_cases bits <;> rfl
  apply BitVec.eq_of_getLsbD_eq
  intro i hi
  simp only [hmask, BitVec.getLsbD_and, BitVec.getLsbD_signExtend, BitVec.getLsbD_setWidth,
    BitVec.getLsbD_allOnes, hi, decide_true, Bool.true_and]
  by_cases hib : i < bits
  · rw [if_pos hib, decide_eq_true hib, Bool.and_true]
  · rw [decide_eq_false hib, Bool.and_false, BitVec.getLsbD_of_ge _ _ (by omega)]

/-- What the field gets of a value that `SignExtend` returned, whether the type
is narrower than the field or not. -/
theorem IntType.convert_signExtend {bits : ℕ} (hb : bits < 31) (x : BitVec t.width) :
    (t.convert 32 (t.signExtend bits x)).setWidth bits = BitVec.ofInt bits (t.valueOf x) := by
  obtain hw | hw := Nat.lt_or_ge t.width bits
  · -- the cut does not reach the type, and the result is the value itself
    have hx : t.signExtend bits x = x := by
      have hself : x = BitVec.ofInt t.width (t.valueOf x) := by
        rw [← t.convert_eq, convert, BitVec.signExtend_eq, BitVec.setWidth_eq, ite_self]
      rw [t.signExtend_eq hb, BitVec.setWidth_setWidth_of_le _ (by omega), setWidth_ofInt hw.le,
        ← hself]
    rw [hx, t.convert_eq, setWidth_ofInt (by omega)]
  · have hlow : ∀ y : BitVec t.width, (t.convert 32 y).setWidth bits = y.setWidth bits := by
      intro y
      apply BitVec.eq_of_getLsbD_eq
      intro i hi
      rw [convert]
      cases t.signed
      · rw [if_neg Bool.false_ne_true, BitVec.setWidth_setWidth_of_le _ (by omega)]
      · rw [if_pos rfl, BitVec.getLsbD_setWidth, BitVec.getLsbD_setWidth,
          BitVec.getLsbD_signExtend, decide_eq_true (show i < 32 by omega), Bool.true_and,
          if_pos (by omega)]
    rw [hlow, t.signExtend_eq hb, BitVec.setWidth_setWidth_of_le _ hw,
      BitVec.setWidth_setWidth_of_le _ (by omega), BitVec.setWidth_eq]

/-- A value that fits the field survives the cut, the set and the read. -/
theorem signedBitsOf_setBits {m : Mask} (h : m.Wf) (d : BitVec 32) (x : BitVec t.width)
    (hlo : -2^(m.count-1) ≤ t.valueOf x) (hhi : t.valueOf x < 2^(m.count-1)) :
    signedBitsOf m (setBits m d (t.convert 32 (t.signExtend m.count x))) = t.valueOf x := by
  have hpos : m.count-1+1 = m.count := by
    have hlt := h.low_lt
    rw [Mask.count]
    omega
  have hfits := toInt_ofInt_of_reach hlo hhi
  have hle : m.count ≤ 32 := h.count_lt.le.trans (by omega)
  rw [hpos] at hfits
  rw [signedBitsOf, bitsOf_setBits h, BitVec.setWidth_setWidth_of_le _ hle, BitVec.setWidth_eq,
    t.convert_signExtend h.count_lt, hfits]

end SignExtend

/-- The accessors of a field are a lens on the word: reads after sets return the
value cut to the field, sets of what was read do nothing, the last set counts,
no set leaks, and the sets of disjoint fields commute. A signed value that fits
comes back through `SignExtend`. -/
theorem bit_fields_are_lenses {m : Mask} (h : m.Wf) (d v w : BitVec 32) :
    (bitsOf m (setBits m d v)).toNat = v.toNat%2^(m.high-m.low) ∧
    setBits m d (bitsOf m d) = d ∧
    setBits m (setBits m d v) w = setBits m d w ∧
    (∀ k, m.value.getLsbD k = false → (setBits m d v).getLsbD k = d.getLsbD k) ∧
    (∀ m' : Mask, m'.Wf → m.value &&& m'.value = 0 →
      setBits m' (setBits m d v) w = setBits m (setBits m' d w) v) ∧
    ∀ (t : IntType) (x : BitVec t.width),
      -2^(m.count-1) ≤ t.valueOf x → t.valueOf x < 2^(m.count-1) →
      signedBitsOf m (setBits m d (t.convert 32 (t.signExtend m.count x))) = t.valueOf x := by
  refine ⟨bitsOf_setBits_toNat h d v,setBits_bitsOf h d,setBits_setBits h d v w,?_,
    fun m' h' hd => setBits_comm h d v h' hd w,fun t x => signedBitsOf_setBits t h d x⟩
  intro k hk
  rw [getLsbD_mask h, decide_eq_false_iff_not] at hk
  rw [getLsbD_setBits_mask h, if_neg hk]

theorem bit_fields_are_lenses_imm9 :
    let d : BitVec 32 := 0xf8400000
    (bitsOf ⟨12,21⟩ (setBits ⟨12,21⟩ d 0xfffffff8)).toNat = 0x1f8 ∧
    setBits ⟨0,5⟩ (setBits ⟨12,21⟩ d 0xfffffff8) 31 =
      setBits ⟨12,21⟩ (setBits ⟨0,5⟩ d 31) 0xfffffff8 ∧
    signedBitsOf ⟨12,21⟩ (setBits ⟨12,21⟩ d
      (IntType.s16.convert 32 (IntType.s16.signExtend 9 0xfff8#16))) = -8 := by
  have h := @bit_fields_are_lenses ⟨12,21⟩ ⟨by decide,by decide,by decide⟩ 0xf8400000 0xfffffff8 31
  exact ⟨h.1,h.2.2.2.2.1 ⟨0,5⟩ ⟨by decide,by decide,by decide⟩ (by decide),
    h.2.2.2.2.2 IntType.s16 0xfff8#16 (by decide) (by decide)⟩

end Zeldar
