import Mathlib.Data.BitVec
import Mathlib.Tactic.Ring

namespace Zeldar

/-- The `n` bits of a word from bit `lo`. -/
def fieldMask (lo n : ℕ) : BitVec 32 := (BitVec.allOnes n).setWidth 32 <<< lo

theorem getLsbD_fieldMask (lo n i : ℕ) :
    (fieldMask lo n).getLsbD i = (decide (i < 32) && decide (lo ≤ i) && decide (i < lo+n)) := by
  rw [fieldMask, BitVec.getLsbD_shiftLeft, BitVec.getLsbD_setWidth, BitVec.getLsbD_allOnes]
  by_cases h1 : i < 32 <;> by_cases h2 : lo ≤ i <;> by_cases h3 : i < lo+n <;>
    simp [h1, h2, h3] <;> omega

/-- A value merged into a zero field is read back from it. -/
theorem extract_merge {lo n : ℕ} (v w : BitVec 32) (h : lo+n ≤ 32)
    (hw : w &&& fieldMask lo n = 0) :
    (w ||| (v <<< lo &&& fieldMask lo n)).extractLsb' lo n = v.setWidth n := by
  apply BitVec.eq_of_getLsbD_eq
  intro i hi
  have hm : (fieldMask lo n).getLsbD (lo+i) = true := by
    rw [getLsbD_fieldMask]
    simp only [decide_eq_true_eq, Bool.and_eq_true]
    omega
  have hz : w.getLsbD (lo+i) = false := by
    have hb := congrArg (fun x => x.getLsbD (lo+i)) hw
    simpa only [BitVec.getLsbD_and, hm, Bool.and_true, BitVec.ofNat_eq_ofNat,
      BitVec.getLsbD_zero] using hb
  simp only [BitVec.getLsbD_extractLsb', BitVec.getLsbD_or, BitVec.getLsbD_and, hm, hz, hi,
    BitVec.getLsbD_shiftLeft, BitVec.getLsbD_setWidth, decide_true, Bool.true_and, Bool.false_or,
    Bool.and_true, show lo+i < 32 by omega, show ¬lo+i < lo by omega, decide_false, Bool.not_false,
    Nat.add_sub_cancel_left]

/-- Merging into a field leaves the other bits alone. -/
theorem merge_keep (v w : BitVec 32) (lo n : ℕ) :
    (w ||| (v &&& fieldMask lo n)) &&& ~~~fieldMask lo n = w &&& ~~~fieldMask lo n := by
  rw [BitVec.and_comm, BitVec.and_or_distrib_left, BitVec.and_comm v, ← BitVec.and_assoc,
    BitVec.and_comm (~~~fieldMask lo n) (fieldMask lo n)]
  simp [BitVec.and_comm]

/-- `llabs` of C on a 64-bit pattern; the least value is its own result. -/
def llabs (x : BitVec 64) : BitVec 64 := if x.msb then -x else x

theorem llabs_lt_iff (x : BitVec 64) (n : ℕ) :
    (llabs x).toNat < n ↔ -(n:ℤ) < x.toInt ∧ x.toInt < n := by
  have hx := x.isLt
  cases hm : x.msb
  · have hi := BitVec.toInt_eq_toNat_of_msb hm
    simp only [llabs, hm, Bool.false_eq_true, ↓reduceIte]
    omega
  · have hi := BitVec.toInt_eq_neg_toNat_neg_of_msb_true hm
    have hp : 0 < (-x).toNat := by
      have hlt := BitVec.toInt_neg_of_msb_true hm
      omega
    simp only [llabs, hm, ↓reduceIte]
    omega

theorem toInt_sshiftRight_two (x : BitVec 64) : (x.sshiftRight 2).toInt = x.toInt/4 := by
  rw [BitVec.toInt_sshiftRight, Int.shiftRight_eq_div_pow]
  norm_num

theorem toNat_bmod_eq {n : ℕ} (x : BitVec 64) (hn : n ≤ 64) :
    (x.toNat:ℤ).bmod (2^n) = x.toInt.bmod (2^n) := by
  rw [BitVec.toInt_eq_toNat_bmod]
  exact (Int.bmod_bmod_of_dvd (by exact_mod_cast Nat.pow_dvd_pow 2 hn)).symm

/-- Truncation keeps every value that the narrow field can hold. -/
theorem toInt_setWidth_of_range {n : ℕ} (x : BitVec 64) (hn : 0 < n) (hn' : n ≤ 64)
    (hlo : -2^(n-1) ≤ x.toInt) (hhi : x.toInt < 2^(n-1)) : (x.setWidth n).toInt = x.toInt := by
  have hp : (2:ℤ)^n = 2*2^(n-1) := by
    rw [← pow_succ']
    congr 1
    omega
  rw [BitVec.toInt_setWidth, toNat_bmod_eq x hn']
  apply Int.bmod_eq_of_le
  · push_cast
    omega
  · push_cast
    omega

theorem four_dvd_toInt (x : BitVec 64) (hx : x.toNat%4 = 0) : 4*(x.toInt/4) = x.toInt := by
  have h := BitVec.toInt_eq_toNat_cond x
  split_ifs at h <;> omega

/-- A displacement whose quarter fits the field is recovered from the field. -/
theorem displacement_of_range {n : ℕ} (x : BitVec 64) (hn : 0 < n) (hn' : n+2 ≤ 64)
    (hx : x.toNat%4 = 0) (hlo : -2^(n-1) ≤ x.toInt/4) (hhi : x.toInt/4 < 2^(n-1)) :
    ((x.sshiftRight 2).setWidth n++0#2).signExtend 64 = x := by
  apply BitVec.eq_of_toInt_eq
  have hs := toInt_sshiftRight_two x
  rw [BitVec.toInt_signExtend_of_le hn', BitVec.toInt_append_zero,
    toInt_setWidth_of_range _ hn (by omega) (by omega) (by omega), hs]
  exact four_dvd_toInt x hx

/-- Whatever its size, a displacement is recovered from the field modulo the field's reach. -/
theorem displacement_setWidth {n : ℕ} (x : BitVec 64) (hn : n+2 ≤ 64) (hx : x.toNat%4 = 0) :
    (((x.sshiftRight 2).setWidth n++0#2).signExtend 64).setWidth (n+2) = x.setWidth (n+2) := by
  apply BitVec.eq_of_getLsbD_eq
  intro i hi
  simp only [BitVec.getLsbD_setWidth, hi, decide_true, Bool.true_and, BitVec.getLsbD_signExtend,
    show i < 64 by omega, ↓reduceIte, BitVec.getLsbD_append]
  by_cases h2 : i < 2
  · have hb : x.getLsbD i = false := by
      rw [BitVec.getLsbD, Nat.testBit_eq_decide_div_mod_eq]
      have hi2 : i = 0 ∨ i = 1 := by omega
      rcases hi2 with rfl | rfl <;> simp <;> omega
    simp [h2, hb]
  · simp only [h2, ↓reduceIte, show i-2 < n by omega, decide_true, Bool.true_and,
      BitVec.getLsbD_sshiftRight, show ¬64 ≤ i-2 by omega, decide_false, Bool.not_false,
      show 2+(i-2) = i by omega, show i < 64 by omega]

/-- Equal modulo the reach of a field, two distances leave the same in it. -/
theorem quarter_setWidth {m : ℕ} {x y : BitVec 64} (hm : m+2 ≤ 64)
    (h : x.setWidth (m+2) = y.setWidth (m+2)) :
    (x.sshiftRight 2).setWidth m = (y.sshiftRight 2).setWidth m := by
  apply BitVec.eq_of_getLsbD_eq
  intro i hi
  have hb := congrArg (fun v => v.getLsbD (i+2)) h
  simp only [BitVec.getLsbD_setWidth, show i+2 < m+2 by omega, decide_true, Bool.true_and] at hb
  simp only [BitVec.getLsbD_setWidth, BitVec.getLsbD_sshiftRight, hi, show ¬64 ≤ i by omega,
    show i+2 < 64 by omega, ↓reduceIte, decide_true, decide_false, Bool.not_false, Bool.true_and,
    Nat.add_comm 2 i, hb]

/-- A sign that is extended to 32 bits only leaves a carry of 2^32 in 64 bits. -/
theorem signExtend_half {n : ℕ} (x : BitVec n) (hn : n ≤ 32) :
    (x.signExtend 32).setWidth 64 = x.signExtend 64+if x.msb then 0x100000000#64 else 0#64 := by
  have hx := x.isLt
  have hp : 2^n ≤ 2^32 := Nat.pow_le_pow_right (by decide) hn
  apply BitVec.eq_of_toNat_eq
  rw [BitVec.toNat_add, BitVec.toNat_setWidth_of_le (by decide), BitVec.toNat_signExtend,
    BitVec.toNat_signExtend, BitVec.toNat_setWidth_of_le hn, BitVec.toNat_setWidth_of_le (by omega)]
  cases x.msb <;> simp <;> omega

/-- With the carry the sum is another address. -/
theorem add_carry_eq_iff (a b : BitVec 64) (s : Bool) :
    a+(b+if s then 0x100000000#64 else 0#64) = a+b ↔ s = false := by
  cases s with
  | false => simp
  | true =>
    simp only [↓reduceIte, Bool.true_eq_false, iff_false]
    bv_omega

/-- A number within the reach of a signed field is its own value there. -/
theorem toInt_ofInt_of_reach {n : ℕ} {d : ℤ} (hlo : -2^n ≤ d) (hhi : d < 2^n) :
    (BitVec.ofInt (n+1) d).toInt = d := by
  rw [BitVec.toInt_ofInt]
  have hpow : (2:ℤ)^(n+1) = 2*2^n := pow_succ' 2 n
  apply Int.bmod_eq_of_le
  · push_cast
    omega
  · push_cast
    omega

theorem setWidth_ofInt {m n : ℕ} (hmn : m ≤ n) (d : ℤ) :
    (BitVec.ofInt n d).setWidth m = BitVec.ofInt m d := by
  have hdvd : (((2^m:ℕ)):ℤ) ∣ ((2^n:ℕ):ℤ) := Int.natCast_dvd_natCast.mpr (Nat.pow_dvd_pow 2 hmn)
  have hpos : ((2^n:ℕ):ℤ) ≠ 0 := Int.natCast_ne_zero.mpr (Nat.two_pow_pos n).ne'
  apply BitVec.eq_of_toInt_eq
  rw [BitVec.toInt_setWidth, BitVec.toInt_ofInt, BitVec.toNat_ofInt,
    Int.toNat_of_nonneg (Int.emod_nonneg d hpos)]
  calc
    (d%(2^n:ℕ)).bmod (2^m) = (d%(2^n:ℕ)%(2^m:ℕ)).bmod (2^m) := (Int.emod_bmod _ _).symm
    _ = (d%(2^m:ℕ)).bmod (2^m) := by rw [Int.emod_emod_of_dvd d hdvd]
    _ = d.bmod (2^m) := Int.emod_bmod d (2^m)

theorem setWidth_eq_iff {m : ℕ} {x y : BitVec 64} (hm : m ≤ 64) :
    x.setWidth m = y.setWidth m ↔ (x-y).toNat%2^m = 0 := by
  have hx : x.setWidth m = (x-y).setWidth m+y.setWidth m := by
    rw [← BitVec.setWidth_add _ _ hm, BitVec.sub_add_cancel]
  constructor
  · intro h
    rw [h] at hx
    have h0 : (x-y).setWidth m = 0#m := by
      have hc := congrArg (fun v => v-y.setWidth m) hx
      simpa [BitVec.add_sub_cancel] using hc.symm
    have hn := congrArg BitVec.toNat h0
    rwa [BitVec.toNat_setWidth] at hn
  · intro h
    have h0 : (x-y).setWidth m = 0#m := by
      apply BitVec.eq_of_toNat_eq
      rwa [BitVec.toNat_setWidth]
    rw [hx, h0, BitVec.zero_add]

end Zeldar
