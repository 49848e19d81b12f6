import Zeldar.ByteMem
import Mathlib.Data.Nat.ModEq
import Mathlib.Tactic.IntervalCases

namespace Zeldar

section Terminated
variable {α β : Type} (read : α → β) (stop : β) (next : α → α)

/-- Reading from `a` on gives `bs`, and then `stop`. -/
def Terminated : α → List β → Prop
  | a,[] => read a = stop
  | a,b :: bs => b ≠ stop ∧ read a = b ∧ Terminated (next a) bs

variable [DecidableEq β]

/-- `for (; read a != stop; a = next a) s = step(s, read a)`. -/
def foldUntil {τ : Type} (step : τ → β → τ) : ℕ → α → τ → Option τ
  | 0,_,_ => none
  | fuel+1,a,s =>
    if read a = stop then some s else foldUntil step fuel (next a) (step s (read a))

/-- `for (; read a != stop; a = next a) if (test(read a)) return read a`. -/
def findUntil (test : β → Option Bool) : ℕ → α → Option (Option β)
  | 0,_ => none
  | fuel+1,a =>
    if read a = stop then some none
    else (test (read a)).bind fun found =>
      if found then some (some (read a)) else findUntil test fuel (next a)

variable {read stop next}

theorem foldUntil_eq {τ : Type} (step : τ → β → τ) {a : α} {bs : List β}
    (h : Terminated read stop next a bs) (s : τ) {fuel : ℕ} (hfuel : bs.length < fuel) :
    foldUntil read stop next step fuel a s = some (bs.foldl step s) := by
  obtain ⟨fuel,rfl⟩ := Nat.exists_eq_add_of_lt hfuel
  induction bs generalizing a s with
  | nil => exact if_pos h
  | cons b bs ih =>
    obtain ⟨hne,hread,hrest⟩ := h
    rw [show (b :: bs).length+fuel+1 = bs.length+fuel+1+1 by rw [List.length_cons]; omega,
      foldUntil, hread, if_neg hne, ih hrest _ (by omega), List.foldl_cons]

/-- The loop returns the first element that passes the test. -/
theorem findUntil_eq {test : β → Option Bool} {passes : β → Bool} {a : α} {bs : List β}
    (h : Terminated read stop next a bs) (htest : ∀ b ∈ bs, test b = some (passes b)) {fuel : ℕ}
    (hfuel : bs.length < fuel) :
    findUntil read stop next test fuel a = some (bs.find? passes) := by
  obtain ⟨fuel,rfl⟩ := Nat.exists_eq_add_of_lt hfuel
  induction bs generalizing a with
  | nil => exact if_pos h
  | cons b bs ih =>
    obtain ⟨hne,hread,hrest⟩ := h
    rw [show (b :: bs).length+fuel+1 = bs.length+fuel+1+1 by rw [List.length_cons]; omega,
      findUntil, hread, if_neg hne, htest b List.mem_cons_self, Option.bind_some]
    cases hp : passes b with
    | true => rw [if_pos rfl, List.find?_cons_of_pos hp]
    | false =>
      rw [if_neg Bool.false_ne_true, List.find?_cons_of_neg (by rw [hp]; exact Bool.false_ne_true)]
      exact ih hrest (fun c hc => htest c (List.mem_cons_of_mem b hc)) (by omega)

end Terminated

end Zeldar

namespace Zeldar.Rtld

/-- One character, at a width of the accumulator. -/
def hashStep {w : ℕ} (h : BitVec w) (c : BitVec 8) : BitVec w :=
  let h := (h <<< 4)+c.setWidth w
  let g := h &&& 0xf0000000
  let h := if g ≠ 0 then h ^^^ (g >>> 24) else h
  h &&& ~~~g

/-- A string of bytes at an address, with its NUL. -/
abbrev CStrAt (m : Mem) : Addr → List (BitVec 8) → Prop := Terminated m 0 (·+1)

/-- `__rtld_elf_hash`. -/
def rtldElfHash (m : Mem) (fuel : ℕ) (name : Addr) : Option (BitVec 64) :=
  foldUntil m 0 (·+1) hashStep fuel name 0

/-- The System V hash of 32 bits. -/
def sysvHash (name : List (BitVec 8)) : BitVec 32 := name.foldl hashStep 0

/-- The 32-bit hash, and the carries that it drops. -/
def carryStep (p : BitVec 32 × BitVec 32) (c : BitVec 8) : BitVec 32 × BitVec 32 :=
  (hashStep p.1 c,(p.2 <<< 4)+if 2^32 ≤ 16*p.1.toNat+c.toNat then 1 else 0)

def hashCarry (name : List (BitVec 8)) : BitVec 32 := (name.foldl carryStep (0,0)).2

/-- The test for zero changes nothing. -/
theorem hashStep_eq {w : ℕ} (h : BitVec w) (c : BitVec 8) :
    let x := (h <<< 4)+c.setWidth w
    hashStep h c = (x ^^^ ((x &&& 0xf0000000) >>> 24)) &&& ~~~(x &&& 0xf0000000) := by
  intro x
  change (if x &&& 0xf0000000 ≠ 0 then x ^^^ ((x &&& 0xf0000000) >>> 24) else x) &&&
    ~~~(x &&& 0xf0000000) = _
  by_cases hg : x &&& 0xf0000000 = 0
  · rw [if_neg (not_not_intro hg), hg]
    simp
  · rw [if_pos hg]

/-- The accumulator keeps 28 bits. -/
theorem hashStep_lt (h : BitVec 32) (c : BitVec 8) : (hashStep h c).toNat < 2^28 := by
  rw [hashStep_eq]
  generalize (h <<< 4)+c.setWidth 32 = x
  apply Nat.lt_pow_two_of_testBit
  intro i hi
  change ((x ^^^ ((x &&& 0xf0000000#32) >>> 24)) &&& ~~~(x &&& 0xf0000000#32)).getLsbD i = false
  by_cases hlt : i < 32
  · -- the top four bits are the ones that the mask selects
    have hmask : (0xf0000000#32).getLsbD i = true := by
      interval_cases i <;> rfl
    have hshift : ((x &&& 0xf0000000#32) >>> 24).getLsbD i = false := by
      rw [BitVec.getLsbD_ushiftRight, BitVec.getLsbD_of_ge _ _ (by omega)]
    rw [BitVec.getLsbD_and, BitVec.getLsbD_xor, BitVec.getLsbD_not, BitVec.getLsbD_and, hmask,
      hshift, decide_eq_true hlt, Bool.xor_false, Bool.and_true, Bool.true_and,
      Bool.and_not_self]
  · exact BitVec.getLsbD_of_ge _ _ (by omega)

theorem toNat_append_halves (hi lo : BitVec 32) :
    (hi++lo : BitVec 64).toNat = hi.toNat*2^32+lo.toNat := by
  have hlo := lo.isLt
  change (hi++lo).toNat = hi.toNat*2^32+lo.toNat
  rw [BitVec.toNat_append, Nat.shiftLeft_eq, Nat.mul_comm, Nat.two_pow_add_eq_or_of_lt hlo]

/-- The sum with a character carries into the high half. -/
theorem shift_add_append (hi lo : BitVec 32) (c : BitVec 8) (hlo : lo.toNat < 2^28) :
    ((hi++lo : BitVec 64) <<< 4)+c.setWidth 64 =
      (carryStep (lo,hi) c).2++((lo <<< 4)+c.setWidth 32) := by
  have hc := c.isLt
  have hhi := hi.isLt
  apply BitVec.eq_of_toNat_eq
  have hcarry : (if 2^32 ≤ 16*lo.toNat+c.toNat then 1 else 0 : BitVec 32).toNat =
      (16*lo.toNat+c.toNat)/2^32 := by
    by_cases h : 2^32 ≤ 16*lo.toNat+c.toNat
    · rw [if_pos h]
      change 1 = _
      omega
    · rw [if_neg h]
      change 0 = _
      omega
  rw [toNat_append_halves, carryStep]
  simp only [BitVec.toNat_add, BitVec.toNat_shiftLeft, BitVec.toNat_setWidth, toNat_append_halves,
    hcarry, Nat.shiftLeft_eq]
  omega

/-- One character on the two halves: the sum carries into the high one, and the
rest of the step only touches the low one. -/
theorem hashStep_append (hi lo : BitVec 32) (c : BitVec 8) (hlo : lo.toNat < 2^28) :
    hashStep (hi++lo : BitVec 64) c = (carryStep (lo,hi) c).2++(carryStep (lo,hi) c).1 := by
  have hmask : (0xf0000000 : BitVec 64) = 0#32++0xf0000000#32 := rfl
  have hshift : ∀ g : BitVec 32, (0#32++g : BitVec 64) >>> 24 = 0#32++(g >>> 24) := by
    intro g
    apply BitVec.eq_of_toNat_eq
    rw [BitVec.toNat_ushiftRight, toNat_append_halves, toNat_append_halves,
      BitVec.toNat_ushiftRight]
    simp
  have hlow : (carryStep (lo,hi) c).1 = hashStep lo c := rfl
  rw [hashStep_eq, shift_add_append hi lo c hlo, hmask, hlow, hashStep_eq]
  generalize (carryStep (lo,hi) c).2 = x
  generalize (lo <<< 4)+c.setWidth 32 = y
  have hand : (x++y : BitVec 64) &&& (0#32++0xf0000000#32) = 0#32++(y &&& 0xf0000000#32) := by
    rw [BitVec.and_append, BitVec.and_zero]
  rw [hand, hshift, BitVec.xor_append, BitVec.not_append, BitVec.and_append, BitVec.xor_zero,
    BitVec.not_zero, BitVec.and_allOnes]
  rfl

/-- The hash of 64 bits is the hash of 32 bits under the carries. -/
theorem foldl_hashStep (name : List (BitVec 8)) :
    name.foldl hashStep (0 : BitVec 64) = hashCarry name++sysvHash name := by
  suffices h : ∀ (p : BitVec 32 × BitVec 32), p.1.toNat < 2^28 →
      name.foldl hashStep (p.2++p.1 : BitVec 64) =
        (name.foldl carryStep p).2++name.foldl hashStep p.1 from h (0,0) (by decide)
  induction name with
  | nil => exact fun p _ => rfl
  | cons c name ih =>
    intro p hp
    rw [List.foldl_cons, List.foldl_cons, List.foldl_cons, hashStep_append p.2 p.1 c hp]
    exact ih (carryStep p c) (hashStep_lt p.1 c)

theorem rtldElfHash_eq {m : Mem} {a : Addr} {name : List (BitVec 8)} (h : CStrAt m a name)
    {fuel : ℕ} (hfuel : name.length < fuel) :
    rtldElfHash m fuel a = some (hashCarry name++sysvHash name) := by
  rw [rtldElfHash, foldUntil_eq hashStep h 0 hfuel, foldl_hashStep]

/-- It selects the bucket of the 32-bit hash if the dropped carries do not move it. -/
theorem bucket_eq_iff (name : List (BitVec 8)) (n : ℕ) :
    (hashCarry name++sysvHash name : BitVec 64).toNat%n = (sysvHash name).toNat%n ↔
      n ∣ 2^32*(hashCarry name).toNat := by
  rw [toNat_append_halves, Nat.add_comm, Nat.mul_comm]
  exact Nat.add_modEq_left_iff

end Zeldar.Rtld
