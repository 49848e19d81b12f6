import Mathlib.Data.BitVec
import Mathlib.Logic.Function.Basic
import Mathlib.Tactic.IntervalCases

/-! Byte-addressed memory with little-endian words, over a 64-bit address
space that wraps. Words are read and written at any address; the lemmas
about two words ask that they do not overlap. -/
namespace Zeldar

abbrev Addr := BitVec 64
abbrev Word := BitVec 32
abbrev Mem := Addr → BitVec 8

/-- The `n` bytes at `a` and the `k` bytes at `b` do not overlap. -/
def Sep (a : Addr) (n : ℕ) (b : Addr) (k : ℕ) : Prop :=
  k ≤ (a-b).toNat ∧ n ≤ (b-a).toNat

instance (a : Addr) (n : ℕ) (b : Addr) (k : ℕ) : Decidable (Sep a n b k) :=
  inferInstanceAs (Decidable (_ ∧ _))

theorem Sep.symm {a b : Addr} {n k : ℕ} (h : Sep a n b k) : Sep b k a n := ⟨h.2,h.1⟩

theorem Sep.mono {a b : Addr} {n n' k k' : ℕ} (h : Sep a n b k) (hn : n' ≤ n) (hk : k' ≤ k) :
    Sep a n' b k' := ⟨hk.trans h.1,hn.trans h.2⟩

namespace Mem

def read32 (m : Mem) (a : Addr) : Word := m (a+3) ++ m (a+2) ++ m (a+1) ++ m a

def write32 (m : Mem) (a : Addr) (w : Word) : Mem := fun x =>
  if (x-a).toNat < 4 then w.extractLsb' (8*(x-a).toNat) 8 else m x

def read64 (m : Mem) (a : Addr) : BitVec 64 := m.read32 (a+4) ++ m.read32 a

def write64 (m : Mem) (a : Addr) (v : BitVec 64) : Mem :=
  (m.write32 a (v.extractLsb' 0 32)).write32 (a+4) (v.extractLsb' 32 32)

theorem write32_apply_of_le (m : Mem) (a x : Addr) (w : Word) (h : 4 ≤ (x-a).toNat) :
    m.write32 a w x = m x := by
  simp only [write32, show ¬(x-a).toNat < 4 by omega, ↓reduceIte]

theorem read32_congr {m m' : Mem} {a : Addr}
    (h : ∀ i < 4, m (a+BitVec.ofNat 64 i) = m' (a+BitVec.ofNat 64 i)) :
    m.read32 a = m'.read32 a := by
  have h0 := h 0 (by decide)
  have h1 := h 1 (by decide)
  have h2 := h 2 (by decide)
  have h3 := h 3 (by decide)
  simp only [BitVec.add_zero] at h0 h1 h2 h3
  simp only [read32, BitVec.ofNat_eq_ofNat, h0, h1, h2, h3]

@[simp] theorem read32_write32_self (m : Mem) (a : Addr) (w : Word) :
    (m.write32 a w).read32 a = w := by
  have hd (i : ℕ) (hi : i < 4) : (m.write32 a w) (a+BitVec.ofNat 64 i) = w.extractLsb' (8*i) 8 := by
    have he : (a+BitVec.ofNat 64 i-a).toNat = i := by bv_omega
    simp only [write32, he, hi, ↓reduceIte]
  have h0 := hd 0 (by decide)
  have h1 := hd 1 (by decide)
  have h2 := hd 2 (by decide)
  have h3 := hd 3 (by decide)
  simp only [BitVec.add_zero] at h0 h1 h2 h3
  simp only [read32, BitVec.ofNat_eq_ofNat, h0, h1, h2, h3]
  rw [BitVec.extractLsb'_append_extractLsb'_eq_extractLsb' (by rfl),
    BitVec.extractLsb'_append_extractLsb'_eq_extractLsb' (by rfl),
    BitVec.extractLsb'_append_extractLsb'_eq_extractLsb' (by rfl)]
  exact BitVec.extractLsb'_eq_self

theorem read32_write32_of_sep (m : Mem) {a b : Addr} (w : Word) (h : Sep a 4 b 4) :
    (m.write32 b w).read32 a = m.read32 a := by
  apply read32_congr
  intro i hi
  apply write32_apply_of_le
  obtain ⟨h1,h2⟩ := h
  bv_omega

theorem read32_write64_of_sep (m : Mem) {a b : Addr} (v : BitVec 64) (h : Sep a 4 b 8) :
    (m.write64 b v).read32 a = m.read32 a := by
  obtain ⟨h1,h2⟩ := h
  have hlo : Sep a 4 b 4 := ⟨by omega,by omega⟩
  have hhi : Sep a 4 (b+4) 4 := ⟨by bv_omega,by bv_omega⟩
  rw [write64, read32_write32_of_sep _ _ hhi, read32_write32_of_sep _ _ hlo]

theorem write64_apply_of_le (m : Mem) {a x : Addr} (v : BitVec 64) (h : 8 ≤ (x-a).toNat) :
    m.write64 a v x = m x := by
  rw [write64, write32_apply_of_le _ _ _ _ (by bv_omega), write32_apply_of_le _ _ _ _ (by omega)]

theorem read64_congr {m m' : Mem} {a : Addr} (h : ∀ x, (x-a).toNat < 8 → m x = m' x) :
    m.read64 a = m'.read64 a := by
  rw [read64, read64, read32_congr fun i hi => h (a+BitVec.ofNat 64 i) (by bv_omega),
    read32_congr fun i hi => h (a+4+BitVec.ofNat 64 i) (by bv_omega)]

@[simp] theorem read64_write64_self (m : Mem) (a : Addr) (v : BitVec 64) :
    (m.write64 a v).read64 a = v := by
  have hs : Sep a 4 (a+4) 4 := ⟨by bv_omega,by bv_omega⟩
  rw [read64, write64, read32_write32_self, read32_write32_of_sep _ _ hs, read32_write32_self]
  rw [BitVec.extractLsb'_append_extractLsb'_eq_extractLsb' (by rfl)]
  exact BitVec.extractLsb'_eq_self

theorem read64_write64_of_sep (m : Mem) {a b : Addr} (v : BitVec 64) (h : Sep a 8 b 8) :
    (m.write64 b v).read64 a = m.read64 a := by
  obtain ⟨h1,h2⟩ := h
  have hlo : Sep a 4 b 8 := ⟨by omega,by omega⟩
  have hhi : Sep (a+4) 4 b 8 := ⟨by bv_omega,by bv_omega⟩
  rw [read64, read64, read32_write64_of_sep _ _ hlo, read32_write64_of_sep _ _ hhi]

theorem byte_read32 (m : Mem) (a : Addr) {k : ℕ} (hk : k < 4) :
    (m.read32 a).extractLsb' (8*k) 8 = m (a+BitVec.ofNat 64 k) := by
  have ha : a+BitVec.ofNat 64 0 = a := BitVec.add_zero _
  interval_cases k
  · rw [ha]
    exact BitVec.extractLsb'_append_eq_right
  · refine (BitVec.extractLsb'_append_eq_of_le (by decide)).trans ?_
    exact BitVec.extractLsb'_append_eq_right
  · refine (BitVec.extractLsb'_append_eq_of_le (by decide)).trans ?_
    refine (BitVec.extractLsb'_append_eq_of_le (by decide)).trans ?_
    exact BitVec.extractLsb'_append_eq_right
  · refine (BitVec.extractLsb'_append_eq_of_le (by decide)).trans ?_
    refine (BitVec.extractLsb'_append_eq_of_le (by decide)).trans ?_
    exact BitVec.extractLsb'_append_eq_left

/-- Equal doublewords have equal bytes. -/
theorem eq_of_read64 {m m' : Mem} {a x : Addr} (h : m'.read64 a = m.read64 a)
    (hx : (x-a).toNat < 8) : m' x = m x := by
  have hhigh : m'.read32 (a+4) = m.read32 (a+4) := by
    have he := congrArg (BitVec.extractLsb' 32 32) h
    rwa [read64, read64, BitVec.extractLsb'_append_eq_left,
      BitVec.extractLsb'_append_eq_left] at he
  have hlow : m'.read32 a = m.read32 a := by
    have he := congrArg (BitVec.extractLsb' 0 32) h
    rwa [read64, read64, BitVec.extractLsb'_append_eq_right,
      BitVec.extractLsb'_append_eq_right] at he
  by_cases hlt : (x-a).toNat < 4
  · have hxa : a+BitVec.ofNat 64 (x-a).toNat = x := by bv_omega
    rw [← hxa, ← byte_read32 m a hlt, ← byte_read32 m' a hlt, hlow]
  · have hlt : (x-(a+4)).toNat < 4 := by bv_omega
    have hxa : a+4+BitVec.ofNat 64 (x-(a+4)).toNat = x := by bv_omega
    rw [← hxa, ← byte_read32 m (a+4) hlt, ← byte_read32 m' (a+4) hlt, hhigh]

end Mem

theorem and_not_add_and {w : ℕ} (x m : BitVec w) : (x &&& ~~~m)+(x &&& m) = x := by
  have hd : (x &&& ~~~m) &&& (x &&& m) = 0 := by
    rw [BitVec.and_assoc, ← BitVec.and_assoc (~~~m), BitVec.and_comm (~~~m) x, BitVec.and_assoc]
    simp
  have ho : ~~~m ||| m = BitVec.allOnes w := by
    rw [BitVec.or_comm, BitVec.or_not_self]
  rw [BitVec.add_eq_or_of_and_eq_zero _ _ hd, ← BitVec.and_or_distrib_left, ho,
    BitVec.and_allOnes]

theorem and_mask_toNat (x m : BitVec 64) (b : ℕ) (hm : m.toNat = 2^b-1) :
    (x &&& m).toNat = x.toNat%2^b := by
  rw [BitVec.toNat_and, hm, Nat.and_two_pow_sub_one_eq_mod]

/-- Clearing the low `b` bits rounds down to a multiple of `2^b`. -/
theorem roundDown_toNat (x m : BitVec 64) (b : ℕ) (hm : m.toNat = 2^b-1) :
    (x &&& ~~~m).toNat = x.toNat-x.toNat%2^b := by
  have hs := and_not_add_and x m
  have h := and_mask_toNat x m b hm
  have hle : (x &&& ~~~m).toNat ≤ x.toNat := by
    rw [BitVec.toNat_and]
    exact Nat.and_le_left
  generalize x &&& ~~~m = y at hs hle ⊢
  generalize x &&& m = z at hs h
  generalize x.toNat%2^b = t at h ⊢
  bv_omega

/-- The address of the `k`-th 32-bit word from `a`. -/
def wordAt (a : Addr) (k : ℕ) : Addr := a+BitVec.ofNat 64 (4*k)

@[simp] theorem wordAt_zero (a : Addr) : wordAt a 0 = a := by simp [wordAt]

theorem wordAt_add (a : Addr) (k l : ℕ) : wordAt (wordAt a k) l = wordAt a (k+l) := by
  unfold wordAt
  bv_omega

theorem wordAt_four (a : Addr) (k : ℕ) : wordAt a k+4#64 = wordAt a (k+1) := by
  unfold wordAt
  bv_omega

theorem wordAt_aligned {a : Addr} (h : a.toNat%4 = 0) (k : ℕ) : (wordAt a k).toNat%4 = 0 := by
  unfold wordAt
  bv_omega

theorem wordAt_sub (a : Addr) (k l : ℕ) : wordAt a k-wordAt a l =
    BitVec.ofNat 64 (4*k)-BitVec.ofNat 64 (4*l) := by
  unfold wordAt
  bv_omega

theorem wordAt_injective (a : Addr) {k l : ℕ} (hk : k < 2^60) (hl : l < 2^60)
    (h : wordAt a k = wordAt a l) : k = l := by
  unfold wordAt at h
  bv_omega

/-- What is apart from a range is apart from each of its words. -/
theorem Sep.word {a b : Addr} {n k i : ℕ} (h : Sep a (4*n) b k) (hi : i < n) :
    Sep (wordAt a i) 4 b k := by
  obtain ⟨h1,h2⟩ := h
  refine ⟨?_,?_⟩ <;> unfold wordAt <;> bv_omega

/-- A byte of the second range is past the first one. -/
theorem Sep.offset {a b x : Addr} {n k : ℕ} (h : Sep a n b k) (hx : (x-b).toNat < k) :
    n ≤ (x-a).toNat := by
  obtain ⟨h1,h2⟩ := h
  bv_omega

/-- The memory `m` with the words `ws` laid over it from `a`. -/
def overlay (m : Mem) (a : Addr) (ws : List Word) : Mem := fun x =>
  match ws[(x-a).toNat/4]? with
  | some w => w.extractLsb' (8*((x-a).toNat%4)) 8
  | none => m x

@[simp] theorem overlay_nil (m : Mem) (a : Addr) : overlay m a [] = m := by
  funext x
  simp [overlay]

/-- A store to a word of the overlay, or just past it, changes the list of words. -/
theorem write32_overlay (m : Mem) (a : Addr) (ws vs : List Word) (k : ℕ) (w : Word)
    (hk : k < 2^60) (hget : ∀ i, vs[i]? = if i = k then some w else ws[i]?) :
    (overlay m a ws).write32 (wordAt a k) w = overlay m a vs := by
  funext x
  have hd : (x-wordAt a k).toNat < 4 ↔ (x-a).toNat/4 = k := by
    unfold wordAt
    constructor <;> intro h <;> bv_omega
  have he : (x-a).toNat/4 = k → (x-wordAt a k).toNat = (x-a).toNat%4 := by
    unfold wordAt
    intro h
    bv_omega
  unfold overlay Mem.write32
  rw [hget]
  by_cases h : (x-a).toNat/4 = k
  · simp only [he h, show (x-a).toNat%4 < 4 by omega, ↓reduceIte, h]
  · simp only [mt hd.mp h, ↓reduceIte, h]

theorem write32_overlay_append (m : Mem) (a : Addr) (ws : List Word) (w : Word)
    (hk : ws.length < 2^60) :
    (overlay m a ws).write32 (wordAt a ws.length) w = overlay m a (ws++[w]) := by
  apply write32_overlay _ _ _ _ _ _ hk
  intro i
  by_cases hi : i < ws.length
  · rw [List.getElem?_append_left hi, if_neg (by omega)]
  · by_cases he : i = ws.length
    · subst he
      simp
    · rw [if_neg he, List.getElem?_eq_none (by simp; omega), List.getElem?_eq_none (by omega)]

theorem write32_overlay_modify (m : Mem) (a : Addr) (ws : List Word) (f : Word → Word)
    {k : ℕ} {w : Word} (hk : k < 2^60) (hw : ws[k]? = some w) :
    (overlay m a ws).write32 (wordAt a k) (f w) = overlay m a (ws.modify k f) := by
  apply write32_overlay _ _ _ _ _ _ hk
  intro i
  rw [List.getElem?_modify]
  by_cases he : i = k
  · subst he
    simp [hw]
  · simp [he, show ¬k = i by omega]

theorem read32_overlay (m : Mem) (a : Addr) (ws : List Word) {k : ℕ} {w : Word} (hk : k < 2^60)
    (hw : ws[k]? = some w) : (overlay m a ws).read32 (wordAt a k) = w := by
  have h := write32_overlay m a ws ws k w hk (fun i => by
    by_cases he : i = k
    · simp [he, hw]
    · simp [he])
  rw [← h, Mem.read32_write32_self]

theorem overlay_apply_of_le (m : Mem) (a x : Addr) (ws : List Word)
    (h : 4*ws.length ≤ (x-a).toNat) : overlay m a ws x = m x := by
  have hge : ws.length ≤ (x-a).toNat/4 := by omega
  simp only [overlay, List.getElem?_eq_none hge]

theorem read32_overlay_of_sep (m : Mem) (a b : Addr) (ws : List Word)
    (h : Sep b 4 a (4*ws.length)) : (overlay m a ws).read32 b = m.read32 b := by
  apply Mem.read32_congr
  intro i hi
  obtain ⟨h1,h2⟩ := h
  apply overlay_apply_of_le
  bv_omega

end Zeldar
