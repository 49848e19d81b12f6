import Mathlib.Data.List.Basic
import Mathlib.Tactic.Common

namespace Zeldar

section Splice
variable {α : Type*}

/-- The `n` elements from `off` on, or as many as there are. -/
def slice (buf : List α) (off n : ℕ) : List α := (buf.drop off).take n

/-- The buffer after `src` has been copied to `off`. -/
def splice (buf : List α) (off : ℕ) (src : List α) : List α :=
  buf.take off++(src++buf.drop (off+src.length))

/-- `memcpy` to `off`, which has to end inside the buffer. -/
def copyTo (buf : List α) (off : ℕ) (src : List α) : Option (List α) :=
  if off+src.length ≤ buf.length then some (splice buf off src) else none

variable {buf src : List α} {off n : ℕ}

theorem getElem?_slice (k : ℕ) :
    (slice buf off n)[k]? = if k < n then buf[off+k]? else none := by
  unfold slice
  rw [List.getElem?_take]
  split_ifs
  · rw [List.getElem?_drop]
  · rfl

theorem length_slice (h : off+n ≤ buf.length) : (slice buf off n).length = n := by
  unfold slice
  rw [List.length_take, List.length_drop]
  omega

theorem getElem?_splice (h : off+src.length ≤ buf.length) (k : ℕ) :
    (splice buf off src)[k]? =
      if off ≤ k ∧ k < off+src.length then src[k-off]? else buf[k]? := by
  unfold splice
  have htake : (buf.take off).length = off := by
    rw [List.length_take]
    omega
  by_cases hlo : off ≤ k
  · rw [List.getElem?_append_right (by omega), htake]
    by_cases hhi : k < off+src.length
    · rw [if_pos ⟨hlo,hhi⟩, List.getElem?_append_left (by omega)]
    · rw [if_neg fun hk => hhi hk.2, List.getElem?_append_right (by omega), List.getElem?_drop]
      congr 1
      omega
  · rw [if_neg fun hk => hlo hk.1, List.getElem?_append_left (by omega), List.getElem?_take,
      if_pos (by omega)]

theorem length_splice (h : off+src.length ≤ buf.length) :
    (splice buf off src).length = buf.length := by
  unfold splice
  rw [List.length_append, List.length_append, List.length_take, List.length_drop]
  omega

theorem splice_zero : splice buf 0 src = src++buf.drop src.length := by
  unfold splice
  rw [List.take_zero, List.nil_append, Nat.zero_add]

/-- What was copied stands where it was copied to. -/
theorem slice_splice_self (h : off+src.length ≤ buf.length) :
    slice (splice buf off src) off src.length = src := by
  apply List.ext_getElem?
  intro k
  rw [getElem?_slice]
  by_cases hk : k < src.length
  · rw [if_pos hk, getElem?_splice h, if_pos (by omega), Nat.add_sub_cancel_left]
  · rw [if_neg hk, List.getElem?_eq_none (by omega)]

/-- A copy leaves a range alone which has no byte in common with it. -/
theorem slice_splice_of_apart (h : off+src.length ≤ buf.length) {off' n' : ℕ}
    (hapart : ∀ k, off' ≤ k → k < off'+n' → ¬(off ≤ k ∧ k < off+src.length)) :
    slice (splice buf off src) off' n' = slice buf off' n' := by
  apply List.ext_getElem?
  intro k
  rw [getElem?_slice, getElem?_slice]
  by_cases hk : k < n'
  · rw [if_pos hk, if_pos hk, getElem?_splice h, if_neg (hapart (off'+k) (by omega) (by omega))]
  · rw [if_neg hk, if_neg hk]

theorem splice_nil (buf : List α) (off : ℕ) : splice buf off [] = buf := by
  unfold splice
  rw [List.nil_append, List.length_nil, Nat.add_zero, List.take_append_drop]

/-- A copy over the start of what follows a prefix. -/
theorem splice_append {pre rest : List α} (hpre : pre.length = off) :
    splice (pre++rest) off src = pre++(src++rest.drop src.length) := by
  subst hpre
  unfold splice
  rw [List.take_left, List.drop_append, List.drop_of_length_le (by omega), List.nil_append,
    Nat.add_sub_cancel_left]

/-- A copy to the end of a prefix makes the prefix longer. -/
theorem take_splice {pre : List α} (h : off+src.length ≤ buf.length) (hpre : buf.take off = pre) :
    (splice buf off src).take (off+src.length) = pre++src := by
  have hlen : (buf.take off).length = off := by
    rw [List.length_take]
    omega
  unfold splice
  rw [← List.append_assoc, List.take_append_of_le_length, List.take_of_length_le, hpre]
  · rw [List.length_append]
    omega
  · rw [List.length_append]
    omega

/-- A range of a known prefix. -/
theorem slice_of_take {pre : List α} {k : ℕ} (hpre : buf.take k = pre) (h : off+n ≤ k) :
    slice buf off n = slice pre off n := by
  apply List.ext_getElem?
  intro j
  rw [getElem?_slice, getElem?_slice, ← hpre, List.getElem?_take]
  by_cases hj : j < n
  · rw [if_pos hj, if_pos hj, if_pos (by omega)]
  · rw [if_neg hj, if_neg hj]

theorem slice_append_middle (pre mid post : List α) :
    slice (pre++(mid++post)) pre.length mid.length = mid := by
  unfold slice
  rw [List.drop_left, List.take_left]

/-- A range of a range. -/
theorem slice_slice {off' n' : ℕ} (h : off'+n' ≤ n) :
    slice (slice buf off n) off' n' = slice buf (off+off') n' := by
  apply List.ext_getElem?
  intro k
  rw [getElem?_slice, getElem?_slice, getElem?_slice]
  by_cases hk : k < n'
  · rw [if_pos hk, if_pos (by omega), if_pos hk, Nat.add_assoc]
  · rw [if_neg hk, if_neg hk]

theorem copyTo_of_fits (h : off+src.length ≤ buf.length) :
    copyTo buf off src = some (splice buf off src) := if_pos h

end Splice

section Packed
variable {α β : Type*} {f : β → List α} {n : ℕ}

/-- Elements of one size, end to end, take that size each. -/
theorem length_packed (hf : ∀ x, (f x).length = n) (xs : List β) :
    (xs.flatMap f).length = xs.length*n := by
  induction xs with
  | nil => rw [List.flatMap_nil, List.length_nil, List.length_nil, Nat.zero_mul]
  | cons x xs ih =>
    rw [List.flatMap_cons, List.length_append, hf, ih, List.length_cons]
    rw [Nat.add_mul, Nat.one_mul, Nat.add_comm]

/-- Each of them stands at its own place. -/
theorem slice_packed (hf : ∀ x, (f x).length = n) {xs : List β} {i : ℕ} {x : β}
    (h : xs[i]? = some x) : slice (xs.flatMap f) (i*n) n = f x := by
  obtain ⟨pre,post,rfl,rfl⟩ : ∃ pre post, xs = pre++x :: post ∧ pre.length = i := by
    obtain ⟨hi,rfl⟩ := List.getElem?_eq_some_iff.mp h
    refine ⟨xs.take i,xs.drop (i+1),?_,?_⟩
    · rw [← List.drop_eq_getElem_cons hi, List.take_append_drop]
    · rw [List.length_take]
      omega
  rw [List.flatMap_append, List.flatMap_cons, ← length_packed hf pre]
  have hmid := slice_append_middle (pre.flatMap f) (f x) (post.flatMap f)
  rwa [hf] at hmid

end Packed

end Zeldar
