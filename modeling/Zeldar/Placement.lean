import Mathlib.Algebra.GroupWithZero.Nat
import Mathlib.Tactic.Common
import Zeldar.Splice

namespace Zeldar

/-- A range of a buffer. -/
structure Extent where
  start : ℕ
  length : ℕ

namespace Extent

instance : Membership ℕ Extent := ⟨fun e k => e.start ≤ k ∧ k < e.start+e.length⟩

/-- The two have no byte in common. -/
def Apart (e e' : Extent) : Prop := ∀ k ∈ e, k ∉ e'

theorem mem_iff {e : Extent} {k : ℕ} : k ∈ e ↔ e.start ≤ k ∧ k < e.start+e.length := Iff.rfl

theorem Apart.symm {e e' : Extent} (h : e.Apart e') : e'.Apart e := fun k hk hk' => h k hk' hk

theorem apart_of_le {e e' : Extent} (h : e.start+e.length ≤ e'.start) : e.Apart e' := by
  intro k hk hk'
  rw [mem_iff] at hk hk'
  omega

theorem apart_of_length {e e' : Extent} (h : e.length = 0) : e.Apart e' := by
  intro k hk
  rw [mem_iff] at hk
  omega

theorem start_mem {e : Extent} (h : e.length ≠ 0) : e.start ∈ e := by
  rw [mem_iff]
  omega

end Extent

/-- `x`, rounded up to a multiple of `g`. -/
def roundUp (g x : ℕ) : ℕ := (x+(g-1))/g*g

section RoundUp
variable {g x y : ℕ}

theorem dvd_roundUp : g ∣ roundUp g x := Nat.dvd_mul_left _ _

theorem le_roundUp (hg : 0 < g) : x ≤ roundUp g x := by
  have hdiv := Nat.div_add_mod (x+(g-1)) g
  have hmod := Nat.mod_lt (x+(g-1)) hg
  unfold roundUp
  rw [Nat.mul_comm]
  omega

theorem roundUp_le : roundUp g x ≤ x+(g-1) := Nat.div_mul_le_self _ _

/-- Rounding up skips no multiple. -/
theorem lt_of_lt_roundUp (hg : 0 < g) (hy : g ∣ y) (h : y < roundUp g x) : y < x := by
  obtain ⟨k,rfl⟩ := hy
  -- the multiple after this one is still not above the rounded value
  have hle : g*(k+1) ≤ roundUp g x := by
    unfold roundUp at h ⊢
    rw [Nat.mul_comm g (k+1)]
    apply Nat.mul_le_mul_right
    rw [Nat.mul_comm] at h
    exact Nat.lt_of_mul_lt_mul_right h
  have hup : roundUp g x ≤ x+(g-1) := roundUp_le
  rw [Nat.mul_add, Nat.mul_one] at hle
  omega

end RoundUp

/-- Where blobs of these sizes go, from the cursor `pos` on, when the cursor counts modulo `m`. -/
def placed (g m : ℕ) : ℕ → List ℕ → List Extent
  | _, [] => []
  | pos, n :: ns => ⟨pos,n⟩ :: placed g m (roundUp g (pos+n)%m) ns

/-- Each blob that has a byte gets a place below `m`. -/
def Fits (g m : ℕ) : ℕ → List ℕ → Prop
  | _, [] => True
  | pos, n :: ns => (n = 0 ∨ pos < m) ∧ Fits g m (roundUp g (pos+n)) ns

section Placed
variable {g m pos n : ℕ} {ns : List ℕ}

theorem map_length_placed : (placed g m pos ns).map Extent.length = ns := by
  induction ns generalizing pos with
  | nil => rfl
  | cons n ns ih =>
    show n :: _ = _
    rw [ih]

theorem length_mem_of_mem_placed {e : Extent} (h : e ∈ placed g m pos ns) : e.length ∈ ns := by
  have he := List.mem_map_of_mem (f := Extent.length) h
  rwa [map_length_placed] at he

/-- How far the blobs reach at most. -/
theorem end_le_of_mem_placed {e : Extent} (h : e ∈ placed g m pos ns) :
    e.start+e.length ≤ pos+ns.sum+ns.length*(g-1) := by
  induction ns generalizing pos with
  | nil => exact absurd h List.not_mem_nil
  | cons n ns ih =>
    rw [List.sum_cons, List.length_cons, Nat.add_mul, Nat.one_mul]
    rcases List.mem_cons.mp h with rfl | h
    · show pos+n ≤ _
      omega
    · have hmod := Nat.mod_le (roundUp g (pos+n)) m
      have hround := roundUp_le (g := g) (x := pos+n)
      have hih := ih h
      omega

theorem fits_of_empty (h : ∀ n ∈ ns, n = 0) : Fits g m pos ns := by
  induction ns generalizing pos with
  | nil => trivial
  | cons n ns ih =>
    exact ⟨Or.inl (h n List.mem_cons_self),ih fun k hk => h k (List.mem_cons_of_mem _ hk)⟩

/-- Past the end of the count only empty blobs fit. -/
theorem Fits.empty (hg : 0 < g) (h : Fits g m pos ns) (hpos : m ≤ pos) : ∀ n ∈ ns, n = 0 := by
  induction ns generalizing pos with
  | nil => exact fun n hn => absurd hn List.not_mem_nil
  | cons n ns ih =>
    have hnext : m ≤ roundUp g (pos+n) := by
      have := le_roundUp (x := pos+n) hg
      omega
    intro k hk
    rcases List.mem_cons.mp hk with rfl | hk
    · exact h.1.resolve_right (by omega)
    · exact ih h.2 hnext k hk

/-- Blobs that fit are placed from the cursor on. -/
theorem Fits.start_le (hg : 0 < g) (h : Fits g m pos ns) (hpos : pos < m) :
    ∀ e ∈ placed g m pos ns, e.length = 0 ∨ pos ≤ e.start := by
  induction ns generalizing pos with
  | nil => exact fun e he => absurd he List.not_mem_nil
  | cons n ns ih =>
    intro e he
    rcases List.mem_cons.mp he with rfl | he
    · exact Or.inr (Nat.le_refl _)
    · have hnext := le_roundUp (x := pos+n) hg
      by_cases hm : roundUp g (pos+n) < m
      · rw [Nat.mod_eq_of_lt hm] at he
        rcases ih h.2 hm e he with h0 | hle
        · exact Or.inl h0
        · exact Or.inr (by omega)
      · exact Or.inl (h.2.empty hg (by omega) _ (length_mem_of_mem_placed he))

/-- Blobs that fit do not overlap. -/
theorem Fits.pairwise (hg : 0 < g) (h : Fits g m pos ns) (hpos : pos < m) :
    (placed g m pos ns).Pairwise Extent.Apart := by
  induction ns generalizing pos with
  | nil => exact List.Pairwise.nil
  | cons n ns ih =>
    have hnext := le_roundUp (x := pos+n) hg
    by_cases hm : roundUp g (pos+n) < m
    · show (_ :: placed g m (roundUp g (pos+n)%m) ns).Pairwise Extent.Apart
      rw [Nat.mod_eq_of_lt hm]
      refine List.pairwise_cons.mpr ⟨?_,ih h.2 hm⟩
      intro e he
      rcases h.2.start_le hg hm e he with h0 | hle
      · exact (Extent.apart_of_length h0).symm
      · exact Extent.apart_of_le (by show pos+n ≤ e.start; omega)
    · -- the cursor wraps here, and what follows is empty
      have hempty : ∀ e ∈ placed g m (roundUp g (pos+n)%m) ns, e.length = 0 := by
        intro e he
        exact h.2.empty hg (by omega) _ (length_mem_of_mem_placed he)
      refine List.pairwise_cons.mpr ⟨fun e he => (Extent.apart_of_length (hempty e he)).symm,?_⟩
      apply List.pairwise_of_forall_mem_list
      intro e he e' _
      exact Extent.apart_of_length (hempty e he)

/-- Every multiple of the grain below `k` is taken. -/
def Filled (g k : ℕ) (taken : List Extent) : Prop := ∀ i < k, g ∣ i → ∃ e ∈ taken, i ∈ e

variable {taken : List Extent}

/-- Where all multiples are taken, only empty blobs are apart from what is there. -/
theorem Filled.empty (hgm : g ∣ m) (hm : 0 < m) (h : Filled g m taken)
    (hpos : g ∣ pos) (hlt : pos < m)
    (hapart : ∀ e ∈ taken, ∀ e' ∈ placed g m pos ns, e.Apart e') : ∀ n ∈ ns, n = 0 := by
  induction ns generalizing pos with
  | nil => exact fun n hn => absurd hn List.not_mem_nil
  | cons n ns ih =>
    intro k hk
    rcases List.mem_cons.mp hk with rfl | hk
    · by_contra h0
      obtain ⟨e,he,hmem⟩ := h pos hlt hpos
      exact hapart e he ⟨pos,k⟩ List.mem_cons_self pos hmem (Extent.start_mem h0)
    · have hnext : g ∣ roundUp g (pos+n)%m := (Nat.dvd_mod_iff hgm).mpr dvd_roundUp
      refine ih hnext (Nat.mod_lt _ hm) ?_ k hk
      exact fun e he e' he' => hapart e he e' (List.mem_cons_of_mem _ he')

/-- A blob at the cursor takes the multiples up to the next place. -/
theorem Filled.cons (hg : 0 < g) (h : Filled g pos taken) :
    Filled g (roundUp g (pos+n)) (⟨pos,n⟩ :: taken) := by
  intro i hi hdvd
  by_cases hpos : i < pos
  · obtain ⟨e,he,hmem⟩ := h i hpos hdvd
    exact ⟨e,List.mem_cons_of_mem _ he,hmem⟩
  · exact ⟨_,List.mem_cons_self,Nat.not_lt.mp hpos,lt_of_lt_roundUp hg hdvd hi⟩

/-- If nothing overlaps, the blobs fit. -/
theorem fits_of_apart (hg : 0 < g) (hgm : g ∣ m) (h : Filled g pos taken) (hpos : pos < m)
    (hapart : ∀ e ∈ taken, ∀ e' ∈ placed g m pos ns, e.Apart e')
    (hpw : (placed g m pos ns).Pairwise Extent.Apart) : Fits g m pos ns := by
  induction ns generalizing pos taken with
  | nil => trivial
  | cons n ns ih =>
    refine ⟨Or.inr hpos,?_⟩
    have hcover : Filled g (roundUp g (pos+n)) (⟨pos,n⟩ :: taken) := h.cons hg
    obtain ⟨hhead,htail⟩ := List.pairwise_cons.mp hpw
    have hnext : ∀ e ∈ (⟨pos,n⟩ : Extent) :: taken,
        ∀ e' ∈ placed g m (roundUp g (pos+n)%m) ns, e.Apart e' := by
      intro e he e' he'
      rcases List.mem_cons.mp he with rfl | he
      · exact hhead e' he'
      · exact hapart e he e' (List.mem_cons_of_mem _ he')
    by_cases hm : roundUp g (pos+n) < m
    · rw [Nat.mod_eq_of_lt hm] at hnext htail
      exact ih hcover hm hnext htail
    · -- the cursor wraps, and there is no room left below the end
      apply fits_of_empty
      apply Filled.empty hgm (by omega) (fun i hi => hcover i (by omega)) _
        (Nat.mod_lt _ (by omega)) hnext
      exact (Nat.dvd_mod_iff hgm).mpr dvd_roundUp

/-- Blobs behind a header overlap neither it nor each other if and only if they fit. -/
theorem pairwise_placed_iff (hg : 0 < g) (hgm : g ∣ m) (hpos : pos < m) :
    ((⟨0,pos⟩ : Extent) :: placed g m pos ns).Pairwise Extent.Apart ↔ Fits g m pos ns := by
  constructor
  · intro h
    obtain ⟨hhead,htail⟩ := List.pairwise_cons.mp h
    apply @fits_of_apart g m pos ns [⟨0,pos⟩] hg hgm _ hpos _ htail
    · intro i hi _
      exact ⟨_,List.mem_singleton_self _,Nat.zero_le _,by show i < 0+pos; omega⟩
    · intro e he
      rw [List.mem_singleton.mp he]
      exact hhead
  · intro h
    refine List.pairwise_cons.mpr ⟨?_,h.pairwise hg hpos⟩
    intro e he
    rcases h.start_le hg hpos e he with h0 | hstart
    · exact (Extent.apart_of_length h0).symm
    · exact Extent.apart_of_le (by show 0+pos ≤ e.start; omega)

end Placed

/-- Some bytes and the place they are copied to. -/
structure Blob (α : Type*) where
  place : ℕ
  bytes : List α

def Blob.extent {α : Type*} (b : Blob α) : Extent := ⟨b.place,b.bytes.length⟩

section Blobs
variable {α : Type*}

def spliceAll (buf : List α) : List (Blob α) → List α
  | [] => buf
  | b :: bs => spliceAll (splice buf b.place b.bytes) bs

/-- The blobs at their places. -/
def puts (g m : ℕ) : ℕ → List (List α) → List (Blob α)
  | _, [] => []
  | pos, b :: bs => ⟨pos,b⟩ :: puts g m (roundUp g (pos+b.length)%m) bs

/-- The blobs one after another, each filled up with zeros to the next place. -/
def stacked [Zero α] (g : ℕ) : ℕ → List (List α) → List α
  | _, [] => []
  | pos, b :: bs => b++(List.replicate (roundUp g (pos+b.length)-(pos+b.length)) 0++
      stacked g (roundUp g (pos+b.length)) bs)

variable {g m pos : ℕ} {buf : List α} {bs : List (Blob α)} {bytes : List (List α)}

theorem map_extent_puts :
    (puts g m pos bytes).map Blob.extent = placed g m pos (bytes.map List.length) := by
  induction bytes generalizing pos with
  | nil => rfl
  | cons b bs ih =>
    show (⟨pos,b.length⟩ : Extent) :: _ = _
    rw [ih]
    rfl

theorem bytes_mem_of_mem_puts {b : Blob α} (h : b ∈ puts g m pos bytes) : b.bytes ∈ bytes := by
  induction bytes generalizing pos with
  | nil => exact absurd h List.not_mem_nil
  | cons b' bs ih =>
    rcases List.mem_cons.mp h with rfl | h
    · exact List.mem_cons_self
    · exact List.mem_cons_of_mem _ (ih h)

theorem length_spliceAll (hin : ∀ b ∈ bs, b.place+b.bytes.length ≤ buf.length) :
    (spliceAll buf bs).length = buf.length := by
  induction bs generalizing buf with
  | nil => rfl
  | cons b bs ih =>
    have hb : (splice buf b.place b.bytes).length = buf.length :=
      length_splice (hin b List.mem_cons_self)
    show (spliceAll (splice buf b.place b.bytes) bs).length = _
    rw [ih fun b' hb' => by rw [hb]; exact hin b' (List.mem_cons_of_mem _ hb'), hb]

theorem spliceAll_append (bs' : List (Blob α)) :
    spliceAll buf (bs++bs') = spliceAll (spliceAll buf bs) bs' := by
  induction bs generalizing buf with
  | nil => rfl
  | cons b bs ih => exact ih

/-- Copies leave a range alone which is apart from all of them. -/
theorem slice_spliceAll_of_apart {e : Extent}
    (hin : ∀ b ∈ bs, b.place+b.bytes.length ≤ buf.length) (hapart : ∀ b ∈ bs, e.Apart b.extent) :
    slice (spliceAll buf bs) e.start e.length = slice buf e.start e.length := by
  induction bs generalizing buf with
  | nil => rfl
  | cons b bs ih =>
    have hb : b.place+b.bytes.length ≤ buf.length := hin b List.mem_cons_self
    have hrest : ∀ b' ∈ bs, b'.place+b'.bytes.length ≤ (splice buf b.place b.bytes).length := by
      intro b' hb'
      rw [length_splice hb]
      exact hin b' (List.mem_cons_of_mem _ hb')
    calc slice (spliceAll (splice buf b.place b.bytes) bs) e.start e.length
      _ = slice (splice buf b.place b.bytes) e.start e.length :=
        ih hrest fun b' hb' => hapart b' (List.mem_cons_of_mem _ hb')
      _ = slice buf e.start e.length :=
        slice_splice_of_apart hb fun k hlo hhi => hapart b List.mem_cons_self k ⟨hlo,hhi⟩

/-- After copies that do not overlap, each blob stands at its place. -/
theorem slice_spliceAll (hin : ∀ b ∈ bs, b.place+b.bytes.length ≤ buf.length)
    (hpw : (bs.map Blob.extent).Pairwise Extent.Apart) :
    ∀ b ∈ bs, slice (spliceAll buf bs) b.place b.bytes.length = b.bytes := by
  induction bs generalizing buf with
  | nil => exact fun b hb => absurd hb List.not_mem_nil
  | cons b bs ih =>
    have hb : b.place+b.bytes.length ≤ buf.length := hin b List.mem_cons_self
    have hrest : ∀ b' ∈ bs, b'.place+b'.bytes.length ≤ (splice buf b.place b.bytes).length := by
      intro b' hb'
      rw [length_splice hb]
      exact hin b' (List.mem_cons_of_mem _ hb')
    obtain ⟨hhead,htail⟩ := List.pairwise_cons.mp hpw
    intro b' hb'
    rcases List.mem_cons.mp hb' with rfl | hb'
    · calc slice (spliceAll (splice buf b'.place b'.bytes) bs) b'.place b'.bytes.length
        _ = slice (splice buf b'.place b'.bytes) b'.place b'.bytes.length := by
          apply slice_spliceAll_of_apart (e := b'.extent) hrest
          exact fun c hc => hhead c.extent (List.mem_map_of_mem hc)
        _ = b'.bytes := slice_splice_self hb
    · exact ih hrest htail b' hb'

theorem spliceAll_of_empty (h : ∀ b ∈ bs, b.bytes = []) : spliceAll buf bs = buf := by
  induction bs generalizing buf with
  | nil => rfl
  | cons b bs ih =>
    show spliceAll (splice buf b.place b.bytes) bs = buf
    rw [h b List.mem_cons_self, splice_nil]
    exact ih fun b' hb' => h b' (List.mem_cons_of_mem _ hb')

theorem length_stacked_le [Zero α] :
    (stacked g pos bytes).length ≤ (bytes.map List.length).sum+bytes.length*(g-1) := by
  induction bytes generalizing pos with
  | nil => exact Nat.zero_le _
  | cons b bs ih =>
    have hround := roundUp_le (g := g) (x := pos+b.length)
    have hih := @ih (roundUp g (pos+b.length))
    have hstacked : stacked g pos (b :: bs) = _++(_++_) := rfl
    rw [hstacked, List.length_append, List.length_append, List.length_replicate, List.map_cons,
      List.sum_cons, List.length_cons, Nat.add_mul, Nat.one_mul]
    omega

theorem stacked_of_empty [Zero α] (h : ∀ b ∈ bytes, b = []) :
    ∃ k, stacked g pos bytes = List.replicate k 0 := by
  induction bytes generalizing pos with
  | nil => exact ⟨0,rfl⟩
  | cons b bs ih =>
    obtain ⟨k,hk⟩ := @ih (roundUp g (pos+b.length)) fun b' hb' => h b' (List.mem_cons_of_mem _ hb')
    refine ⟨roundUp g (pos+b.length)-(pos+b.length)+k,?_⟩
    show b++_ = _
    rw [hk, h b List.mem_cons_self, List.nil_append, List.replicate_append_replicate]

/-- A blob that is copied to the start of zeros leaves zeros behind it, the first `pad` of which are
counted with it. -/
theorem splice_zeros [Zero α] {pre b : List α} {k pad : ℕ} (hpre : pre.length = pos)
    (hk : b.length+pad ≤ k) :
    splice (pre++List.replicate k 0) pos b =
      (pre++(b++List.replicate pad 0))++List.replicate (k-b.length-pad) 0 := by
  rw [splice_append hpre, List.drop_replicate, List.append_assoc, List.append_assoc,
    List.replicate_append_replicate]
  congr 5
  omega

/-- Past the end of the count nothing more is copied, and only zeros are stacked. -/
theorem spliceAll_past [Zero α] {pre : List α} {k q : ℕ} (hempty : ∀ b ∈ bytes, b = [])
    (hk : (stacked g pos bytes).length ≤ k) :
    spliceAll (pre++List.replicate k 0) (puts g m q bytes) =
      pre++(stacked g pos bytes++List.replicate (k-(stacked g pos bytes).length) 0) := by
  obtain ⟨j,hj⟩ := @stacked_of_empty α g pos bytes _ hempty
  rw [hj, List.length_replicate] at hk ⊢
  rw [List.replicate_append_replicate, spliceAll_of_empty]
  · congr 2
    omega
  · exact fun c hc => hempty _ (bytes_mem_of_mem_puts hc)

/-- Blobs that fit are copied into zeros just as they are stacked. -/
theorem spliceAll_puts [Zero α] {pre : List α} {k : ℕ} (hg : 0 < g)
    (h : Fits g m pos (bytes.map List.length)) (hpos : pos < m) (hpre : pre.length = pos)
    (hk : (stacked g pos bytes).length ≤ k) :
    spliceAll (pre++List.replicate k 0) (puts g m pos bytes) =
      pre++(stacked g pos bytes++List.replicate (k-(stacked g pos bytes).length) 0) := by
  induction bytes generalizing pos pre k with
  | nil => rfl
  | cons b bs ih =>
    have hle := le_roundUp (x := pos+b.length) hg
    have hfits := h.2
    show spliceAll (splice _ pos b) (puts g m (roundUp g (pos+b.length)%m) bs) = _
    have hstacked : stacked g pos (b :: bs) =
        b++(List.replicate (roundUp g (pos+b.length)-(pos+b.length)) 0++
          stacked g (roundUp g (pos+b.length)) bs) := rfl
    rw [hstacked, List.length_append, List.length_append, List.length_replicate] at hk ⊢
    change Fits g m (roundUp g (pos+b.length)) (bs.map List.length) at hfits
    -- the blob and its padding end where the next one starts
    generalize roundUp g (pos+b.length) = next at hle hfits hk ⊢
    generalize hpad : next-(pos+b.length) = pad at hk ⊢
    rw [splice_zeros hpre (by omega : b.length+pad ≤ k)]
    have hpre' : (pre++(b++List.replicate pad 0)).length = next := by
      rw [List.length_append, List.length_append, List.length_replicate]
      omega
    have hrest : spliceAll ((pre++(b++List.replicate pad 0))++List.replicate (k-b.length-pad) 0)
        (puts g m (next%m) bs) = (pre++(b++List.replicate pad 0))++(stacked g next bs++
          List.replicate (k-b.length-pad-(stacked g next bs).length) 0) := by
      -- a blob at or past the limit is empty, and the wrapped place does not matter
      by_cases hm : next < m
      · rw [Nat.mod_eq_of_lt hm]
        exact ih hfits hm hpre' (by omega)
      · apply spliceAll_past _ (by omega)
        intro b' hb'
        apply List.eq_nil_of_length_eq_zero
        exact hfits.empty hg (by omega) _ (List.mem_map_of_mem hb')
    have hzeros : k-b.length-pad-(stacked g next bs).length =
        k-(b.length+(pad+(stacked g next bs).length)) := by omega
    rw [hrest, hzeros]
    simp only [List.append_assoc]

end Blobs

end Zeldar
