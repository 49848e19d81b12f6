import Mathlib.Order.MinMax
import Mathlib.Data.List.Basic
import Mathlib.Tactic.ByContra

namespace Zeldar

/-- The half-open interval from `lo` to `hi`. -/
structure Span (α : Type) where
  lo : α
  hi : α
  deriving DecidableEq, Repr

section Tiling

variable {α : Type} [LinearOrder α]

def Span.Mem (x : α) (t : Span α) : Prop := t.lo ≤ x ∧ x < t.hi

/-- No point lies in both spans. -/
def Span.Apart (t u : Span α) : Prop := ∀ x, ¬(t.Mem x ∧ u.Mem x)

theorem Span.Apart.symm {t u : Span α} (h : t.Apart u) : u.Apart t := fun x hx => h x hx.symm

theorem Span.apart_of_le {t u : Span α} (h : t.hi ≤ u.lo ∨ u.hi ≤ t.lo) : t.Apart u := by
  rintro x ⟨ht,hu⟩
  rcases h with h | h
  · exact absurd ht.2 (not_lt_of_ge (le_trans h hu.1))
  · exact absurd hu.2 (not_lt_of_ge (le_trans h ht.1))

/-- The part of a span inside `[a,b)`. -/
def Span.meet (a b : α) (t : Span α) : Span α := ⟨max t.lo a,min t.hi b⟩

/-- The spans lie end to end from `lo` to `hi`, and none is empty. -/
def Tiles : α → List (Span α) → α → Prop
  | lo,[],hi => lo = hi
  | lo,t::ts,hi => t.lo = lo ∧ t.lo < t.hi ∧ Tiles t.hi ts hi

instance decidableTiles : (lo : α) → (ts : List (Span α)) → (hi : α) → Decidable (Tiles lo ts hi)
  | lo,[],hi => inferInstanceAs (Decidable (lo = hi))
  | _,t::ts,hi =>
    @instDecidableAnd _ _ _ (@instDecidableAnd _ _ _ (decidableTiles t.hi ts hi))

/-- The nonempty parts of the spans inside `[a,b)`. -/
def clip (a b : α) (ts : List (Span α)) : List (Span α) :=
  (ts.map (Span.meet a b)).filter (fun t => t.lo < t.hi)

theorem Tiles.le {lo hi : α} {ts : List (Span α)} (h : Tiles lo ts hi) : lo ≤ hi := by
  induction ts generalizing lo with
  | nil => exact le_of_eq h
  | cons t ts ih =>
    obtain ⟨rfl,hlt,hts⟩ := h
    exact le_trans (le_of_lt hlt) (ih hts)

theorem Tiles.mem_bounds {lo hi : α} {ts : List (Span α)} (h : Tiles lo ts hi)
    {t : Span α} (ht : t ∈ ts) : lo ≤ t.lo ∧ t.lo < t.hi ∧ t.hi ≤ hi := by
  induction ts generalizing lo with
  | nil => exact absurd ht List.not_mem_nil
  | cons u ts ih =>
    obtain ⟨rfl,hlt,hts⟩ := h
    rcases List.mem_cons.mp ht with rfl | hmem
    · exact ⟨le_refl _,hlt,hts.le⟩
    · obtain ⟨hlo,hne,hhi⟩ := ih hts hmem
      exact ⟨le_trans (le_of_lt hlt) hlo,hne,hhi⟩

/-- The spans of a tiling cover exactly the interval. -/
theorem Tiles.covers {lo hi : α} {ts : List (Span α)} (h : Tiles lo ts hi) (x : α) :
    (∃ t ∈ ts, t.Mem x) ↔ lo ≤ x ∧ x < hi := by
  constructor
  · rintro ⟨t,ht,hx⟩
    obtain ⟨hlo,_,hhi⟩ := h.mem_bounds ht
    exact ⟨le_trans hlo hx.1,lt_of_lt_of_le hx.2 hhi⟩
  · induction ts generalizing lo with
    | nil =>
      rintro ⟨hlo,hhi⟩
      rw [h] at hlo
      exact absurd hhi (not_lt_of_ge hlo)
    | cons t ts ih =>
      obtain ⟨rfl,_,hts⟩ := h
      rintro ⟨hlo,hhi⟩
      by_cases hx : x < t.hi
      · exact ⟨t,List.mem_cons_self,hlo,hx⟩
      · obtain ⟨u,hu,hux⟩ := ih hts ⟨not_lt.mp hx,hhi⟩
        exact ⟨u,List.mem_cons_of_mem _ hu,hux⟩

/-- Every span of a tiling ends before the later ones start. -/
theorem Tiles.pairwise {lo hi : α} {ts : List (Span α)} (h : Tiles lo ts hi) :
    ts.Pairwise (fun t u => t.hi ≤ u.lo) := by
  induction ts generalizing lo with
  | nil => exact List.Pairwise.nil
  | cons t ts ih =>
    obtain ⟨_,_,hts⟩ := h
    exact List.Pairwise.cons (fun u hu => (hts.mem_bounds hu).1) (ih hts)

/-- The span after one that ends before the interval does starts at its end. -/
theorem Tiles.next {lo hi : α} {ts : List (Span α)} (h : Tiles lo ts hi)
    {t u : Span α} (ht : t ∈ ts) (hu : u ∈ ts) (hmem : u.Mem t.hi) : u.lo = t.hi := by
  induction ts generalizing lo with
  | nil => exact absurd ht List.not_mem_nil
  | cons v ts ih =>
    obtain ⟨_,hlt,hts⟩ := h
    rcases List.mem_cons.mp hu with rfl | hu'
    · rcases List.mem_cons.mp ht with rfl | ht'
      · exact absurd hmem.2 (lt_irrefl _)
      · obtain ⟨hlo,hne,_⟩ := hts.mem_bounds ht'
        exact absurd hmem.2 (not_lt_of_ge (le_trans hlo (le_of_lt hne)))
    · rcases List.mem_cons.mp ht with rfl | ht'
      · exact le_antisymm hmem.1 (hts.mem_bounds hu').1
      · exact ih hts ht' hu'

theorem Tiles.last {lo hi : α} {ts : List (Span α)} (h : Tiles lo ts hi) (hne : lo ≠ hi) :
    ∃ t ∈ ts, t.hi = hi := by
  induction ts generalizing lo with
  | nil => exact absurd h hne
  | cons t ts ih =>
    obtain ⟨_,_,hts⟩ := h
    by_cases hhi : t.hi = hi
    · exact ⟨t,List.mem_cons_self,hhi⟩
    · obtain ⟨u,hu,huhi⟩ := ih hts hhi
      exact ⟨u,List.mem_cons_of_mem _ hu,huhi⟩

theorem mem_clip {a b : α} {ts : List (Span α)} {u : Span α} (h : u ∈ clip a b ts) :
    ∃ t ∈ ts, u = t.meet a b ∧ u.lo < u.hi := by
  obtain ⟨hmem,hne⟩ := List.mem_filter.mp h
  obtain ⟨t,ht,rfl⟩ := List.mem_map.mp hmem
  exact ⟨t,ht,rfl,of_decide_eq_true hne⟩

theorem clip_cons (a b : α) (t : Span α) (ts : List (Span α)) :
    clip a b (t::ts) =
      if (t.meet a b).lo < (t.meet a b).hi then t.meet a b::clip a b ts else clip a b ts := by
  simp only [clip, List.map_cons, List.filter_cons, decide_eq_true_eq]

theorem clip_of_le {a b : α} (h : b ≤ a) (ts : List (Span α)) : clip a b ts = [] := by
  rw [List.eq_nil_iff_forall_not_mem]
  intro u hu
  obtain ⟨t,_,rfl,hne⟩ := mem_clip hu
  have hle : (t.meet a b).hi ≤ (t.meet a b).lo :=
    le_trans (min_le_right _ _) (le_trans h (le_max_right _ _))
  exact absurd hne (not_lt_of_ge hle)

/-- Beyond the first span, cutting from the left end of the interval or from
any point of that span is the same. -/
theorem Tiles.clip_congr {m hi : α} {ts : List (Span α)} (h : Tiles m ts hi)
    {a a' b : α} (ha : a ≤ m) (ha' : a' ≤ m) : clip a b ts = clip a' b ts := by
  have hmeet : ∀ t ∈ ts, t.meet a b = t.meet a' b := by
    intro t ht
    have hlo : m ≤ t.lo := (h.mem_bounds ht).1
    simp only [Span.meet, max_eq_left (le_trans ha hlo), max_eq_left (le_trans ha' hlo)]
  unfold clip
  rw [List.map_congr_left hmeet]

theorem Tiles.clip_past {m hi : α} {ts : List (Span α)} (h : Tiles m ts hi)
    {a b : α} (hb : b ≤ m) : clip a b ts = [] := by
  rw [List.eq_nil_iff_forall_not_mem]
  intro u hu
  obtain ⟨t,ht,rfl,hne⟩ := mem_clip hu
  have hlo : b ≤ t.lo := le_trans hb (h.mem_bounds ht).1
  have hle : (t.meet a b).hi ≤ (t.meet a b).lo :=
    le_trans (min_le_right _ _) (le_trans hlo (le_max_left _ _))
  exact absurd hne (not_lt_of_ge hle)

/-- The parts inside `[a,b)` begin with the rest of the span that holds `a`. -/
theorem Tiles.clip_start {lo hi : α} {ts : List (Span α)} (h : Tiles lo ts hi)
    {a b : α} (hab : a < b) {t : Span α} (ht : t ∈ ts) (hmem : t.Mem a) :
    clip a b ts = ⟨a,min t.hi b⟩::clip t.hi b ts := by
  induction ts generalizing lo with
  | nil => exact absurd ht List.not_mem_nil
  | cons v ts ih =>
    obtain ⟨_,hlt,hts⟩ := h
    rcases List.mem_cons.mp ht with rfl | ht'
    · have hmeet : t.meet a b = ⟨a,min t.hi b⟩ := by
        simp only [Span.meet, max_eq_right hmem.1]
      have hne : a < min t.hi b := lt_min hmem.2 hab
      have hempty : ¬(t.meet t.hi b).lo < (t.meet t.hi b).hi := by
        refine not_lt_of_ge (le_trans (min_le_left _ _) ?_)
        exact le_max_right _ _
      rw [clip_cons, clip_cons, if_neg hempty, hmeet, if_pos hne]
      rw [hts.clip_congr (le_of_lt hmem.2) (le_refl _)]
    · have hv : v.hi ≤ a := le_trans (hts.mem_bounds ht').1 hmem.1
      -- a span that ends before `a` has no part in either interval
      have hskip : ∀ c, a ≤ c → ¬(v.meet c b).lo < (v.meet c b).hi := by
        intro c hc
        refine not_lt_of_ge (le_trans (min_le_left _ _) ?_)
        exact le_trans hv (le_trans hc (le_max_right _ _))
      rw [clip_cons, clip_cons, if_neg (hskip a (le_refl _)),
        if_neg (hskip t.hi (le_of_lt hmem.2))]
      exact ih hts ht'

/-- A subinterval of a tiled interval is tiled by the parts inside it. -/
theorem Tiles.tiles_clip {lo hi : α} {ts : List (Span α)} (h : Tiles lo ts hi)
    {a b : α} (ha : lo ≤ a) (hab : a ≤ b) (hb : b ≤ hi) : Tiles a (clip a b ts) b := by
  induction ts generalizing lo a with
  | nil =>
    have hlo : lo = hi := h
    exact le_antisymm hab (le_trans hb (hlo ▸ ha))
  | cons t ts ih =>
    obtain ⟨rfl,hlt,hts⟩ := h
    rw [clip_cons]
    split
    · rename_i hne
      have hlo : (t.meet a b).lo = a := max_eq_right ha
      refine ⟨hlo,hne,?_⟩
      have hle : a ≤ t.hi := by
        have hne' := hne
        rw [hlo] at hne'
        exact le_of_lt (lt_of_lt_of_le hne' (min_le_left _ _))
      -- the first part ends with its span, or it is the last
      rcases le_total t.hi b with hcase | hcase
      · have hhi : (t.meet a b).hi = t.hi := min_eq_left hcase
        rw [hhi, hts.clip_congr hle (le_refl _)]
        exact ih hts (le_refl _) hcase
      · have hhi : (t.meet a b).hi = b := min_eq_right hcase
        rw [hhi, hts.clip_past hcase]
        rfl
    · rename_i hne
      -- the span ends before `a`
      have hempty : min t.hi b ≤ a := by
        have hlo : (t.meet a b).lo = a := max_eq_right ha
        have h2 := not_lt.mp hne
        rw [hlo] at h2
        exact h2
      rcases le_total t.hi b with hcase | hcase
      · rw [min_eq_left hcase] at hempty
        exact ih hts hempty hab
      · rw [min_eq_right hcase] at hempty
        rw [hts.clip_past hcase]
        exact le_antisymm hab hempty

/-- Without its last span a tiling ends where that one starts. -/
theorem Tiles.of_concat {lo hi : α} {ts : List (Span α)} {t : Span α}
    (h : Tiles lo (ts++[t]) hi) : Tiles lo ts t.lo ∧ t.lo < hi := by
  induction ts generalizing lo with
  | nil =>
    obtain ⟨hlo,hlt,hhi⟩ := h
    have hhi : t.hi = hi := hhi
    exact ⟨hlo.symm,hhi ▸ hlt⟩
  | cons u ts ih =>
    obtain ⟨hlo,hlt,hrest⟩ := h
    obtain ⟨hts,ht⟩ := ih hrest
    exact ⟨⟨hlo,hlt,hts⟩,ht⟩

/-- The smallest interval around some spans. -/
structure Hull (ts : List (Span α)) (t : Span α) : Prop where
  contains : ∀ u ∈ ts, t.lo ≤ u.lo ∧ u.hi ≤ t.hi
  smallest : ∀ t' : Span α, (∀ u ∈ ts, t'.lo ≤ u.lo ∧ u.hi ≤ t'.hi) → t'.lo ≤ t.lo ∧ t.hi ≤ t'.hi

theorem hull_singleton (u : Span α) : Hull [u] u := by
  constructor
  · intro v hv
    rw [List.mem_singleton.mp hv]
    exact ⟨le_refl _,le_refl _⟩
  · intro t' h
    exact h u (List.mem_singleton_self u)

theorem Hull.append {ts : List (Span α)} {t : Span α} (h : Hull ts t) (u : Span α) :
    Hull (ts++[u]) ⟨min t.lo u.lo,max t.hi u.hi⟩ := by
  constructor
  · intro v hv
    rcases List.mem_append.mp hv with hv | hv
    · obtain ⟨hlo,hhi⟩ := h.contains v hv
      exact ⟨le_trans (min_le_left _ _) hlo,le_trans hhi (le_max_left _ _)⟩
    · rw [List.mem_singleton.mp hv]
      exact ⟨min_le_right _ _,le_max_right _ _⟩
  · intro t' ht'
    obtain ⟨hlo,hhi⟩ := h.smallest t' fun v hv => ht' v (List.mem_append_left _ hv)
    obtain ⟨hulo,huhi⟩ := ht' u (List.mem_append_right _ (List.mem_singleton_self u))
    exact ⟨le_min hlo hulo,max_le hhi huhi⟩

end Tiling

end Zeldar
