import Mathlib.Data.List.Nodup
import Mathlib.Data.List.Induction

namespace Zeldar

/-- The two links of a node. -/
structure Link (α : Type) where
  next : α
  prev : α
  deriving DecidableEq, Repr

section DList

variable {α : Type} {get get' : α → Option (Link α)} {null : α}

/-- A segment entered at `h` from predecessor `p`, left at `q` from its last
node `l`; the empty segment is left where it is entered. -/
def DSeg (get : α → Option (Link α)) : α → α → List α → α → α → Prop
  | p,h,[],l,q => h = q ∧ l = p
  | p,h,x::xs,l,q => h = x ∧ ∃ n, get x = some ⟨n,p⟩ ∧ DSeg get x n xs l q

/-- `h` is the head of a well-formed list with exactly the nodes `xs`. -/
def DList (get : α → Option (Link α)) (null h : α) (xs : List α) : Prop :=
  null ∉ xs ∧ xs.Nodup ∧ ∃ l, DSeg get null h xs l null

theorem DSeg.append_iff {p h l q : α} {xs ys : List α} :
    DSeg get p h (xs++ys) l q ↔ ∃ k m, DSeg get p h xs k m ∧ DSeg get k m ys l q := by
  induction xs generalizing p h with
  | nil =>
    constructor
    · intro hs
      exact ⟨p,h,⟨rfl,rfl⟩,hs⟩
    · rintro ⟨k,m,⟨rfl,rfl⟩,hs⟩
      exact hs
  | cons x xs ih =>
    constructor
    · rintro ⟨hx,n,hget,hs⟩
      obtain ⟨k,m,h1,h2⟩ := ih.mp hs
      exact ⟨k,m,⟨hx,n,hget,h1⟩,h2⟩
    · rintro ⟨k,m,⟨hx,n,hget,h1⟩,h2⟩
      exact ⟨hx,n,hget,ih.mpr ⟨k,m,h1,h2⟩⟩

/-- A segment reads only its own nodes. -/
theorem DSeg.congr {p h l q : α} {xs : List α} (hs : DSeg get p h xs l q)
    (hget : ∀ x ∈ xs, get' x = get x) : DSeg get' p h xs l q := by
  induction xs generalizing p h with
  | nil => exact hs
  | cons x xs ih =>
    obtain ⟨hx,n,hn,hs'⟩ := hs
    refine ⟨hx,n,?_,ih hs' (fun y hy => hget y (List.mem_cons_of_mem _ hy))⟩
    rw [hget x List.mem_cons_self, hn]

theorem DSeg.get_isSome {p h l q : α} {xs : List α} (hs : DSeg get p h xs l q)
    {x : α} (hx : x ∈ xs) : (get x).isSome := by
  induction xs generalizing p h with
  | nil => exact absurd hx List.not_mem_nil
  | cons y ys ih =>
    obtain ⟨_,n,hn,hs'⟩ := hs
    rcases List.mem_cons.mp hx with rfl | hmem
    · rw [hn]
      rfl
    · exact ih hs' hmem

theorem DSeg.entry_mem {p h l q : α} {xs : List α} (hs : DSeg get p h xs l q)
    (hne : h ≠ q) : h ∈ xs := by
  cases xs with
  | nil => exact absurd hs.1 hne
  | cons x xs =>
    rw [hs.1]
    exact List.mem_cons_self

theorem DSeg.last_mem {p h l q : α} {xs : List α} (hs : DSeg get p h xs l q)
    (hne : l ≠ p) : l ∈ xs := by
  induction xs generalizing p h with
  | nil => exact absurd hs.2 hne
  | cons x xs ih =>
    obtain ⟨_,n,_,hs'⟩ := hs
    by_cases hx : l = x
    · rw [hx]
      exact List.mem_cons_self
    · exact List.mem_cons_of_mem _ (ih hs' hx)

/-- Redirecting the back link of the first node moves the segment under
another predecessor. -/
theorem DSeg.setPrev {p k h l q y : α} {ys : List α} (hs : DSeg get p h (y::ys) l q)
    (hy : get' y = (get y).map (fun c => { c with prev := k }))
    (hrest : ∀ z ∈ ys, get' z = get z) : DSeg get' k h (y::ys) l q := by
  obtain ⟨hh,n,hn,hs'⟩ := hs
  refine ⟨hh,n,?_,hs'.congr hrest⟩
  rw [hy, hn]
  rfl

/-- Redirecting the forward link of the last node moves the exit. -/
theorem DSeg.setNext {p h l q q' x : α} {xs : List α} (hs : DSeg get p h (xs++[x]) l q)
    (hx : get' x = (get x).map (fun c => { c with next := q' }))
    (hrest : ∀ z ∈ xs, get' z = get z) : DSeg get' p h (xs++[x]) x q' := by
  obtain ⟨k,m,h1,h2⟩ := DSeg.append_iff.mp hs
  obtain ⟨rfl,n,hn,_⟩ := h2
  refine DSeg.append_iff.mpr ⟨k,m,h1.congr hrest,rfl,q',?_,rfl,rfl⟩
  rw [hx, hn]
  rfl

/-- `get'` is `get` with a new first node `x` in front of the list at `h`. -/
structure PushedFront (get get' : α → Option (Link α)) (null h x : α) : Prop where
  new : get' x = some ⟨h,null⟩
  back : h ≠ null → get' h = (get h).map (fun c => { c with prev := x })
  rest : ∀ z, z ≠ x → (h ≠ null → z ≠ h) → get' z = get z

/-- `get'` is `get` without the node `x`, whose links were `n` and `k`. -/
structure Unlinked (get get' : α → Option (Link α)) (null x n k : α) : Prop where
  gone : get' x = none
  back : n ≠ null → get' n = (get n).map (fun c => { c with prev := k })
  forth : k ≠ null → get' k = (get k).map (fun c => { c with next := n })
  rest : ∀ z, z ≠ x → (n ≠ null → z ≠ n) → (k ≠ null → z ≠ k) → get' z = get z

theorem DList.nil (get : α → Option (Link α)) (null : α) : DList get null null [] :=
  ⟨List.not_mem_nil,List.nodup_nil,null,rfl,rfl⟩

theorem DList.pushFront {h x : α} {xs : List α} (hl : DList get null h xs)
    (hnull : x ≠ null) (hfresh : x ∉ xs) (hp : PushedFront get get' null h x) :
    DList get' null x (x::xs) := by
  obtain ⟨hnm,hnd,l,hs⟩ := hl
  refine ⟨?_,List.nodup_cons.mpr ⟨hfresh,hnd⟩,?_⟩
  · intro hmem
    rcases List.mem_cons.mp hmem with rfl | hmem
    · exact hnull rfl
    · exact hnm hmem
  cases xs with
  | nil =>
    obtain ⟨rfl,rfl⟩ := hs
    exact ⟨x,rfl,_,hp.new,rfl,rfl⟩
  | cons y ys =>
    have hy : h = y := hs.1
    subst hy
    have hhn : h ≠ null := fun e => hnm (e ▸ List.mem_cons_self)
    have hs' : DSeg get' x h (h::ys) l null := by
      refine hs.setPrev (hp.back hhn) ?_
      intro z hz
      refine hp.rest z ?_ ?_
      · exact fun e => hfresh (e ▸ List.mem_cons_of_mem _ hz)
      · exact fun _ e => (List.nodup_cons.mp hnd).1 (e ▸ hz)
    exact ⟨l,rfl,h,hp.new,hs'⟩

theorem DList.head_mem {h : α} {xs : List α} (hl : DList get null h xs) (hne : h ≠ null) :
    h ∈ xs := by
  obtain ⟨_,_,l,hs⟩ := hl
  exact hs.entry_mem hne

theorem DList.get_isSome {h x : α} {xs : List α} (hl : DList get null h xs) (hx : x ∈ xs) :
    (get x).isSome := by
  obtain ⟨_,_,l,hs⟩ := hl
  exact hs.get_isSome hx

/-- The links of a node of the list, and its two neighbours. -/
theorem DList.links {h x : α} {xs ys : List α} (hl : DList get null h (xs++x::ys)) :
    ∃ n k l, get x = some ⟨n,k⟩ ∧ DSeg get null h xs k x ∧ DSeg get x n ys l null := by
  obtain ⟨_,_,l,hs⟩ := hl
  obtain ⟨k,m,h1,h2⟩ := DSeg.append_iff.mp hs
  obtain ⟨rfl,n,hn,h3⟩ := h2
  exact ⟨n,k,l,hn,h1,h3⟩

/-- Unlinking any node, wherever it stands, leaves a well-formed list of the
others; only the removal of the first node moves the head. -/
theorem DList.unlink [DecidableEq α] {h x n k : α} {xs ys : List α}
    (hl : DList get null h (xs++x::ys)) (hx : get x = some ⟨n,k⟩)
    (hu : Unlinked get get' null x n k) :
    DList get' null (if k = null then n else h) (xs++ys) := by
  obtain ⟨n',k',l,hx',hfront,hback⟩ := hl.links
  obtain ⟨rfl,rfl⟩ : n = n' ∧ k = k' := by
    rw [hx] at hx'
    injection hx' with e
    exact ⟨congrArg Link.next e,congrArg Link.prev e⟩
  obtain ⟨hnm,hnd,_⟩ := hl
  have hmemx : ∀ z, z ∈ xs → z ∈ xs++x::ys := fun z hz => List.mem_append_left _ hz
  have hmemy : ∀ z, z ∈ ys → z ∈ xs++x::ys := fun z hz =>
    List.mem_append_right _ (List.mem_cons_of_mem _ hz)
  obtain ⟨hndx,hndxy,hdisj⟩ := List.nodup_append.mp hnd
  obtain ⟨hxy,hndy⟩ := List.nodup_cons.mp hndxy
  have hne : ∀ z ∈ xs, ∀ w ∈ ys, z ≠ w := fun z hz w hw =>
    hdisj z hz w (List.mem_cons_of_mem _ hw)
  have hxx : ∀ z ∈ xs, z ≠ x := fun z hz => hdisj z hz x List.mem_cons_self
  -- the nodes after x, entered now from its predecessor
  have htail : (∀ z ∈ ys, k ≠ null → z ≠ k) → ∃ l', DSeg get' k n ys l' null := by
    intro hk
    cases ys with
    | nil => exact ⟨k,hback.1,rfl⟩
    | cons y ys =>
      have hy : n = y := hback.1
      subst hy
      have hn : n ≠ null := fun e => hnm (e ▸ hmemy n List.mem_cons_self)
      refine ⟨l,hback.setPrev (hu.back hn) ?_⟩
      intro z hz
      refine hu.rest z ?_ ?_ (hk z (List.mem_cons_of_mem _ hz))
      · exact fun e => hxy (e ▸ List.mem_cons_of_mem _ hz)
      · exact fun _ e => (List.nodup_cons.mp hndy).1 (e ▸ hz)
  have hnull : null ∉ xs++ys := by
    intro hmem
    rcases List.mem_append.mp hmem with hz | hz
    · exact hnm (hmemx _ hz)
    · exact hnm (hmemy _ hz)
  have hnodup : (xs++ys).Nodup := List.nodup_append.mpr ⟨hndx,hndy,hne⟩
  refine ⟨hnull,hnodup,?_⟩
  rcases List.eq_nil_or_concat' xs with rfl | ⟨zs,z,rfl⟩
  · obtain ⟨_,rfl⟩ := hfront
    rw [if_pos rfl]
    exact htail (fun _ _ h => absurd rfl h)
  · -- the predecessor is the last of the nodes before x
    have hkz : k = z := by
      obtain ⟨k1,m,_,h2⟩ := DSeg.append_iff.mp hfront
      obtain ⟨_,n1,_,_,hk⟩ := h2
      exact hk
    subst hkz
    have hkmem : k ∈ zs++[k] := List.mem_append_right _ List.mem_cons_self
    have hk : k ≠ null := fun e => hnm (e ▸ hmemx k hkmem)
    obtain ⟨l',hl'⟩ := htail (fun w hw _ e => hne k hkmem w hw e.symm)
    rw [if_neg hk]
    refine ⟨l',DSeg.append_iff.mpr ⟨k,n,hfront.setNext (hu.forth hk) ?_,hl'⟩⟩
    intro w hw
    have hwmem : w ∈ zs++[k] := List.mem_append_left _ hw
    refine hu.rest w (hxx w hwmem) ?_ ?_
    · exact fun hn e => hne w hwmem n (hback.entry_mem hn) e
    · intro _ e
      have hd := (List.nodup_append.mp hndx).2.2
      exact hd w hw k List.mem_cons_self e

end DList

end Zeldar
