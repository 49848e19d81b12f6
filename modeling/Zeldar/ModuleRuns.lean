import Mathlib.Algebra.Group.Even
import Zeldar.ModuleFind

namespace Zeldar

/-- The runs of the three regions of a module, from every region of the list on. -/
def moduleRuns : List Region → List ModuleInfo
  | a::b::c::rest =>
    (if a.IsText ∧ b.IsRodata ∧ c.IsData then [moduleOf a b c] else [])++moduleRuns (b::c::rest)
  | _ => []

/-- The number of attempts that lie back to back at the end of a list of regions, given
in reverse: a text region alone, or with a rodata region after it. -/
def falseStarts : List Region → ℕ
  | a::rest =>
    if a.IsText then falseStarts rest+1
    else if a.IsRodata then
      match rest with
      | b::rest => if b.IsText then falseStarts rest+1 else 0
      | [] => 0
    else 0
  | [] => 0

/-- The runs that the scan comes to between two attempts. -/
def freshRuns (before : List Region) : List Region → List ModuleInfo
  | a::b::c::rest =>
    (if (a.IsText ∧ b.IsRodata ∧ c.IsData) ∧ Even (falseStarts before) then [moduleOf a b c]
      else [])++freshRuns (a::before) (b::c::rest)
  | _ => []

theorem freshRuns_skip {before : List Region} {a : Region} {rest : List Region}
    (h : ¬a.IsText ∨ ¬Even (falseStarts before)) :
    freshRuns before (a::rest) = freshRuns (a::before) rest := by
  match rest with
  | [] => rfl
  | [b] => rfl
  | b::c::rest =>
    rw [freshRuns, if_neg, List.nil_append]
    rintro ⟨⟨ha,_⟩,heven⟩
    exact h.elim (fun h => h ha) (fun h => h heven)

section FalseStarts

variable {before : List Region} {a b c : Region}

theorem falseStarts_text (ha : a.IsText) : falseStarts (a::before) = falseStarts before+1 := by
  rw [falseStarts.eq_def]
  exact if_pos ha

theorem falseStarts_rodata (ha : a.IsText) (hb : b.IsRodata) :
    falseStarts (b::a::before) = falseStarts before+1 := by
  have hnot : ¬b.IsText := fun h => h.not_isRodata hb
  rw [falseStarts.eq_def]
  simp only [hnot, hb, ha, ↓reduceIte]

/-- A region that cannot go on with an attempt. -/
theorem falseStarts_end (hb : ¬b.IsText) (h : ¬b.IsRodata ∨ ¬a.IsText) :
    falseStarts (b::a::before) = 0 := by
  rw [falseStarts.eq_def]
  by_cases hr : b.IsRodata
  · have ha := h.resolve_left (not_not_intro hr)
    simp only [hb, hr, ha, ↓reduceIte]
  · simp only [hb, hr, ↓reduceIte]

/-- Whatever ends an attempt, the scan is between two attempts after it. -/
theorem even_falseStarts_end {n : ℕ} (ha : falseStarts (a::before) = n+1) (hn : Even n)
    (hb : ¬b.IsRodata ∨ ¬a.IsText) : Even (falseStarts (b::a::before)) := by
  by_cases ht : b.IsText
  · rw [falseStarts_text ht, ha]
    exact (Nat.even_add_one.mpr (Nat.not_even_iff_odd.mpr (hn.add_one)))
  · rw [falseStarts_end ht hb]
    exact Even.zero

theorem even_falseStarts_skip (ha : ¬a.IsText) (h : Even (falseStarts before)) :
    Even (falseStarts (a::before)) := by
  match before with
  | [] =>
    rw [falseStarts.eq_def]
    simp [ha]
  | b::before =>
    by_cases hr : a.IsRodata ∧ b.IsText
    · rw [falseStarts_rodata hr.2 hr.1]
      rwa [falseStarts_text hr.2] at h
    · rw [falseStarts_end ha (not_and_or.mp hr)]
      exact Even.zero

end FalseStarts

/-- An attempt that gets to its third region. -/
theorem freshRuns_attempt {before : List Region} {a b : Region} (ha : a.IsText)
    (hb : b.IsRodata) (h : Even (falseStarts before)) (c : Region) (rest : List Region) :
    freshRuns before (a::b::c::rest) =
        (if c.IsData then [moduleOf a b c] else [])++freshRuns (c::b::a::before) rest ∧
      Even (falseStarts (c::b::a::before)) := by
  have hnot : ¬b.IsText := fun ht => ht.not_isRodata hb
  have hstart := @falseStarts_rodata before a b ha hb
  have hodd : ¬Even (falseStarts (b::a::before)) := by
    rw [hstart]
    exact Nat.not_even_iff_odd.mpr h.add_one
  constructor
  · rw [freshRuns, freshRuns_skip (Or.inl hnot), freshRuns_skip (Or.inr hodd)]
    congr 1
    by_cases hc : c.IsData
    · rw [if_pos hc, if_pos ⟨⟨ha,hb,hc⟩,h⟩]
    · rw [if_neg hc, if_neg (fun hall => hc hall.1.2.2)]
  · exact even_falseStarts_end hstart h (Or.inr hnot)

/-- The scan recognises the runs that it comes to between two attempts. -/
theorem recognised_eq (rs : List Region) {before : List Region}
    (h : Even (falseStarts before)) : recognised rs = freshRuns before rs := by
  induction rs using recognised.induct generalizing before with
  | case1 a b c rest ha ih =>
    rw [recognised, if_pos ha, freshRuns_skip (Or.inl ha)]
    exact ih (even_falseStarts_skip ha h)
  | case2 a b c rest ha hb ih =>
    have ha := not_not.mp ha
    -- the region that ends the attempt stands behind an odd number of starts
    have hodd : ¬Even (falseStarts (a::before)) := by
      rw [falseStarts_text ha]
      exact Nat.not_even_iff_odd.mpr h.add_one
    rw [recognised, if_neg (not_not_intro ha), if_pos hb, freshRuns, if_neg (fun hc => hb hc.1.2.1),
      List.nil_append, freshRuns_skip (Or.inr hodd)]
    exact ih (even_falseStarts_end (falseStarts_text ha) h (Or.inl hb))
  | case3 a b c rest ha hb hc ih =>
    obtain ⟨hruns,heven⟩ := freshRuns_attempt (not_not.mp ha) (not_not.mp hb) h c rest
    rw [recognised, if_neg ha, if_neg hb, if_pos hc, hruns, if_pos hc, ih heven]
    rfl
  | case4 a b c rest ha hb hc ih =>
    obtain ⟨hruns,heven⟩ := freshRuns_attempt (not_not.mp ha) (not_not.mp hb) h c rest
    rw [recognised, if_neg ha, if_neg hb, if_neg hc, hruns, if_neg hc, ih heven]
    rfl
  | case5 rs hshort =>
    rcases rs with _ | ⟨a,_ | ⟨b,_ | ⟨c,rest⟩⟩⟩
    · rfl
    · rfl
    · rfl
    · exact absurd rfl (hshort a b c rest)

theorem freshRuns_sublist (before rs : List Region) :
    (freshRuns before rs).Sublist (moduleRuns rs) := by
  induction rs using moduleRuns.induct generalizing before with
  | case1 a b c rest ih =>
    rw [freshRuns, moduleRuns]
    apply List.Sublist.append _ (ih (a::before))
    by_cases hrun : a.IsText ∧ b.IsRodata ∧ c.IsData
    · rw [if_pos hrun]
      split_ifs
      · exact List.Sublist.refl _
      · exact List.nil_sublist _
    · rw [if_neg (fun hall => hrun hall.1)]
      exact List.nil_sublist _
  | case2 rs hshort =>
    have hnil : freshRuns before rs = [] := by
      rw [freshRuns]
      exact hshort
    rw [hnil]
    exact List.nil_sublist _

/-- Every run of the list has an even number of false starts right before it. -/
def AllFresh (before rs : List Region) : Prop :=
  ∀ pre a b c post, rs = pre++a::b::c::post → a.IsText ∧ b.IsRodata ∧ c.IsData →
    Even (falseStarts (pre.reverse++before))

theorem allFresh_cons {before : List Region} {a b c : Region} {rest : List Region} :
    AllFresh before (a::b::c::rest) ↔
      (a.IsText ∧ b.IsRodata ∧ c.IsData → Even (falseStarts before)) ∧
        AllFresh (a::before) (b::c::rest) := by
  constructor
  · intro h
    refine ⟨h [] a b c rest rfl,?_⟩
    intro pre a' b' c' post heq hrun
    have := h (a::pre) a' b' c' post (by rw [heq]; rfl) hrun
    rwa [List.reverse_cons, List.append_assoc] at this
  · rintro ⟨hhead,htail⟩ pre a' b' c' post heq hrun
    cases pre with
    | nil =>
      injection heq with ha heq
      injection heq with hb heq
      injection heq with hc heq
      subst ha hb hc
      exact hhead hrun
    | cons x pre =>
      injection heq with ha heq
      subst ha
      have := htail pre a' b' c' post heq hrun
      rwa [List.reverse_cons, List.append_assoc]

/-- All runs are found exactly when each is come to between two attempts. -/
theorem freshRuns_eq_iff (before rs : List Region) :
    freshRuns before rs = moduleRuns rs ↔ AllFresh before rs := by
  induction rs using moduleRuns.induct generalizing before with
  | case1 a b c rest ih =>
    rw [allFresh_cons, freshRuns, moduleRuns]
    by_cases hrun : a.IsText ∧ b.IsRodata ∧ c.IsData
    · by_cases heven : Even (falseStarts before)
      · rw [if_pos ⟨hrun,heven⟩, if_pos hrun, List.append_cancel_left_eq, ih]
        exact ⟨fun h => ⟨fun _ => heven,h⟩,fun h => h.2⟩
      · -- a run that is missed is not made up for
        rw [if_neg (fun hall => heven hall.2), if_pos hrun, List.nil_append]
        constructor
        · intro h
          have hle := (freshRuns_sublist (a::before) (b::c::rest)).length_le
          rw [h, List.length_append, List.length_singleton] at hle
          omega
        · intro h
          exact absurd (h.1 hrun) heven
    · rw [if_neg (fun hall => hrun hall.1), if_neg hrun, List.nil_append, List.nil_append, ih]
      exact ⟨fun h => ⟨fun hall => absurd hall hrun,h⟩,fun h => h.2⟩
  | case2 rs hshort =>
    have hnil : freshRuns before rs = [] := by
      rw [freshRuns]
      exact hshort
    have hnil' : moduleRuns rs = [] := by
      rw [moduleRuns]
      exact hshort
    rw [hnil, hnil']
    refine ⟨fun _ => ?_,fun _ => rfl⟩
    intro pre a b c post heq
    -- fewer than three regions hold no run
    match pre, heq with
    | [],heq => exact absurd heq (hshort a b c post)
    | [x],heq => exact absurd heq (hshort x a b (c::post))
    | [x,y],heq => exact absurd heq (hshort x y a (b::c::post))
    | x::y::z::pre,heq => exact absurd heq (hshort x y z (pre++a::b::c::post))

/-- With room for all runs of a map, and the own module among them, the scan stores
exactly the runs if and only if it comes to each of them between two attempts. -/
theorem findModules_stores_runs_iff {l : MemoryMap} {query : Addr → Except Result Region}
    (hans : l.Answers query) {moduleStart : Addr} {fuel : ℕ}
    (hfuel : l.regions.length+1 ≤ fuel) (hfew : (moduleRuns l.regions).length < maxModules)
    (hown : ∃ m ∈ moduleRuns l.regions, m.total.start = moduleStart) :
    ((findModules query moduleStart fuel).1 = .ok () ∧
        (findModules query moduleStart fuel).2.recorded = moduleRuns l.regions) ↔
      AllFresh [] l.regions := by
  have hfound : recognised l.regions = freshRuns [] l.regions := recognised_eq _ Even.zero
  have hle := (freshRuns_sublist [] l.regions).length_le
  rw [← hfound] at hle
  obtain ⟨s,hs,hrecorded,p,hopen⟩ :=
    findModules_of_room hans moduleStart hfuel (lt_of_le_of_lt hle hfew)
  rw [hs, ← freshRuns_eq_iff, ← hfound, ← hrecorded]
  constructor
  · exact fun h => h.2
  · intro h
    rw [← h] at hown
    exact ⟨(hopen.assertions hown).1,h⟩

theorem findModules_stores_runs_iff_one :
    ((findModules oneModule.query 0x1000 6).1 = .ok () ∧
        (findModules oneModule.query 0x1000 6).2.recorded = moduleRuns oneModule.regions) ↔
      AllFresh [] oneModule.regions :=
  findModules_stores_runs_iff oneModule.query_answers (by decide) (by decide) (by decide)

/-- A text region alone, and two modules after it. -/
def looseText : MemoryMap := pageMap (pageText :: modulePages 2) (by decide)

/-- The first of the two modules is not stored. -/
theorem findModules_misses_run :
    (moduleRuns looseText.regions).length = 2 ∧
      (∃ m ∈ moduleRuns looseText.regions, m.total.start = 0x5000) ∧
      (findModules looseText.query 0x5000 10).1 = .ok () ∧
      (findModules looseText.query 0x5000 10).2.recorded ≠ moduleRuns looseText.regions := by
  refine ⟨by decide,by decide,rfl,?_⟩
  intro h
  exact absurd (congrArg List.length h) (by decide)

end Zeldar
