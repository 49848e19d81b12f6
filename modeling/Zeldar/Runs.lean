import Mathlib.Data.List.Induction
import Mathlib.Data.Set.Lattice
import Mathlib.Order.CompletePartialOrder

namespace Zeldar

section EveryStep
variable {A : Type*} {Q R : List A → A → Prop}

/-- The property holds of every step, given the steps before it. -/
def EveryStep (Q : List A → A → Prop) (steps : List A) : Prop :=
  ∀ before a after, steps = before++a :: after → Q before a

theorem everyStep_nil : EveryStep Q [] := by
  intro before a after h
  simp at h

/-- The last step is the only new one. -/
theorem everyStep_concat {steps : List A} {a : A} :
    EveryStep Q (steps++[a]) ↔ EveryStep Q steps ∧ Q steps a := by
  constructor
  · intro h
    refine ⟨?_,h steps a [] rfl⟩
    rintro before b after rfl
    exact h before b (after++[a]) (by simp)
  · rintro ⟨hs,ha⟩ before b after heq
    rcases List.eq_nil_or_concat after with rfl | ⟨mid,c,rfl⟩
    · -- the step is the last one
      obtain ⟨rfl,hb⟩ := List.append_inj' heq rfl
      rw [List.cons.injEq] at hb
      rw [← hb.1]
      exact ha
    · have heq' : steps++[a] = (before++b :: mid)++[c] := by simpa using heq
      exact hs before b mid (List.append_inj' heq' rfl).1

/-- Two properties agree along a run when they agree at each step to which the first one has
carried the invariant. -/
theorem everyStep_iff {I : List A → Prop} (h0 : I [])
    (hstep : ∀ steps a, I steps → (Q steps a ↔ R steps a))
    (hkeep : ∀ steps a, I steps → Q steps a → I (steps++[a])) (steps : List A) :
    EveryStep Q steps ↔ EveryStep R steps := by
  have hboth : (EveryStep Q steps ↔ EveryStep R steps) ∧ (EveryStep Q steps → I steps) := by
    induction steps using List.reverseRecOn with
    | nil => exact ⟨iff_of_true everyStep_nil everyStep_nil,fun _ => h0⟩
    | append_singleton steps a ih =>
      obtain ⟨hiff,hinv⟩ := ih
      rw [everyStep_concat, everyStep_concat]
      constructor
      · constructor
        · rintro ⟨hq,ha⟩
          exact ⟨hiff.mp hq,(hstep steps a (hinv hq)).mp ha⟩
        · rintro ⟨hr,ha⟩
          have hq := hiff.mpr hr
          exact ⟨hq,(hstep steps a (hinv hq)).mpr ha⟩
      · rintro ⟨hq,ha⟩
        exact hkeep steps a (hinv hq) ha
  exact hboth.1

end EveryStep

section Trace
variable {σ α ε : Type*}

/-- A step of a run: the state before it, what was done, and the state after it. -/
structure RunStep (σ α : Type*) where
  before : σ
  label : α
  after : σ

/-- The steps of a run, one after the other. -/
inductive Trace (f : σ → α → Except ε σ) : σ → List (RunStep σ α) → σ → Prop
  | nil (s : σ) : Trace f s [] s
  | cons {s s' t : σ} {a : α} {steps : List (RunStep σ α)} (h : f s a = .ok s')
      (ht : Trace f s' steps t) : Trace f s (⟨s,a,s'⟩ :: steps) t

variable {f : σ → α → Except ε σ} {t : σ} {steps : List (RunStep σ α)}

theorem trace_of_foldlM {l : List α} {s : σ} (h : l.foldlM f s = .ok t) :
    ∃ steps, steps.map RunStep.label = l ∧ Trace f s steps t := by
  induction l generalizing s with
  | nil =>
    cases h
    exact ⟨[],rfl,Trace.nil _⟩
  | cons a l ih =>
    cases ha : f s a with
    | error e => simp [List.foldlM_cons, ha, bind, Except.bind] at h
    | ok s' =>
      simp only [List.foldlM_cons, ha, bind, Except.bind] at h
      obtain ⟨steps,hl,ht⟩ := ih h
      exact ⟨⟨s,a,s'⟩ :: steps,by rw [List.map_cons, hl],Trace.cons ha ht⟩

variable {s : σ}

/-- What is done determines the run. -/
theorem Trace.unique {t' : σ} {steps' : List (RunStep σ α)} (h : Trace f s steps t)
    (h' : Trace f s steps' t') (hl : steps.map RunStep.label = steps'.map RunStep.label) :
    steps = steps' ∧ t = t' := by
  induction h generalizing steps' with
  | nil s =>
    cases h' with
    | nil => exact ⟨rfl,rfl⟩
    | cons => cases hl
  | cons hs _ ih =>
    cases h' with
    | nil => cases hl
    | cons hs' ht' =>
      simp only [List.map_cons, List.cons.injEq] at hl
      obtain ⟨rfl,hl⟩ := hl
      obtain rfl := Except.ok.inj (hs.symm.trans hs')
      obtain ⟨rfl,rfl⟩ := ih ht' hl
      exact ⟨rfl,rfl⟩

theorem Trace.mem (h : Trace f s steps t) {x : RunStep σ α} (hx : x ∈ steps) :
    f x.before x.label = .ok x.after := by
  induction h with
  | nil s => cases hx
  | cons hs _ ih =>
    rcases List.mem_cons.mp hx with rfl | hx
    · exact hs
    · exact ih hx

/-- What every step keeps holds before every step, and at last. -/
theorem Trace.invariant {I : σ → Prop} (h : Trace f s steps t) (h0 : I s)
    (hstep : ∀ x ∈ steps, I x.before → f x.before x.label = .ok x.after → I x.after) :
    (∀ x ∈ steps, I x.before) ∧ I t := by
  induction h with
  | nil s => exact ⟨fun x hx => absurd hx List.not_mem_nil,h0⟩
  | cons hs _ ih =>
    obtain ⟨hall,hlast⟩ := ih (hstep _ List.mem_cons_self h0 hs)
      fun x hx => hstep x (List.mem_cons_of_mem _ hx)
    refine ⟨fun x hx => ?_,hlast⟩
    rcases List.mem_cons.mp hx with rfl | hx
    · exact h0
    · exact hall x hx

/-- A list to which each step adds at most one element holds, at last, what it held at first and
then the elements of the steps in order. -/
theorem Trace.recorded {γ : Type*} {record : σ → List γ} {added : RunStep σ α → Option γ}
    (h : Trace f s steps t)
    (hstep : ∀ x ∈ steps, f x.before x.label = .ok x.after →
      record x.after = record x.before++(added x).toList) :
    record t = record s++steps.filterMap added := by
  induction h with
  | nil s => rw [List.filterMap_nil, List.append_nil]
  | @cons s s' t a steps hs _ ih =>
    have hfirst : record s' = record s++(added ⟨s,a,s'⟩).toList := hstep _ List.mem_cons_self hs
    rw [ih fun x hx => hstep x (List.mem_cons_of_mem _ hx), hfirst, List.append_assoc]
    cases ha : added ⟨s,a,s'⟩ with
    | none => rw [List.filterMap_cons_none ha, Option.toList_none, List.nil_append]
    | some c => rw [List.filterMap_cons_some ha, Option.toList_some, List.singleton_append]

/-- What a step brings about and all later ones keep relates it to every later one. -/
theorem Trace.pairwise {P : RunStep σ α → σ → Prop} {R : RunStep σ α → RunStep σ α → Prop}
    (h : Trace f s steps t)
    (hinit : ∀ x ∈ steps, f x.before x.label = .ok x.after → P x x.after)
    (hkeep : ∀ x ∈ steps, ∀ y ∈ steps, P x y.before → f y.before y.label = .ok y.after →
      P x y.after)
    (hR : ∀ x ∈ steps, ∀ y ∈ steps, P x y.before → R x y) : steps.Pairwise R := by
  induction h with
  | nil s => exact List.Pairwise.nil
  | cons hs ht ih =>
    refine List.pairwise_cons.mpr ⟨?_,?_⟩
    · -- the relation to the first step is an invariant of the rest
      have hfirst := hinit _ List.mem_cons_self hs
      have hall := (ht.invariant hfirst fun y hy =>
        hkeep _ List.mem_cons_self y (List.mem_cons_of_mem _ hy)).1
      exact fun y hy => hR _ List.mem_cons_self y (List.mem_cons_of_mem _ hy) (hall y hy)
    · apply ih
      · exact fun x hx => hinit x (List.mem_cons_of_mem _ hx)
      · exact fun x hx y hy => hkeep x (List.mem_cons_of_mem _ hx) y (List.mem_cons_of_mem _ hy)
      · exact fun x hx y hy => hR x (List.mem_cons_of_mem _ hx) y (List.mem_cons_of_mem _ hy)

end Trace

section Owned
variable {σ α ε A V : Type*} {f : σ → α → Except ε σ} {s t : σ} {steps : List (RunStep σ α)}
  {mem : σ → A → V} {owned : RunStep σ α → Set A}
  (hf : ∀ x ∈ steps, ∀ a, a ∉ owned x → mem x.after a = mem x.before a)
include hf

/-- What no step owns stays as it is. -/
theorem Trace.off (h : Trace f s steps t) {a : A} (ha : ∀ x ∈ steps, a ∉ owned x) :
    mem t a = mem s a := by
  induction h with
  | nil s => rfl
  | cons hs _ ih =>
    have hrest := ih (fun x hx => hf x (List.mem_cons_of_mem _ hx))
      fun x hx => ha x (List.mem_cons_of_mem _ hx)
    exact hrest.trans (hf _ List.mem_cons_self a (ha _ List.mem_cons_self))

/-- A step's own places are before it what they were at first, and after it what they are at
last. -/
theorem Trace.kept (h : Trace f s steps t)
    (hd : steps.Pairwise fun x y => Disjoint (owned x) (owned y)) {x : RunStep σ α}
    (hx : x ∈ steps) {a : A} (ha : a ∈ owned x) :
    mem x.before a = mem s a ∧ mem t a = mem x.after a := by
  induction h with
  | nil s => cases hx
  | cons hs ht ih =>
    obtain ⟨hfirst,hrest⟩ := List.pairwise_cons.mp hd
    have hf' := fun y hy => hf y (List.mem_cons_of_mem _ hy)
    rcases List.mem_cons.mp hx with rfl | hx
    · refine ⟨rfl,?_⟩
      apply Trace.off hf' ht
      intro y hy hay
      exact Set.disjoint_left.mp (hfirst y hy) ha hay
    · obtain ⟨hbefore,hafter⟩ := ih hf' hrest hx
      refine ⟨hbefore.trans ?_,hafter⟩
      -- the first step does not own it
      apply hf _ List.mem_cons_self
      exact fun hay => Set.disjoint_left.mp (hfirst x hx) hay ha

end Owned

end Zeldar
