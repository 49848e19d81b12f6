import Mathlib.Data.List.Basic

namespace Zeldar

section EventLog

variable {E : Type*} {p q : E → Prop} {need : E → List E → Prop}

/-- Somewhere in the log there is a `p` event, and at it or after it a `q` event. -/
def Followed (p q : E → Prop) (log : List E) : Prop :=
  ∃ newer older e f, log = newer++e :: older ∧ p e ∧ (f = e ∨ f ∈ newer) ∧ q f

/-- Every event of the log has what it needs in the part of the log after it. -/
def Provided (need : E → List E → Prop) (log : List E) : Prop :=
  ∀ later e earlier, log = later++e :: earlier → need e later

/-- What an event needs is not undone by later events. -/
def Persistent (need : E → List E → Prop) : Prop :=
  ∀ e later more, need e later → need e (more++later)

theorem Followed.append_left {log : List E} (h : Followed p q log) (more : List E) :
    Followed p q (more++log) := by
  obtain ⟨newer,older,e,f,rfl,hp,hf,hq⟩ := h
  refine ⟨more++newer,older,e,f,(List.append_assoc more newer _).symm,hp,?_,hq⟩
  exact hf.imp id (List.mem_append_right more)

theorem Followed.of_pair {e f : E} (hp : p e) (hq : q f) (newer older : List E) :
    Followed p q (newer++f :: e :: older) := by
  refine ⟨newer++[f],older,e,f,?_,hp,Or.inr ?_,hq⟩
  · rw [List.append_assoc, List.singleton_append]
  · exact List.mem_append_right newer (List.mem_singleton_self f)

theorem Followed.exists_right {log : List E} (h : Followed p q log) : ∃ f ∈ log, q f := by
  obtain ⟨newer,older,e,f,rfl,hp,hf,hq⟩ := h
  rcases hf with rfl | hf
  · exact ⟨f,List.mem_append_right newer List.mem_cons_self,hq⟩
  · exact ⟨f,List.mem_append_left _ hf,hq⟩

theorem provided_nil : Provided need [] := by
  intro later e earlier h
  simp at h

theorem Provided.cons {e : E} {log : List E} (he : need e []) (hp : Persistent need)
    (h : Provided need log) : Provided need (e :: log) := by
  intro later e' earlier heq
  cases later with
  | nil =>
    rw [List.nil_append, List.cons.injEq] at heq
    rw [← heq.1]
    exact he
  | cons f later =>
    rw [List.cons_append, List.cons.injEq] at heq
    exact hp e' later [f] (h later e' earlier heq.2)

/-- The newer part of a log may provide for everything in the older one. -/
theorem provided_append {newer older : List E} (hn : Provided need newer)
    (ho : ∀ later e earlier, older = later++e :: earlier → need e (newer++later)) :
    Provided need (newer++older) := by
  intro later e earlier h
  rw [List.append_eq_append_iff] at h
  rcases h with ⟨mid,hl,hold⟩ | ⟨mid,hnew,hrest⟩
  · -- the event is in the older part
    subst hl
    exact ho mid e earlier hold
  · -- the event is in the newer part, or the first of the older one
    cases mid with
    | nil =>
      rw [List.append_nil] at hnew
      rw [List.nil_append] at hrest
      subst hnew
      have := ho [] e earlier hrest.symm
      rwa [List.append_nil] at this
    | cons f mid =>
      rw [List.cons_append, List.cons.injEq] at hrest
      rw [← hrest.1] at hnew
      exact hn later e mid hnew

theorem Provided.append {newer older : List E} (hn : Provided need newer) (hp : Persistent need)
    (ho : Provided need older) : Provided need (newer++older) :=
  provided_append hn fun later e earlier h => hp e later newer (ho later e earlier h)

end EventLog

end Zeldar
