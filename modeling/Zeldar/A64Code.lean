import Zeldar.A64

/-! Runs through a piece of code. A core executes it from its start until it
first fetches an instruction from elsewhere, and where that is does not depend
on anything but the core and the code. -/
namespace Zeldar.A64

/-- The address lies in the code from `start` up to `stop`. -/
def Inside (start stop a : Addr) : Prop := (a-start).toNat < (stop-start).toNat

instance (start stop a : Addr) : Decidable (Inside start stop a) :=
  inferInstanceAs (Decidable (_ < _))

/-- At least one step leads from the first core to the second, and every instruction on the
way is one of the code from `start` to `stop`. -/
inductive Through (start stop : Addr) : Cpu → Cpu → Prop
  | last {c d : Cpu} (hin : Inside start stop c.pc) (hs : step c = some d) :
      Through start stop c d
  | cons {c d e : Cpu} (hin : Inside start stop c.pc) (hs : step c = some d)
      (hd : Through start stop d e) : Through start stop c e

/-- The code takes the core to `t` and nowhere else, with at most X17 changed. -/
structure LeavesFor (start stop t : Addr) (c : Cpu) : Prop where
  arrives : ∃ v, Through start stop c { c with pc := t, x := Function.update c.x 17 v }
  only : ∀ e, Through start stop c e → ¬Inside start stop e.pc → e.pc = t

/-- Every core with memory `m` runs through the code from `start` to its end at `stop`, and the
code leaves it as `f` says. -/
def Computes (m : Mem) (start stop : Addr) (f : Cpu → Cpu) : Prop :=
  ∀ c : Cpu, c.mem = m → c.pc = start → Through start stop c ((f c).goto stop)

section Through
variable {start stop t : Addr} {c d e : Cpu}

/-- The rest of a run through the code, once its first step is known. -/
theorem Through.tail (h : Through start stop c e) (hs : step c = some d) :
    e = d ∨ Inside start stop d.pc ∧ Through start stop d e := by
  cases h with
  | last _ hs' =>
    rw [hs, Option.some.injEq] at hs'
    exact Or.inl hs'.symm
  | cons _ hs' hd =>
    rw [hs, Option.some.injEq] at hs'
    subst hs'
    refine Or.inr ⟨?_,hd⟩
    cases hd <;> assumption

/-- Two runs through the code leave it with the same core. -/
theorem Through.unique (h : Through start stop c d) (hd : ¬Inside start stop d.pc)
    (h' : Through start stop c e) (he : ¬Inside start stop e.pc) : d = e := by
  induction h with
  | last _ hs =>
    rcases h'.tail hs with rfl | ⟨hin,-⟩
    · rfl
    · exact absurd hin hd
  | cons _ hs hr ih =>
    rcases h'.tail hs with rfl | ⟨-,h'⟩
    · -- the run cannot go on from a core outside the code
      cases hr <;> contradiction
    · exact ih hd h'

/-- A run through the code that ends outside says where the code takes the core. -/
theorem Through.leavesFor_iff {u : Addr} {v : BitVec 64} (hu : ¬Inside start stop u)
    (h : Through start stop c { c with pc := u, x := Function.update c.x 17 v }) :
    LeavesFor start stop t c ↔ t = u := by
  constructor
  · intro hl
    exact (hl.only _ h hu).symm
  · rintro rfl
    refine ⟨⟨v,h⟩,?_⟩
    intro e he hout
    rw [← h.unique hu he hout]

/-- A core that steps to itself goes through the code without end. -/
theorem Through.of_loop (h : Through start stop c e) (hs : step c = some c) : e = c := by
  induction h with
  | last _ hs' =>
    rw [hs, Option.some.injEq] at hs'
    exact hs'.symm
  | cons _ hs' _ ih =>
    rw [hs, Option.some.injEq] at hs'
    subst hs'
    exact ih hs

theorem leavesFor_iff_of_loop (hin : Inside start stop c.pc) (hs : step c = some c) :
    LeavesFor start stop t c ↔ t = c.pc := by
  constructor
  · rintro ⟨⟨v,hv⟩,-⟩
    exact congrArg Cpu.pc (hv.of_loop hs)
  · rintro rfl
    refine ⟨⟨c.x 17,?_⟩,?_⟩
    · rw [Function.update_eq_self]
      exact Through.last hin hs
    · intro e he _
      rw [he.of_loop hs]

end Through

section Computes
variable {m : Mem} {start stop : Addr} {f g : Cpu → Cpu}

/-- The code computes one function of the core. -/
theorem Computes.unique (hf : Computes m start stop f) (hg : Computes m start stop g) (c : Cpu)
    (hm : c.mem = m) (hc : c.pc = start) : (f c).goto stop = (g c).goto stop := by
  have hout : ¬Inside start stop stop := Nat.lt_irrefl _
  exact (hf c hm hc).unique hout (hg c hm hc) hout

/-- Some core tells two results in registers apart. -/
theorem Computes.setX_iff {r r' : BitVec 5} {v v' : BitVec 64}
    (h : Computes m start stop fun c => c.setX r v) :
    (Computes m start stop fun c => c.setX r' v') ↔ r = 31 ∧ r' = 31 ∨ r = r' ∧ v = v' := by
  constructor
  · intro h'
    -- no register of this core holds what the other function puts there
    have he := h.unique h' ⟨fun i => if i = r' then v'+1 else v+1,fun _ => 0,0,start,
      ⟨false,false,false,false⟩,m⟩ rfl rfl
    have hx (i : BitVec 5) := congrFun (congrArg Cpu.x he) i
    have hne (a : BitVec 64) : a+1 ≠ a := by bv_omega
    simp only [Cpu.goto, Cpu.setX] at hx
    by_cases hr' : r' = 31
    · by_cases hr : r = 31
      · exact Or.inl ⟨hr,hr'⟩
      · have h1 := hx r
        rw [if_neg hr, if_pos hr'] at h1
        simp only [Function.update_self] at h1
        split_ifs at h1 with he
        · exact absurd (he.trans hr') hr
        · exact absurd h1.symm (hne v)
    · have h1 := hx r'
      rw [if_neg hr'] at h1
      by_cases hrr : r = r'
      · subst hrr
        rw [if_neg hr'] at h1
        simp only [Function.update_self] at h1
        exact Or.inr ⟨rfl,h1⟩
      · split_ifs at h1
        · simp only [Function.update_self, ↓reduceIte] at h1
          exact absurd h1 (hne v')
        · simp only [Function.update_self, Function.update_of_ne (Ne.symm hrr), ↓reduceIte] at h1
          exact absurd h1 (hne v')
  · rintro (⟨rfl,rfl⟩ | ⟨rfl,rfl⟩)
    · exact h
    · exact h

end Computes

end Zeldar.A64
