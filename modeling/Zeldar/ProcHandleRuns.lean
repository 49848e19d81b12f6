import Zeldar.ProcHandle
import Mathlib.Logic.Relation
import Mathlib.Algebra.Order.BigOperators.Group.Finset

namespace Zeldar.ProcHandle

section Invariant
variable {ι κ : Type} [DecidableEq ι] {k : IpcKernel ι κ} {v₀ : View ι} {st st' : State ι κ} {i : ι}
  {e : Event} {c : Call} {s : κ}

/-- `s_Handle` is a handle of the process, unless the failed query of a call that is still under
way has left something else there, or nothing has been written yet. -/
def State.Settled (v : View ι) (st : State ι κ) : Prop :=
  v.table st.sHandle = some .process ∨ (∃ j, (st.call j).Unsettled) ∨
    st.sHandle = invalidHandle ∧ ∀ j, (st.call j).caller.Unwritten

structure Inv (k : IpcKernel ι κ) (v₀ : View ι) (st : State ι κ) : Prop where
  calls : ∀ i, Local (k.view st.kernel) i (st.call i)
  settled : st.Settled (k.view st.kernel)
  others : ∀ h, (k.view st.kernel).table h = some .other ↔ v₀.table h = some .other

omit [DecidableEq ι] in
/-- A caller that has not written has no receiver. -/
theorem Local.absent {v : View ι} {t : Receiver} {a : Caller} (h : Local v i ⟨a,t⟩)
    (ha : a.Unwritten) : t = .absent := by
  cases a with
  | test | query => exact h.phase
  | _ => cases ha

/-- Only the receiver settles what a failed query has left. -/
theorem unsettled_step {v : View ι} (h : Local v i c) {c' : Call} (hs : CallStep c e c')
    (hp : v.Permits e) (hu : c.Unsettled) : c'.Unsettled := by
  cases hs with
  | queried _ _ | threadClosed => cases hu
  | sessionCreated _ _ | sent | answered _ | clientClosed => exact hu
  | threadCreated _ | started => trivial
  | @waited thread t =>
    -- the thread is waited for until it is gone
    have hexited : t = .exited := (h.step .waited hp).phase
    rw [hexited] at hu
    cases hu
  | @received a _ _ => cases a <;> exact hu
  | @sessionClosed a _ => cases a <;> cases hu
  | @exited a => cases a <;> cases hu

theorem State.Settled.kernel {v : View ι} (h : st.Settled v) (hl : Local v i (st.call i))
    (hs : CallStep (st.call i) e c) (hp : v.Permits e) :
    State.Settled (v.next i e) { st with
      call := Function.update st.call i c
      sHandle := (e.writes (st.sHandle,st.behind)).1
      behind := (e.writes (st.sHandle,st.behind)).2
      kernel := s } := by
  have hown := hl.own hs
  -- only the query writes `s_Handle`
  by_cases hquery : ∃ r x, e = .queried r x
  · obtain ⟨r,x,rfl⟩ := hquery
    generalize hc : st.call i = c₀ at hs hl
    cases hs with
    | @queried t =>
      have habsent := hl.absent trivial
      by_cases hr : r = 0
      · refine Or.inl ?_
        change (v.next i (.queried r x)).table (x.setWidth 32) = _
        rw [View.next_queried, if_pos hr]
        exact Function.update_self _ _ _
      · refine Or.inr (Or.inl ⟨i,?_⟩)
        change (Function.update st.call i _ i).Unsettled
        rw [Function.update_self, if_neg hr, habsent]
        trivial
  · have hwrites : e.writes (st.sHandle,st.behind) = (st.sHandle,st.behind) := by
      cases e <;> first | rfl | exact absurd ⟨_,_,rfl⟩ hquery
    rw [hwrites]
    rcases h with h | ⟨j,hj⟩ | ⟨-,hall⟩
    · exact Or.inl (next_process hp hown h)
    · refine Or.inr (Or.inl ⟨j,?_⟩)
      change (Function.update st.call i c j).Unsettled
      by_cases hji : j = i
      · rw [hji, Function.update_self]
        exact unsettled_step hl hs hp (hji ▸ hj)
      · rw [Function.update_of_ne hji]
        exact hj
    · -- a call that has not written does nothing but query
      have hi := hall i
      generalize st.call i = c₀ at hs hl hi
      cases hs with
      | queried r x => exact absurd ⟨r,x,rfl⟩ hquery
      | received _ | sessionClosed | exited => exact nomatch hl.absent hi
      | _ => cases hi

theorem State.Settled.local_step {v : View ι} {aborted : Option Result} (h : st.Settled v)
    (hnot : ¬(st.call i).Unsettled)
    (hw : st.sHandle = invalidHandle → (st.call i).caller.Unwritten → c.caller.Unwritten) :
    State.Settled v ⟨Function.update st.call i c,st.sHandle,st.behind,aborted,st.kernel⟩ := by
  rcases h with h | ⟨j,hj⟩ | ⟨hs,hall⟩
  · exact Or.inl h
  · refine Or.inr (Or.inl ⟨j,?_⟩)
    have hji : j ≠ i := fun he => hnot (he ▸ hj)
    change (Function.update st.call i c j).Unsettled
    rw [Function.update_of_ne hji]
    exact hj
  · refine Or.inr (Or.inr ⟨hs,fun j => ?_⟩)
    change (Function.update st.call i c j).caller.Unwritten
    by_cases hji : j = i
    · rw [hji, Function.update_self]
      exact hw hs (hall i)
    · rw [Function.update_of_ne hji]
      exact hall j

/-- What a step changes of the calls. -/
theorem Inv.update {sHandle : Handle} {behind : Word} {aborted : Option Result} (h : Inv k v₀ st)
    (hc : Local (k.view st.kernel) i c)
    (hsettled : State.Settled (k.view st.kernel)
      ⟨Function.update st.call i c,sHandle,behind,aborted,st.kernel⟩) :
    Inv k v₀ ⟨Function.update st.call i c,sHandle,behind,aborted,st.kernel⟩ := by
  refine ⟨fun j => ?_,hsettled,h.others⟩
  change Local _ j (Function.update st.call i c j)
  by_cases hj : j = i
  · rw [hj, Function.update_self]
    exact hc
  · rw [Function.update_of_ne hj]
    exact h.calls j

theorem Inv.kernel (hk : k.Sound) (h : Inv k v₀ st) (hs : CallStep (st.call i) e c)
    (hstep : k.step st.kernel i e s) :
    Inv k v₀ { st with
      call := Function.update st.call i c
      sHandle := (e.writes (st.sHandle,st.behind)).1
      behind := (e.writes (st.sHandle,st.behind)).2
      kernel := s } := by
  obtain ⟨hp,hview⟩ := hk hstep
  have hl := h.calls i
  have hown := hl.own hs
  refine ⟨fun j => ?_,?_,fun g => ?_⟩
  · change Local (k.view s) j (Function.update st.call i c j)
    rw [hview]
    by_cases hj : j = i
    · rw [hj, Function.update_self]
      exact hl.step hs hp
    · rw [Function.update_of_ne hj]
      exact (h.calls j).agrees (next_agrees hp hown hj) fun g => next_process hp hown
  · change State.Settled (k.view s) _
    rw [hview]
    exact h.settled.kernel hl hs hp
  · change (k.view s).table g = _ ↔ _
    rw [hview, ← h.others g]
    exact @next_table_iff _ _ i e _ hp hown .other nofun nofun g

theorem Inv.step (hk : k.Sound) (h : Inv k v₀ st) (hstep : Step k st st') : Inv k v₀ st' := by
  cases hstep with
  | @test i t hrun hi =>
    have hl := h.calls i
    rw [hi] at hl
    refine h.update hl.test (h.settled.local_step ?_ fun hw _ => ?_)
    · rw [hi]
      exact id
    · rw [if_pos hw]
      trivial
  | @load i t hrun hi =>
    have hl := h.calls i
    rw [hi] at hl
    refine h.update hl.load (h.settled.local_step ?_ fun _ hw => ?_)
    · rw [hi]
      exact id
    · rw [hi] at hw
      cases hw
  | @store i a session tls hrun hi =>
    have hl := h.calls i
    rw [hi] at hl
    exact h.update hl.store (Or.inl (hl.stored session tls rfl))
  | kernel i hrun hs hstep => exact h.kernel hk hs hstep
  | @abort i r s hrun hi hstep =>
    obtain ⟨hp,hview⟩ := hk hstep
    have hsame : k.view s = k.view st.kernel := hview
    refine ⟨fun j => ?_,?_,fun g => ?_⟩
    · exact hsame ▸ h.calls j
    · exact hsame ▸ h.settled
    · exact hsame ▸ h.others g

omit [DecidableEq ι] in
theorem Initial.inv (h : Initial (k.view st.kernel) st) : Inv k (k.view st.kernel) st := by
  refine ⟨fun j => ?_,Or.inr (Or.inr ⟨h.sHandle,fun j => ?_⟩),fun _ => Iff.rfl⟩
  · rw [h.call j]
    refine ⟨fun g part => iff_of_false (h.table g j part) List.not_mem_nil,rfl,fun m hm => ?_,
      fun _ => h.request j,nofun,iff_of_false ?_ nofun,nofun⟩
    · rw [h.request j] at hm
      cases hm
    · rw [h.ended j]
      exact Bool.false_ne_true
  · rw [h.call j]
    trivial

theorem Inv.run (hk : k.Sound) (h : Inv k v₀ st) (hrun : Relation.ReflTransGen (Step k) st st') :
    Inv k v₀ st' := by
  induction hrun with
  | refl => exact h
  | tail _ hstep ih => exact ih.step hk hstep

/-- A handle of the process stays one, whatever the calls do. -/
theorem Inv.process (hk : k.Sound) (h : Inv k v₀ st)
    (hrun : Relation.ReflTransGen (Step k) st st') {g : Handle}
    (hg : (k.view st.kernel).table g = some .process) :
    (k.view st'.kernel).table g = some .process := by
  induction hrun with
  | refl => exact hg
  | @tail st₁ st₂ hrun hstep ih =>
    have hinv := h.run hk hrun
    cases hstep with
    | test _ _ _ | load _ _ _ | store _ _ _ => exact ih
    | kernel i _ hs hstep =>
      obtain ⟨hp,hview⟩ := hk hstep
      change (k.view _).table g = _
      rw [hview]
      exact next_process hp ((hinv.calls i).own hs) ih
    | abort i _ _ hstep =>
      change (k.view _).table g = _
      rw [(hk hstep).2]
      exact ih

end Invariant

section Safety
variable {ι κ : Type} [DecidableEq ι] {k : IpcKernel ι κ} {st₀ st : State ι κ}

/-- The receiver has been created and has not ended. -/
def Receiver.Alive : Receiver → Prop
  | .absent | .exited => False
  | _ => True

/-- The caller is in `GetViaIpcTrick`, whose frame has the stack of the receiver. -/
def Caller.InTrick : Caller → Prop
  | .test | .query | .load | .returned _ => False
  | _ => True

theorem Call.Phase.inTrick {c : Call} (h : c.Phase) (ha : c.receiver.Alive) : c.caller.InTrick := by
  obtain ⟨a,t⟩ := c
  cases a with
  | test | query =>
    rw [show t = .absent from h] at ha
    exact ha
  | load | returned _ => rcases h with rfl | rfl <;> exact ha
  | _ => trivial

/-- A kernel that is its own view, and may fail at any time. -/
def viewKernel : IpcKernel ι (View ι) where
  step v i e v' := v.Permits e ∧ v' = v.next i e
  view v := v

theorem viewKernel_sound : (viewKernel : IpcKernel ι (View ι)).Sound := fun h => h

/-- Two calls, and no handle yet. -/
def twoCalls : State Bool (View Bool) where
  call _ := ⟨.test,.absent⟩
  sHandle := invalidHandle
  behind := 0
  aborted := none
  kernel := ⟨fun _ => none,fun _ => none,fun _ => false⟩

theorem twoCalls_initial : Initial (viewKernel.view twoCalls.kernel) twoCalls :=
  ⟨fun _ => rfl,rfl,rfl,fun _ _ _ => nofun,fun _ => rfl,fun _ => rfl⟩

end Safety

section Progress

def Caller.rank : Caller → ℕ
  | .test => 11
  | .query => 10
  | .createSession => 9
  | .createThread _ _ => 8
  | .startThread _ _ => 7
  | .send _ _ => 6
  | .sending _ _ => 5
  | .closeClient _ _ => 4
  | .wait _ => 3
  | .closeThread _ => 2
  | .load => 1
  | .returned _ => 0

def Receiver.rank : Receiver → ℕ
  | .absent => 5
  | .created _ => 5
  | .receive _ => 4
  | .store _ _ => 3
  | .close _ => 2
  | .exit => 1
  | .exited => 0

/-- How many steps are left of a call at most. -/
def Call.rank (c : Call) : ℕ := c.caller.rank+c.receiver.rank

/-- The caller has returned, and there is no receiver. -/
def Call.Over (c : Call) : Prop :=
  (∃ h, c.caller = .returned h) ∧ (c.receiver = .absent ∨ c.receiver = .exited)

theorem CallStep.rank {c c' : Call} {e : Event} (h : CallStep c e c')
    (hreceiver : ∀ server client, c.caller = .createThread server client →
      c.receiver = .absent) : c'.rank < c.rank := by
  cases h with
  | @queried t r x =>
    rw [Call.rank, Call.rank]
    dsimp only
    split <;> (simp only [Caller.rank]; omega)
  | @threadCreated server client t thread =>
    have ht : t = .absent := hreceiver server client rfl
    rw [ht]
    exact Nat.lt_succ_self 12
  | _ =>
    simp only [Call.rank, Caller.rank, Receiver.rank]
    omega

variable {ι κ : Type} [DecidableEq ι] {k : IpcKernel ι κ} {v₀ : View ι} {st st' : State ι κ}

section Waiting
variable {i : ι} {a : Caller} {t : Receiver} (hr : k.Returns) (hrun : st.aborted = none)
  (hc : st.call i = ⟨a,t⟩)
include hr hrun hc

/-- The receiver has a step, unless it waits for a request that can still come. -/
theorem receiver_progress (hl : Local (k.view st.kernel) i ⟨a,t⟩) (hs : t.Started)
    (hexited : t ≠ .exited)
    (hrequest : ∀ session, t = .receive session → (k.view st.kernel).request i ≠ none ∨
      ∀ h, (k.view st.kernel).table h ≠ some (.own i .client)) : ∃ st', Step k st st' := by
  cases t with
  | absent | created _ => cases hs
  | exited => exact absurd rfl hexited
  | receive session =>
    have htable := (hl.held session .server).mpr (List.mem_append_right _ List.mem_cons_self)
    rcases hr.receive htable (hrequest session rfl) with ⟨tls,s,hk⟩ | ⟨r,s,hk⟩
    · exact ⟨_,Step.kernel i hrun (hc ▸ CallStep.received tls) hk⟩
    · refine ⟨_,Step.abort i hrun ?_ hk⟩
      rw [hc]
      cases a <;> trivial
  | store session tls => exact ⟨_,Step.store i hrun hc⟩
  | close session =>
    obtain ⟨s,hk⟩ := hr.close st.kernel i session
    exact ⟨_,Step.kernel i hrun (hc ▸ CallStep.sessionClosed) hk⟩
  | exit =>
    obtain ⟨s,hk⟩ := hr.exit st.kernel i
    exact ⟨_,Step.kernel i hrun (hc ▸ CallStep.exited) hk⟩

/-- Of a call that is not over one of the two threads has a step. -/
theorem call_progress (hl : Local (k.view st.kernel) i ⟨a,t⟩) (hi : ¬Call.Over ⟨a,t⟩) :
    ∃ st', Step k st st' := by
  have hkernel : ∀ {e : Event} {c : Call}, CallStep ⟨a,t⟩ e c →
      (∃ s, k.step st.kernel i e s) → ∃ st', Step k st st' :=
    fun hs ⟨_,hk⟩ => ⟨_,Step.kernel i hrun (hc ▸ hs) hk⟩
  have habort : Call.Checks ⟨a,t⟩ → k.Fails st.kernel i → ∃ st', Step k st st' :=
    fun hchecks ⟨_,_,hk⟩ => ⟨_,Step.abort i hrun (hc ▸ hchecks) hk⟩
  have hphase := hl.phase
  cases a with
  | test => exact ⟨_,Step.test i hrun hc⟩
  | query =>
    obtain ⟨r,x,hk⟩ := hr.query st.kernel i
    exact hkernel (.queried r x) hk
  | createSession =>
    rcases hr.createSession st.kernel i with ⟨server,client,hk⟩ | hk
    · exact hkernel (.sessionCreated server client) hk
    · exact habort trivial hk
  | createThread server client =>
    rcases hr.createThread st.kernel i with ⟨thread,hk⟩ | hk
    · exact hkernel (.threadCreated thread) hk
    · exact habort trivial hk
  | startThread client thread =>
    obtain ⟨server,rfl⟩ : ∃ server, t = .created server := hphase
    rcases hr.start st.kernel i thread with hk | hk
    · exact hkernel .started hk
    · exact habort trivial hk
  | send client thread => exact hkernel .sent (hr.send _ _ _ _)
  | sending client thread =>
    by_cases hexited : t = .exited
    · -- the server end is closed, and the request is answered
      have hclient := (hl.held client .client).mpr List.mem_cons_self
      obtain ⟨r,hk⟩ := hr.answer hclient fun h hh => by
        have hmem := (hl.held h .server).mp hh
        rw [hexited] at hmem
        simp only [Call.held, Caller.held, Receiver.held, List.append_nil, List.mem_cons,
          Prod.mk.injEq, reduceCtorEq, and_false, List.not_mem_nil, or_false] at hmem
      exact hkernel (.answered r) hk
    · refine receiver_progress hr hrun hc hl hphase hexited fun session hs => Or.inl ?_
      exact hl.pending client thread session (congrArg (Call.mk _) hs)
  | closeClient client thread => exact hkernel .clientClosed (hr.close _ _ _)
  | wait thread =>
    by_cases hexited : t = .exited
    · have hthread := (hl.held thread .thread).mpr List.mem_cons_self
      rcases hr.wait hthread (hl.ended.mpr hexited) with hk | hk
      · exact hkernel .waited hk
      · exact habort trivial hk
    · refine receiver_progress hr hrun hc hl hphase hexited fun session hs => Or.inr fun h hh => ?_
      have hmem := (hl.held h .client).mp hh
      rw [hs] at hmem
      simp only [Call.held, Caller.held, Receiver.held, List.cons_append, List.nil_append,
        List.mem_cons, Prod.mk.injEq, reduceCtorEq, and_false, List.not_mem_nil, or_false] at hmem
  | closeThread thread => exact hkernel .threadClosed (hr.close _ _ _)
  | load => exact ⟨_,Step.load i hrun hc⟩
  | returned h => exact absurd ⟨⟨h,rfl⟩,hphase⟩ hi

end Waiting

section Bound
variable [Fintype ι]

/-- How many steps are left at most, the abort included. -/
def State.rank (st : State ι κ) : ℕ :=
  ∑ i, (st.call i).rank+if st.aborted = none then 1 else 0

theorem rank_update {i : ι} {c : Call} (h : c.rank < (st.call i).rank) :
    ∑ j, (Function.update st.call i c j).rank < ∑ j, (st.call j).rank := by
  refine Finset.sum_lt_sum (fun j _ => ?_) ⟨i,Finset.mem_univ i,?_⟩
  · by_cases hj : j = i
    · rw [hj, Function.update_self]
      exact h.le
    · rw [Function.update_of_ne hj]
  · rw [Function.update_self]
    exact h

theorem Inv.rank_step (h : Inv k v₀ st) (hstep : Step k st st') : st'.rank < st.rank := by
  cases hstep with
  | @test i t hrun hi =>
    refine Nat.add_lt_add_right (rank_update ?_) _
    rw [hi, Call.rank, Call.rank]
    split <;> (simp only [Caller.rank]; omega)
  | @load i t hrun hi =>
    refine Nat.add_lt_add_right (rank_update ?_) _
    rw [hi]
    simp only [Call.rank, Caller.rank]
    omega
  | @store i a session tls hrun hi =>
    refine Nat.add_lt_add_right (rank_update ?_) _
    rw [hi]
    exact Nat.lt_succ_self _
  | @kernel i e c s hrun hs hstep =>
    refine Nat.add_lt_add_right (rank_update (hs.rank fun server client hc => ?_)) _
    have hphase := (h.calls i).phase
    rw [Call.Phase, hc] at hphase
    exact hphase
  | abort i hrun _ _ =>
    rw [State.rank, State.rank, if_pos hrun, if_neg (Option.some_ne_none _)]
    exact Nat.lt_succ_self _

end Bound

/-- Every run ends, after at most 16 steps for each call and one for an abort; where it has ended
without an abort every call has returned, no receiver is left, and every handle made for a
call is closed. -/
theorem get_ends [Fintype ι] {st₀ : State ι κ} (hk : k.Sound) (hr : k.Returns)
    (hinit : Initial (k.view st₀.kernel) st₀) :
    (∀ st, Relation.ReflTransGen (Step k) st₀ st → (∀ st', ¬Step k st st') →
      st.aborted = none → (∀ i, (st.call i).Over) ∧
        ∀ h i part, (k.view st.kernel).table h ≠ some (.own i part)) ∧
    ∀ n (states : ℕ → State ι κ), states 0 = st₀ →
      (∀ m < n, Step k (states m) (states (m+1))) → n ≤ 16*Fintype.card ι+1 := by
  constructor
  · intro st hrun hstuck hnone
    have hinv := hinit.inv.run hk hrun
    have hover : ∀ i, (st.call i).Over := by
      intro i
      by_contra hi
      obtain ⟨st',hstep⟩ := call_progress hr hnone rfl (hinv.calls i) hi
      exact hstuck st' hstep
    refine ⟨hover,fun h i part hh => ?_⟩
    have hmem := ((hinv.calls i).held h part).mp hh
    obtain ⟨⟨g,hg⟩,ht⟩ := hover i
    rw [Call.held, hg] at hmem
    rcases ht with ht | ht <;> (rw [ht] at hmem; cases hmem)
  · intro n states h0 hsteps
    -- each step lowers the rank, which is 16 for each call at the start
    have hbound : ∀ m, m ≤ n → Inv k (k.view st₀.kernel) (states m) ∧
        (states m).rank+m ≤ st₀.rank := by
      intro m hm
      induction m with
      | zero =>
        rw [h0]
        exact ⟨hinit.inv,le_refl _⟩
      | succ m ih =>
        obtain ⟨hinv,hrank⟩ := ih (Nat.le_of_succ_le hm)
        have hlt := hinv.rank_step (hsteps m hm)
        exact ⟨hinv.step hk (hsteps m hm),by omega⟩
    have hstart : st₀.rank = 16*Fintype.card ι+1 := by
      have hall : ∀ i, (st₀.call i).rank = 16 := fun i => by
        rw [hinit.call i]
        rfl
      rw [State.rank, if_pos hinit.running, Finset.sum_const_nat fun i _ => hall i,
        Finset.card_univ, Nat.mul_comm]
    have hend := (hbound n le_rfl).2
    omega

theorem viewKernel_returns : (viewKernel : IpcKernel ι (View ι)).Returns := by
  have hfails : ∀ s i, (viewKernel : IpcKernel ι (View ι)).Fails s i := fun s i => ⟨1,_,nofun,rfl⟩
  constructor
  case query => exact fun _ _ => ⟨1,0,_,nofun,rfl⟩
  case createSession | createThread => exact fun _ _ => Or.inr (hfails _ _)
  case start => exact fun _ _ _ => Or.inr (hfails _ _)
  case send => exact fun _ _ _ _ => ⟨_,trivial,rfl⟩
  case answer => exact fun _ _ => ⟨0,_,trivial,rfl⟩
  case receive | wait => exact fun _ _ => Or.inr (hfails _ _)
  case close => exact fun _ _ _ => ⟨_,trivial,rfl⟩
  case exit => exact fun _ _ => ⟨_,trivial,rfl⟩

/-- The query of one call fails, and its receiver gets the handle; the other call finds it. -/
theorem get_ends_trick : ∃ st, Relation.ReflTransGen (Step viewKernel) twoCalls st ∧
    (∀ i, (st.call i).caller = .returned 7) ∧ (st.call true).receiver = .exited ∧
    (∀ i, (st.call i).Over) ∧
    ∀ h i part, (viewKernel.view st.kernel).table h ≠ some (.own i part) := by
  have hstart : Relation.ReflTransGen (Step viewKernel) twoCalls twoCalls := .refl
  have hquery := (hstart.tail (Step.test true rfl rfl)).tail
    (Step.kernel true rfl (.queried 1 0) ⟨nofun,rfl⟩)
  have hsession := hquery.tail (Step.kernel true rfl (.sessionCreated 4 5)
    ⟨⟨⟨by decide,rfl⟩,⟨by decide,rfl⟩,by decide⟩,rfl⟩)
  have hthread := hsession.tail (Step.kernel true rfl (.threadCreated 6) ⟨⟨by decide,rfl⟩,rfl⟩)
  have hstarted := hthread.tail (Step.kernel true rfl .started ⟨trivial,rfl⟩)
  have hsent := hstarted.tail (Step.kernel true rfl .sent ⟨trivial,rfl⟩)
  -- the message comes with the handle 7 in the place of the one that was sent
  have hreceived := hsent.tail (Step.kernel true rfl (.received ![0,0x80000000,2,7])
    ⟨⟨true,sendProcessHandleMessage,rfl,rfl,fun _ => ⟨by decide,rfl⟩⟩,rfl⟩)
  have hstored := hreceived.tail (Step.store true rfl rfl)
  have htest := hstored.tail (Step.test false rfl rfl)
  have hclosed := htest.tail (Step.kernel true rfl .sessionClosed ⟨trivial,rfl⟩)
  have hanswered := hclosed.tail (Step.kernel true rfl (.answered 0) ⟨trivial,rfl⟩)
  have hclient := hanswered.tail (Step.kernel true rfl .clientClosed ⟨trivial,rfl⟩)
  have hexited := hclient.tail (Step.kernel true rfl .exited ⟨trivial,rfl⟩)
  have hwaited := hexited.tail (Step.kernel true rfl .waited ⟨⟨true,rfl,rfl⟩,rfl⟩)
  have hgone := hwaited.tail (Step.kernel true rfl .threadClosed ⟨trivial,rfl⟩)
  have hend := (hgone.tail (Step.load false rfl rfl)).tail (Step.load true rfl rfl)
  refine ⟨_,hend,fun i => ?_,rfl,
    (get_ends viewKernel_sound viewKernel_returns twoCalls_initial).1 _ hend ?_ rfl⟩
  · cases i <;> rfl
  intro st' hstep
  cases hstep with
  | test i _ h | load i _ h | store i _ h => cases i <;> cases h
  | kernel i _ h _ => cases i <;> cases h
  | abort i _ h _ => cases i <;> cases h

end Progress

end Zeldar.ProcHandle
