import Zeldar.IpcKernel

namespace Zeldar.ProcHandle

section Model

/-- Where a caller of `Get` is; from `createSession` to `closeThread` in `GetViaIpcTrick`. -/
inductive Caller
  | test
  | query
  | createSession
  | createThread (server client : Handle)
  | startThread (client thread : Handle)
  | send (client thread : Handle)
  | sending (client thread : Handle)
  | closeClient (client thread : Handle)
  | wait (thread : Handle)
  | closeThread (thread : Handle)
  | load
  | returned (h : Handle)
  deriving DecidableEq

/-- Where `ReceiveProcessHandleThreadMain` is; `store` has what came into its TLS. -/
inductive Receiver
  | absent
  | created (session : Handle)
  | receive (session : Handle)
  | store (session : Handle) (tls : Message)
  | close (session : Handle)
  | exit
  | exited
  deriving DecidableEq

/-- A call of `Get`, and the thread that it starts. -/
structure Call where
  caller : Caller
  receiver : Receiver
  deriving DecidableEq

/-- A system call that one of the two makes has returned. -/
inductive CallStep : Call → Event → Call → Prop
  | queried {t : Receiver} (r : Result) (x : BitVec 64) :
      CallStep ⟨.query,t⟩ (.queried r x) ⟨if r = 0 then .load else .createSession,t⟩
  | sessionCreated {t : Receiver} (server client : Handle) :
      CallStep ⟨.createSession,t⟩ (.sessionCreated server client) ⟨.createThread server client,t⟩
  | threadCreated {server client : Handle} {t : Receiver} (thread : Handle) :
      CallStep ⟨.createThread server client,t⟩ (.threadCreated thread)
        ⟨.startThread client thread,.created server⟩
  | started {server client thread : Handle} :
      CallStep ⟨.startThread client thread,.created server⟩ (.started thread)
        ⟨.send client thread,.receive server⟩
  | sent {client thread : Handle} {t : Receiver} :
      CallStep ⟨.send client thread,t⟩ (.sent client sendProcessHandleMessage)
        ⟨.sending client thread,t⟩
  | answered {client thread : Handle} {t : Receiver} (r : Result) :
      CallStep ⟨.sending client thread,t⟩ (.answered client r) ⟨.closeClient client thread,t⟩
  | clientClosed {client thread : Handle} {t : Receiver} :
      CallStep ⟨.closeClient client thread,t⟩ (.closed client) ⟨.wait thread,t⟩
  | waited {thread : Handle} {t : Receiver} :
      CallStep ⟨.wait thread,t⟩ (.waited thread) ⟨.closeThread thread,t⟩
  | threadClosed {thread : Handle} {t : Receiver} :
      CallStep ⟨.closeThread thread,t⟩ (.closed thread) ⟨.load,t⟩
  | received {c : Caller} {server : Handle} (tls : Message) :
      CallStep ⟨c,.receive server⟩ (.received server tls) ⟨c,.store server tls⟩
  | sessionClosed {c : Caller} {server : Handle} :
      CallStep ⟨c,.close server⟩ (.closed server) ⟨c,.exit⟩
  | exited {c : Caller} : CallStep ⟨c,.exit⟩ .exited ⟨c,.exited⟩

/-- A system call whose result is under `R_ABORT_UNLESS`. -/
def Call.Checks (c : Call) : Prop :=
  match c.caller,c.receiver with
  | .createSession,_ | .createThread _ _,_ | .startThread _ _,_ | .wait _,_ => True
  | _,.receive _ => True
  | _,_ => False

structure State (ι κ : Type) where
  call : ι → Call
  /-- `s_Handle`, and the word behind it. -/
  sHandle : Handle
  behind : Word
  aborted : Option Result
  kernel : κ

/-- `GetViaMesosphere` has the 64 bits stored at `s_Handle`, whatever the result. -/
def Event.writes (old : Handle × Word) : Event → Handle × Word
  | .queried _ x => (x.setWidth 32,x.extractLsb' 32 32)
  | _ => old

variable {ι κ : Type} [DecidableEq ι]

inductive Step (k : IpcKernel ι κ) : State ι κ → State ι κ → Prop
  | test {st : State ι κ} (i : ι) {t : Receiver} (hrun : st.aborted = none)
      (h : st.call i = ⟨.test,t⟩) :
      Step k st { st with
        call := Function.update st.call i
          ⟨if st.sHandle = invalidHandle then .query else .load,t⟩ }
  | load {st : State ι κ} (i : ι) {t : Receiver} (hrun : st.aborted = none)
      (h : st.call i = ⟨.load,t⟩) :
      Step k st { st with call := Function.update st.call i ⟨.returned st.sHandle,t⟩ }
  | store {st : State ι κ} (i : ι) {c : Caller} {session : Handle} {tls : Message}
      (hrun : st.aborted = none) (h : st.call i = ⟨c,.store session tls⟩) :
      Step k st { st with
        call := Function.update st.call i ⟨c,.close session⟩
        sHandle := tls 3 }
  | kernel {st : State ι κ} (i : ι) {e : Event} {c : Call} {s : κ} (hrun : st.aborted = none)
      (h : CallStep (st.call i) e c) (hk : k.step st.kernel i e s) :
      Step k st { st with
        call := Function.update st.call i c
        sHandle := (e.writes (st.sHandle,st.behind)).1
        behind := (e.writes (st.sHandle,st.behind)).2
        kernel := s }
  | abort {st : State ι κ} (i : ι) {r : Result} {s : κ} (hrun : st.aborted = none)
      (h : (st.call i).Checks) (hk : k.step st.kernel i (.failed r) s) :
      Step k st { st with
        aborted := some r
        kernel := s }

/-- Before any call: the process has other handles, and may have handles of itself. -/
structure Initial (v : View ι) (st : State ι κ) : Prop where
  call : ∀ i, st.call i = ⟨.test,.absent⟩
  sHandle : st.sHandle = invalidHandle
  running : st.aborted = none
  table : ∀ h i part, v.table h ≠ some (.own i part)
  request : ∀ i, v.request i = none
  ended : ∀ i, v.ended i = false

end Model

section Phase

/-- The handles that a call has still to close. -/
def Caller.held : Caller → List (Handle × Part)
  | .createThread server client => [(server,.server),(client,.client)]
  | .startThread client thread | .send client thread | .sending client thread
  | .closeClient client thread => [(client,.client),(thread,.thread)]
  | .wait thread | .closeThread thread => [(thread,.thread)]
  | _ => []

def Receiver.held : Receiver → List (Handle × Part)
  | .created session | .receive session | .store session _ | .close session =>
    [(session,.server)]
  | _ => []

def Call.held (c : Call) : List (Handle × Part) := c.caller.held++c.receiver.held

def Receiver.Started : Receiver → Prop
  | .absent | .created _ => False
  | _ => True

/-- How far the receiver can be. -/
def Call.Phase (c : Call) : Prop :=
  match c.caller with
  | .test | .query | .createSession | .createThread _ _ => c.receiver = .absent
  | .startThread _ _ => ∃ session, c.receiver = .created session
  | .send _ _ => ∃ session, c.receiver = .receive session
  | .sending _ _ | .closeClient _ _ | .wait _ => c.receiver.Started
  | .closeThread _ => c.receiver = .exited
  | .load | .returned _ => c.receiver = .absent ∨ c.receiver = .exited

/-- No request has been sent. -/
def Caller.Unsent : Caller → Prop
  | .test | .query | .createSession | .createThread _ _ | .startThread _ _ | .send _ _ => True
  | _ => False

/-- The request has been sent, and the receiver is not known to be gone. -/
def Caller.Working : Caller → Prop
  | .sending _ _ | .closeClient _ _ | .wait _ => True
  | _ => False

/-- The query has failed, and the receiver has not stored the handle. -/
def Call.Unsettled (c : Call) : Prop :=
  match c.caller with
  | .createSession | .createThread _ _ | .startThread _ _ | .send _ _ | .sending _ _
  | .closeClient _ _ | .wait _ =>
    match c.receiver with
    | .absent | .created _ | .receive _ | .store _ _ => True
    | _ => False
  | _ => False

/-- A call that has not written anything yet. -/
def Caller.Unwritten : Caller → Prop
  | .test | .query => True
  | _ => False

theorem Call.Phase.working {a : Caller} {t : Receiver} (h : Call.Phase ⟨a,t⟩) (hs : t.Started)
    (hreceive : ∀ session, t ≠ .receive session) (hexited : t ≠ .exited) : a.Working := by
  cases a with
  | sending _ _ | closeClient _ _ | wait _ => trivial
  | test | query | createSession | createThread _ _ =>
    change t = .absent at h
    rw [h] at hs
    cases hs
  | startThread _ _ =>
    obtain ⟨session,rfl⟩ : ∃ session, t = .created session := h
    cases hs
  | send _ _ =>
    obtain ⟨session,ht⟩ : ∃ session, t = .receive session := h
    exact absurd ht (hreceive session)
  | closeThread _ => exact absurd h hexited
  | load | returned _ =>
    rcases h with rfl | h
    · cases hs
    · exact absurd h hexited

theorem Caller.Working.phase {a : Caller} {t : Receiver} (h : a.Working) (hs : t.Started) :
    Call.Phase ⟨a,t⟩ := by
  cases a <;> first | exact hs | cases h

theorem Caller.Working.held {a : Caller} (h : a.Working) : ∀ q ∈ a.held, q.2 ≠ .server := by
  intro q hq
  cases a with
  | sending client thread | closeClient client thread =>
    rcases List.mem_cons.mp hq with rfl | hq
    · nofun
    · rw [List.mem_singleton.mp hq]
      nofun
  | wait thread =>
    rw [List.mem_singleton.mp hq]
    nofun
  | test | query | createSession | createThread _ _ | startThread _ _ | send _ _ | closeThread _
  | load | returned _ => cases h

variable {ι : Type} [DecidableEq ι]

structure Local (v : View ι) (i : ι) (c : Call) : Prop where
  held : ∀ h part, v.table h = some (.own i part) ↔ (h,part) ∈ c.held
  phase : c.Phase
  message : ∀ m, v.request i = some m → m = sendProcessHandleMessage
  unsent : c.caller.Unsent → v.request i = none
  pending : ∀ client thread session, c = ⟨.sending client thread,.receive session⟩ →
    v.request i ≠ none
  ended : v.ended i = true ↔ c.receiver = .exited
  stored : ∀ session tls, c.receiver = .store session tls → v.table (tls 3) = some .process

variable {v v' : View ι} {i : ι} {c c' : Call} {e : Event}

omit [DecidableEq ι] in
theorem Local.agrees (h : Local v i c) (ha : v.Agrees v' i)
    (hprocess : ∀ g, v.table g = some .process → v'.table g = some .process) : Local v' i c where
  held g part := (ha.table g part).trans (h.held g part)
  phase := h.phase
  message m hm := h.message m (ha.request.symm.trans hm)
  unsent hu := ha.request.trans (h.unsent hu)
  pending client thread session hc := ha.request ▸ h.pending client thread session hc
  ended := ha.ended ▸ h.ended
  stored session tls hr := hprocess _ (h.stored session tls hr)

omit [DecidableEq ι] in
theorem Local.own (h : Local v i c) (hs : CallStep c e c') : e.Own v i := by
  have hheld := fun g part => (h.held g part).mpr
  cases hs with
  | sent => exact hheld _ _ List.mem_cons_self
  | clientClosed => exact ⟨_,hheld _ _ List.mem_cons_self⟩
  | threadClosed => exact ⟨_,hheld _ _ List.mem_cons_self⟩
  | received tls => exact hheld _ _ (List.mem_append_right _ List.mem_cons_self)
  | sessionClosed => exact ⟨_,hheld _ _ (List.mem_append_right _ List.mem_cons_self)⟩
  | queried _ _ | sessionCreated _ _ | threadCreated _ | started | answered _ | waited | exited =>
    trivial

omit [DecidableEq ι] in
theorem held_bind {l l' : List (Handle × Part)} {h : Handle} {part : Part}
    (hl : ∀ g p, v.table g = some (.own i p) ↔ (g,p) ∈ l) (hf : v.Fresh h)
    (hmem : ∀ q, q ∈ l' ↔ q = (h,part) ∨ q ∈ l) (g : Handle) (p : Part) :
    (v.bind h (.own i part)).table g = some (.own i p) ↔ (g,p) ∈ l' := by
  change Function.update v.table h _ g = _ ↔ _
  rw [hmem, ← hl]
  by_cases hg : g = h
  · have hnot : ¬v.table h = some (.own i p) := hf.ne _
    rw [hg, Function.update_self, or_iff_left hnot]
    constructor
    · intro he
      injection he with he
      injection he with _ he
      rw [he]
    · intro he
      injection he with _ he
      rw [he]
  · rw [Function.update_of_ne hg, or_iff_right fun he => hg (congrArg Prod.fst he)]

omit [DecidableEq ι] in
theorem held_close {l l' : List (Handle × Part)} {h : Handle} {part : Part}
    (hl : ∀ g p, v.table g = some (.own i p) ↔ (g,p) ∈ l)
    (hmem : ∀ q, q ∈ l ↔ q = (h,part) ∨ q ∈ l') (hpart : ∀ q ∈ l', q.2 ≠ part) (g : Handle)
    (p : Part) : Function.update v.table h none g = some (.own i p) ↔ (g,p) ∈ l' := by
  by_cases hg : g = h
  · rw [hg, Function.update_self]
    refine iff_of_false nofun fun hp => hpart _ hp ?_
    -- the closed handle names one object only
    have h1 := (hl h part).mpr ((hmem _).mpr (Or.inl rfl))
    have h2 := (hl h p).mpr ((hmem _).mpr (Or.inr hp))
    rw [h1] at h2
    injection h2 with h2
    injection h2 with _ h2
    exact h2.symm
  · rw [Function.update_of_ne hg, hl, hmem, or_iff_right fun he => hg (congrArg Prod.fst he)]

theorem Receiver.held_part (t : Receiver) : ∀ q ∈ t.held, q.2 = .server := by
  intro q hq
  cases t with
  | created session | receive session | store session _ | close session =>
    rw [List.mem_singleton.mp hq]
  | absent | exit | exited => cases hq

section Steps
variable {a a' : Caller} {t : Receiver}

omit [DecidableEq ι] in
/-- The caller goes on, with no request of its own. -/
theorem Local.caller (h : Local v i ⟨a,t⟩)
    (hheld : ∀ g part, v'.table g = some (.own i part) ↔ (g,part) ∈ Call.held ⟨a',t⟩)
    (hphase : Call.Phase ⟨a',t⟩) (hrequest : v'.request = v.request) (hended : v'.ended = v.ended)
    (hprocess : ∀ g, v.table g = some .process → v'.table g = some .process)
    (hunsent : a'.Unsent → a.Unsent) (hsending : ∀ client thread, a' ≠ .sending client thread) :
    Local v' i ⟨a',t⟩ := by
  refine ⟨hheld,hphase,?_,fun hu => ?_,fun client thread session hc => ?_,?_,
    fun session tls hr => ?_⟩
  · rw [hrequest]
    exact h.message
  · rw [hrequest]
    exact h.unsent (hunsent hu)
  · exact absurd (congrArg Call.caller hc) (hsending client thread)
  · rw [hended]
    exact h.ended
  · exact hprocess _ (h.stored session tls hr)

omit [DecidableEq ι] in
theorem Local.started {server client thread : Handle}
    (h : Local v i ⟨.startThread client thread,.created server⟩) :
    Local v i ⟨.send client thread,.receive server⟩ :=
  ⟨h.held,⟨server,rfl⟩,h.message,fun _ => h.unsent trivial,nofun,
    iff_of_false (fun he => nomatch h.ended.mp he) nofun,nofun⟩

theorem Local.query (h : Local v i ⟨.query,t⟩) {r : Result} {x : BitVec 64}
    (hp : v.Permits (.queried r x)) :
    Local (v.next i (.queried r x)) i ⟨if r = 0 then .load else .createSession,t⟩ := by
  have hphase : t = .absent := h.phase
  by_cases hr : r = 0
  · rw [if_pos hr, View.next_queried, if_pos hr]
    refine h.caller (fun g part => ?_) (Or.inl hphase) rfl rfl (fun g hg => ?_) nofun nofun
    · have hne : Object.own i part ≠ .process := nofun
      exact (bind_table_iff hne ((hp hr).ne _)).trans (h.held g part)
    · refine (Function.update_of_ne ?_ _ _).trans hg
      rintro rfl
      exact (hp hr).ne _ hg
  · rw [if_neg hr, View.next_queried, if_neg hr]
    exact h.caller h.held hphase rfl rfl (fun _ hg => hg) (fun _ => trivial) nofun

theorem Local.create (h : Local v i ⟨.createSession,t⟩) {server client : Handle}
    (hp : v.Permits (.sessionCreated server client)) :
    Local (v.next i (.sessionCreated server client)) i ⟨.createThread server client,t⟩ := by
  obtain ⟨hserver,hclient,hne⟩ := hp
  have hphase : t = .absent := h.phase
  have hfirst := @held_bind _ v i _ [(server,.server)] server .server h.held hserver (by
    intro q
    rw [hphase, List.mem_singleton]
    exact (or_iff_left List.not_mem_nil).symm)
  refine h.caller (fun g part => ?_) hphase rfl rfl (fun g hg => ?_) (fun _ => trivial) nofun
  · refine held_bind hfirst (hclient.bind (Ne.symm hne) _) (fun q => ?_) g part
    rw [hphase]
    simp only [Call.held, Caller.held, Receiver.held, List.append_nil, List.mem_cons,
      List.not_mem_nil, or_false]
    exact or_comm
  · exact @next_process _ v i (.sessionCreated server client) _ ⟨hserver,hclient,hne⟩ trivial g hg

theorem Local.createThread {server client thread : Handle}
    (h : Local v i ⟨.createThread server client,t⟩) (hp : v.Permits (.threadCreated thread)) :
    Local (v.next i (.threadCreated thread)) i ⟨.startThread client thread,.created server⟩ := by
  have hphase : t = .absent := h.phase
  have hended := h.ended
  rw [hphase] at hended
  refine ⟨held_bind h.held hp fun q => ?_,⟨server,rfl⟩,h.message,fun _ => h.unsent trivial,nofun,
    hended.trans (iff_of_false nofun nofun),nofun⟩
  rw [hphase]
  simp only [Call.held, Caller.held, Receiver.held, List.append_nil, List.mem_cons,
    List.not_mem_nil, or_false, List.mem_append]
  tauto

/-- The request goes into the session. -/
theorem Local.send {client thread : Handle} (h : Local v i ⟨.send client thread,t⟩) :
    Local (v.next i (.sent client sendProcessHandleMessage)) i ⟨.sending client thread,t⟩ := by
  have htable : v.table client = some (.own i .client) := (h.held _ _).mpr List.mem_cons_self
  have hphase : ∃ session, t = .receive session := h.phase
  rw [View.next_sent htable]
  refine ⟨h.held,?_,fun m hm => ?_,nofun,fun _ _ _ _ => ?_,h.ended,h.stored⟩
  · obtain ⟨session,rfl⟩ := hphase
    trivial
  · change Function.update v.request i _ i = some m at hm
    rw [Function.update_self] at hm
    exact (Option.some.inj hm).symm
  · change Function.update v.request i _ i ≠ none
    rw [Function.update_self]
    exact Option.some_ne_none _

theorem Local.receive {server : Handle} {tls : Message} (h : Local v i ⟨a,.receive server⟩)
    (hp : v.Permits (.received server tls)) :
    Local (v.next i (.received server tls)) i ⟨a,.store server tls⟩ := by
  have htable : v.table server = some (.own i .server) :=
    (h.held _ _).mpr (List.mem_append_right _ List.mem_cons_self)
  obtain ⟨words,hwords,hfresh⟩ := permits_received hp htable
  have hmessage := h.message _ hwords
  rw [hmessage] at hwords
  have hnext : v.next i (.received server tls) =
      { v with request := Function.update v.request i none }.bind (tls 3) .process := by
    rw [View.next_received htable, hwords, if_pos rfl]
  have hunsent : ¬a.Unsent := fun hu => Option.some_ne_none _ (hwords.symm.trans (h.unsent hu))
  rw [hnext]
  refine ⟨fun g part => ?_,?_,fun m hm => ?_,fun hu => absurd hu hunsent,nofun,?_,?_⟩
  · have hne : Object.own i part ≠ .process := nofun
    exact (@bind_table_iff _ v _ _ _ _ hne ((hfresh hmessage).ne _)).trans (h.held g part)
  · have hphase := h.phase
    cases a with
    | sending _ _ | closeClient _ _ | wait _ => trivial
    | closeThread _ => cases hphase
    | load | returned _ => rcases hphase with hphase | hphase <;> cases hphase
    | test | query | createSession | createThread _ _ | startThread _ _ | send _ _ =>
      exact absurd trivial hunsent
  · change Function.update v.request i none i = some m at hm
    rw [Function.update_self] at hm
    cases hm
  · exact h.ended.trans (iff_of_false nofun nofun)
  · rintro session tls' ⟨⟩
    exact Function.update_self _ _ _

theorem Local.closeSession {server : Handle} (h : Local v i ⟨a,.close server⟩) :
    Local (v.next i (.closed server)) i ⟨a,.exit⟩ := by
  have hworking : a.Working := h.phase.working trivial nofun nofun
  refine ⟨@held_close _ v i _ _ server .server h.held (fun q => ?_) fun q hq => ?_,
    hworking.phase trivial,h.message,h.unsent,nofun,h.ended.trans (iff_of_false nofun nofun),nofun⟩
  · simp only [Call.held, Receiver.held, List.append_nil, List.mem_append, List.mem_singleton]
    exact or_comm
  · change q ∈ a.held++[] at hq
    rw [List.append_nil] at hq
    exact hworking.held q hq

theorem Local.exit (h : Local v i ⟨a,.exit⟩) : Local (v.next i .exited) i ⟨a,.exited⟩ := by
  have hworking : a.Working := h.phase.working trivial nofun nofun
  exact ⟨h.held,hworking.phase trivial,h.message,h.unsent,nofun,
    iff_of_true (Function.update_self _ _ _) rfl,nofun⟩

end Steps

/-- A step of the two threads that the kernel takes part in. -/
theorem Local.step (h : Local v i c) (hs : CallStep c e c') (hp : v.Permits e) :
    Local (v.next i e) i c' := by
  have hown := h.own hs
  have hprocess : ∀ g, v.table g = some .process → (v.next i e).table g = some .process :=
    fun g => next_process hp hown
  cases hs with
  | queried r x => exact h.query hp
  | sessionCreated server client => exact h.create hp
  | threadCreated thread => exact h.createThread hp
  | started => exact h.started
  | sent => exact h.send
  | answered r => exact h.caller h.held h.phase rfl rfl hprocess nofun nofun
  | @clientClosed client thread t =>
    refine h.caller (held_close h.held (fun _ => List.mem_cons) fun q hq => ?_) h.phase rfl rfl
      hprocess nofun nofun
    rcases List.mem_cons.mp hq with rfl | hq
    · nofun
    · rw [t.held_part q hq]
      nofun
  | @waited thread t =>
    obtain ⟨j,hj,hended⟩ := hp
    have hown := (h.held thread .thread).mpr List.mem_cons_self
    have heq : i = j := by
      rw [hown] at hj
      injection hj with hj
      injection hj
    exact h.caller h.held (h.ended.mp (heq ▸ hended)) rfl rfl hprocess nofun nofun
  | @threadClosed thread t =>
    refine h.caller (held_close h.held (fun _ => List.mem_cons) fun q hq => ?_) (Or.inr h.phase)
      rfl rfl hprocess nofun nofun
    rw [t.held_part q hq]
    nofun
  | received tls => exact h.receive hp
  | @sessionClosed a server => exact h.closeSession
  | exited => exact h.exit

omit [DecidableEq ι] in
theorem Local.test {t : Receiver} {sHandle : Handle} (h : Local v i ⟨.test,t⟩) :
    Local v i ⟨if sHandle = invalidHandle then .query else .load,t⟩ := by
  have hphase : t = .absent := h.phase
  split
  · exact h.caller h.held hphase rfl rfl (fun _ hg => hg) (fun _ => trivial) nofun
  · exact h.caller h.held (Or.inl hphase) rfl rfl (fun _ hg => hg) nofun nofun

omit [DecidableEq ι] in
theorem Local.load {t : Receiver} {sHandle : Handle} (h : Local v i ⟨.load,t⟩) :
    Local v i ⟨.returned sHandle,t⟩ :=
  h.caller h.held h.phase rfl rfl (fun _ hg => hg) nofun nofun

omit [DecidableEq ι] in
theorem Local.store {a : Caller} {session : Handle} {tls : Message}
    (h : Local v i ⟨a,.store session tls⟩) : Local v i ⟨a,.close session⟩ :=
  ⟨h.held,(h.phase.working trivial nofun nofun).phase trivial,h.message,h.unsent,nofun,
    h.ended.trans (iff_of_false nofun nofun),nofun⟩

end Phase

end Zeldar.ProcHandle
