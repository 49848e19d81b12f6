import Zeldar.Kernel
import Mathlib.Logic.Function.Basic
import Mathlib.Data.Fin.VecNotation

/-! The system calls that `cur_proc_handle.cpp` makes, seen from the process: handles
name objects, a request waits in a session until the other end takes it. The kernel is
a parameter; a view of it says what its documentation promises. -/
namespace Zeldar.ProcHandle

abbrev Handle := BitVec 32

def invalidHandle : Handle := 0

/-- `CUR_PROCESS_HANDLE`. -/
def curProcessHandle : Handle := 0xffff8001

/-- The first four words of the TLS of a thread, where a message stands. -/
abbrev Message := Fin 4 → Word

/-- A message with one handle to copy: the process itself. -/
def sendProcessHandleMessage : Message := ![0x00000000,0x80000000,0x00000002,curProcessHandle]

/-- What a thread makes for itself. -/
inductive Part
  | server
  | client
  | thread
  deriving DecidableEq, Repr

/-- What a handle can name: an object that the call `i` has made, the process, or anything else. -/
inductive Object (ι : Type)
  | own (i : ι) (part : Part)
  | process
  | other
  deriving DecidableEq, Repr

/-- A system call, with what it returns. -/
inductive Event
  | queried (r : Result) (x : BitVec 64)
  | sessionCreated (server client : Handle)
  | threadCreated (thread : Handle)
  | started (thread : Handle)
  | sent (client : Handle) (message : Message)
  | answered (client : Handle) (r : Result)
  | received (server : Handle) (message : Message)
  | closed (h : Handle)
  | waited (thread : Handle)
  | exited
  | failed (r : Result)
  deriving DecidableEq

section View
variable {ι : Type} [DecidableEq ι]

/-- The handles of the process, the requests in the sessions, the threads that are gone. -/
structure View (ι : Type) where
  table : Handle → Option (Object ι)
  request : ι → Option Message
  ended : ι → Bool

namespace View
variable (v : View ι)

/-- A handle that can be given out. -/
def Fresh (h : Handle) : Prop := h ≠ invalidHandle ∧ v.table h = none

def bind (h : Handle) (o : Object ι) : View ι :=
  { v with table := Function.update v.table h (some o) }

/-- What a call of the thread that belongs to `i` leaves. -/
def next (i : ι) : Event → View ι
  | .queried r x => if r = 0 then v.bind (x.setWidth 32) .process else v
  | .sessionCreated server client =>
    (v.bind server (.own i .server)).bind client (.own i .client)
  | .threadCreated thread => v.bind thread (.own i .thread)
  | .sent client message =>
    match v.table client with
    | some (.own j .client) => { v with request := Function.update v.request j (some message) }
    | _ => v
  | .received server message =>
    match v.table server with
    | some (.own j .server) =>
      let taken := { v with request := Function.update v.request j none }
      if v.request j = some sendProcessHandleMessage then taken.bind (message 3) .process
      else taken
    | _ => v
  | .closed h => { v with table := Function.update v.table h none }
  | .exited => { v with ended := Function.update v.ended i true }
  | .started _ | .answered _ _ | .waited _ | .failed _ => v

variable {v}

theorem next_queried (i : ι) (r : Result) (x : BitVec 64) :
    v.next i (.queried r x) = if r = 0 then v.bind (x.setWidth 32) .process else v := rfl

theorem next_sent {i j : ι} {client : Handle} {message : Message}
    (h : v.table client = some (.own j .client)) :
    v.next i (.sent client message) =
      { v with request := Function.update v.request j (some message) } := by
  rw [next]
  simp only [h]

theorem next_received {i j : ι} {server : Handle} {message : Message}
    (h : v.table server = some (.own j .server)) :
    v.next i (.received server message) =
      if v.request j = some sendProcessHandleMessage then
        { v with request := Function.update v.request j none }.bind (message 3) .process
      else { v with request := Function.update v.request j none } := by
  rw [next]
  simp only [h]

variable (v)

/-- What a call returns only in such a state. -/
def Permits : Event → Prop
  | .queried r x => r = 0 → v.Fresh (x.setWidth 32)
  | .sessionCreated server client => v.Fresh server ∧ v.Fresh client ∧ server ≠ client
  | .threadCreated thread => v.Fresh thread
  | .received server message => ∃ j words, v.table server = some (.own j .server) ∧
    v.request j = some words ∧ (words = sendProcessHandleMessage → v.Fresh (message 3))
  | .waited thread => ∃ j, v.table thread = some (.own j .thread) ∧ v.ended j = true
  | .failed r => r ≠ 0
  | _ => True

end View

end View

section Kernel
variable {ι κ : Type} [DecidableEq ι]

/-- The kernel, over its own state: what a call made for `i` can return, and the state after it. -/
structure IpcKernel (ι κ : Type) where
  step : κ → ι → Event → κ → Prop
  view : κ → View ι

/-- What it returns, and what it has done by then, is what the documentation says. -/
def IpcKernel.Sound (k : IpcKernel ι κ) : Prop :=
  ∀ {s i e s'}, k.step s i e s' → (k.view s).Permits e ∧ k.view s' = (k.view s).next i e

/-- A call with an error of its own. -/
def IpcKernel.Fails (k : IpcKernel ι κ) (s : κ) (i : ι) : Prop := ∃ r s', k.step s i (.failed r) s'

/-- When a call returns. A request is waited for as long as the other end can still send one, and
an answer as long as the other end can still take the request. -/
structure IpcKernel.Returns (k : IpcKernel ι κ) : Prop where
  query : ∀ s i, ∃ r x s', k.step s i (.queried r x) s'
  createSession : ∀ s i, (∃ server client s', k.step s i (.sessionCreated server client) s') ∨
    k.Fails s i
  createThread : ∀ s i, (∃ thread s', k.step s i (.threadCreated thread) s') ∨ k.Fails s i
  start : ∀ s i thread, (∃ s', k.step s i (.started thread) s') ∨ k.Fails s i
  send : ∀ s i client message, ∃ s', k.step s i (.sent client message) s'
  answer : ∀ {s i client}, (k.view s).table client = some (.own i .client) →
    (∀ h, (k.view s).table h ≠ some (.own i .server)) → ∃ r s', k.step s i (.answered client r) s'
  receive : ∀ {s i server}, (k.view s).table server = some (.own i .server) →
    (k.view s).request i ≠ none ∨ (∀ h, (k.view s).table h ≠ some (.own i .client)) →
    (∃ message s', k.step s i (.received server message) s') ∨ k.Fails s i
  close : ∀ s i h, ∃ s', k.step s i (.closed h) s'
  wait : ∀ {s i thread}, (k.view s).table thread = some (.own i .thread) →
    (k.view s).ended i = true → (∃ s', k.step s i (.waited thread) s') ∨ k.Fails s i
  exit : ∀ s i, ∃ s', k.step s i .exited s'

end Kernel

section Frame
variable {ι : Type} {v : View ι} {i j : ι} {e : Event}

/-- The handles that the event takes are those of `i`. -/
def Event.Own (v : View ι) (i : ι) : Event → Prop
  | .sent client _ => v.table client = some (.own i .client)
  | .received server _ => v.table server = some (.own i .server)
  | .closed h => ∃ part, v.table h = some (.own i part)
  | _ => True

/-- Nothing of `j` differs. -/
structure View.Agrees (v v' : View ι) (j : ι) : Prop where
  table : ∀ h part, v'.table h = some (.own j part) ↔ v.table h = some (.own j part)
  request : v'.request j = v.request j
  ended : v'.ended j = v.ended j

theorem bind_table_iff {h g : Handle} {o p : Object ι} (hne : p ≠ o) (hfree : v.table h ≠ some p) :
    (v.bind h o).table g = some p ↔ v.table g = some p := by
  change Function.update v.table h (some o) g = some p ↔ _
  by_cases hg : g = h
  · rw [hg, Function.update_self, Option.some.injEq]
    exact iff_of_false (fun he => hne he.symm) hfree
  · rw [Function.update_of_ne hg]

theorem View.Fresh.ne {h : Handle} (hf : v.Fresh h) (o : Object ι) : v.table h ≠ some o := by
  rw [hf.2]
  exact Option.some_ne_none o |>.symm

theorem View.Fresh.bind {h g : Handle} (hf : v.Fresh h) (hne : h ≠ g) (o : Object ι) :
    (v.bind g o).Fresh h := ⟨hf.1,(Function.update_of_ne hne _ _).trans hf.2⟩

/-- A server takes the request of its own session. -/
theorem permits_received {server : Handle} {message : Message}
    (hp : v.Permits (.received server message))
    (hown : v.table server = some (.own i .server)) :
    ∃ words, v.request i = some words ∧
      (words = sendProcessHandleMessage → v.Fresh (message 3)) := by
  obtain ⟨k,words,hk,hwords,hfresh⟩ := hp
  rw [hown] at hk
  injection hk with hk
  injection hk with hk
  exact ⟨words,hk ▸ hwords,hfresh⟩

variable [DecidableEq ι]

/-- A call for `i` gives out handles of the process and of what belongs to `i`, and takes away
those of `i` only. -/
theorem next_table_iff (hp : v.Permits e) (hown : e.Own v i) {o : Object ι}
    (hprocess : o ≠ .process) (ho : ∀ part, o ≠ .own i part) (h : Handle) :
    (v.next i e).table h = some o ↔ v.table h = some o := by
  cases e with
  | queried r x =>
    rw [View.next_queried]
    split
    · exact bind_table_iff hprocess ((hp ‹_›).ne o)
    · exact Iff.rfl
  | sessionCreated server client =>
    obtain ⟨hs,hc,hsc⟩ := hp
    have hfree := (hc.bind (Ne.symm hsc) (.own i .server)).ne o
    have hclient := bind_table_iff (g := h) (ho .client) hfree
    exact hclient.trans (bind_table_iff (ho .server) (hs.ne o))
  | threadCreated thread => exact bind_table_iff (ho .thread) (hp.ne o)
  | sent client message => rw [View.next_sent hown]
  | received server message =>
    obtain ⟨words,hwords,hfresh⟩ := permits_received hp hown
    rw [View.next_received hown]
    split
    · rename_i hr
      have hf := hfresh (Option.some.inj (hwords.symm.trans hr))
      exact @bind_table_iff ι v (message 3) h .process o hprocess (hf.ne o)
    · exact Iff.rfl
  | closed g =>
    obtain ⟨part,hg⟩ := hown
    change Function.update v.table g none h = _ ↔ _
    by_cases hh : h = g
    · rw [hh, Function.update_self, hg, Option.some.injEq]
      exact iff_of_false nofun fun he => ho part he.symm
    · rw [Function.update_of_ne hh]
  | exited | started _ | answered _ _ | waited _ | failed _ => exact Iff.rfl

/-- A call for `i` leaves `j` alone. -/
theorem next_agrees (hp : v.Permits e) (hown : e.Own v i) (hne : j ≠ i) :
    v.Agrees (v.next i e) j := by
  have htable := fun h part => @next_table_iff ι v i e _ hp hown (.own j part) nofun
    (fun q he => hne (by injection he)) h
  suffices h : (v.next i e).request j = v.request j ∧ (v.next i e).ended j = v.ended j from
    ⟨htable,h.1,h.2⟩
  cases e with
  | queried r x =>
    rw [View.next_queried]
    split <;> exact ⟨rfl,rfl⟩
  | sent client message =>
    rw [View.next_sent hown]
    exact ⟨Function.update_of_ne hne _ _,rfl⟩
  | received server message =>
    rw [View.next_received hown]
    split <;> exact ⟨Function.update_of_ne hne _ _,rfl⟩
  | exited => exact ⟨rfl,Function.update_of_ne hne _ _⟩
  | sessionCreated _ _ | threadCreated _ | closed _ | started _ | answered _ _ | waited _
  | failed _ => exact ⟨rfl,rfl⟩

/-- A handle of the process stays one. -/
theorem next_process (hp : v.Permits e) (hown : e.Own v i) {h : Handle}
    (hh : v.table h = some .process) : (v.next i e).table h = some .process := by
  have hbind : ∀ {v' : View ι} {g : Handle} {p : Object ι}, v'.table h = some .process →
      v'.Fresh g → (v'.bind g p).table h = some .process := by
    intro v' g p hv' hg
    refine (Function.update_of_ne ?_ _ _).trans hv'
    rintro rfl
    exact hg.ne _ hv'
  cases e with
  | queried r x =>
    rw [View.next_queried]
    split
    · exact hbind hh (hp ‹_›)
    · exact hh
  | sessionCreated server client =>
    obtain ⟨hs,hc,hsc⟩ := hp
    exact hbind (hbind hh hs) (hc.bind (Ne.symm hsc) _)
  | threadCreated thread => exact hbind hh hp
  | sent client message =>
    rw [View.next_sent hown]
    exact hh
  | received server message =>
    obtain ⟨words,hwords,hfresh⟩ := permits_received hp hown
    rw [View.next_received hown]
    split
    · rename_i hr
      exact hbind hh (hfresh (Option.some.inj (hwords.symm.trans hr)))
    · exact hh
  | closed g =>
    obtain ⟨part,hg⟩ := hown
    refine (Function.update_of_ne ?_ _ _).trans hh
    rintro rfl
    rw [hg] at hh
    cases hh
  | exited | started _ | answered _ _ | waited _ | failed _ => exact hh

end Frame

end Zeldar.ProcHandle
