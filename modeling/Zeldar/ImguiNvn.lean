import Mathlib.Data.List.Forall2
import Mathlib.Logic.Function.Basic
import Zeldar.ByteMem
import Zeldar.Runs

/-! `imgui_nvn.cpp`: six of the functions of NVN that the game looks up are replaced by
functions of the module, which call them and add what ImGui needs. -/
namespace Zeldar.Nvn

abbrev Pointer := BitVec 64

/-- The functions of the module that the game gets. -/
inductive Wrapper
  | deviceInit
  | getProc
  | queueInit
  | cmdBufInit
  | setViewport
  | presentTexture
  deriving DecidableEq, Repr

inductive Args
  | device (device builder : Addr)
  | queue (queue builder : Addr)
  | cmdBuf (buffer device : Addr)
  | proc (device : Addr) (procName : String)
  | viewport (cmdBuf : Addr) (x y w h : BitVec 32)
  | present (queue window : Addr) (texIndex : BitVec 32)
  | other (args : List (BitVec 64))
  deriving DecidableEq, Repr

/-- NVN: `nvnBootstrapLoader`, the lookup that it leads to, and what the functions answer, given the
calls of the game so far. -/
structure Driver where
  bootstrap : String → Pointer
  procAddress : String → Pointer
  answer : List (Pointer × Args) → Pointer × Args → BitVec 64

/-- What the game does, and what the module does for itself: a call is of the pointer that the
step `k` has returned. -/
inductive Op
  | bootstrap (funcName : String)
  | call (k : ℕ) (args : Args)
  | addDrawFunc (f : Pointer)
  | toggle (on : Bool)
  deriving DecidableEq, Repr

section Driver
variable (d : Driver)

/-- The function that a wrapper stands for. -/
def Driver.address : Wrapper → Pointer
  | .deviceInit => d.bootstrap "nvnDeviceInitialize"
  | .getProc => d.bootstrap "nvnDeviceGetProcAddress"
  | .queueInit => d.procAddress "nvnQueueInitialize"
  | .cmdBufInit => d.procAddress "nvnCommandBufferInitialize"
  | .setViewport => d.procAddress "nvnCommandBufferSetViewport"
  | .presentTexture => d.procAddress "nvnQueuePresentTexture"

/-- The type of the function. -/
def Wrapper.takes : Wrapper → Args → Bool
  | .deviceInit,.device _ _ => true
  | .getProc,.proc _ _ => true
  | .queueInit,.queue _ _ => true
  | .cmdBufInit,.cmdBuf _ _ => true
  | .setViewport,.viewport _ _ _ _ _ => true
  | .presentTexture,.present _ _ _ => true
  | _,_ => false

def wrappers : List Wrapper :=
  [.deviceInit,.getProc,.queueInit,.cmdBufInit,.setViewport,.presentTexture]

/-- The function at `p`, where its type is known, is called with arguments of this type. -/
def Driver.fits (p : Pointer) (args : Args) : Bool :=
  wrappers.all fun w => p != d.address w || w.takes args

/-- A call of the driver: its answer, and what it adds to the calls so far. A lookup adds nothing,
and its answer depends on the name only. -/
def Driver.exec (history : List (Pointer × Args)) (p : Pointer) (args : Args) :
    Option (BitVec 64 × List (Pointer × Args)) :=
  if p = 0 then none
  else if p = d.address .getProc then
    match args with
    | .proc _ name => some (d.procAddress name,[])
    | _ => none
  else some (d.answer history (p,args),[(p,args)])

end Driver

/-- What each step has returned, and the calls of the driver. -/
structure Game where
  values : List (BitVec 64)
  history : List (Pointer × Args)

def Game.start : Game := ⟨[],[]⟩

def Game.step (d : Driver) (g : Game) : Op → Option Game
  | .bootstrap name => some { g with values := g.values++[d.bootstrap name] }
  | .call k args => do
    let p ← g.values[k]?
    if d.fits p args then
      let (r,new) ← d.exec g.history p args
      return ⟨g.values++[r],g.history++new⟩
    else none
  | .addDrawFunc _ | .toggle _ => some { g with values := g.values++[0] }

inductive Value
  | word (v : BitVec 64)
  | wrapper (w : Wrapper)
  deriving DecidableEq, Repr

/-- What the driver and ImGui see. -/
inductive Event
  | call (p : Pointer) (args : Args)
  | loadProcs
  | initImGui
  | frame (drawFuncs : List Pointer)
  deriving DecidableEq, Repr

def Event.game : Event → Option (Pointer × Args)
  | .call p args => some (p,args)
  | _ => none

/-- The variables of the module, what the steps have returned, and what the driver and ImGui have
seen. -/
structure Layer where
  values : List Value
  log : List Event
  nvnDevice : Addr
  nvnQueue : Addr
  nvnCmdBuf : Addr
  /-- `tempDeviceInitFuncPtr` and the other five. -/
  temp : Wrapper → Pointer
  hasInitImGui : Bool
  displaySize : Option (BitVec 32 × BitVec 32)
  drawQueue : List Pointer
  toggleInput : Bool

namespace Layer

def start : Layer where
  values := []
  log := []
  nvnDevice := 0
  nvnQueue := 0
  nvnCmdBuf := 0
  temp _ := 0
  hasInitImGui := false
  displaySize := none
  drawQueue := []
  toggleInput := false

def history (s : Layer) : List (Pointer × Args) := s.log.filterMap Event.game

def setTemp (s : Layer) (w : Wrapper) (p : Pointer) : Layer :=
  { s with temp := Function.update s.temp w p }

section Hooks
variable (d : Driver) (s : Layer)

/-- A call of the driver by the game or by a wrapper. -/
def exec (p : Pointer) (args : Args) : Option (BitVec 64 × Layer) := do
  let (r,new) ← d.exec s.history p args
  return (r,{ s with log := s.log++new.map fun (p,args) => .call p args })

/-- `NvnBootstrapHook`. -/
def bootstrap (funcName : String) : Value × Layer :=
  let result := d.bootstrap funcName
  if funcName = "nvnDeviceInitialize" then (.wrapper .deviceInit,s.setTemp .deviceInit result)
  else if funcName = "nvnDeviceGetProcAddress" then (.wrapper .getProc,s.setTemp .getProc result)
  else (.word result,s)

def deviceInit (device builder : Addr) : Option (Value × Layer) := do
  let (result,s) ← s.exec d (s.temp .deviceInit) (.device device builder)
  let s := { s with nvnDevice := device }
  -- `nvnLoadCPPProcs` calls the pointer
  if s.temp .getProc = (0:Pointer) then none
  else return (.word result,{ s with log := s.log++[.loadProcs] })

def getProc (procName : String) : Option (Value × Layer) := do
  let (ptr,s) ← s.exec d (s.temp .getProc) (.proc s.nvnDevice procName)
  if procName = "nvnQueueInitialize" then
    return (.wrapper .queueInit,s.setTemp .queueInit ptr)
  else if procName = "nvnCommandBufferInitialize" then
    return (.wrapper .cmdBufInit,s.setTemp .cmdBufInit ptr)
  else if procName = "nvnCommandBufferSetViewport" then
    return (.wrapper .setViewport,s.setTemp .setViewport ptr)
  else if procName = "nvnQueuePresentTexture" then
    return (.wrapper .presentTexture,s.setTemp .presentTexture ptr)
  else return (.word ptr,s)

def queueInit (queue builder : Addr) : Option (Value × Layer) := do
  let (result,s) ← s.exec d (s.temp .queueInit) (.queue queue builder)
  return (.word result,{ s with nvnQueue := queue })

/-- `InitImGui`: whether the three objects are there. -/
def initImGui : Layer :=
  if s.nvnDevice ≠ 0 ∧ s.nvnQueue ≠ 0 ∧ s.nvnCmdBuf ≠ 0 then
    { s with
      hasInitImGui := true
      log := s.log++[.initImGui] }
  else { s with hasInitImGui := false }

def cmdBufInit (buffer device : Addr) : Option (Value × Layer) := do
  let (result,s) ← s.exec d (s.temp .cmdBufInit) (.cmdBuf buffer device)
  let s := { s with nvnCmdBuf := buffer }
  return (.word result,if s.hasInitImGui then s else s.initImGui)

def setViewport (cmdBuf : Addr) (x y w h : BitVec 32) : Option (Value × Layer) := do
  let (result,s) ← s.exec d (s.temp .setViewport) (.viewport cmdBuf x y w h)
  return (.word result,if s.hasInitImGui then { s with displaySize := some (w-x,h-y) } else s)

def procDraw : Layer :=
  if s.toggleInput then { s with log := s.log++[.frame s.drawQueue] } else s

def presentTexture (queue window : Addr) (texIndex : BitVec 32) : Option (Value × Layer) := do
  let s := if s.hasInitImGui then s.procDraw else s
  let (result,s) ← s.exec d (s.temp .presentTexture) (.present queue window texIndex)
  return (.word result,s)

/-- A call of a wrapper. -/
def callWrapper : Wrapper → Args → Option (Value × Layer)
  | .deviceInit,.device device builder => s.deviceInit d device builder
  | .getProc,.proc _ procName => s.getProc d procName
  | .queueInit,.queue queue builder => s.queueInit d queue builder
  | .cmdBufInit,.cmdBuf buffer device => s.cmdBufInit d buffer device
  | .setViewport,.viewport cmdBuf x y w h => s.setViewport d cmdBuf x y w h
  | .presentTexture,.present queue window texIndex => s.presentTexture d queue window texIndex
  | _,_ => none

def returning (r : Value × Layer) : Layer := { r.2 with values := r.2.values++[r.1] }

def step : Op → Option Layer
  | .bootstrap funcName => some (returning (s.bootstrap d funcName))
  | .call k args => do
    match ← s.values[k]? with
    | .word p =>
      let (r,s) ← s.exec d p args
      return returning (.word r,s)
    | .wrapper w => return returning (← s.callWrapper d w args)
  | .addDrawFunc f =>
    if f ∈ s.drawQueue then none
    else some (returning (.word 0,{ s with drawQueue := s.drawQueue++[f] }))
  | .toggle on => some (returning (.word 0,{ s with toggleInput := on }))

end Hooks

end Layer

section Simulation
variable (d : Driver)

def gameRun (ops : List Op) : Option Game := ops.foldlM (Game.step d) Game.start

def nvnRun (ops : List Op) : Option Layer := ops.foldlM (Layer.step d) Layer.start

/-- What the module asks of a step: a device is initialised through it only when the lookup has been
asked for, and a draw function is added once. -/
def Driver.Served (before : List Op) : Op → Prop
  | .call k _ => before[k]? = some (.bootstrap "nvnDeviceInitialize") →
    Op.bootstrap "nvnDeviceGetProcAddress" ∈ before ∧ d.address .getProc ≠ 0
  | .addDrawFunc f => Op.addDrawFunc f ∉ before
  | _ => True

/-- The value of the game, and what it gets in its place. -/
def Driver.StandsFor : Value → BitVec 64 → Prop
  | .word v,p => v = p
  | .wrapper w,p => p = d.address w

/-- The game with the module, beside the game on its own. -/
structure Sim (ops : List Op) (s : Layer) (g : Game) : Prop where
  length : g.values.length = ops.length
  values : List.Forall₂ d.StandsFor s.values g.values
  temps : ∀ w, Value.wrapper w ∈ s.values → s.temp w = d.address w
  history : s.history = g.history
  device : ∀ k : ℕ, s.values[k]? = some (.wrapper .deviceInit) ↔
    ops[k]? = some (.bootstrap "nvnDeviceInitialize")
  lookup : s.temp .getProc =
    if Op.bootstrap "nvnDeviceGetProcAddress" ∈ ops then d.address .getProc else 0
  drawQueue : ∀ f, f ∈ s.drawQueue ↔ Op.addDrawFunc f ∈ ops

/-- Before a frame ImGui has been set up, and after it a texture is presented. -/
def Driver.Shows (before : List Event) (e : Event) : Prop :=
  ((∃ fs, e = .frame fs) → Event.initImGui ∈ before) ∧
    ((∃ fs, before.getLast? = some (.frame fs)) →
      ∃ args, e = .call (d.address .presentTexture) args)

/-- ImGui is set up once, and draws only after that, and right before a texture is presented. -/
structure Drawn (s : Layer) : Prop where
  once : s.log.count .initImGui = if s.hasInitImGui then 1 else 0
  shows : EveryStep d.Shows s.log
  last : ∀ fs, s.log.getLast? ≠ some (.frame fs)

end Simulation

section Calls
variable {d : Driver} {ops : List Op} {s s₁ : Layer} {g : Game} {p : Pointer} {args : Args}
  {r : BitVec 64} {new : List (Pointer × Args)} {op : Op} {val : Value}

def Layer.calls (s : Layer) (new : List (Pointer × Args)) : Layer :=
  { s with log := s.log++new.map fun (p,args) => .call p args }

theorem Layer.history_calls (s : Layer) (new : List (Pointer × Args)) :
    (s.calls new).history = s.history++new := by
  have hnew : (new.map fun (p,args) => Event.call p args).filterMap Event.game = new := by
    rw [List.filterMap_map]
    exact List.filterMap_some
  rw [history, calls, List.filterMap_append, hnew]
  rfl

theorem Layer.exec_eq (hhistory : s.history = g.history)
    (h : d.exec g.history p args = some (r,new)) : s.exec d p args = some (r,s.calls new) := by
  rw [Layer.exec, hhistory, h]
  rfl

/-- One more value on both sides. -/
theorem Sim.returning (h : Sim d ops s g) (hvalues : s₁.values = s.values)
    (hstands : d.StandsFor val r)
    (htemps : ∀ w, Value.wrapper w ∈ s.values ∨ val = .wrapper w → s₁.temp w = d.address w)
    (hhistory : s₁.history = s.history++new)
    (hdevice : val = .wrapper .deviceInit ↔ op = .bootstrap "nvnDeviceInitialize")
    (hlookup : s₁.temp .getProc =
      if op = .bootstrap "nvnDeviceGetProcAddress" then d.address .getProc else s.temp .getProc)
    (hdraw : ∀ f, f ∈ s₁.drawQueue ↔ f ∈ s.drawQueue ∨ op = .addDrawFunc f) :
    Sim d (ops++[op]) (Layer.returning (val,s₁)) ⟨g.values++[r],g.history++new⟩ := by
  have hlength : s.values.length = ops.length := h.values.length_eq.trans h.length
  refine ⟨?_,?_,fun w hw => ?_,?_,fun k => ?_,?_,fun f => ?_⟩
  · rw [List.length_append, List.length_append, h.length]
    rfl
  · change List.Forall₂ _ (s₁.values++[val]) (g.values++[r])
    rw [hvalues]
    exact List.rel_append h.values (List.Forall₂.cons hstands .nil)
  · change Value.wrapper w ∈ s₁.values++[val] at hw
    rw [hvalues, List.mem_append, List.mem_singleton] at hw
    exact htemps w (hw.imp_right Eq.symm)
  · change s₁.history = _
    rw [hhistory, h.history]
  · change (s₁.values++[val])[k]? = _ ↔ _
    rw [hvalues]
    rcases lt_trichotomy k ops.length with hk | rfl | hk
    · rw [List.getElem?_append_left (hlength ▸ hk), List.getElem?_append_left hk]
      exact h.device k
    · rw [← hlength, List.getElem?_concat_length, hlength, List.getElem?_concat_length,
        Option.some.injEq, Option.some.injEq]
      exact hdevice
    · have hs : (s.values++[val]).length ≤ k := by
        rw [List.length_append, hlength]
        exact hk
      have ho : (ops++[op]).length ≤ k := by
        rw [List.length_append]
        exact hk
      rw [List.getElem?_eq_none hs, List.getElem?_eq_none ho]
      exact iff_of_false nofun nofun
  · change s₁.temp .getProc = _
    rw [hlookup, h.lookup]
    by_cases hop : op = .bootstrap "nvnDeviceGetProcAddress"
    · rw [if_pos hop, if_pos (by rw [hop]; exact List.mem_append_right _ List.mem_cons_self)]
    · have hmem : Op.bootstrap "nvnDeviceGetProcAddress" ∈ ops++[op] ↔
          Op.bootstrap "nvnDeviceGetProcAddress" ∈ ops := by
        rw [List.mem_append, List.mem_singleton]
        exact or_iff_left fun he => hop he.symm
      rw [if_neg hop, if_congr hmem rfl rfl]
  · change f ∈ s₁.drawQueue ↔ _
    rw [hdraw f, h.drawQueue f, List.mem_append, List.mem_singleton]
    exact or_congr_right eq_comm

/-- A step that only calls the driver. -/
theorem Sim.word (h : Sim d ops s g) (s₁ : Layer) (hvalues : s₁.values = s.values)
    (htemp : s₁.temp = s.temp) (hhistory : s₁.history = s.history++new)
    (hdraw : s₁.drawQueue = s.drawQueue) {k : ℕ} :
    Sim d (ops++[.call k args]) (Layer.returning (.word r,s₁)) ⟨g.values++[r],g.history++new⟩ := by
  refine h.returning hvalues rfl (fun w hw => ?_) hhistory (iff_of_false nofun nofun) ?_
    fun f => ?_
  · rw [htemp]
    exact h.temps w (hw.resolve_right nofun)
  · rw [htemp, if_neg nofun]
  · rw [hdraw]
    exact (or_iff_left nofun).symm

/-- A step that hands out a wrapper. -/
theorem Sim.wrap (h : Sim d ops s g) {w : Wrapper} (hvalues : s₁.values = s.values)
    (htemp : s₁.temp = s.temp) (hhistory : s₁.history = s.history++new)
    (hdraw : s₁.drawQueue = s.drawQueue)
    (hdevice : Value.wrapper w = .wrapper .deviceInit ↔ op = .bootstrap "nvnDeviceInitialize")
    (hlookup : w = .getProc ↔ op = .bootstrap "nvnDeviceGetProcAddress")
    (hop : ∀ f, op ≠ .addDrawFunc f) :
    Sim d (ops++[op]) (Layer.returning (.wrapper w,s₁.setTemp w (d.address w)))
      ⟨g.values++[d.address w],g.history++new⟩ := by
  refine h.returning hvalues rfl (fun u hu => ?_) hhistory hdevice ?_ fun f => ?_
  · change Function.update s₁.temp w _ u = _
    by_cases huw : u = w
    · rw [huw, Function.update_self]
    · rw [Function.update_of_ne huw, htemp]
      exact h.temps u (hu.resolve_right fun he => huw (by injection he with he; exact he.symm))
  · change Function.update s₁.temp w _ .getProc = _
    by_cases hw : w = .getProc
    · rw [if_pos (hlookup.mp hw), hw, Function.update_self]
    · rw [if_neg (mt hlookup.mpr hw), Function.update_of_ne (Ne.symm hw), htemp]
  · change f ∈ s₁.drawQueue ↔ _
    rw [hdraw]
    exact (or_iff_left (hop f)).symm

theorem Sim.bootstrap (h : Sim d ops s g) (funcName : String) :
    Sim d (ops++[.bootstrap funcName]) (Layer.returning (s.bootstrap d funcName))
      { g with values := g.values++[d.bootstrap funcName] } := by
  have hnil : s.history = s.history++[] := (List.append_nil _).symm
  rw [← List.append_nil g.history, Layer.bootstrap]
  by_cases hdevice : funcName = "nvnDeviceInitialize"
  · rw [if_pos hdevice, hdevice]
    exact h.wrap rfl rfl hnil rfl (iff_of_true rfl rfl) (iff_of_false nofun (by decide)) nofun
  · rw [if_neg hdevice]
    by_cases hlookup : funcName = "nvnDeviceGetProcAddress"
    · rw [if_pos hlookup, hlookup]
      exact h.wrap rfl rfl hnil rfl (iff_of_false nofun (by decide)) (iff_of_true rfl rfl) nofun
    · rw [if_neg hlookup]
      refine h.returning rfl rfl (fun w hw => h.temps w (hw.resolve_right nofun)) hnil ?_ ?_
        fun f => (or_iff_left nofun).symm
      · refine iff_of_false nofun fun he => hdevice ?_
        injection he
      · rw [if_neg fun he => hlookup (by injection he)]

end Calls

section Wrappers
variable {d : Driver} {ops : List Op} {s : Layer} {g : Game} {p : Pointer} {args : Args}
  {r : BitVec 64} {new : List (Pointer × Args)} {k : ℕ} {w : Wrapper}

/-- A function is called with arguments of its type. -/
theorem fits_takes (h : d.fits (d.address w) args = true) : w.takes args = true := by
  have hw : w ∈ wrappers := by cases w <;> decide
  have hall := List.all_eq_true.mp h w hw
  rw [bne_self_eq_false, Bool.false_or] at hall
  exact hall

/-- A lookup is not recorded. -/
theorem exec_getProc {device : Addr} {procName : String}
    (h : d.exec g.history (d.address .getProc) (.proc device procName) = some (r,new)) :
    r = d.procAddress procName ∧ new = [] ∧ d.address .getProc ≠ 0 := by
  rw [Driver.exec] at h
  split at h
  · cases h
  · rename_i hne
    rw [if_pos rfl] at h
    simp only [Option.some.injEq, Prod.mk.injEq] at h
    exact ⟨h.1.symm,h.2.symm,hne⟩

theorem Sim.getProc (h : Sim d ops s g) {device : Addr} {procName : String}
    (htemp : s.temp .getProc = d.address .getProc)
    (he : d.exec g.history (d.address .getProc) (.proc device procName) = some (r,new)) :
    ∃ t, s.getProc d procName = some t ∧
      Sim d (ops++[.call k (.proc device procName)]) (Layer.returning t)
        ⟨g.values++[r],g.history++new⟩ := by
  obtain ⟨rfl,rfl,hne⟩ := exec_getProc he
  have hexec : s.exec d (s.temp .getProc) (.proc s.nvnDevice procName) =
      some (d.procAddress procName,s.calls []) := by
    refine Layer.exec_eq h.history ?_
    rw [htemp, Driver.exec, if_neg hne, if_pos rfl]
  have hcalls := s.history_calls []
  rw [Layer.getProc, hexec]
  simp only [Option.bind_eq_bind, Option.bind_some, Option.pure_def]
  have hwrap : ∀ w : Wrapper, w ≠ .deviceInit → w ≠ .getProc →
      Sim d (ops++[.call k (.proc device procName)])
        (Layer.returning (.wrapper w,(s.calls []).setTemp w (d.address w)))
        ⟨g.values++[d.address w],g.history++[]⟩ := by
    intro w hdevice hlookup
    refine h.wrap rfl rfl hcalls rfl (iff_of_false (fun he => hdevice ?_) nofun)
      (iff_of_false hlookup nofun) nofun
    injection he
  rcases eq_or_ne procName "nvnQueueInitialize" with rfl | hqueue
  · exact ⟨_,rfl,hwrap .queueInit nofun nofun⟩
  rw [if_neg hqueue]
  rcases eq_or_ne procName "nvnCommandBufferInitialize" with rfl | hcmdBuf
  · exact ⟨_,rfl,hwrap .cmdBufInit nofun nofun⟩
  rw [if_neg hcmdBuf]
  rcases eq_or_ne procName "nvnCommandBufferSetViewport" with rfl | hviewport
  · exact ⟨_,rfl,hwrap .setViewport nofun nofun⟩
  rw [if_neg hviewport]
  rcases eq_or_ne procName "nvnQueuePresentTexture" with rfl | hpresent
  · exact ⟨_,rfl,hwrap .presentTexture nofun nofun⟩
  rw [if_neg hpresent]
  exact ⟨_,rfl,h.word (s.calls []) rfl rfl hcalls rfl⟩

theorem history_append_own {s : Layer} {e : Event} (he : e.game = none) :
    (s.log++[e]).filterMap Event.game = s.history := by
  rw [List.filterMap_append, List.filterMap_cons, he]
  exact List.append_nil _

theorem procDraw_cases (s : Layer) :
    s.procDraw = { s with log := s.log++[.frame s.drawQueue] } ∨ s.procDraw = s := ite_eq_or_eq ..

theorem initImGui_cases (s : Layer) :
    s.initImGui = { s with hasInitImGui := true, log := s.log++[.initImGui] } ∨
      s.initImGui = { s with hasInitImGui := false } := ite_eq_or_eq ..

theorem procDraw_history (s : Layer) : s.procDraw.history = s.history := by
  rcases procDraw_cases s with h | h <;> rw [h]
  exact history_append_own rfl

theorem procDraw_rest (s : Layer) : s.procDraw.values = s.values ∧ s.procDraw.temp = s.temp ∧
    s.procDraw.drawQueue = s.drawQueue := by
  rcases procDraw_cases s with h | h <;> rw [h] <;> exact ⟨rfl,rfl,rfl⟩

theorem initImGui_history (s : Layer) : s.initImGui.history = s.history := by
  rcases initImGui_cases s with h | h <;> rw [h]
  · exact history_append_own rfl
  · rfl

/-- A call of a wrapper is a call of the function that it stands for. -/
theorem Sim.wrapper (h : Sim d ops s g) (hw : Value.wrapper w ∈ s.values)
    (htakes : w.takes args = true) (he : d.exec g.history (d.address w) args = some (r,new))
    (hserved : w = .deviceInit → s.temp .getProc ≠ 0) :
    ∃ t, s.callWrapper d w args = some t ∧
      Sim d (ops++[.call k args]) (Layer.returning t) ⟨g.values++[r],g.history++new⟩ := by
  have htemp := h.temps w hw
  have hexec : s.exec d (s.temp w) args = some (r,s.calls new) :=
    Layer.exec_eq h.history (htemp ▸ he)
  have hcalls := s.history_calls new
  cases w with
  | deviceInit =>
    cases args with
    | device device builder =>
      rw [Layer.callWrapper, Layer.deviceInit, hexec]
      simp only [Option.bind_eq_bind, Option.bind_some, Option.pure_def]
      have hne : (s.calls new).temp .getProc ≠ 0 := hserved rfl
      rw [if_neg hne]
      let t : Layer := { s.calls new with
        nvnDevice := device
        log := (s.calls new).log++[.loadProcs] }
      have ht : t.history = s.history++new := (history_append_own rfl).trans hcalls
      exact ⟨_,rfl,h.word t rfl rfl ht rfl⟩
    | _ => cases htakes
  | getProc =>
    cases args with
    | proc device procName => exact h.getProc htemp he
    | _ => cases htakes
  | queueInit =>
    cases args with
    | queue queue builder =>
      rw [Layer.callWrapper, Layer.queueInit, hexec]
      exact ⟨_,rfl,h.word { s.calls new with nvnQueue := queue } rfl rfl hcalls rfl⟩
    | _ => cases htakes
  | cmdBufInit =>
    cases args with
    | cmdBuf buffer device =>
      rw [Layer.callWrapper, Layer.cmdBufInit, hexec]
      refine ⟨_,rfl,?_⟩
      change Sim d _ (Layer.returning (.word r,if s.hasInitImGui then _ else _)) _
      split
      · exact h.word { s.calls new with nvnCmdBuf := buffer } rfl rfl hcalls rfl
      · have hinit := initImGui_history { s.calls new with nvnCmdBuf := buffer }
        refine h.word { s.calls new with nvnCmdBuf := buffer }.initImGui ?_ ?_
          (hinit.trans hcalls) ?_ <;>
        · rcases initImGui_cases { s.calls new with nvnCmdBuf := buffer } with hc | hc <;>
            rw [hc] <;> rfl
    | _ => cases htakes
  | setViewport =>
    cases args with
    | viewport cmdBuf x y w h' =>
      rw [Layer.callWrapper, Layer.setViewport, hexec]
      refine ⟨_,rfl,?_⟩
      change Sim d _ (Layer.returning (.word r,if s.hasInitImGui then _ else _)) _
      split
      · exact h.word { s.calls new with displaySize := some (w-x,h'-y) } rfl rfl hcalls rfl
      · exact h.word (s.calls new) rfl rfl hcalls rfl
    | _ => cases htakes
  | presentTexture =>
    cases args with
    | present queue window texIndex =>
      rw [Layer.callWrapper, Layer.presentTexture]
      have hframe : ∀ u : Layer, u.values = s.values → u.temp = s.temp →
          u.history = s.history → u.drawQueue = s.drawQueue →
          ∃ t, (u.exec d (u.temp .presentTexture) (.present queue window texIndex) >>=
              fun (result,s) => some (Value.word result,s)) = some t ∧
            Sim d (ops++[.call k (.present queue window texIndex)]) (Layer.returning t)
              ⟨g.values++[r],g.history++new⟩ := by
        intro u hvalues hutemp hhistory hqueue
        have hu : u.exec d (u.temp .presentTexture) (.present queue window texIndex) =
            some (r,u.calls new) := by
          refine Layer.exec_eq (hhistory.trans h.history) ?_
          rw [hutemp, htemp]
          exact he
        rw [hu]
        refine ⟨_,rfl,h.word (u.calls new) hvalues hutemp ?_ hqueue⟩
        rw [Layer.history_calls, hhistory]
      by_cases hinit : s.hasInitImGui = true
      · rw [if_pos hinit]
        obtain ⟨hvalues,htemp',hqueue⟩ := procDraw_rest s
        exact hframe s.procDraw hvalues htemp' (procDraw_history s) hqueue
      · rw [if_neg hinit]
        exact hframe s rfl rfl rfl rfl
    | _ => cases htakes

theorem forall₂_getElem? {α β : Type} {R : α → β → Prop} {xs : List α} {ys : List β}
    (h : List.Forall₂ R xs ys) {b : β} (hb : ys[k]? = some b) : ∃ a, xs[k]? = some a ∧ R a b := by
  induction h generalizing k with
  | nil => cases hb
  | @cons a b' xs ys hab _ ih =>
    cases k with
    | zero =>
      cases hb
      exact ⟨a,rfl,hab⟩
    | succ k => exact ih hb

/-- The step of the game that calls what the step `k` has returned. -/
theorem Sim.call {g' : Game} (h : Sim d ops s g) (hg : g.step d (.call k args) = some g') :
    (d.Served ops (.call k args) →
      ∃ s', s.step d (.call k args) = some s' ∧ Sim d (ops++[.call k args]) s' g') ∧
      (¬d.Served ops (.call k args) → s.step d (.call k args) = none) := by
  obtain ⟨p,hp,hg⟩ := Option.bind_eq_some_iff.mp hg
  have hfits : d.fits p args = true := by
    by_contra hnot
    rw [if_neg hnot] at hg
    cases hg
  rw [if_pos hfits] at hg
  obtain ⟨⟨r,new⟩,he,hg⟩ := Option.bind_eq_some_iff.mp hg
  cases hg
  obtain ⟨val,hval,hstands⟩ := forall₂_getElem? h.values hp
  rw [Layer.step, hval]
  simp only [Option.bind_eq_bind, Option.bind_some, Option.pure_def]
  cases val with
  | word v =>
    cases hstands
    have hserved : d.Served ops (.call k args) := by
      intro hdevice
      rw [(h.device k).mpr hdevice] at hval
      cases hval
    refine ⟨fun _ => ?_,fun hn => absurd hserved hn⟩
    dsimp only
    rw [Layer.exec_eq h.history he]
    exact ⟨_,rfl,h.word (s.calls new) rfl rfl (s.history_calls new) rfl⟩
  | wrapper w =>
    cases hstands
    have hmem : Value.wrapper w ∈ s.values := List.mem_of_getElem? hval
    have htakes := fits_takes hfits
    refine ⟨fun hserved => ?_,fun hnot => ?_⟩
    · obtain ⟨t,ht,hsim⟩ := h.wrapper (k := k) hmem htakes he fun hw => by
        obtain ⟨hasked,hne⟩ := hserved ((h.device k).mp (hw ▸ hval))
        rw [h.lookup, if_pos hasked]
        exact hne
      dsimp only
      rw [ht]
      exact ⟨_,rfl,hsim⟩
    · rw [Driver.Served, Classical.not_imp] at hnot
      obtain ⟨hdevice,hnone⟩ := hnot
      rw [(h.device k).mpr hdevice] at hval
      cases hval
      have hlookup : s.temp .getProc = 0 := by
        rw [h.lookup]
        split
        · rename_i hasked
          exact not_not.mp fun hne => hnone ⟨hasked,hne⟩
        · rfl
      cases args with
      | device device builder =>
        have hexec : s.exec d (s.temp .deviceInit) (.device device builder) =
            some (r,s.calls new) := Layer.exec_eq h.history ((h.temps _ hmem).symm ▸ he)
        dsimp only
        rw [Layer.callWrapper, Layer.deviceInit, hexec]
        simp only [Option.bind_eq_bind, Option.bind_some]
        have hzero : (s.calls new).temp .getProc = 0 := hlookup
        rw [if_pos hzero]
        rfl
      | _ => cases htakes

/-- A step of the game, and the same step with the module. -/
theorem Sim.step {op : Op} {g' : Game} (h : Sim d ops s g) (hg : g.step d op = some g') :
    (d.Served ops op → ∃ s', s.step d op = some s' ∧ Sim d (ops++[op]) s' g') ∧
      (¬d.Served ops op → s.step d op = none) := by
  have hnil : s.history = s.history++[] := (List.append_nil _).symm
  have hzero {op : Op} (hop : ∀ f, op ≠ .bootstrap f) {t : Layer} (hvalues : t.values = s.values)
      (htemp : t.temp = s.temp) (hlog : t.log = s.log)
      (hdraw : ∀ f, f ∈ t.drawQueue ↔ f ∈ s.drawQueue ∨ op = .addDrawFunc f) :
      Sim d (ops++[op]) (Layer.returning (.word 0,t)) { g with values := g.values++[0] } := by
    rw [← List.append_nil g.history]
    refine h.returning hvalues rfl (fun w hw => ?_) ?_ (iff_of_false nofun (hop _)) ?_ hdraw
    · rw [htemp]
      exact h.temps w (hw.resolve_right nofun)
    · rw [Layer.history, hlog]
      exact hnil
    · rw [htemp, if_neg (hop _)]
  cases op with
  | bootstrap funcName =>
    cases hg
    exact ⟨fun _ => ⟨_,rfl,h.bootstrap funcName⟩,fun hn => absurd trivial hn⟩
  | toggle on =>
    cases hg
    refine ⟨fun _ => ⟨_,rfl,?_⟩,fun hn => absurd trivial hn⟩
    exact @hzero (.toggle on) nofun { s with toggleInput := on } rfl rfl rfl
      fun f => (or_iff_left nofun).symm
  | addDrawFunc f =>
    cases hg
    have hmem : f ∈ s.drawQueue ↔ ¬d.Served ops (.addDrawFunc f) :=
      (h.drawQueue f).trans not_not.symm
    refine ⟨fun hs => ?_,fun hn => if_pos (hmem.mpr hn)⟩
    refine ⟨_,if_neg fun hf => hmem.mp hf hs,?_⟩
    refine @hzero (.addDrawFunc f) nofun { s with drawQueue := s.drawQueue++[f] } rfl rfl rfl
      fun f' => ?_
    change f' ∈ s.drawQueue++[f] ↔ _
    rw [List.mem_append, List.mem_singleton, Op.addDrawFunc.injEq]
    exact or_congr_right eq_comm
  | call k args => exact h.call hg

end Wrappers

end Zeldar.Nvn
