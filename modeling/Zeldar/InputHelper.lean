import Mathlib.Data.Nat.Notation

namespace Zeldar

/-- The keys of ImGui that the backend names. -/
inductive ImGuiKey
  | gamepadFaceDown | gamepadFaceRight | gamepadFaceUp | gamepadFaceLeft | gamepadL1 | gamepadR1
  | gamepadL2 | gamepadR2 | gamepadStart | gamepadBack | gamepadDpadLeft | gamepadDpadRight
  | gamepadDpadUp | gamepadDpadDown | gamepadLStickLeft | gamepadLStickRight | gamepadLStickUp
  | gamepadLStickDown | none | tab | leftArrow | rightArrow | upArrow | downArrow | pageUp
  | pageDown | home | endKey | insert | delete | backspace | space | enter | escape | leftCtrl
  | leftShift | leftAlt | leftSuper | rightCtrl | rightShift | rightAlt | rightSuper | menu | d0
  | d1 | d2 | d3 | d4 | d5 | d6 | d7 | d8 | d9 | a | b | c | d | e | f | g | h | i | j | k | l | m
  | n | o | p | q | r | s | t | u | v | w | x | y | z | f1 | f2 | f3 | f4 | f5 | f6 | f7 | f8 | f9
  | f10 | f11 | f12 | apostrophe | comma | minus | period | slash | semicolon | equal
  | leftBracket | backslash | rightBracket | graveAccent | capsLock | scrollLock | numLock
  | printScreen | pause | keypad0 | keypad1 | keypad2 | keypad3 | keypad4 | keypad5 | keypad6
  | keypad7 | keypad8 | keypad9 | keypadDecimal | keypadDivide | keypadMultiply | keypadSubtract
  | keypadAdd | keypadEnter | keypadEqual
  deriving DecidableEq, Repr

inductive ImGuiMouseButton
  | left | right | middle
  deriving DecidableEq, Repr

/-- Each with the number of its `NpadButton`. -/
def npadMapping : List (ImGuiKey × ℕ) :=
  [(.gamepadFaceDown,0), (.gamepadFaceRight,1), (.gamepadFaceUp,2), (.gamepadFaceLeft,3),
    (.gamepadL1,6), (.gamepadR1,7), (.gamepadL2,8), (.gamepadR2,9), (.gamepadStart,10),
    (.gamepadBack,11), (.gamepadDpadLeft,12), (.gamepadDpadRight,14), (.gamepadDpadUp,13),
    (.gamepadDpadDown,15), (.gamepadLStickLeft,16), (.gamepadLStickRight,18),
    (.gamepadLStickUp,17), (.gamepadLStickDown,19)]

/-- Each with the number of its `MouseButton`. -/
def mouseMapping : List (ImGuiMouseButton × ℕ) :=
  [(.left,0), (.right,1), (.middle,2)]

/-- Each with the number of its `KeyboardKey`. -/
def keyMapping : List (ImGuiKey × ℕ) :=
  [(.none,0), (.tab,43), (.leftArrow,80), (.rightArrow,79), (.upArrow,82), (.downArrow,81),
    (.pageUp,75), (.pageDown,78), (.home,74), (.endKey,77), (.insert,73), (.delete,76),
    (.backspace,42), (.space,44), (.enter,40), (.escape,41), (.leftCtrl,224), (.leftShift,225),
    (.leftAlt,226), (.leftSuper,227), (.rightCtrl,228), (.rightShift,229), (.rightAlt,230),
    (.rightSuper,231), (.menu,101), (.d0,39), (.d1,30), (.d2,31), (.d3,32), (.d4,33), (.d5,34),
    (.d6,35), (.d7,36), (.d8,37), (.d9,38), (.a,4), (.b,5), (.c,6), (.d,7), (.e,8), (.f,9),
    (.g,10), (.h,11), (.i,12), (.j,13), (.k,14), (.l,15), (.m,16), (.n,17), (.o,18), (.p,19),
    (.q,20), (.r,21), (.s,22), (.t,23), (.u,24), (.v,25), (.w,26), (.x,27), (.y,28), (.z,29),
    (.f1,58), (.f2,59), (.f3,60), (.f4,61), (.f5,62), (.f6,63), (.f7,64), (.f8,65), (.f9,66),
    (.f10,67), (.f11,68), (.f12,69), (.apostrophe,52), (.comma,54), (.minus,45), (.period,55),
    (.slash,56), (.semicolon,51), (.equal,46), (.leftBracket,47), (.backslash,100),
    (.rightBracket,48), (.graveAccent,53), (.capsLock,57), (.scrollLock,71), (.numLock,83),
    (.printScreen,70), (.pause,72), (.keypad0,98), (.keypad1,89), (.keypad2,90), (.keypad3,91),
    (.keypad4,92), (.keypad5,93), (.keypad6,94), (.keypad7,95), (.keypad8,96), (.keypad9,97),
    (.keypadDecimal,99), (.keypadDivide,84), (.keypadMultiply,85), (.keypadSubtract,86),
    (.keypadAdd,87), (.keypadEnter,88), (.keypadEqual,103)]

structure AnalogStickState where
  x : BitVec 32
  y : BitVec 32
  deriving DecidableEq, Repr

structure NpadBaseState where
  samplingNumber : BitVec 64
  buttons : BitVec 64
  analogStickL : AnalogStickState
  analogStickR : AnalogStickState
  attributes : BitVec 32
  reserved : BitVec 32
  deriving DecidableEq, Repr

/-- A value-initialised state. -/
def NpadBaseState.zero : NpadBaseState := ⟨0,0,⟨0,0⟩,⟨0,0⟩,0,0⟩

structure KeyboardState where
  keys : BitVec 256

structure MouseState where
  wheelDeltaX : BitVec 32
  wheelDeltaY : BitVec 32
  buttons : BitVec 32

inductive NpadStyleTag
  | fullKey | handheld | joyDual | joyLeft | joyRight
  deriving DecidableEq, Repr

/-- What `nn::hid` has for a reader: the styles of each port, the samples of each style that a
read would return, newest first, and the keyboard and the mouse. -/
structure Hardware where
  styleSet : BitVec 32 → NpadStyleTag → Bool
  samples : NpadStyleTag → BitVec 32 → List NpadBaseState
  keyboard : KeyboardState
  mouse : MouseState

/-- `GetNpadStates` of the system: it stores as many samples as it has and as fit into the array,
and returns how many these are. -/
def Hardware.getNpadStates (hw : Hardware) (style : NpadStyleTag) (port : BitVec 32)
    (array : List NpadBaseState) : List NpadBaseState × ℕ :=
  let states := (hw.samples style port).take array.length
  (states++array.drop states.length,states.length)

/-- The number of a button of the pad. -/
def NpadButton.zl : ℕ := 8

def NpadButton.zr : ℕ := 9

structure InputHelper where
  prevControllerState : NpadBaseState
  curControllerState : NpadBaseState
  prevKeyboardState : KeyboardState
  curKeyboardState : KeyboardState
  prevMouseState : MouseState
  curMouseState : MouseState
  selectedPort : BitVec 64
  isReadInput : Bool
  toggleInput : Bool

/-- `disableButtons`, on the state that its pointer is to: the first one of the array. -/
def InputHelper.disableButtons (h : InputHelper) : List NpadBaseState → List NpadBaseState
  | [] => []
  | state :: rest =>
    if !h.isReadInput && h.toggleInput then
      { state with buttons := 0, analogStickL := ⟨0,0⟩, analogStickR := ⟨0,0⟩ } :: rest
    else state :: rest

section Hooks
variable (h : InputHelper) (hw : Hardware)

/-- The body that the five hooks share. -/
def disableState (style : NpadStyleTag) (array : List NpadBaseState) (port : BitVec 32) :
    List NpadBaseState × ℕ :=
  let (array,result) := hw.getNpadStates style port array
  (h.disableButtons array,result)

def disableFullKeyState := disableState h hw .fullKey

def disableHandheldState := disableState h hw .handheld

def disableJoyDualState := disableState h hw .joyDual

def disableJoyLeftState := disableState h hw .joyLeft

def disableJoyRightState := disableState h hw .joyRight

/-- The hook that a read of a style runs into. -/
def hooked (style : NpadStyleTag) : List NpadBaseState → BitVec 32 → List NpadBaseState × ℕ :=
  match style with
  | .fullKey => disableFullKeyState h hw
  | .handheld => disableHandheldState h hw
  | .joyDual => disableJoyDualState h hw
  | .joyLeft => disableJoyLeftState h hw
  | .joyRight => disableJoyRightState h hw

end Hooks

/-- A pointer to one state is an array of one. -/
def firstState (state : NpadBaseState) (array : List NpadBaseState) : NpadBaseState :=
  array.headD state

/-- The style that `tryGetContState` asks for: the first of these that the port has. -/
def Hardware.style (hw : Hardware) (port : BitVec 32) : Option NpadStyleTag :=
  if hw.styleSet port .fullKey then some .fullKey
  else if hw.styleSet port .handheld then some .handheld
  else if hw.styleSet port .joyDual then some .joyDual
  else if hw.styleSet port .joyLeft then some .joyLeft
  else if hw.styleSet port .joyRight then some .joyRight
  else none

namespace InputHelper
variable (h : InputHelper)

def isButtonHold (button : ℕ) : Bool := h.curControllerState.buttons.getLsbD button

def isButtonPress (button : ℕ) : Bool :=
  h.curControllerState.buttons.getLsbD button && !h.prevControllerState.buttons.getLsbD button

def isButtonRelease (button : ℕ) : Bool :=
  !h.curControllerState.buttons.getLsbD button && h.prevControllerState.buttons.getLsbD button

def isKeyPress (key : ℕ) : Bool :=
  h.curKeyboardState.keys.getLsbD key && !h.prevKeyboardState.keys.getLsbD key

def isKeyRelease (key : ℕ) : Bool :=
  !h.curKeyboardState.keys.getLsbD key && h.prevKeyboardState.keys.getLsbD key

def isMousePress (button : ℕ) : Bool :=
  h.curMouseState.buttons.getLsbD button && !h.prevMouseState.buttons.getLsbD button

def isMouseRelease (button : ℕ) : Bool :=
  !h.curMouseState.buttons.getLsbD button && h.prevMouseState.buttons.getLsbD button

/-- `GetNpadState` of the system is a read of one state through the hooked function; a pad of
another style leaves the state as it is. -/
def tryGetContState (hw : Hardware) : InputHelper :=
  let port := h.selectedPort.setWidth 32
  let h := { h with isReadInput := true }
  let h := match hw.style port with
    | some style =>
      { h with curControllerState :=
          firstState h.curControllerState (hooked h hw style [h.curControllerState] port).1 }
    | none => h
  { h with isReadInput := false }

/-- The sample of all devices before the toggle is looked at. -/
def sample (hw : Hardware) : InputHelper :=
  let h := { h with prevControllerState := h.curControllerState }
  let h := h.tryGetContState hw
  { h with
    prevKeyboardState := h.curKeyboardState
    curKeyboardState := hw.keyboard
    prevMouseState := h.curMouseState
    curMouseState := hw.mouse }

def updatePadState (hw : Hardware) : InputHelper :=
  let h := h.sample hw
  if h.isButtonHold NpadButton.zl && h.isButtonPress NpadButton.zr then
    { h with toggleInput := !h.toggleInput }
  else h

end InputHelper

inductive ImGuiTarget
  | key (name : ImGuiKey)
  | mouseButton (b : ImGuiMouseButton)
  deriving DecidableEq, Repr

/-- `AddKeyEvent` and `AddMouseButtonEvent`, and `AddMouseWheelEvent`. -/
inductive ImGuiEvent
  | input (t : ImGuiTarget) (down : Bool)
  | mouseWheel
  deriving DecidableEq, Repr

/-- The loop over a mapping: a press is sent as down, a release as up. -/
def addEdges {ι : Type} (target : ι → ImGuiTarget) (press release : ℕ → Bool)
    (mapping : List (ι × ℕ)) (events : List ImGuiEvent) : List ImGuiEvent :=
  mapping.foldl (fun events m =>
    if press m.2 then .input (target m.1) true :: events
    else if release m.2 then .input (target m.1) false :: events
    else events) events

/-- The events that ImGui was sent, newest first, with those of this frame. -/
def updateInput (h : InputHelper) (events : List ImGuiEvent) : List ImGuiEvent :=
  if h.toggleInput then
    let events := addEdges .key h.isButtonPress h.isButtonRelease npadMapping events
    let mouse := h.curMouseState
    -- a wheel that turns back is not forwarded
    let events := if mouse.wheelDeltaX.toInt > 0 ∨ mouse.wheelDeltaY.toInt > 0 then
        .mouseWheel :: events
      else events
    let events := addEdges .mouseButton h.isMousePress h.isMouseRelease mouseMapping events
    addEdges .key h.isKeyPress h.isKeyRelease keyMapping events
  else events

/-- What ImGui knows of the input are the events it was sent. -/
structure InputState where
  hw : Hardware
  input : InputHelper
  events : List ImGuiEvent

/-- The devices change, the overlay is given a port, one of the two samplers is called, or the
game reads the pad. -/
inductive InputAction
  | hardware (hw : Hardware)
  | setPort (port : BitVec 64)
  | layerCalc
  | procDraw
  | gameRead (style : NpadStyleTag) (port : BitVec 32) (array : List NpadBaseState)

def newFrame (st : InputState) : InputState :=
  let input := st.input.updatePadState st.hw
  ⟨st.hw,input,updateInput input st.events⟩

def InputState.step (st : InputState) (a : InputAction) : InputState :=
  match a with
  | .hardware hw => { st with hw := hw }
  | .setPort port => { st with input := { st.input with selectedPort := port } }
  | .layerCalc => { st with input := st.input.updatePadState st.hw }
  | .procDraw => if st.input.toggleInput then newFrame st else st
  | .gameRead _ _ _ => st

/-- The initial values in `InputHelper.cpp`. -/
def inputStart (hw : Hardware) : InputState where
  hw := hw
  input := ⟨.zero,.zero,⟨0⟩,⟨0⟩,⟨0,0,0⟩,⟨0,0,0⟩,-1,true,false⟩
  events := []

/-- What the pad of the overlay's port holds, read without any hook. Without a pad, the last sample
stays. -/
def InputState.pad (st : InputState) : NpadBaseState :=
  let port := st.input.selectedPort.setWidth 32
  match st.hw.style port with
  | some style =>
    firstState st.input.curControllerState
      (st.hw.getNpadStates style port [st.input.curControllerState]).1
  | none => st.input.curControllerState

/-- The state after a run from the start. -/
def inputRun (hw : Hardware) (acts : List InputAction) : InputState :=
  acts.foldl InputState.step (inputStart hw)

theorem inputRun_concat {hw : Hardware} (acts : List InputAction) (a : InputAction) :
    inputRun hw (acts++[a]) = (inputRun hw acts).step a :=
  List.foldl_append

section Reads
variable (h : InputHelper) (hw : Hardware) {style : NpadStyleTag} {port : BitVec 32}
  {array : List NpadBaseState}

theorem hooked_eq : hooked h hw style array port =
    (h.disableButtons (hw.getNpadStates style port array).1,
      (hw.getNpadStates style port array).2) := by
  cases style <;> rfl

variable {h} in
/-- The flag is up, or the input is not toggled on: nothing is touched. -/
theorem disableButtons_id (hflag : h.isReadInput = true ∨ h.toggleInput = false) :
    h.disableButtons array = array := by
  cases array with
  | nil => rfl
  | cons s rest =>
    unfold InputHelper.disableButtons
    rcases hflag with hflag | hflag <;> simp [hflag]

/-- Reading for itself, `InputHelper` gets what an unhooked read gets. -/
theorem tryGetContState_cur (events : List ImGuiEvent) :
    (h.tryGetContState hw).curControllerState = (InputState.mk hw h events).pad := by
  unfold InputHelper.tryGetContState InputState.pad
  dsimp only
  cases hw.style (h.selectedPort.setWidth 32) with
  | none => rfl
  | some style =>
    dsimp only
    rw [hooked_eq]
    dsimp only
    rw [disableButtons_id (Or.inl rfl)]

/-- A toggle leaves the sample alone. -/
theorem updatePadState_eq : ∃ toggleInput,
    h.updatePadState hw = { h.sample hw with toggleInput := toggleInput } := by
  unfold InputHelper.updatePadState
  dsimp only
  split
  · exact ⟨_,rfl⟩
  · exact ⟨_,rfl⟩

theorem updatePadState_cur (events : List ImGuiEvent) :
    (h.updatePadState hw).curControllerState = (InputState.mk hw h events).pad := by
  obtain ⟨toggleInput,heq⟩ := updatePadState_eq h hw
  rw [heq]
  exact tryGetContState_cur { h with prevControllerState := h.curControllerState } hw events

theorem updatePadState_flag : (h.updatePadState hw).isReadInput = false := by
  obtain ⟨toggleInput,heq⟩ := updatePadState_eq h hw
  rw [heq]
  rfl

end Reads

end Zeldar
