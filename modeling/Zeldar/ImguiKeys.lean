import Zeldar.Runs
import Zeldar.InputHelper

namespace Zeldar

/-- Where the state of a key is read from. -/
inductive KeySource
  | pad (button : ℕ)
  | mouse (button : ℕ)
  | keyboard (key : ℕ)
  deriving DecidableEq, Repr

/-- Every key that the backend names, with its source. -/
def mapped : List (ImGuiTarget × KeySource) :=
  npadMapping.map (fun m => (.key m.1,.pad m.2))++
    (mouseMapping.map (fun m => (.mouseButton m.1,.mouse m.2))++
      keyMapping.map (fun m => (.key m.1,.keyboard m.2)))

/-- The current sample. -/
def InputHelper.held (h : InputHelper) : KeySource → Bool
  | .pad n => h.curControllerState.buttons.getLsbD n
  | .mouse n => h.curMouseState.buttons.getLsbD n
  | .keyboard n => h.curKeyboardState.keys.getLsbD n

/-- The sample before it. -/
def InputHelper.wasHeld (h : InputHelper) : KeySource → Bool
  | .pad n => h.prevControllerState.buttons.getLsbD n
  | .mouse n => h.prevMouseState.buttons.getLsbD n
  | .keyboard n => h.prevKeyboardState.keys.getLsbD n

/-- What the newest event about a key says, at first up. -/
def lastDown (t : ImGuiTarget) : List ImGuiEvent → Bool
  | [] => false
  | .input t' down :: events => if t' = t then down else lastDown t events
  | .mouseWheel :: events => lastDown t events

/-- What ImGui was last told about a key is what the current sample holds. -/
def InputState.Current (st : InputState) : Prop :=
  ∀ m ∈ mapped, lastDown m.1 st.events = st.input.held m.2

/-- The action is a frame whose `updateInput` runs with the input toggled on. -/
def InputState.forwards (st : InputState) : InputAction → Bool
  | .procDraw => st.input.toggleInput && (st.input.updatePadState st.hw).toggleInput
  | _ => false

/-- What the devices show. -/
def InputState.shows (st : InputState) : KeySource → Bool
  | .pad n => st.pad.buttons.getLsbD n
  | .mouse n => st.hw.mouse.buttons.getLsbD n
  | .keyboard n => st.hw.keyboard.keys.getLsbD n

/-- What each source showed at the last frame that was forwarded, at first nothing. -/
def forwarded (hw : Hardware) (acts : List InputAction) : KeySource → Bool :=
  (acts.foldl (fun (p : InputState × (KeySource → Bool)) a =>
    (p.1.step a,if p.1.forwards a then p.1.shows else p.2)) (inputStart hw,fun _ => false)).2

section Run
variable {hw : Hardware}

theorem forwarded_concat (acts : List InputAction) (a : InputAction) :
    forwarded hw (acts++[a]) =
      if (inputRun hw acts).forwards a then (inputRun hw acts).shows
      else forwarded hw acts := by
  -- the first half of the fold is the run itself
  have hrun (p : InputState × (KeySource → Bool)) : (acts.foldl (fun p a =>
      (p.1.step a,if p.1.forwards a then p.1.shows else p.2)) p).1 =
      acts.foldl InputState.step p.1 := by
    induction acts generalizing p with
    | nil => rfl
    | cons b acts ih =>
      rw [List.foldl_cons, List.foldl_cons]
      apply ih
  unfold forwarded inputRun
  rw [List.foldl_append]
  simp only [List.foldl_cons, List.foldl_nil]
  rw [hrun]

end Run

section Sample
variable (h : InputHelper) (hw : Hardware)

theorem updatePadState_held (events : List ImGuiEvent) (s : KeySource) :
    (h.updatePadState hw).held s = (InputState.mk hw h events).shows s := by
  have hpad := updatePadState_cur h hw events
  obtain ⟨toggleInput,heq⟩ := updatePadState_eq h hw
  rw [heq] at hpad ⊢
  cases s with
  | pad n => exact congrArg (fun state => state.buttons.getLsbD n) hpad
  | mouse n => rfl
  | keyboard n => rfl

theorem tryGetContState_others : ∃ cur,
    h.tryGetContState hw = { h with curControllerState := cur, isReadInput := false } := by
  unfold InputHelper.tryGetContState
  dsimp only
  cases hw.style (h.selectedPort.setWidth 32) with
  | none => exact ⟨_,rfl⟩
  | some style => exact ⟨_,rfl⟩

theorem updatePadState_wasHeld (s : KeySource) : (h.updatePadState hw).wasHeld s = h.held s := by
  obtain ⟨toggleInput,heq⟩ := updatePadState_eq h hw
  obtain ⟨cur,hcur⟩ :=
    tryGetContState_others { h with prevControllerState := h.curControllerState } hw
  rw [heq, InputHelper.sample]
  dsimp only
  rw [hcur]
  cases s <;> rfl

end Sample

/-- What is known of a key after its edge: an edge that is not there tells nothing. -/
def afterEdge (now before told : Bool) : Bool := if now = before then told else now

theorem ite_press_release (now before told : Bool) :
    (if now && !before then true else if !now && before then false else told) =
      afterEdge now before told := by
  cases now <;> cases before <;> rfl

section AddEdges
variable {ι : Type} {target : ι → ImGuiTarget} {press release : ℕ → Bool}
  {mapping : List (ι × ℕ)} {t : ImGuiTarget}

theorem lastDown_addEdges_of_notMem (hmem : ∀ m ∈ mapping, target m.1 ≠ t)
    (events : List ImGuiEvent) :
    lastDown t (addEdges target press release mapping events) = lastDown t events := by
  unfold addEdges
  induction mapping generalizing events with
  | nil => rfl
  | cons m mapping ih =>
    have hne := hmem m (List.mem_cons_self ..)
    rw [List.foldl_cons, ih (fun m' hm' => hmem m' (List.mem_cons_of_mem _ hm'))]
    split
    · rw [lastDown, if_neg hne]
    · split
      · rw [lastDown, if_neg hne]
      · rfl

/-- Where no two entries name the same key, a key hears of its own edge only. -/
theorem lastDown_addEdges (hnodup : (mapping.map (fun m => target m.1)).Nodup) {m : ι × ℕ}
    (hm : m ∈ mapping) (events : List ImGuiEvent) :
    lastDown (target m.1) (addEdges target press release mapping events) =
      if press m.2 then true else if release m.2 then false
      else lastDown (target m.1) events := by
  induction mapping generalizing events with
  | nil => cases hm
  | cons m' mapping ih =>
    rw [List.map_cons, List.nodup_cons] at hnodup
    obtain ⟨hfirst,hrest⟩ := hnodup
    have hother {k : ι × ℕ} (hk : k ∈ mapping) : target m'.1 ≠ target k.1 := by
      intro h
      apply hfirst
      rw [h]
      exact List.mem_map_of_mem hk
    -- the first entry adds its event before the rest of the mapping adds theirs
    have hcons (events : List ImGuiEvent) :
        addEdges target press release (m' :: mapping) events =
          addEdges target press release mapping
            (if press m'.2 then .input (target m'.1) true :: events
            else if release m'.2 then .input (target m'.1) false :: events
            else events) := rfl
    rw [hcons]
    rcases List.mem_cons.mp hm with rfl | hm
    · -- its own entry: the rest of the mapping is about other keys
      rw [lastDown_addEdges_of_notMem (fun k hk => (hother hk).symm)]
      split
      · rw [lastDown, if_pos rfl]
      · split
        · rw [lastDown, if_pos rfl]
        · rfl
    · -- the entry of another key: its event is passed over
      rw [ih hrest hm]
      have hskip (d : Bool) : lastDown (target m.1) (.input (target m'.1) d :: events) =
          lastDown (target m.1) events := by
        rw [lastDown, if_neg (hother hm)]
      split_ifs <;> simp only [hskip]

end AddEdges

theorem npadMapping_nodup :
    (npadMapping.map (fun m => ImGuiTarget.key m.1)).Nodup := by decide +kernel

theorem mouseMapping_nodup :
    (mouseMapping.map (fun m => ImGuiTarget.mouseButton m.1)).Nodup := by decide +kernel

theorem keyMapping_nodup :
    (keyMapping.map (fun m => ImGuiTarget.key m.1)).Nodup := by decide +kernel

/-- No key of the pad is a key of the keyboard. -/
theorem npadMapping_ne_keyMapping : ∀ m ∈ npadMapping, ∀ m' ∈ keyMapping,
    ImGuiTarget.key m.1 ≠ ImGuiTarget.key m'.1 := by decide +kernel

/-- Each mapped key hears of its own edge, once. -/
theorem lastDown_updateInput {h : InputHelper} (ht : h.toggleInput = true)
    (events : List ImGuiEvent) {m : ImGuiTarget × KeySource} (hm : m ∈ mapped) :
    lastDown m.1 (updateInput h events) =
      afterEdge (h.held m.2) (h.wasHeld m.2) (lastDown m.1 events) := by
  have hwheel (t : ImGuiTarget) (c : Prop) [Decidable c] (events : List ImGuiEvent) :
      lastDown t (if c then .mouseWheel :: events else events) = lastDown t events := by
    split <;> rfl
  unfold updateInput
  rw [if_pos ht]
  rw [mapped, List.mem_append, List.mem_append] at hm
  rcases hm with hm | hm | hm
  · -- a button of the pad: the loops after its own are about other keys
    obtain ⟨k,hk,rfl⟩ := List.mem_map.mp hm
    rw [lastDown_addEdges_of_notMem (fun m' hm' => (npadMapping_ne_keyMapping k hk m' hm').symm),
      lastDown_addEdges_of_notMem (fun _ _ => by simp), hwheel,
      lastDown_addEdges npadMapping_nodup hk]
    apply ite_press_release
  · -- a button of the mouse
    obtain ⟨k,hk,rfl⟩ := List.mem_map.mp hm
    rw [lastDown_addEdges_of_notMem (fun _ _ => by simp),
      lastDown_addEdges mouseMapping_nodup hk, hwheel,
      lastDown_addEdges_of_notMem (fun _ _ => by simp)]
    apply ite_press_release
  · -- a key of the keyboard: the loops before its own are about other keys
    obtain ⟨k,hk,rfl⟩ := List.mem_map.mp hm
    rw [lastDown_addEdges keyMapping_nodup hk, lastDown_addEdges_of_notMem (fun _ _ => by simp),
      hwheel, lastDown_addEdges_of_notMem (fun m' hm' => npadMapping_ne_keyMapping m' hm' k hk)]
    apply ite_press_release

section Steps
variable {st : InputState} {a : InputAction}

/-- A step that forwards nothing tells ImGui nothing. -/
theorem step_events_of_not_forwards (hf : st.forwards a = false) :
    (st.step a).events = st.events := by
  cases a with
  | hardware hw => rfl
  | setPort port => rfl
  | layerCalc => rfl
  | gameRead style port array => rfl
  | procDraw =>
    rw [InputState.forwards, Bool.and_eq_false_iff] at hf
    rw [InputState.step]
    split
    · rename_i ht
      -- the sample of this frame is the one that toggles the input off
      have hoff : (st.input.updatePadState st.hw).toggleInput = false := by
        rcases hf with hf | hf
        · rw [ht] at hf
          cases hf
        · exact hf
      rw [newFrame]
      dsimp only
      rw [updateInput, if_neg (by rw [hoff]; simp)]
    · rfl

theorem step_of_forwards (hf : st.forwards a = true) :
    (∀ s, (st.step a).input.held s = st.shows s) ∧
    ∀ m ∈ mapped, lastDown m.1 (st.step a).events =
      afterEdge (st.shows m.2) (st.input.held m.2) (lastDown m.1 st.events) := by
  cases a with
  | hardware hw => cases hf
  | setPort port => cases hf
  | layerCalc => cases hf
  | gameRead style port array => cases hf
  | procDraw =>
    rw [InputState.forwards, Bool.and_eq_true] at hf
    have hstep : st.step .procDraw = newFrame st := by
      rw [InputState.step, if_pos hf.1]
    have hheld (s : KeySource) : (st.input.updatePadState st.hw).held s = st.shows s :=
      updatePadState_held st.input st.hw st.events s
    rw [hstep]
    refine ⟨hheld,?_⟩
    intro m hm
    -- the sample of the frame moves what was held to what was held before
    calc lastDown m.1 (newFrame st).events
        = afterEdge ((st.input.updatePadState st.hw).held m.2)
            ((st.input.updatePadState st.hw).wasHeld m.2) (lastDown m.1 st.events) :=
          lastDown_updateInput hf.2 st.events hm
      _ = afterEdge (st.shows m.2) (st.input.held m.2) (lastDown m.1 st.events) := by
          rw [hheld, updatePadState_wasHeld]

end Steps

section Stale
variable {hw : Hardware} {acts : List InputAction} {a : InputAction}

/-- ImGui has been told what the last forwarded frame showed. -/
def Told (hw : Hardware) (acts : List InputAction) : Prop :=
  ∀ m ∈ mapped, lastDown m.1 (inputRun hw acts).events = forwarded hw acts m.2

theorem told_nil : Told hw [] := fun _ _ => rfl

theorem told_concat (htold : Told hw acts)
    (hcur : (inputRun hw acts).forwards a = true → (inputRun hw (acts++[a])).Current) :
    Told hw (acts++[a]) := by
  intro m hm
  rw [forwarded_concat]
  split
  · rename_i hf
    rw [hcur hf m hm, inputRun_concat]
    exact (step_of_forwards hf).1 m.2
  · rename_i hf
    rw [inputRun_concat, step_events_of_not_forwards (Bool.eq_false_iff.mpr hf)]
    exact htold m hm

/-- A forwarded frame brings ImGui up to date when no change was sampled before it. -/
theorem current_concat_iff (htold : Told hw acts)
    (hf : (inputRun hw acts).forwards a = true) :
    (inputRun hw (acts++[a])).Current ↔
      ∀ m ∈ mapped, (inputRun hw acts).shows m.2 ≠ forwarded hw acts m.2 →
        (inputRun hw acts).shows m.2 ≠ (inputRun hw acts).input.held m.2 := by
  obtain ⟨hheld,hlast⟩ := step_of_forwards hf
  rw [inputRun_concat]
  apply forall₂_congr
  intro m hm
  rw [hlast m hm, hheld, htold m hm, afterEdge]
  split
  · -- no edge is seen, so what was told last still has to be right
    rename_i heq
    constructor
    · intro h hne
      exact absurd h.symm hne
    · intro h
      by_contra hne
      exact h (Ne.symm hne) heq
  · -- an edge is seen and told
    rename_i hne
    exact iff_of_true rfl (fun _ => hne)

/-- ImGui holds no stale key along a run exactly when no change of a mapped key was
taken by a sample that is not forwarded. -/
theorem imgui_current_iff (hw : Hardware) (acts : List InputAction) :
    EveryStep (fun before a => (inputRun hw before).forwards a = true →
      (inputRun hw (before++[a])).Current) acts ↔
    EveryStep (fun before a => (inputRun hw before).forwards a = true →
      ∀ m ∈ mapped, (inputRun hw before).shows m.2 ≠ forwarded hw before m.2 →
        (inputRun hw before).shows m.2 ≠ (inputRun hw before).input.held m.2) acts := by
  apply @everyStep_iff _ _ _ (Told hw)
  · exact told_nil
  · intro before a htold
    exact forall_congr' (fun hf => current_concat_iff htold hf)
  · intro before a htold hcur
    exact told_concat htold hcur

end Stale

/-- A pad whose only sample has these buttons, and nothing else. -/
def padOnly (buttons : BitVec 64) : Hardware where
  styleSet _ style := style == .fullKey
  samples _ _ := [{ NpadBaseState.zero with buttons := buttons }]
  keyboard := ⟨0⟩
  mouse := ⟨0,0,0⟩

/-- The sample that toggles the input on takes the two presses, and the frame after it sees
no edge: ZL and ZR are held and ImGui was never told. -/
theorem imgui_stale_key : ¬ ∀ (hw : Hardware) (acts : List InputAction),
    EveryStep (fun before a => (inputRun hw before).forwards a = true →
      (inputRun hw (before++[a])).Current) acts := by
  intro h
  have hcur := h (padOnly 0) _ [.setPort 0,.hardware (padOnly 0x300),.layerCalc] .procDraw [] rfl
    (by decide) (.key .gamepadL2,.pad 8) (by decide)
  revert hcur
  decide

end Zeldar
