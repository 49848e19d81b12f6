import Mathlib.Data.List.Forall2
import Zeldar.Runs
import Zeldar.InputHelper

namespace Zeldar.Hid

/-- Neither a button nor a stick is touched. -/
def Neutral (s : NpadBaseState) : Prop :=
  s.buttons = 0 ∧ s.analogStickL = ⟨0,0⟩ ∧ s.analogStickR = ⟨0,0⟩

/-- The sample `s` as the blind are shown it. -/
def Blinded (s shown : NpadBaseState) : Prop :=
  Neutral shown ∧ shown.samplingNumber = s.samplingNumber ∧ shown.attributes = s.attributes

/-- The states that a read returns to its caller. -/
def returned (read : List NpadBaseState × ℕ) : List NpadBaseState := read.1.take read.2

/-- The game sees as many states as the system has for it: blinded while the overlay has the
input, and otherwise with nothing of its array changed. The overlay sees the pad. -/
def Blind (hw : Hardware) (before : List InputAction) (a : InputAction) : Prop :=
  let st := inputRun hw before
  match a with
  | .gameRead style port array =>
    let plain := st.hw.getNpadStates style port array
    let shown := hooked st.input st.hw style array port
    shown.2 = plain.2 ∧
      if st.input.toggleInput then List.Forall₂ Blinded (returned plain) (returned shown)
      else shown.1 = plain.1
  | .layerCalc => (st.step a).input.curControllerState = st.pad
  | .procDraw => st.input.toggleInput = true → (st.step a).input.curControllerState = st.pad
  | _ => True

/-- What a game read returns while the overlay has the input is neutral from the second state
on. -/
def NeutralRest (hw : Hardware) (before : List InputAction) (a : InputAction) : Prop :=
  let st := inputRun hw before
  match a with
  | .gameRead style port array => st.input.toggleInput = true →
      ∀ s ∈ (returned (st.hw.getNpadStates style port array)).drop 1, Neutral s
  | _ => True

section Steps
variable {h : InputHelper} {array : List NpadBaseState}

/-- The blinding of one state. -/
theorem blinded_first {s : NpadBaseState} :
    Blinded s { s with buttons := 0, analogStickL := ⟨0,0⟩, analogStickR := ⟨0,0⟩ } :=
  ⟨⟨rfl,rfl,rfl⟩,rfl,rfl⟩

theorem blinded_self {s : NpadBaseState} : Blinded s s ↔ Neutral s := by
  constructor
  · exact fun hs => hs.1
  · exact fun hs => ⟨hs,rfl,rfl⟩

/-- Only the first state is blinded, so the other ones have to be neutral by themselves. -/
theorem forall₂_blinded_iff (hflag : h.isReadInput = false) (htoggle : h.toggleInput = true) :
    List.Forall₂ Blinded array (h.disableButtons array) ↔ ∀ s ∈ array.drop 1, Neutral s := by
  cases array with
  | nil =>
    refine iff_of_true List.Forall₂.nil ?_
    intro s hs
    cases hs
  | cons s rest =>
    have hdisable : h.disableButtons (s :: rest) =
        { s with buttons := 0, analogStickL := ⟨0,0⟩, analogStickR := ⟨0,0⟩ } :: rest := by
      simp [InputHelper.disableButtons, hflag, htoggle]
    rw [hdisable, List.forall₂_cons, List.drop_one, List.tail_cons, List.forall₂_same]
    constructor
    · rintro ⟨-,hrest⟩ t ht
      exact blinded_self.mp (hrest t ht)
    · intro hrest
      exact ⟨blinded_first,fun t ht => blinded_self.mpr (hrest t ht)⟩

/-- What is returned of a blinded array is the blinding of what is returned of it. -/
theorem take_disableButtons (n : ℕ) :
    (h.disableButtons array).take n = h.disableButtons (array.take n) := by
  cases array with
  | nil => cases n <;> rfl
  | cons s rest =>
    cases n with
    | zero => rfl
    | succ n =>
      unfold InputHelper.disableButtons
      split_ifs <;> rfl

end Steps

section Run
variable {hw : Hardware}

theorem newFrame_flag (st : InputState) : (newFrame st).input.isReadInput = false :=
  updatePadState_flag st.input st.hw

/-- The flag is only up before the first sample, and the input is not toggled on then. -/
theorem inputRun_flag (acts : List InputAction) :
    (inputRun hw acts).input.toggleInput = true → (inputRun hw acts).input.isReadInput = false := by
  induction acts using List.reverseRecOn with
  | nil =>
    intro h
    cases h
  | append_singleton acts a ih =>
    rw [inputRun_concat]
    cases a with
    | hardware hw' => exact ih
    | setPort port => exact ih
    | layerCalc =>
      intro _
      exact updatePadState_flag _ _
    | procDraw =>
      rw [InputState.step]
      split_ifs
      · intro _
        exact newFrame_flag _
      · exact ih
    | gameRead style port array => exact ih

/-- One read of the game is as it should be if what it returns is neutral from the second state
on, and so only then while the overlay has the input. -/
theorem blind_iff (acts : List InputAction) (a : InputAction) :
    Blind hw acts a ↔ NeutralRest hw acts a := by
  have hflag := @inputRun_flag hw acts
  unfold Blind NeutralRest
  dsimp only
  generalize inputRun hw acts = st at hflag
  cases a with
  | hardware hw' => exact Iff.rfl
  | setPort port => exact Iff.rfl
  | layerCalc => exact iff_of_true (updatePadState_cur st.input st.hw st.events) trivial
  | procDraw =>
    refine iff_of_true (fun htoggle => ?_) trivial
    rw [InputState.step, if_pos htoggle]
    exact updatePadState_cur st.input st.hw st.events
  | gameRead style port array =>
    dsimp only
    rw [hooked_eq]
    dsimp only
    -- with the overlay open the first state is blinded; the rest of them is what counts
    by_cases htoggle : st.input.toggleInput = true
    · have hshown := @forall₂_blinded_iff st.input
        (returned (st.hw.getNpadStates style port array)) (hflag htoggle) htoggle
      rw [if_pos htoggle]
      unfold returned at hshown ⊢
      dsimp only at hshown ⊢
      rw [take_disableButtons, hshown]
      exact ⟨fun h _ => h.2,fun h => ⟨rfl,h htoggle⟩⟩
    · rw [if_neg htoggle, disableButtons_id (Or.inr (Bool.eq_false_iff.mpr htoggle))]
      exact iff_of_true ⟨rfl,rfl⟩ fun h => absurd h htoggle

/-- In a run the game is blind while the overlay has the input, and only then, exactly if the
states it reads meanwhile are neutral from the second one on. The overlay always sees the pad. -/
theorem reads_blind_iff (hw : Hardware) (acts : List InputAction) :
    EveryStep (Blind hw) acts ↔ EveryStep (NeutralRest hw) acts := by
  have hstep (before : List InputAction) (a : InputAction) (_ : True) :
      Blind hw before a ↔ NeutralRest hw before a := blind_iff before a
  exact @everyStep_iff _ _ _ (fun _ => True) trivial hstep (fun _ _ _ _ => trivial) acts

end Run

/-- A pad whose last two samples both hold ZL and ZR. -/
def heldPad : Hardware where
  styleSet _ style := style == .fullKey
  samples _ _ := [{ NpadBaseState.zero with samplingNumber := 2, buttons := 0x300 },
    { NpadBaseState.zero with samplingNumber := 1, buttons := 0x300 }]
  keyboard := ⟨0⟩
  mouse := ⟨0,0,0⟩

/-- Once the overlay has the input, a game that reads two samples sees the buttons of the
second. -/
theorem second_sample_seen : ¬EveryStep (Blind heldPad)
    [.setPort 0,.layerCalc,.gameRead .fullKey 0 [.zero,.zero]] := by
  intro h
  have hread := (blind_iff _ _).mp (h [.setPort 0,.layerCalc] _ [] rfl)
  have hneutral := hread rfl { NpadBaseState.zero with samplingNumber := 1, buttons := 0x300 }
    List.mem_cons_self
  exact absurd hneutral.1 (by decide)

end Zeldar.Hid
