import Zeldar.ImguiNvn

namespace Zeldar.Nvn

section Frames
variable {d : Driver} {s t : Layer} {ops : List Op} {g : Game} {p : Pointer} {args : Args}
  {r : BitVec 64}

theorem Drawn.congr (h : Drawn d s) (hlog : t.log = s.log)
    (hinit : t.hasInitImGui = s.hasInitImGui) : Drawn d t :=
  ⟨hlog ▸ hinit ▸ h.once,hlog ▸ h.shows,hlog ▸ h.last⟩

/-- An event that is no frame. -/
theorem Drawn.event (h : Drawn d s) {e : Event} (he : e ≠ .initImGui) (hf : ∀ fs, e ≠ .frame fs)
    (hlog : t.log = s.log++[e]) (hinit : t.hasInitImGui = s.hasInitImGui) : Drawn d t := by
  refine ⟨?_,?_,fun fs => ?_⟩
  · rw [hlog, hinit, List.count_append, List.count_singleton, if_neg (by simpa using he), h.once]
    rfl
  · rw [hlog, everyStep_concat]
    exact ⟨h.shows,fun ⟨fs,hfs⟩ => absurd hfs (hf fs),fun ⟨fs,hfs⟩ => absurd hfs (h.last fs)⟩
  · rw [hlog, List.getLast?_concat]
    exact fun he => hf fs (Option.some.inj he)

/-- Only a lookup is not recorded. -/
theorem exec_new {history new : List (Pointer × Args)}
    (h : d.exec history p args = some (r,new)) :
    (∃ device procName, args = .proc device procName) ∧ new = [] ∨ new = [(p,args)] := by
  unfold Driver.exec at h
  split at h
  · cases h
  · split at h
    · cases args with
      | proc device procName =>
        cases h
        exact Or.inl ⟨⟨device,procName,rfl⟩,rfl⟩
      | _ => cases h
    · cases h
      exact Or.inr rfl

theorem Drawn.exec (h : Drawn d s) (he : s.exec d p args = some (r,t)) : Drawn d t := by
  obtain ⟨⟨r',new⟩,hexec,ht⟩ := Option.bind_eq_some_iff.mp he
  cases ht
  rcases exec_new hexec with ⟨-,rfl⟩ | rfl
  · exact h.congr (List.append_nil _) rfl
  · exact h.event (e := .call p args) nofun nofun rfl rfl

theorem Drawn.initImGui (h : Drawn d s) (hno : s.hasInitImGui = false) :
    Drawn d s.initImGui := by
  have honce := h.once
  rw [hno] at honce
  rcases initImGui_cases s with hs | hs <;> rw [hs]
  · refine ⟨?_,?_,fun fs => ?_⟩
    · change (s.log++[_]).count _ = _
      rw [List.count_append, honce]
      rfl
    · change EveryStep _ (s.log++[_])
      rw [everyStep_concat]
      exact ⟨h.shows,nofun,fun ⟨fs,hfs⟩ => absurd hfs (h.last fs)⟩
    · change (s.log++[_]).getLast? ≠ _
      rw [List.getLast?_concat]
      nofun
  · exact h.congr rfl hno.symm

/-- A frame is drawn, and then the texture is presented. -/
theorem Drawn.present (h : Drawn d s) (hinit : s.hasInitImGui = true)
    {queue window : Addr} {texIndex : BitVec 32}
    (he : s.procDraw.exec d (d.address .presentTexture) (.present queue window texIndex) =
      some (r,t)) : Drawn d t := by
  rcases procDraw_cases s with hs | hs <;> rw [hs] at he
  · obtain ⟨⟨r',new⟩,hexec,ht⟩ := Option.bind_eq_some_iff.mp he
    cases ht
    have hnew : new = [(d.address .presentTexture,.present queue window texIndex)] := by
      rcases exec_new hexec with ⟨⟨_,_,hargs⟩,-⟩ | hnew
      · cases hargs
      · exact hnew
    have hmem : Event.initImGui ∈ s.log := by
      apply List.count_pos_iff.mp
      rw [h.once, if_pos hinit]
      exact Nat.one_pos
    rw [hnew]
    refine ⟨?_,?_,fun fs => ?_⟩
    · change ((s.log++[_])++[_]).count _ = if s.hasInitImGui = true then 1 else 0
      rw [List.count_append, List.count_append, h.once]
      rfl
    · change EveryStep _ ((s.log++[_])++[_])
      rw [everyStep_concat, everyStep_concat]
      refine ⟨⟨h.shows,fun _ => hmem,fun ⟨fs,hfs⟩ => absurd hfs (h.last fs)⟩,nofun,fun _ => ?_⟩
      exact ⟨_,rfl⟩
    · change ((s.log++[_])++[_]).getLast? ≠ _
      rw [List.getLast?_concat]
      nofun
  · exact h.exec he

theorem Drawn.wrapper (h : Drawn d s) (hsim : Sim d ops s g) {w : Wrapper}
    (hw : Value.wrapper w ∈ s.values) {t : Value × Layer}
    (ht : s.callWrapper d w args = some t) : Drawn d t.2 := by
  have htemp := hsim.temps w hw
  cases w with
  | deviceInit =>
    cases args with
    | device device builder =>
      obtain ⟨⟨r,u⟩,hu,ht⟩ := Option.bind_eq_some_iff.mp ht
      dsimp only at ht
      split at ht
      · cases ht
      · cases ht
        exact (h.exec hu).event (e := .loadProcs) nofun nofun rfl rfl
    | _ => cases ht
  | getProc =>
    cases args with
    | proc device procName =>
      obtain ⟨⟨r,u⟩,hu,ht⟩ := Option.bind_eq_some_iff.mp ht
      have hdrawn := h.exec hu
      dsimp only at ht
      split at ht
      · cases ht
        exact hdrawn.congr rfl rfl
      split at ht
      · cases ht
        exact hdrawn.congr rfl rfl
      split at ht
      · cases ht
        exact hdrawn.congr rfl rfl
      split at ht
      · cases ht
        exact hdrawn.congr rfl rfl
      cases ht
      exact hdrawn
    | _ => cases ht
  | queueInit =>
    cases args with
    | queue queue builder =>
      obtain ⟨⟨r,u⟩,hu,ht⟩ := Option.bind_eq_some_iff.mp ht
      cases ht
      exact (h.exec hu).congr rfl rfl
    | _ => cases ht
  | cmdBufInit =>
    cases args with
    | cmdBuf buffer device =>
      obtain ⟨⟨r,u⟩,hu,ht⟩ := Option.bind_eq_some_iff.mp ht
      cases ht
      have hdrawn : Drawn d { u with nvnCmdBuf := buffer } := (h.exec hu).congr rfl rfl
      dsimp only
      split
      · exact hdrawn
      · rename_i hno
        exact hdrawn.initImGui (Bool.eq_false_iff.mpr hno)
    | _ => cases ht
  | setViewport =>
    cases args with
    | viewport cmdBuf x y w h' =>
      obtain ⟨⟨r,u⟩,hu,ht⟩ := Option.bind_eq_some_iff.mp ht
      cases ht
      dsimp only
      split
      · exact (h.exec hu).congr rfl rfl
      · exact h.exec hu
    | _ => cases ht
  | presentTexture =>
    cases args with
    | present queue window texIndex =>
      obtain ⟨⟨r,u⟩,hu,ht⟩ := Option.bind_eq_some_iff.mp ht
      cases ht
      by_cases hinit : s.hasInitImGui = true
      · rw [if_pos hinit] at hu
        rw [(procDraw_rest s).2.1, htemp] at hu
        exact h.present hinit hu
      · rw [if_neg hinit] at hu
        exact h.exec hu
    | _ => cases ht

theorem Drawn.step (h : Drawn d s) (hsim : Sim d ops s g) {op : Op} (ht : s.step d op = some t) :
    Drawn d t := by
  cases op with
  | bootstrap funcName =>
    cases ht
    rw [Layer.bootstrap]
    split
    · exact h.congr rfl rfl
    · split <;> exact h.congr rfl rfl
  | call k args =>
    obtain ⟨val,hval,ht⟩ := Option.bind_eq_some_iff.mp ht
    cases val with
    | word p =>
      obtain ⟨⟨r,u⟩,hu,ht⟩ := Option.bind_eq_some_iff.mp ht
      cases ht
      exact (h.exec hu).congr rfl rfl
    | wrapper w =>
      obtain ⟨⟨v,u⟩,hu,ht⟩ := Option.bind_eq_some_iff.mp ht
      cases ht
      exact (h.wrapper hsim (List.mem_of_getElem? hval) hu).congr rfl rfl
  | addDrawFunc f =>
    rw [Layer.step] at ht
    split at ht
    · cases ht
    · cases ht
      exact h.congr rfl rfl
  | toggle on =>
    cases ht
    exact h.congr rfl rfl

end Frames

section Runs
variable {d : Driver} {ops : List Op} {g : Game}

theorem sim_start (d : Driver) : Sim d [] Layer.start Game.start :=
  ⟨rfl,.nil,nofun,rfl,fun _ => Iff.intro nofun nofun,rfl,fun _ => Iff.intro nofun nofun⟩

theorem drawn_start (d : Driver) : Drawn d Layer.start := ⟨rfl,everyStep_nil,nofun⟩

/-- A run of the game, and the same run with the module. -/
theorem nvnRun_sim (hg : gameRun d ops = some g) :
    (EveryStep d.Served ops → ∃ s, nvnRun d ops = some s ∧ Sim d ops s g ∧ Drawn d s) ∧
      (¬EveryStep d.Served ops → nvnRun d ops = none) := by
  induction ops using List.reverseRecOn generalizing g with
  | nil =>
    cases hg
    exact ⟨fun _ => ⟨_,rfl,sim_start d,drawn_start d⟩,fun h => absurd everyStep_nil h⟩
  | append_singleton ops op ih =>
    rw [gameRun, List.foldlM_append] at hg
    obtain ⟨g₁,hg₁,hstep⟩ := Option.bind_eq_some_iff.mp hg
    rw [List.foldlM_cons] at hstep
    obtain ⟨g₂,hg₂,hdone⟩ := Option.bind_eq_some_iff.mp hstep
    cases hdone
    obtain ⟨hserved,hnot⟩ := ih hg₁
    rw [nvnRun, List.foldlM_append, everyStep_concat]
    by_cases hops : EveryStep d.Served ops
    · obtain ⟨s,hs,hsim,hdrawn⟩ := hserved hops
      obtain ⟨hyes,hno⟩ := hsim.step hg₂
      change (_ → ∃ t, (nvnRun d ops >>= _) = _ ∧ _) ∧ (_ → (nvnRun d ops >>= _) = _)
      rw [hs]
      refine ⟨fun ⟨_,hop⟩ => ?_,fun hn => ?_⟩
      · obtain ⟨t,ht,htsim⟩ := hyes hop
        refine ⟨t,?_,htsim,hdrawn.step hsim ht⟩
        change List.foldlM (Layer.step d) s [op] = _
        rw [List.foldlM_cons, ht]
        rfl
      · change List.foldlM (Layer.step d) s [op] = _
        rw [List.foldlM_cons, hno fun hop => hn ⟨hops,hop⟩]
        rfl
    · refine ⟨fun ⟨h,_⟩ => absurd h hops,fun _ => ?_⟩
      change (nvnRun d ops >>= _) = _
      rw [hnot hops]
      rfl

/-- The module between the game and NVN: it serves the game exactly when no device is initialised
through it before the lookup has been asked for, and no draw function is added twice. The driver
then gets the calls of the game, and the game the answers of the driver, but for the wrappers, each
of which leads to the function that it stands for. ImGui is set up once at most, and draws after
that, each time right before a texture is presented. -/
theorem imgui_transparent (hg : gameRun d ops = some g) :
    ((∃ s, nvnRun d ops = some s) ↔ EveryStep d.Served ops) ∧
      ∀ s, nvnRun d ops = some s →
        s.history = g.history ∧ List.Forall₂ d.StandsFor s.values g.values ∧
          (∀ w, Value.wrapper w ∈ s.values → s.temp w = d.address w) ∧
          s.log.count .initImGui ≤ 1 ∧ EveryStep d.Shows s.log ∧
          ∀ fs, s.log.getLast? ≠ some (.frame fs) := by
  obtain ⟨hserved,hnot⟩ := nvnRun_sim hg
  have hiff : (∃ s, nvnRun d ops = some s) ↔ EveryStep d.Served ops := by
    refine ⟨fun ⟨s,hs⟩ => ?_,fun h => ?_⟩
    · by_contra hn
      rw [hnot hn] at hs
      cases hs
    · obtain ⟨s,hs,-⟩ := hserved h
      exact ⟨s,hs⟩
  refine ⟨hiff,fun s hs => ?_⟩
  obtain ⟨t,ht,hsim,hdrawn⟩ := hserved (hiff.mp ⟨s,hs⟩)
  obtain rfl : t = s := Option.some.inj (ht.symm.trans hs)
  refine ⟨hsim.history,hsim.values,hsim.temps,?_,hdrawn.shows,hdrawn.last⟩
  rw [hdrawn.once]
  split <;> omega

/-- A driver with one address for each of its functions. -/
def oneDriver : Driver where
  bootstrap name := if name = "nvnDeviceInitialize" then 0x100 else 0x200
  procAddress name :=
    if name = "nvnQueueInitialize" then 0x300
    else if name = "nvnCommandBufferInitialize" then 0x400
    else if name = "nvnQueuePresentTexture" then 0x500
    else 0x600
  answer _ _ := 1

/-- From the first lookup to the first frame. -/
def oneFrame : List Op :=
  [.bootstrap "nvnDeviceGetProcAddress",.bootstrap "nvnDeviceInitialize",
    .call 1 (.device 0x10 0x11),.call 0 (.proc 0x10 "nvnQueueInitialize"),
    .call 3 (.queue 0x20 0x21),.call 0 (.proc 0x10 "nvnCommandBufferInitialize"),
    .call 5 (.cmdBuf 0x30 0x10),.call 0 (.proc 0x10 "nvnQueuePresentTexture"),
    .addDrawFunc 0x700,.toggle true,.call 7 (.present 0x20 0x40 0)]

theorem imgui_transparent_frame : EveryStep oneDriver.Served oneFrame ∧
    ∃ g s, gameRun oneDriver oneFrame = some g ∧ nvnRun oneDriver oneFrame = some s ∧
      s.history = g.history ∧ s.log.count .initImGui ≤ 1 ∧ Event.frame [0x700] ∈ s.log := by
  obtain ⟨g,hg⟩ := Option.isSome_iff_exists.mp
    (by decide : (gameRun oneDriver oneFrame).isSome = true)
  obtain ⟨s,hs,hframe⟩ := Option.map_eq_some_iff.mp
    (by decide : (nvnRun oneDriver oneFrame).map (fun s => decide (.frame [0x700] ∈ s.log)) =
      some true)
  obtain ⟨hiff,hall⟩ := imgui_transparent hg
  obtain ⟨hhistory,-,-,honce,-⟩ := hall s hs
  exact ⟨hiff.mp ⟨s,hs⟩,g,s,hg,hs,hhistory,honce,of_decide_eq_true hframe⟩

end Runs

end Zeldar.Nvn
