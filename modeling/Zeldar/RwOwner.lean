import Zeldar.RwProgram

namespace Zeldar

section Objects

variable {objects objects' : ℕ → Option RwPages} {live before after : List Claim} {x y : ℕ}
  {obj : RwPages}

theorem update_cases {v : Option RwPages} {z : ℕ} {o : RwPages}
    (h : Function.update objects x v z = some o) :
    z = x ∧ v = some o ∨ z ≠ x ∧ objects z = some o := by
  by_cases hz : z = x
  · rw [hz, Function.update_self] at h
    exact Or.inl ⟨hz,h⟩
  · rw [Function.update_of_ne hz] at h
    exact Or.inr ⟨hz,h⟩

theorem Reports.construct (h : Reports objects live) (hnew : obj.claim ∉ live)
    (hne : obj.claim ≠ Claim.empty) :
    Reports (Function.update objects x (some obj)) (obj.claim::live) := by
  -- no older object reports the new window
  have hold : ∀ z o, objects z = some o → o.claim ≠ obj.claim := by
    intro z o hz e
    rcases h.live z o hz with hempty | hmem
    · exact hne (e ▸ hempty)
    · exact hnew (e ▸ hmem)
  constructor
  · intro z o hz
    rcases update_cases hz with ⟨_,hv⟩ | ⟨_,hz⟩
    · injection hv with hv
      rw [← hv]
      exact Or.inr List.mem_cons_self
    · exact (h.live z o hz).imp_right (List.mem_cons_of_mem _)
  · intro z z' o o' hz hz' heq hempty
    rcases update_cases hz with ⟨e,hv⟩ | ⟨_,hz⟩ <;>
      rcases update_cases hz' with ⟨e',hv'⟩ | ⟨_,hz'⟩
    · exact e.trans e'.symm
    · injection hv with hv
      exact absurd (heq.symm.trans (by rw [hv])) (hold z' o' hz')
    · injection hv' with hv'
      exact absurd (heq.trans (by rw [hv'])) (hold z o hz)
    · exact h.unique z z' o o' hz hz' heq hempty

theorem Owned.construct (h : Owned objects live) (hfree : objects x = none)
    (howner : obj.owner = true) (hne : obj.claim ≠ Claim.empty) :
    Owned (Function.update objects x (some obj)) (obj.claim::live) := by
  constructor
  · intro z o hz hidle
    rcases update_cases hz with ⟨_,hv⟩ | ⟨_,hz⟩
    · injection hv with hv
      rw [← hv, howner] at hidle
      cases hidle
    · exact h.idle z o hz hidle
  · intro z o hz hown
    rcases update_cases hz with ⟨_,hv⟩ | ⟨_,hz⟩
    · injection hv with hv
      rw [← hv]
      exact hne
    · exact h.holding z o hz hown
  · -- the new window is held by the new object, and `x` held none before
    intro c hc
    rcases List.mem_cons.mp hc with rfl | hc
    · exact ⟨x,obj,Function.update_self ..,howner,rfl⟩
    · obtain ⟨z,o,hz,hown,heq⟩ := h.owner c hc
      have hzx : z ≠ x := by
        intro e
        rw [e, hfree] at hz
        cases hz
      exact ⟨z,o,by rw [Function.update_of_ne hzx, hz],hown,heq⟩

/-- An object that owns nothing disappears. -/
theorem Reports.forget (h : Reports objects live) :
    Reports (Function.update objects x none) live := by
  constructor
  · intro z o hz
    rcases update_cases hz with ⟨_,hv⟩ | ⟨_,hz⟩
    · cases hv
    · exact h.live z o hz
  · intro z z' o o' hz hz' heq hempty
    rcases update_cases hz with ⟨_,hv⟩ | ⟨_,hz⟩
    · cases hv
    rcases update_cases hz' with ⟨_,hv⟩ | ⟨_,hz'⟩
    · cases hv
    exact h.unique z z' o o' hz hz' heq hempty

theorem Owned.forget (h : Owned objects live) (hobj : objects x = some obj)
    (hidle : obj.owner = false) : Owned (Function.update objects x none) live := by
  constructor
  · intro z o hz
    rcases update_cases hz with ⟨_,hv⟩ | ⟨_,hz⟩
    · cases hv
    · exact h.idle z o hz
  · intro z o hz
    rcases update_cases hz with ⟨_,hv⟩ | ⟨_,hz⟩
    · cases hv
    · exact h.holding z o hz
  · intro c hc
    obtain ⟨z,o,hz,hown,heq⟩ := h.owner c hc
    have hzx : z ≠ x := by
      intro e
      rw [e, hobj] at hz
      injection hz with hz
      rw [← hz, hidle] at hown
      cases hown
    exact ⟨z,o,by rw [Function.update_of_ne hzx, hz],hown,heq⟩

/-- An owner disappears with its window. -/
theorem Reports.release (h : Reports objects (before++obj.claim::after))
    (hobj : objects x = some obj) (hne : obj.claim ≠ Claim.empty) :
    Reports (Function.update objects x none) (before++after) := by
  refine ⟨?_,(@Reports.forget objects _ x h).unique⟩
  intro z o hz
  rcases update_cases hz with ⟨_,hv⟩ | ⟨hzx,hz⟩
  · cases hv
  -- no other object reports the window that goes
  have hother : o.claim ≠ obj.claim := fun e =>
    hzx (h.unique z x o obj hz hobj e (e ▸ hne))
  rcases h.live z o hz with hempty | hmem
  · exact Or.inl hempty
  · right
    rcases List.mem_append.mp hmem with hmem | hmem
    · exact List.mem_append_left _ hmem
    · rcases List.mem_cons.mp hmem with e | hmem
      · exact absurd e hother
      · exact List.mem_append_right _ hmem

theorem Owned.release (h : Owned objects (before++obj.claim::after))
    (hnd : (before++obj.claim::after).Nodup) (hobj : objects x = some obj) :
    Owned (Function.update objects x none) (before++after) := by
  have hgone : obj.claim ∉ before++after := (List.nodup_middle.mp hnd).notMem
  constructor
  · intro z o hz
    rcases update_cases hz with ⟨_,hv⟩ | ⟨_,hz⟩
    · cases hv
    · exact h.idle z o hz
  · intro z o hz
    rcases update_cases hz with ⟨_,hv⟩ | ⟨_,hz⟩
    · cases hv
    · exact h.holding z o hz
  · intro c hc
    have hc' : c ∈ before++obj.claim::after := by
      rcases List.mem_append.mp hc with hc | hc
      · exact List.mem_append_left _ hc
      · exact List.mem_append_right _ (List.mem_cons_of_mem _ hc)
    obtain ⟨z,o,hz,hown,heq⟩ := h.owner c hc'
    have hzx : z ≠ x := by
      intro e
      rw [e, hobj] at hz
      injection hz with hz
      rw [← heq, ← hz] at hc
      exact hgone hc
    exact ⟨z,o,by rw [Function.update_of_ne hzx, hz],hown,heq⟩

/-- What the objects report after a move was reported before it: under the same
name, or, at the destination, by the source, which then reports nothing. -/
theorem Reports.move (h : Reports objects live)
    (hback : ∀ z c, objects' z = some c → c.claim = Claim.empty ∨
      ∃ z' c', objects z' = some c' ∧ c'.claim = c.claim ∧ z' = (if z = x then y else z) ∧
        (z = x ∨ z ≠ y)) : Reports objects' live := by
  constructor
  · intro z c hz
    rcases hback z c hz with he | ⟨z',c',hz',heq,_⟩
    · exact Or.inl he
    · rw [← heq]
      exact h.live z' c' hz'
  · intro z1 z2 c1 c2 h1 h2 heq hne
    rcases hback z1 c1 h1 with he | ⟨z1',c1',h1',e1,n1,m1⟩
    · exact absurd he hne
    rcases hback z2 c2 h2 with he | ⟨z2',c2',h2',e2,n2,m2⟩
    · exact absurd (heq.trans he) hne
    -- the two objects report what one object reported before
    have hz := h.unique z1' z2' c1' c2' h1' h2' (e1.trans (heq.trans e2.symm)) (e1 ▸ hne)
    rw [n1, n2] at hz
    split at hz <;> split at hz
    · rename_i e1 e2
      exact e1.trans e2.symm
    · rename_i hx1 hx2
      exact absurd hz.symm (m2.resolve_left hx2)
    · rename_i hx1 hx2
      exact absurd hz (m1.resolve_left hx1)
    · exact hz

theorem Reports.moveConstruct (h : Reports objects live)
    (hmove : Zeldar.moveConstruct objects x y = .ok objects') : Reports objects' live := by
  obtain ⟨o,hx,hy,hxy,hx',hy',hrest⟩ := moveConstruct_ok hmove
  refine @Reports.move objects objects' live x y h ?_
  intro z c hz
  -- the destination reports what the source did, and the source nothing
  by_cases hzx : z = x
  · rw [hzx, hx'] at hz
    injection hz with hz
    exact Or.inr ⟨y,o,hy,by rw [hz],(if_pos hzx).symm,Or.inl hzx⟩
  by_cases hzy : z = y
  · rw [hzy, hy'] at hz
    injection hz with hz
    rw [← hz]
    exact Or.inl rfl
  · rw [hrest z hzx hzy] at hz
    exact Or.inr ⟨z,c,hz,rfl,(if_neg hzx).symm,Or.inr hzy⟩

theorem Reports.moveAssign (h : Reports objects live)
    (hmove : Zeldar.moveAssign objects x y = .ok objects') : Reports objects' live := by
  obtain ⟨a,b,hx,hy,hrest,hcase⟩ := moveAssign_ok hmove
  -- the destination reports the source, even where the two are one object
  have hdest : ∃ f, objects' x = some ⟨b.claim,f⟩ := by
    rcases hcase with ⟨_,h1⟩ | ⟨_,h1,_⟩
    · exact ⟨_,h1⟩
    · exact ⟨_,h1⟩
  obtain ⟨f,hf⟩ := hdest
  refine @Reports.move objects objects' live x y h ?_
  intro z c hz
  by_cases hzx : z = x
  · rw [hzx, hf] at hz
    injection hz with hz
    exact Or.inr ⟨y,b,hy,by rw [← hz],(if_pos hzx).symm,Or.inl hzx⟩
  by_cases hzy : z = y
  · rcases hcase with ⟨hxy,_⟩ | ⟨_,_,h2⟩
    · exact absurd (hzy.trans hxy.symm) hzx
    · rw [hzy, h2] at hz
      injection hz with hz
      rw [← hz]
      exact Or.inl rfl
  · rw [hrest z hzx hzy] at hz
    exact Or.inr ⟨z,c,hz,rfl,(if_neg hzx).symm,Or.inr hzy⟩

theorem Owned.moveConstruct (h : Owned objects live)
    (hmove : Zeldar.moveConstruct objects x y = .ok objects') : Owned objects' live := by
  obtain ⟨o,hx,hy,hxy,hx',hy',hrest⟩ := moveConstruct_ok hmove
  have hcases : ∀ z a, objects' z = some a → a.MovedFrom ∨ ∃ z', objects z' = some a := by
    intro z a hz
    by_cases hzx : z = x
    · rw [hzx, hx'] at hz
      injection hz with hz
      exact Or.inr ⟨y,hz ▸ hy⟩
    by_cases hzy : z = y
    · rw [hzy, hy'] at hz
      injection hz with hz
      rw [← hz]
      exact Or.inl ⟨rfl,rfl⟩
    · rw [hrest z hzx hzy] at hz
      exact Or.inr ⟨z,hz⟩
  constructor
  · intro z a hz hidle
    rcases hcases z a hz with hm | ⟨z',hz'⟩
    · exact hm.2
    · exact h.idle z' a hz' hidle
  · intro z a hz hown
    rcases hcases z a hz with hm | ⟨z',hz'⟩
    · rw [hm.1] at hown
      cases hown
    · exact h.holding z' a hz' hown
  · intro c hc
    -- the owner of a window is still its owner, unless it was the source
    obtain ⟨z,a,hz,hown,heq⟩ := h.owner c hc
    by_cases hzy : z = y
    · rw [hzy, hy] at hz
      injection hz with hz
      exact ⟨x,o,hx',hz ▸ hown,hz ▸ heq⟩
    · have hzx : z ≠ x := by
        intro e
        rw [e, hx] at hz
        cases hz
      exact ⟨z,a,by rw [hrest z hzx hzy, hz],hown,heq⟩

/-- Between objects moved from, assignment changes nothing. -/
theorem Owned.moveAssign (h : Owned objects live)
    (hmove : Zeldar.moveAssign objects x y = .ok objects')
    (hx : ∀ o, objects x = some o → o.MovedFrom) (hy : ∀ o, objects y = some o → o.MovedFrom) :
    Owned objects' live := by
  obtain ⟨a,b,hax,hby,hrest,hcase⟩ := moveAssign_ok hmove
  have ha : a = ⟨Claim.empty,false⟩ := by
    obtain ⟨h1,h2⟩ := hx a hax
    rw [← h1, ← h2]
  have hb : b = ⟨Claim.empty,false⟩ := by
    obtain ⟨h1,h2⟩ := hy b hby
    rw [← h1, ← h2]
  have hsame : objects' = objects := by
    ext1 z
    by_cases hzx : z = x
    · rcases hcase with ⟨_,h1⟩ | ⟨_,h1,_⟩
      · rw [hzx, h1, hax, ha, hb]
      · rw [hzx, h1, hax, ha, hb]
    by_cases hzy : z = y
    · rcases hcase with ⟨hxy,_⟩ | ⟨_,_,h2⟩
      · exact absurd (hzy.trans hxy.symm) hzx
      · rw [hzy, h2, hby, hb]
    · exact hrest z hzx hzy
  rw [hsame]
  exact h

end Objects

section Runs

variable {σ : Type} {p : Platform σ} {fuel : ℕ}

/-- One step keeps the windows live and reported, and, where its assignments are
settled, owned. -/
theorem step_live (hk : p.toKernel.QuerySound) (hp : p.Fresh) {op : Op σ} {s s' : Process σ}
    {live : List Claim} (hlive : s.world.Live p live) (hr : Reports s.objects live)
    (hstep : step p fuel op s = .ok s') :
    ∃ live', s'.world.Live p live' ∧ Reports s'.objects live' ∧
      (op.Settled s → Owned s.objects live → Owned s'.objects live') := by
  cases op with
  | construct x ro size =>
    simp only [step] at hstep
    cases hx : s.objects x with
    | some o =>
      rw [hx] at hstep
      cases hstep
    | none =>
      rw [hx] at hstep
      obtain ⟨⟨obj,w⟩,hmake,hstep⟩ := bind_ok hstep
      injection hstep with hstep
      subst hstep
      obtain ⟨hlive',howner,hnew⟩ := hlive.build hk hp hmake
      have hne := hlive'.ne_empty List.mem_cons_self
      exact ⟨_,hlive',hr.construct hnew hne,fun _ ho => ho.construct hx howner hne⟩
  | moveConstruct x y =>
    obtain ⟨objects,hmove,hstep⟩ := bind_ok hstep
    injection hstep with hstep
    subst hstep
    exact ⟨live,hlive,hr.moveConstruct hmove,fun _ ho => ho.moveConstruct hmove⟩
  | moveAssign x y =>
    obtain ⟨objects,hmove,hstep⟩ := bind_ok hstep
    injection hstep with hstep
    subst hstep
    exact ⟨live,hlive,hr.moveAssign hmove,fun hset ho => ho.moveAssign hmove hset.1 hset.2⟩
  | destroy x =>
    simp only [step] at hstep
    cases hx : s.objects x with
    | none =>
      rw [hx] at hstep
      cases hstep
    | some obj =>
      rw [hx] at hstep
      obtain ⟨w,hdestroy,hstep⟩ := bind_ok hstep
      injection hstep with hstep
      subst hstep
      cases howner : obj.owner with
      | false =>
        have hw : w = s.world := by
          simp only [rwPagesDestroy, howner, Bool.not_false, ↓reduceIte] at hdestroy
          injection hdestroy with hdestroy
          exact hdestroy.symm
        rw [hw]
        exact ⟨live,hlive,hr.forget,fun _ ho => ho.forget hx howner⟩
      | true =>
        -- an owner that holds nothing would have removed the null reservation
        have hmem : obj.claim ∈ live := by
          refine (hr.live x obj hx).resolve_left ?_
          intro he
          have hzero := hlive.release_mem howner hdestroy
          rw [he] at hzero
          exact hlive.holds.1 hzero
        obtain ⟨before,after,rfl⟩ := List.append_of_mem hmem
        exact ⟨_,hlive.release howner hdestroy,hr.release hx (hlive.ne_empty hmem),
          fun _ ho => ho.release hlive.nodup hx⟩
  | elsewhere k =>
    injection hstep with hstep
    subst hstep
    exact ⟨live,hlive.elsewhere k,hr,fun _ ho => ho⟩

/-- The same over a whole run. -/
theorem run_live (hk : p.toKernel.QuerySound) (hp : p.Fresh) {ops : List (Op σ)}
    {s s' : Process σ} {live : List Claim} (hlive : s.world.Live p live)
    (hr : Reports s.objects live) (hrun : run p fuel ops s = .ok s') :
    ∃ live', s'.world.Live p live' ∧ Reports s'.objects live' ∧
      (SettledRun p fuel ops s → Owned s.objects live → Owned s'.objects live') := by
  induction ops generalizing s live with
  | nil =>
    injection hrun with hrun
    subst hrun
    exact ⟨live,hlive,hr,fun _ ho => ho⟩
  | cons op ops ih =>
    obtain ⟨s1,hstep,hrun⟩ := bind_ok hrun
    obtain ⟨live1,hlive1,hr1,ho1⟩ := step_live hk hp hlive hr hstep
    obtain ⟨live2,hlive2,hr2,ho2⟩ := ih hlive1 hr1 hrun
    refine ⟨live2,hlive2,hr2,?_⟩
    intro hset ho
    exact ho2 (hset.2 s1 hstep) (ho1 hset.1 ho)

/-- A step maps the window of what it constructs, unmaps that of an owner it destroys, and does
neither otherwise. -/
theorem step_cases {op : Op σ} {s s' : Process σ} (hstep : step p fuel op s = .ok s') :
    (∃ c ro size alignedRw vm pieces, builtBy ⟨s,op,s'⟩ = some c ∧ releasedBy ⟨s,op,s'⟩ = none ∧
      Mapped p fuel ro size s.world s'.world alignedRw vm pieces c) ∨
    (∃ c pieces, builtBy ⟨s,op,s'⟩ = none ∧ releasedBy ⟨s,op,s'⟩ = some c ∧
      Unmapped p fuel s.world s'.world pieces c) ∨
    (builtBy ⟨s,op,s'⟩ = none ∧ releasedBy ⟨s,op,s'⟩ = none ∧ (s'.world = s.world ∨
      ∃ k, op = .elsewhere k ∧ s'.world = { s.world with kernel := k })) := by
  cases op with
  | construct x ro size =>
    simp only [step] at hstep
    cases hx : s.objects x with
    | some o =>
      rw [hx] at hstep
      cases hstep
    | none =>
      rw [hx] at hstep
      obtain ⟨⟨obj,w⟩,hmake,hstep⟩ := bind_ok hstep
      injection hstep with hstep
      subst hstep
      obtain ⟨_,alignedRw,vm,pieces,hm⟩ := rwPagesMap_ok (rwPages_ok hmake)
      refine Or.inl ⟨obj.claim,ro,size,alignedRw,vm,pieces,?_,rfl,hm⟩
      simp only [builtBy, Function.update_self, Option.map_some]
  | moveConstruct x y =>
    obtain ⟨objects,_,hstep⟩ := bind_ok hstep
    injection hstep with hstep
    subst hstep
    exact Or.inr (Or.inr ⟨rfl,rfl,Or.inl rfl⟩)
  | moveAssign x y =>
    obtain ⟨objects,_,hstep⟩ := bind_ok hstep
    injection hstep with hstep
    subst hstep
    exact Or.inr (Or.inr ⟨rfl,rfl,Or.inl rfl⟩)
  | destroy x =>
    simp only [step] at hstep
    cases hx : s.objects x with
    | none =>
      rw [hx] at hstep
      cases hstep
    | some obj =>
      rw [hx] at hstep
      obtain ⟨w,hdestroy,hstep⟩ := bind_ok hstep
      injection hstep with hstep
      subst hstep
      cases howner : obj.owner with
      | false =>
        -- the destructor of an object that owns nothing returns at once
        simp only [rwPagesDestroy, howner, Bool.not_false, ↓reduceIte] at hdestroy
        injection hdestroy with hdestroy
        refine Or.inr (Or.inr ⟨rfl,?_,Or.inl hdestroy.symm⟩)
        simp only [releasedBy, hx, Option.bind_some, howner, Bool.false_eq_true, ↓reduceIte]
      | true =>
        obtain ⟨pieces,hu⟩ := rwPagesDestroy_ok howner hdestroy
        refine Or.inr (Or.inl ⟨obj.claim,pieces,rfl,?_,hu⟩)
        simp only [releasedBy, hx, Option.bind_some, howner, ↓reduceIte]
  | elsewhere k =>
    injection hstep with hstep
    subst hstep
    exact Or.inr (Or.inr ⟨rfl,rfl,Or.inr ⟨k,rfl,rfl⟩⟩)

theorem step_accounted {op : Op σ} {s s' : Process σ} (hstep : step p fuel op s = .ok s') :
    Accounted p fuel ⟨s,op,s'⟩ := by
  rcases step_cases hstep with ⟨c,ro,size,alignedRw,vm,pieces,hb,hr,hm⟩ | ⟨c,pieces,hb,hr,hu⟩ |
    ⟨hb,hr,hw⟩
  · refine ⟨fun c' hc => ?_,fun c' hc => ?_,fun hc => ?_⟩
    · obtain rfl : c = c' := Option.some.inj (hb.symm.trans hc)
      exact ⟨ro,size,alignedRw,vm,pieces,hm⟩
    · cases hr.symm.trans hc
    · cases hb.symm.trans hc
  · refine ⟨fun c' hc => ?_,fun c' hc => ?_,fun _ hc => ?_⟩
    · cases hb.symm.trans hc
    · obtain rfl : c = c' := Option.some.inj (hr.symm.trans hc)
      exact ⟨pieces,hu⟩
    · cases hr.symm.trans hc
  · refine ⟨fun c' hc => ?_,fun c' hc => ?_,fun _ _ => hw⟩
    · cases hb.symm.trans hc
    · cases hr.symm.trans hc

/-- What the log records of a step are the windows it has mapped and unmapped. -/
theorem step_records {op : Op σ} {s s' : Process σ} (hstep : step p fuel op s = .ok s') :
    s'.world.built = s.world.built++(builtBy ⟨s,op,s'⟩).toList ∧
      s'.world.released = s.world.released++(releasedBy ⟨s,op,s'⟩).toList := by
  rcases step_cases hstep with ⟨c,ro,size,alignedRw,vm,pieces,hb,hr,hm⟩ | ⟨c,pieces,hb,hr,hu⟩ |
    ⟨hb,hr,hw⟩
  · obtain ⟨h1,h2,_⟩ := World.log_append hm.log_eq
    rw [h1, h2, hb, hr]
    exact ⟨rfl,rfl⟩
  · obtain ⟨h1,h2,_⟩ := World.log_append hu.log_eq
    rw [h1, h2, hb, hr]
    exact ⟨rfl,rfl⟩
  · have hsame : s'.world.built = s.world.built ∧ s'.world.released = s.world.released := by
      rcases hw with hw | ⟨k,_,hw⟩ <;> rw [hw] <;> exact ⟨rfl,rfl⟩
    rw [hsame.1, hsame.2, hb, hr, Option.toList_none, List.append_nil, List.append_nil]
    exact ⟨rfl,rfl⟩

theorem run_eq_foldlM (ops : List (Op σ)) (s : Process σ) :
    run p fuel ops s = ops.foldlM (fun s op => step p fuel op s) s := by
  induction ops generalizing s with
  | nil => rfl
  | cons op ops ih =>
    rw [List.foldlM_cons, run]
    exact congrArg _ (funext ih)

/-- Over a run, the windows in the log are those that its steps have mapped and unmapped. -/
theorem run_accounted {ops : List (Op σ)} {s s' : Process σ} (hrun : run p fuel ops s = .ok s') :
    ∃ steps : Steps σ, steps.map RunStep.label = ops ∧
      Trace (fun s op => step p fuel op s) s steps s' ∧ (∀ x ∈ steps, Accounted p fuel x) ∧
      s'.world.built = s.world.built++steps.filterMap builtBy ∧
      s'.world.released = s.world.released++steps.filterMap releasedBy := by
  rw [run_eq_foldlM] at hrun
  obtain ⟨steps,hlabel,htrace⟩ := trace_of_foldlM hrun
  refine ⟨steps,hlabel,htrace,?_,?_,?_⟩
  · exact fun x hx => step_accounted (htrace.mem hx)
  · exact @Trace.recorded _ _ _ _ s' steps s _ (fun s => s.world.built) builtBy htrace
      fun x _ hx => (step_records hx).1
  · exact @Trace.recorded _ _ _ _ s' steps s _ (fun s => s.world.released) releasedBy htrace
      fun x _ hx => (step_records hx).2

theorem start_live {k : σ} {vm : Virtmem} (hk : p.toKernel.AslrSound k)
    (hsetup : virtmemSetup p.toKernel k = .ok vm) :
    (Process.start k vm).world.Live p [] ∧ Reports (Process.start k vm).objects [] ∧
      Owned (Process.start k vm).objects [] := by
  obtain ⟨haslr,hholds,hnodes⟩ := virtmemSetup_ok hk hsetup
  have hnone : ∀ x o, (Process.start k vm).objects x ≠ some o := by
    intro x o h
    cases h
  refine ⟨⟨haslr,hholds,?_,?_,List.Pairwise.nil,?_,List.Perm.refl _,List.Perm.refl _⟩,
    ⟨?_,?_⟩,⟨?_,?_,?_⟩⟩
  · intro a r hr
    have hnone : vm.nodes a = some r := hr
    rw [hnodes a] at hnone
    cases hnone
  · exact fun c hc => absurd hc List.not_mem_nil
  · exact fun c hc => absurd hc List.not_mem_nil
  · exact fun x o h => absurd h (hnone x o)
  · exact fun x y o o' h => absurd h (hnone x o)
  · exact fun x o h => absurd h (hnone x o)
  · exact fun x o h => absurd h (hnone x o)
  · exact fun c hc => absurd hc List.not_mem_nil

/-- Live windows never collide: after any program, the windows that are mapped are
those with a reservation, no two of them meet, each was fit for a window when
the search returned it, and no two objects report one of them. Where no owned
window is lost by an assignment, they are the windows of the owners. -/
theorem windows_never_collide (hk : p.toKernel.QuerySound) (hp : p.Fresh) {k : σ} {vm : Virtmem}
    (haslr : p.toKernel.AslrSound k) (hsetup : virtmemSetup p.toKernel k = .ok vm)
    {ops : List (Op σ)} {s : Process σ}
    (hrun : run p fuel ops (Process.start k vm) = .ok s) :
    ∃ live, s.world.Live p live ∧ Reports s.objects live ∧
      (SettledRun p fuel ops (Process.start k vm) → Owned s.objects live) := by
  obtain ⟨hlive,hr,ho⟩ := start_live haslr hsetup
  obtain ⟨live,hlive',hr',ho'⟩ := run_live hk hp hlive hr hrun
  exact ⟨live,hlive',hr',fun hset => ho' hset ho⟩

/-- Two windows, the older one destroyed. -/
theorem windows_never_collide_two : ∃ s live,
    run tinyPlatform 4 [.construct 0 0x1000 4,.construct 1 0x2ff0 8,.destroy 0]
        (Process.start [] tinyVirtmem) = .ok s ∧
      s.world.Live tinyPlatform live ∧ Owned s.objects live := by
  obtain ⟨live,hlive,_,ho⟩ := @windows_never_collide _ tinyPlatform 4 tinyPlatform_query
    tinyPlatform_fresh [] tinyVirtmem tinyPlatform_aslr tinyVirtmem_eq
    [.construct 0 0x1000 4,.construct 1 0x2ff0 8,.destroy 0] _ rfl
  exact ⟨_,live,rfl,hlive,ho ⟨trivial,fun _ _ => ⟨trivial,fun _ _ => ⟨trivial,fun _ _ => trivial⟩⟩⟩⟩

/-- When every move assignment is between objects moved from, every window has one
owner: in every state reached, what an object reports has been mapped in one step more
than it has been unmapped in, and nothing is unmapped more often than mapped; and a
program that destroys all its objects has unmapped every window as often as it mapped
it and leaves no reservation. A step that counts as mapping or unmapping a window makes
the system calls that do so, and adds or removes its reservation; no other step touches
the windows. -/
theorem settled_run_one_owner (hk : p.toKernel.QuerySound) (hp : p.Fresh) {k : σ} {vm : Virtmem}
    (haslr : p.toKernel.AslrSound k) (hsetup : virtmemSetup p.toKernel k = .ok vm)
    {ops : List (Op σ)} {s : Process σ}
    (hrun : run p fuel ops (Process.start k vm) = .ok s)
    (hset : SettledRun p fuel ops (Process.start k vm)) :
    ∃ steps : Steps σ, steps.map RunStep.label = ops ∧
      Trace (fun s op => step p fuel op s) (Process.start k vm) steps s ∧
      (∀ x ∈ steps, Accounted p fuel x) ∧
      s.world.built = steps.filterMap builtBy ∧ s.world.released = steps.filterMap releasedBy ∧
      (∀ x o, s.objects x = some o → o.claim = Claim.empty ∨
        (steps.filterMap builtBy).count o.claim = (steps.filterMap releasedBy).count o.claim+1) ∧
      (∀ c, (steps.filterMap releasedBy).count c ≤ (steps.filterMap builtBy).count c) ∧
      ((∀ x, s.objects x = none) →
        (steps.filterMap builtBy).Perm (steps.filterMap releasedBy) ∧
          s.world.added.Perm s.world.removed ∧ ∀ a, s.world.vm.nodes a = none) := by
  obtain ⟨hlive0,hr0,ho0⟩ := start_live haslr hsetup
  obtain ⟨live,hlive,hr,ho⟩ := run_live hk hp hlive0 hr0 hrun
  obtain ⟨steps,hlabel,htrace,hsteps,hbuilt,hreleased⟩ := run_accounted hrun
  -- nothing is in the log at the start
  have hbuilt : s.world.built = steps.filterMap builtBy := hbuilt
  have hreleased : s.world.released = steps.filterMap releasedBy := hreleased
  have hbalance := hlive.balance
  rw [hbuilt, hreleased] at hbalance
  have hcount : ∀ c, (steps.filterMap builtBy).count c =
      live.count c+(steps.filterMap releasedBy).count c := by
    intro c
    rw [hbalance.count_eq c, List.count_append]
  refine ⟨steps,hlabel,htrace,hsteps,hbuilt,hreleased,?_,?_,?_⟩
  · intro x o hx
    refine (hr.live x o hx).imp_right ?_
    intro hmem
    rw [hcount, List.count_eq_one_of_mem hlive.nodup hmem, Nat.add_comm]
  · intro c
    rw [hcount]
    exact Nat.le_add_left _ _
  · intro hnone
    -- a live window would have an owner among the objects
    have hnil : live = [] := by
      rw [List.eq_nil_iff_forall_not_mem]
      intro c hc
      obtain ⟨x,o,hx,_⟩ := (ho hset ho0).owner c hc
      rw [hnone x] at hx
      cases hx
    have hadded := hlive.reservations
    rw [hnil] at hbalance hadded
    refine ⟨hbalance,hadded,?_⟩
    intro a
    rw [Option.eq_none_iff_forall_ne_some]
    intro r ha
    have hmem := hlive.exact a r ha
    rw [hnil] at hmem
    exact absurd hmem List.not_mem_nil

/-- An object moved into another, and the old name assigned to itself: one step unmaps the
window. -/
theorem settled_run_one_owner_moved : ∃ (s : Process (List Piece))
    (x : RunStep (Process (List Piece)) (Op (List Piece))) (pieces : List Piece),
    run tinyPlatform 4 [.construct 0 0x1000 4,.moveConstruct 1 0,.moveAssign 0 0,.destroy 0,
        .destroy 1] (Process.start [] tinyVirtmem) = .ok s ∧
      s.world.released = [⟨0x1000,0x15000,4,0x2000⟩] ∧
      releasedBy x = some ⟨0x1000,0x15000,4,0x2000⟩ ∧
      Unmapped tinyPlatform 4 x.before.world x.after.world pieces ⟨0x1000,0x15000,4,0x2000⟩ ∧
      s.world.kernel = [] ∧ ∀ a, s.world.vm.nodes a = none := by
  have hmoved : ∀ o : RwPages, some ⟨Claim.empty,false⟩ = some o → o.MovedFrom := by
    intro o h
    injection h with h
    subst h
    exact ⟨rfl,rfl⟩
  have hrun := fun s hrun hset => @settled_run_one_owner _ tinyPlatform 4 tinyPlatform_query
    tinyPlatform_fresh [] tinyVirtmem tinyPlatform_aslr tinyVirtmem_eq
    [.construct 0 0x1000 4,.moveConstruct 1 0,.moveAssign 0 0,.destroy 0,.destroy 1] s hrun hset
  have hset : SettledRun tinyPlatform 4 [.construct 0 0x1000 4,.moveConstruct 1 0,.moveAssign 0 0,
      .destroy 0,.destroy 1] (Process.start [] tinyVirtmem) := by
    refine ⟨trivial,?_⟩
    rintro s1 h1
    injection h1 with h1
    subst h1
    refine ⟨trivial,?_⟩
    rintro s2 h2
    injection h2 with h2
    subst h2
    refine ⟨⟨hmoved,hmoved⟩,?_⟩
    exact fun _ _ => ⟨trivial,fun _ _ => ⟨trivial,fun _ _ => trivial⟩⟩
  obtain ⟨steps,_,_,hsteps,_,hreleased,_,_,hend⟩ := hrun _ rfl hset
  -- one window has been released, so one of the steps has made the calls for it
  have hone : steps.filterMap releasedBy = [⟨0x1000,0x15000,4,0x2000⟩] := hreleased.symm
  have hmem : (⟨0x1000,0x15000,4,0x2000⟩ : Claim) ∈ steps.filterMap releasedBy := by
    rw [hone]
    exact List.mem_cons_self
  obtain ⟨x,hx,hc⟩ := List.mem_filterMap.mp hmem
  obtain ⟨pieces,hu⟩ := (hsteps x hx).released _ hc
  refine ⟨_,x,pieces,rfl,rfl,hc,hu,rfl,(hend ?_).2.2⟩
  intro n
  match n with
  | 0 => rfl
  | 1 => rfl
  | n+2 => rfl

/-- Two owners, one assigned to the other, and both destroyed: the window of the
destination is never unmapped, and its reservation stays. -/
theorem assigned_window_lost : ∃ s c,
    run tinyPlatform 4 [.construct 0 0x1000 4,.construct 1 0x2000 4,.moveAssign 0 1,.destroy 0,
        .destroy 1] (Process.start [] tinyVirtmem) = .ok s ∧
      s.objects 0 = none ∧ s.objects 1 = none ∧ s.world.built.count c = 1 ∧
      s.world.released.count c = 0 ∧ s.world.kernel = [⟨c.getAlignedRw,c.ro,0x1000⟩] ∧
      s.world.vm.regionOf c.rwReserve = some ⟨c.getAlignedRw,c.getAlignedRw+0x1000⟩ ∧
      c.rwReserve ∈ s.world.added ∧ c.rwReserve ∉ s.world.removed :=
  ⟨_,⟨0x1000,0x15000,4,0x2000⟩,rfl,rfl,rfl,by decide,by decide,by decide,by decide,by decide,
    by decide⟩

end Runs

end Zeldar
