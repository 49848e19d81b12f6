import Zeldar.RtldBind

namespace Zeldar.Rtld

section Stub

/-- How `got_stub_ptr` takes in the address of one slot. -/
def joinStub (stub target : Addr) : Except Halt Addr :=
  if stub ≠ 0 then (exlAssert (stub == target)).map fun _ => stub else .ok target

/-- The first address of a list that is not zero, if there is one. -/
def firstStub (targets : List Addr) : Addr := (targets.find? (· ≠ 0)).getD 0

/-- Nothing comes after an address but that address, zeros aside. -/
def OneStub (targets : List Addr) : Prop := targets.Pairwise fun a b => a ≠ 0 → b = a

instance (targets : List Addr) : Decidable (OneStub targets) :=
  inferInstanceAs (Decidable (List.Pairwise _ _))

variable {stub g : Addr} {targets : List Addr}

theorem joinStub_of_ne (h : stub ≠ 0) (target : Addr) :
    joinStub stub target = if stub = target then .ok stub else .error .assertion := by
  rw [joinStub, if_pos h]
  by_cases ht : stub = target
  · rw [if_pos ht, ht, beq_self_eq_true]
    rfl
  · rw [if_neg ht, beq_eq_false_iff_ne.mpr ht]
    rfl

theorem joinStub_zero (target : Addr) : joinStub 0 target = .ok target := rfl

theorem firstStub_of_ne (h : stub ≠ 0) : firstStub (stub :: targets) = stub := by
  rw [firstStub, List.find?_cons_of_pos (by simpa using h)]
  rfl

theorem firstStub_zero : firstStub (0 :: targets) = firstStub targets := by
  rw [firstStub, List.find?_cons_of_neg (by simp)]
  rfl

theorem firstStub_eq {t : Addr} (hone : OneStub targets) (ht : t ∈ targets) (h0 : t ≠ 0) :
    firstStub targets = t := by
  induction targets with
  | nil => cases ht
  | cons a ts ih =>
    obtain ⟨hfirst,hrest⟩ := List.pairwise_cons.mp hone
    rcases List.mem_cons.mp ht with rfl | ht
    · exact firstStub_of_ne h0
    · by_cases ha : a = 0
      · rw [ha, firstStub_zero]
        exact ih hrest ht
      · rw [firstStub_of_ne ha]
        exact (hfirst t ht ha).symm

/-- The checks of a run of slots pass if and only if the slots share a stub. -/
theorem foldlM_joinStub (targets : List Addr) (stub : Addr) :
    targets.foldlM joinStub stub =
      if OneStub (stub :: targets) then .ok (firstStub (stub :: targets))
      else .error .assertion := by
  induction targets generalizing stub with
  | nil =>
    have hone : OneStub [stub] := List.pairwise_singleton _ _
    rw [if_pos hone]
    by_cases h : stub = 0
    · rw [h, firstStub_zero]
      rfl
    · rw [firstStub_of_ne h]
      rfl
  | cons t ts ih =>
    rw [List.foldlM_cons]
    by_cases h : stub = 0
    · -- no stub yet: the first slot gives it
      rw [h, joinStub_zero, firstStub_zero]
      have hone : OneStub (0 :: t :: ts) ↔ OneStub (t :: ts) := by
        rw [OneStub, List.pairwise_cons]
        exact and_iff_right fun _ _ hne => absurd rfl hne
      rw [if_congr hone rfl rfl]
      exact ih t
    · rw [joinStub_of_ne h, firstStub_of_ne h]
      by_cases ht : stub = t
      · have hone : OneStub (stub :: t :: ts) ↔ OneStub (stub :: ts) := by
          rw [← ht]
          refine ⟨fun hall => (List.pairwise_cons.mp hall).2,fun hall => ?_⟩
          refine List.pairwise_cons.mpr ⟨?_,hall⟩
          exact List.forall_mem_cons.mpr ⟨fun _ => rfl,(List.pairwise_cons.mp hall).1⟩
        rw [if_pos ht, if_congr hone rfl rfl]
        refine (ih stub).trans ?_
        rw [firstStub_of_ne h]
      · have hone : ¬OneStub (stub :: t :: ts) := by
          intro hall
          exact ht ((List.pairwise_cons.mp hall).1 t List.mem_cons_self h).symm
        rw [if_neg ht, if_neg hone]
        rfl

end Stub

section Pass
variable (o : ModuleObject) (m : Mem)

instance (e : ResolveEntry) : Decidable (e.Writes m) :=
  inferInstanceAs (Decidable (_ = true))

namespace ResolveEntry
variable (e : ResolveEntry)

/-- The address that the slot gives the stub. -/
def stub : Addr := o.moduleBase+m.read64 (e.slot o m)

def stubs : List Addr := if e.jumpSlot = true ∧ e.Writes m then [e.stub o m] else []

/-- What the pass stores in the slot, if it stores. -/
def stored (doLazyGotInit : Bool) (found : ResolveEntry → Option Addr) : Option Addr :=
  if ¬e.Writes m then none
  else if e.jumpSlot && doLazyGotInit then some (e.stub o m)
  else match found e with
    | some symbol => some (e.value m e.addr (e.slot o m) symbol)
    | none => if e.jumpSlot then some (e.stub o m) else none

/-- What the slot holds in the end. -/
def final (doLazyGotInit : Bool) (found : ResolveEntry → Option Addr) : Addr :=
  (e.stored o m doLazyGotInit found).getD (m.read64 (e.slot o m))

end ResolveEntry

/-- The address of every symbol that the entries name, whatever the slots hold. -/
def LooksUp (resolve : Resolver) (found : ResolveEntry → Option Addr) : Prop :=
  ∀ e ∈ o.entries, e.Writes m → ∀ m', SameElsewhere o m m' →
    resolve m' (entrySymbol o m e.addr) = .ok (found e)

/-- A word is stored, or not. -/
def putWord (m : Mem) (a : Addr) : Option Addr → Mem
  | none => m
  | some v => m.write64 a v

theorem read64_putWord_self (mem : Mem) (a : Addr) (v : Option Addr) :
    (putWord mem a v).read64 a = v.getD (mem.read64 a) := by
  cases v with
  | none => rfl
  | some v => exact Mem.read64_write64_self mem a v

theorem read64_putWord_of_sep (mem : Mem) {a b : Addr} {v : Option Addr}
    (h : v ≠ none → Sep a 8 b 8) : (putWord mem b v).read64 a = mem.read64 a := by
  cases v with
  | none => rfl
  | some v => exact Mem.read64_write64_of_sep mem v (h (by simp))

theorem putWord_apply_of_le (mem : Mem) {a x : Addr} {v : Option Addr}
    (h : v ≠ none → 8 ≤ (x-a).toNat) : putWord mem a v x = mem x := by
  cases v with
  | none => rfl
  | some v => exact Mem.write64_apply_of_le mem v (h (by simp))

variable {o m} in
theorem ResolveEntry.writes_of_stored {e : ResolveEntry} {doLazyGotInit : Bool}
    {found : ResolveEntry → Option Addr} (h : e.stored o m doLazyGotInit found ≠ none) :
    e.Writes m := by
  by_contra hw
  exact h (if_pos hw)

/-- The memory after the passes over some entries. -/
def putWords (doLazyGotInit : Bool) (found : ResolveEntry → Option Addr) (es : List ResolveEntry)
    (mem : Mem) : Mem :=
  es.foldl (fun mem e => putWord mem (e.slot o m) (e.stored o m doLazyGotInit found)) mem

/-- The slots of the entries are apart from each other. -/
def SlotsApart (es : List ResolveEntry) : Prop :=
  es.Pairwise fun e e' => e.Writes m → e'.Writes m → Sep (e.slot o m) 8 (e'.slot o m) 8

section Words
variable {o m} {doLazyGotInit : Bool} {found : ResolveEntry → Option Addr}
  {es : List ResolveEntry}

theorem putWords_apply {x : Addr} (hx : ∀ e ∈ es, e.Writes m → 8 ≤ (x-e.slot o m).toNat)
    (mem : Mem) : putWords o m doLazyGotInit found es mem x = mem x := by
  induction es generalizing mem with
  | nil => rfl
  | cons e es ih =>
    refine (ih (fun e' he' => hx e' (List.mem_cons_of_mem _ he')) _).trans ?_
    exact putWord_apply_of_le mem fun h =>
      hx e List.mem_cons_self (ResolveEntry.writes_of_stored h)

theorem read64_putWords_of_sep {a : Addr}
    (ha : ∀ e ∈ es, e.Writes m → Sep a 8 (e.slot o m) 8) (mem : Mem) :
    (putWords o m doLazyGotInit found es mem).read64 a = mem.read64 a := by
  induction es generalizing mem with
  | nil => rfl
  | cons e es ih =>
    refine (ih (fun e' he' => ha e' (List.mem_cons_of_mem _ he')) _).trans ?_
    exact read64_putWord_of_sep mem fun h =>
      ha e List.mem_cons_self (ResolveEntry.writes_of_stored h)

/-- Every slot ends up with what its own pass stored. -/
theorem read64_putWords (hapart : SlotsApart o m es) {e : ResolveEntry} (he : e ∈ es)
    (hw : e.Writes m) (mem : Mem) :
    (putWords o m doLazyGotInit found es mem).read64 (e.slot o m) =
      (e.stored o m doLazyGotInit found).getD (mem.read64 (e.slot o m)) := by
  induction es generalizing mem with
  | nil => cases he
  | cons e₀ es ih =>
    obtain ⟨hfirst,hrest⟩ := List.pairwise_cons.mp hapart
    rcases List.mem_cons.mp he with rfl | he
    · refine (read64_putWords_of_sep (fun e' he' hw' => hfirst e' he' hw hw') _).trans ?_
      exact read64_putWord_self mem _ _
    · refine (ih hrest he _).trans ?_
      rw [read64_putWord_of_sep mem fun h =>
        (hfirst e he (ResolveEntry.writes_of_stored h) hw).symm]

end Words

end Pass

section Run
variable {resolve : Resolver} {o : ModuleObject} {m : Mem} {found : ResolveEntry → Option Addr}
  {doLazyGotInit : Bool} (hplaced : WellPlaced o m) (hfound : LooksUp o m resolve found)

theorem checkStub_eq (target : Addr) (s : ResolveState) :
    checkStub target s = (joinStub s.gotStubPtr target).map fun g => ⟨g,s.mem⟩ := by
  rw [checkStub, joinStub]
  by_cases h : s.gotStubPtr ≠ 0
  · rw [if_pos h, if_pos h]
    cases exlAssert (s.gotStubPtr == target) <;> rfl
  · rw [if_neg h, if_neg h]
    rfl

theorem jumpSlot_eq {value : SlotValue} {entry : Addr} {s : ResolveState} {r : Option Addr}
    (hjump : isJumpSlot (s.mem.read64 (entry+8)) = true)
    (hlookup : resolve s.mem (entrySymbol o s.mem entry) = .ok r) :
    let target := entryTarget o s.mem entry
    let stub := o.moduleBase+s.mem.read64 target
    resolveSymbolJumpSlot resolve o value doLazyGotInit entry s =
      (joinStub s.gotStubPtr stub).map fun g => ⟨g,s.mem.write64 target
        (if doLazyGotInit then stub else (r.map (value s.mem entry target)).getD stub)⟩ := by
  intro target stub
  rw [resolveSymbolJumpSlot, if_pos hjump]
  dsimp only
  rw [checkStub_eq]
  cases doLazyGotInit with
  | true =>
    simp only [↓reduceIte]
    cases joinStub s.gotStubPtr (o.moduleBase+s.mem.read64 (entryTarget o s.mem entry)) <;> rfl
  | false =>
    change ((joinStub s.gotStubPtr stub).map (fun g => ResolveState.mk g s.mem) >>= _) = _
    cases joinStub s.gotStubPtr stub with
    | error e => rfl
    | ok g =>
      change (resolve s.mem (entrySymbol o s.mem entry) >>= _) = _
      rw [hlookup]
      cases r <;> rfl

theorem absolute_eq {value : SlotValue} {entry : Addr} {s : ResolveState} {r : Option Addr}
    (habs : isAbsolute (s.mem.read64 (entry+8)) = true)
    (hlookup : resolve s.mem (entrySymbol o s.mem entry) = .ok r) :
    let target := entryTarget o s.mem entry
    resolveSymbolAbsolute resolve o value entry s =
      .ok ⟨s.gotStubPtr,putWord s.mem target (r.map (value s.mem entry target))⟩ := by
  intro target
  rw [resolveSymbolAbsolute, if_pos habs]
  dsimp only
  rw [hlookup]
  cases r <;> rfl

include hplaced hfound

/-- A pass over an entry, the slot being as it was. -/
theorem run_eq {e : ResolveEntry} (he : e ∈ o.entries) {s : ResolveState}
    (hsame : SameElsewhere o m s.mem)
    (hslot : e.Writes m → s.mem.read64 (e.slot o m) = m.read64 (e.slot o m)) :
    e.run resolve o doLazyGotInit s = ((e.stubs o m).foldlM joinStub s.gotStubPtr).map fun g =>
      ⟨g,putWord s.mem (e.slot o m) (e.stored o m doLazyGotInit found)⟩ := by
  have hwrites := writes_iff hplaced hsame he
  have htarget : entryTarget o s.mem e.addr = e.slot o m := slot_eq hplaced hsame he
  have hsymbol : entrySymbol o s.mem e.addr = entrySymbol o m e.addr := by
    rw [entrySymbol, entrySymbol,
      record_same hplaced hsame he (d := 8) (by cases e.kind <;> decide)]
  rw [ResolveEntry.run]
  by_cases hw : e.Writes m
  · have hvalue : e.value s.mem e.addr (e.slot o m) = e.value m e.addr (e.slot o m) :=
      funext (value_same hplaced hsame he (hslot hw))
    have hlookup : resolve s.mem (entrySymbol o s.mem e.addr) = .ok (found e) := by
      rw [hsymbol]
      exact hfound e he hw s.mem hsame
    have hw' := hwrites.mpr hw
    rw [ResolveEntry.Writes] at hw'
    rw [ResolveEntry.stored, if_neg (not_not_intro hw)]
    by_cases hj : e.jumpSlot = true
    · rw [if_pos hj] at hw'
      have hstubs : e.stubs o m = [e.stub o m] := if_pos ⟨hj,hw⟩
      rw [if_pos hj, hstubs, jumpSlot_eq hw' hlookup, htarget, hslot hw, hvalue, hj,
        List.foldlM_cons]
      change (joinStub s.gotStubPtr (e.stub o m)).map _ =
        (joinStub s.gotStubPtr (e.stub o m) >>= Except.ok).map _
      cases joinStub s.gotStubPtr (e.stub o m) with
      | error h => rfl
      | ok g => cases doLazyGotInit <;> cases found e <;> rfl
    · rw [if_neg hj] at hw'
      have hstubs : e.stubs o m = [] := if_neg fun h => hj h.1
      rw [if_neg hj, hstubs, absolute_eq hw' hlookup, htarget, hvalue, Bool.eq_false_iff.mpr hj]
      cases found e <;> rfl
  · -- another type of relocation: the pass does nothing
    have hw' := mt hwrites.mp hw
    rw [ResolveEntry.Writes] at hw'
    have hstubs : e.stubs o m = [] := if_neg fun h => hw h.2
    rw [ResolveEntry.stored, if_pos hw, hstubs]
    by_cases hj : e.jumpSlot = true
    · rw [if_pos hj] at hw'
      rw [if_pos hj, resolveSymbolJumpSlot, if_neg hw']
      rfl
    · rw [if_neg hj] at hw'
      rw [if_neg hj, resolveSymbolAbsolute, if_neg hw']
      rfl

/-- The passes over some entries, no slot of which has been written yet. -/
theorem foldlM_run {es : List ResolveEntry} (hes : ∀ e ∈ es, e ∈ o.entries)
    (hapart : SlotsApart o m es) {s : ResolveState} (hsame : SameElsewhere o m s.mem)
    (hslots : ∀ e ∈ es, e.Writes m → s.mem.read64 (e.slot o m) = m.read64 (e.slot o m)) :
    es.foldlM (ResolveEntry.run resolve o doLazyGotInit) s =
      ((es.flatMap (ResolveEntry.stubs o m)).foldlM joinStub s.gotStubPtr).map fun g =>
        ⟨g,putWords o m doLazyGotInit found es s.mem⟩ := by
  induction es generalizing s with
  | nil => rfl
  | cons e es ih =>
    obtain ⟨hfirst,hrest⟩ := List.pairwise_cons.mp hapart
    have he := hes e List.mem_cons_self
    have hrun := @run_eq resolve o m found doLazyGotInit hplaced hfound e he s hsame
      (hslots e List.mem_cons_self)
    rw [List.foldlM_cons, hrun, List.flatMap_cons, List.foldlM_append]
    cases hstub : (e.stubs o m).foldlM joinStub s.gotStubPtr with
    | error h => rfl
    | ok g =>
      have hnext : e.run resolve o doLazyGotInit s =
          .ok ⟨g,putWord s.mem (e.slot o m) (e.stored o m doLazyGotInit found)⟩ := by
        rw [hrun, hstub]
        rfl
      refine ih (fun e' he' => hes e' (List.mem_cons_of_mem _ he')) hrest
        (hsame.run hplaced he hnext) fun e' he' hw' => ?_
      rw [← hslots e' (List.mem_cons_of_mem _ he') hw']
      exact read64_putWord_of_sep s.mem fun h =>
        (hfirst e' he' (ResolveEntry.writes_of_stored h) hw').symm

end Run

/-- What `ResolveSymbols` leaves: every slot holds what its relocation asks for, the `GOT` leads
to the module and to the lazy resolver, and no other byte has changed. -/
structure Resolved (o : ModuleObject) (m : Mem) (env : ResolveEnv) (doLazyGotInit : Bool)
    (found : ResolveEntry → Option Addr) (stub : Addr) (s : ResolveState) : Prop where
  slots : ∀ e ∈ o.entries, e.Writes m →
    s.mem.read64 (e.slot o m) = e.final o m doLazyGotInit found
  object : o.got ≠ 0 → s.mem.read64 (o.got+8) = env.self
  resolver : o.got ≠ 0 → s.mem.read64 (o.got+16) = env.runtimeResolve
  rest : SameElsewhere o m s.mem
  stub : s.gotStubPtr = firstStub (stub :: o.entries.flatMap (ResolveEntry.stubs o m))

section Whole
variable {o : ModuleObject} {m : Mem} {found : ResolveEntry → Option Addr} {doLazyGotInit : Bool}
  {stub : Addr}

theorem setGot_words (env : ResolveEnv) (mem : Mem) (hgot : o.got ≠ 0) :
    (setGot o env mem).read64 (o.got+8) = env.self ∧
      (setGot o env mem).read64 (o.got+16) = env.runtimeResolve := by
  have hsep : Sep (o.got+8) 8 (o.got+16) 8 := ⟨by bv_omega,by bv_omega⟩
  rw [setGot, if_pos hgot, Mem.read64_write64_self, Mem.read64_write64_of_sep _ _ hsep,
    Mem.read64_write64_self]
  exact ⟨rfl,rfl⟩

theorem setGot_rest (env : ResolveEnv) {mem : Mem} (hsame : SameElsewhere o m mem) :
    SameElsewhere o m (setGot o env mem) := by
  intro x hx
  rw [← hsame x hx, setGot]
  by_cases hgot : o.got ≠ 0
  · have hout : 16 ≤ (x-(o.got+8)).toNat := by
      by_contra hlt
      exact hx (Or.inr ⟨hgot,by omega⟩)
    rw [if_pos hgot, Mem.write64_apply_of_le _ _ (by bv_omega),
      Mem.write64_apply_of_le _ _ (by omega)]
  · rw [if_neg hgot]

theorem putWords_rest {mem : Mem} (hsame : SameElsewhere o m mem) :
    SameElsewhere o m (putWords o m doLazyGotInit found o.entries mem) := by
  intro x hx
  rw [← hsame x hx]
  apply putWords_apply
  intro e he hw
  by_contra hlt
  exact hx (Or.inl ⟨e,he,hw,by omega⟩)

theorem resolveOver_run {resolve : Resolver} (hplaced : WellPlaced o m)
    (hfound : LooksUp o m resolve found) (env : ResolveEnv) :
    resolveOver resolve o env o.counts doLazyGotInit ⟨stub,m⟩ =
      if OneStub (stub :: o.entries.flatMap (ResolveEntry.stubs o m)) then
        .ok ⟨firstStub (stub :: o.entries.flatMap (ResolveEntry.stubs o m)),
          setGot o env (putWords o m doLazyGotInit found o.entries m)⟩
      else .error .assertion := by
  have hfold := @foldlM_run resolve o m found doLazyGotInit hplaced hfound o.entries
    (fun _ he => he) hplaced.slots ⟨stub,m⟩ (fun _ _ => rfl) (fun _ _ _ => rfl)
  rw [resolveOver_eq, hfold, foldlM_joinStub]
  by_cases hone : OneStub (stub :: o.entries.flatMap (ResolveEntry.stubs o m))
  · rw [if_pos hone, if_pos hone]
    rfl
  · rw [if_neg hone, if_neg hone]
    rfl

/-- What a call that completes leaves. -/
theorem resolved_of_ok {resolve : Resolver} (hplaced : WellPlaced o m)
    (hfound : LooksUp o m resolve found) {env : ResolveEnv} {steps : ℕ} {s' : ResolveState}
    (h : resolveSymbols resolve o env steps doLazyGotInit ⟨stub,m⟩ = .ok s') :
    Resolved o m env doLazyGotInit found stub s' ∧ o.sizes.pltEntries < 2^32 ∧
      OneStub (stub :: o.entries.flatMap (ResolveEntry.stubs o m)) := by
  obtain ⟨hlt,hover⟩ := resolveSymbols_over env h
  rw [resolveOver_run hplaced hfound] at hover
  by_cases hone : OneStub (stub :: o.entries.flatMap (ResolveEntry.stubs o m))
  · rw [if_pos hone] at hover
    cases hover
    refine ⟨⟨fun e he hw => ?_,fun hgot => (setGot_words env _ hgot).1,
      fun hgot => (setGot_words env _ hgot).2,setGot_rest env (putWords_rest fun _ _ => rfl),rfl⟩,
      hlt,hone⟩
    rw [setGot_read64 hplaced env he hw]
    exact read64_putWords hplaced.slots he hw m
  · rw [if_neg hone] at hover
    cases hover

/-- `ResolveSymbols` completes if and only if the PLT slots share one stub and the index of its
loop over them can reach their number; otherwise an assertion fails, or the loop runs on. -/
theorem resolveSymbols_resolved {resolve : Resolver} (hplaced : WellPlaced o m)
    (hfound : LooksUp o m resolve found) (env : ResolveEnv) :
    (∀ steps s', resolveSymbols resolve o env steps doLazyGotInit ⟨stub,m⟩ = .ok s' →
        Resolved o m env doLazyGotInit found stub s') ∧
      ∀ steps, 2^64 ≤ steps →
        ((∃ s', resolveSymbols resolve o env steps doLazyGotInit ⟨stub,m⟩ = .ok s') ↔
          o.sizes.pltEntries < 2^32 ∧
            OneStub (stub :: o.entries.flatMap (ResolveEntry.stubs o m))) := by
  refine ⟨fun steps s' h => (resolved_of_ok hplaced hfound h).1,fun steps hsteps => ⟨?_,?_⟩⟩
  · rintro ⟨s',h⟩
    exact (resolved_of_ok hplaced hfound h).2
  · rintro ⟨hlt,hone⟩
    rw [resolveSymbols_eq env hlt hsteps, resolveOver_run hplaced hfound, if_pos hone]
    exact ⟨_,rfl⟩

/-- The lookup function knows two names. -/
def twoNames : Globals where
  autoLoadList := []
  lookupGlobalManual := some fun _ name =>
    if name = 0x1210 then 0x5000 else if name = 0x1220 then 0x6000 else 0

/-- A module with a `REL` entry, two `RELA` entries after one that counts as relative, and two PLT
slots. -/
def tableModule : ModuleObject :=
  { ModuleObject.blank with
    relaOrRelPlt := 0x1048
    relaOrRel := 0x1000
    moduleBase := 0x2000
    isRela := true
    relaOrRelPltSize := 48
    relaDynSize := 72
    relDynSize := 16
    relaCount := 1
    dynsym := 0x1100
    dynstr := 0x1200
    got := 0x2000 }

/-- The symbol of the last entry has a name that nobody knows. -/
def tableMem : Mem :=
  overlay (overlay (overlay zeroMem 0x1000
    [0x40,0,257,1,0,0,0x48,0,257,1,8,0,0x50,0,1025,2,0,0,0x18,0,1026,1,0,0,0x20,0,1026,3,0,0])
    0x1118 [0x10,0,0,0,0,0,0x20,0,0,0,0,0,0x30])
    0x2018 [0x100,0,0x100,0,0,0,0,0,0,0,4,0]

def tableFound (e : ResolveEntry) : Option Addr :=
  if e.addr = 0x1060 then none else if e.addr = 0x1030 then some 0x6000 else some 0x5000

theorem tableModule_entries : tableModule.entries =
    [⟨false,.rel,0x1000⟩,⟨false,.rela,0x1018⟩,⟨false,.rela,0x1030⟩,⟨true,.rela,0x1048⟩,
      ⟨true,.rela,0x1060⟩] :=
  rfl

theorem tableModule_placed : WellPlaced tableModule tableMem := by
  refine ⟨?_,?_,fun _ => ?_,fun _ => ?_⟩ <;> rw [tableModule_entries] <;> decide +kernel

/-- No slot reaches into the symbol table. -/
theorem tableModule_symbols {m' : Mem} (hsame : SameElsewhere tableModule tableMem m') {x : Addr}
    (hx : (x-0x1118).toNat < 0x100) : m' x = tableMem x := by
  apply hsame
  have hslots : ∀ e ∈ tableModule.entries, ((e.slot tableModule tableMem)-0x2018).toNat < 0x40 := by
    rw [tableModule_entries]
    decide +kernel
  rintro (⟨e,he,-,hlt⟩ | ⟨-,hlt⟩)
  · have hslot := hslots e he
    bv_omega
  · change (x-0x2008).toNat < 16 at hlt
    bv_omega

theorem tableModule_looksUp :
    LooksUp tableModule tableMem (tryResolveSymbol twoNames 2 tableModule) tableFound := by
  intro e he _ m' hsame
  have hin : ∀ e ∈ tableModule.entries,
      ((entrySymbol tableModule tableMem e.addr)-0x1118).toNat < 0x80 ∧
      stOther tableMem (entrySymbol tableModule tableMem e.addr) = 0 ∧
      tryResolveSymbol twoNames 2 tableModule tableMem (entrySymbol tableModule tableMem e.addr) =
        .ok (tableFound e) := by
    rw [tableModule_entries]
    decide +kernel
  obtain ⟨hsymbol,hvisible,hfound⟩ := hin e he
  generalize entrySymbol tableModule tableMem e.addr = symbol at hsymbol hvisible hfound ⊢
  -- the name and the visibility are where the memory is as it was
  have hname : stName m' symbol = stName tableMem symbol := by
    apply Mem.read32_congr
    intro k hk
    exact tableModule_symbols hsame (by bv_omega)
  have hother : stOther m' symbol = stOther tableMem symbol :=
    tableModule_symbols hsame (by bv_omega)
  rw [tryResolveSymbol, hname, hother, hvisible]
  rw [tryResolveSymbol, hvisible] at hfound
  exact hfound

/-- The eager binding of a module: the first slot keeps its addend, the second and the fourth get
theirs from the entry, and the last one, whose symbol is not found, leads to the stub. -/
theorem resolveSymbols_resolved_tables : ∃ s',
    resolveSymbols (tryResolveSymbol twoNames 2 tableModule) tableModule ⟨0x7000,0x7100⟩ (2^64) false
      ⟨0,tableMem⟩ = .ok s' ∧
    Resolved tableModule tableMem ⟨0x7000,0x7100⟩ false tableFound 0 s' ∧
    tableModule.entries.map (fun e => s'.mem.read64 (e.slot tableModule tableMem)) =
      [0x5004,0x5008,0x6000,0x5000,0x2100] ∧
    s'.gotStubPtr = 0x2100 := by
  obtain ⟨hresolved,hiff⟩ := @resolveSymbols_resolved tableModule tableMem tableFound false 0
    (tryResolveSymbol twoNames 2 tableModule) tableModule_placed tableModule_looksUp ⟨0x7000,0x7100⟩
  obtain ⟨s',h⟩ := (hiff (2^64) le_rfl).mpr (by decide +kernel)
  have hdone := hresolved _ s' h
  have hall : ∀ e ∈ tableModule.entries, e.Writes tableMem := by
    rw [tableModule_entries]
    decide +kernel
  refine ⟨s',h,hdone,?_,?_⟩
  · rw [List.map_congr_left fun e he => hdone.slots e he (hall e he)]
    decide +kernel
  · rw [hdone.stub]
    decide +kernel

end Whole

end Zeldar.Rtld
