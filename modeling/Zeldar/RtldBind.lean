import Zeldar.RtldSymbol

namespace Zeldar.Rtld

/-- `ELF_ST_BIND` and `ELF_ST_VISIBILITY`. -/
def elfStBind (info : BitVec 8) : BitVec 8 := info >>> 4

def elfStVisibility (other : BitVec 8) : BitVec 8 := other &&& 3

def stbWeak : BitVec 8 := 2

/-- `g_pAutoLoadList` and `g_LookupGlobalManualFunctionPointer`; the function it
points to is not part of the loader. -/
structure Globals where
  autoLoadList : List ModuleObject
  lookupGlobalManual : Option (Mem → Addr → Addr)

section Lookup
variable (globals : Globals) (fuel : ℕ)

/-- The loop of `lookup_global_auto`; without modules it returns 0 as well. -/
def lookupGlobalAuto (m : Mem) (name : Addr) : List ModuleObject → Except Halt Addr
  | [] => .ok 0
  | o :: os => do
    match ← getSymbolByName m fuel o name with
    | some symbol =>
      if elfStBind (stInfo m symbol) ≠ 0 then return o.moduleBase+stValue m symbol
      else lookupGlobalAuto m name os
    | none => lookupGlobalAuto m name os

def tryResolveSymbol (o : ModuleObject) : Resolver := fun m symbol => do
  let name := o.dynstr+(stName m symbol).setWidth 64
  if elfStVisibility (stOther m symbol) ≠ 0 then
    match ← getSymbolByName m fuel o name with
    | some target => return some (o.moduleBase+stValue m target)
    | none =>
      if elfStBind (stInfo m symbol) &&& stbWeak = stbWeak then return some 0
      else return none
  else
    let address ← lookupGlobalAuto fuel m name globals.autoLoadList
    let address :=
      if address = 0 then (globals.lookupGlobalManual.map fun f => f m name).getD address
      else address
    return if address ≠ 0 then some address else none

end Lookup

section Lazy
variable (resolve : Resolver) (o : ModuleObject) (m : Mem)

/-- `__rtld_lazy_bind_symbol`. -/
def rtldLazyBindSymbol (index : BitVec 64) : Except Halt Addr := do
  if o.isRela then
    let entry := entryAt o.relaOrRelPlt sizeofRela index
    match ← resolve m (entrySymbol o m entry) with
    | some symbol => return if symbol = 0 then 0 else symbol+m.read64 (entry+16)
    | none => return 0
  else
    let entry := entryAt o.relaOrRelPlt sizeofRel index
    match ← resolve m (entrySymbol o m entry) with
    | some symbol => return symbol
    | none => return 0

end Lazy

/-- `__rtld_runtime_resolve`, called with the address of `got[2]` and that of the
slot: the module is the pointer before the former, and the index the distance of
the two. The registers it saves go to the stack and come back. -/
def rtldRuntimeResolve (resolve : ModuleObject → Resolver) (objectAt : Addr → ModuleObject)
    (ip0 slot : Addr) (m : Mem) : Except Halt (Mem × Addr) := do
  let index := (slot-ip0-8) >>> 3
  let module := objectAt (m.read64 (ip0-8))
  let target ← rtldLazyBindSymbol (resolve module) module m index
  return (m.write64 slot target,target)

/-- An entry of a table that `ResolveSymbols` goes through. -/
structure ResolveEntry where
  jumpSlot : Bool
  kind : RelocKind
  addr : Addr
  deriving DecidableEq, Repr

namespace ResolveEntry

def value (e : ResolveEntry) : SlotValue :=
  match e.kind with
  | .rel => relValue
  | .rela => relaValue

def run (resolve : Resolver) (o : ModuleObject) (doLazyGotInit : Bool) (s : ResolveState)
    (e : ResolveEntry) : Except Halt ResolveState :=
  if e.jumpSlot then resolveSymbolJumpSlot resolve o e.value doLazyGotInit e.addr s
  else resolveSymbolAbsolute resolve o e.value e.addr s

/-- The relocation is of a type that the pass over its table handles. -/
def Writes (m : Mem) (e : ResolveEntry) : Prop :=
  (if e.jumpSlot then isJumpSlot (m.read64 (e.addr+8)) else isAbsolute (m.read64 (e.addr+8))) = true

def slot (o : ModuleObject) (m : Mem) (e : ResolveEntry) : Addr := entryTarget o m e.addr

end ResolveEntry

namespace ModuleObject
variable (o : ModuleObject)

def relEntries : List ResolveEntry :=
  (List.range' o.counts.relCount (o.counts.relEntries-o.counts.relCount)).map fun i =>
    ⟨false,.rel,entryAt o.relaOrRel sizeofRel (BitVec.ofNat 64 i)⟩

def relaEntries : List ResolveEntry :=
  (List.range' o.counts.relaCount (o.counts.relaEntries-o.counts.relaCount)).map fun i =>
    ⟨false,.rela,entryAt o.relaOrRel sizeofRela (BitVec.ofNat 64 i)⟩

def pltKind : RelocKind := if o.isRela then .rela else .rel

def pltEntry (k : BitVec 32) : ResolveEntry :=
  ⟨true,o.pltKind,entryAt o.relaOrRelPlt o.pltKind.size (k.setWidth 64)⟩

def pltEntries : List ResolveEntry :=
  (List.range' 0 (o.counts.pltEntries-0)).map fun i => o.pltEntry (BitVec.ofNat 32 i)

/-- The entries in the order in which `ResolveSymbols` goes through them. -/
def entries : List ResolveEntry := o.relEntries++o.relaEntries++o.pltEntries

end ModuleObject

section Run
variable (resolve : Resolver) (o : ModuleObject)

theorem pltPass_eq (doLazyGotInit : Bool) (i : BitVec 32) (s : ResolveState) :
    pltPass resolve o doLazyGotInit i s = (o.pltEntry i).run resolve o doLazyGotInit s := by
  rw [pltPass, ModuleObject.pltEntry, ModuleObject.pltKind]
  by_cases h : o.isRela = true
  · rw [if_pos h, if_pos h]
    rfl
  · rw [if_neg h, if_neg h]
    rfl

/-- The three loops go through the entries one after another. -/
theorem resolveOver_eq (env : ResolveEnv) (doLazyGotInit : Bool) (s : ResolveState) :
    resolveOver resolve o env o.counts doLazyGotInit s =
      (o.entries.foldlM (ResolveEntry.run resolve o doLazyGotInit) s).map fun s =>
        { s with mem := setGot o env s.mem } := by
  have hplt : ∀ s, overRange (pltPass resolve o doLazyGotInit) 0 o.counts.pltEntries s =
      o.pltEntries.foldlM (ResolveEntry.run resolve o doLazyGotInit) s := by
    intro s
    rw [ModuleObject.pltEntries, List.foldlM_map, overRange]
    congr 1
    funext s i
    exact pltPass_eq resolve o doLazyGotInit _ s
  have hrel : ∀ s, overRange (relPass resolve o) o.counts.relCount o.counts.relEntries s =
      o.relEntries.foldlM (ResolveEntry.run resolve o doLazyGotInit) s := by
    intro s
    rw [ModuleObject.relEntries, List.foldlM_map]
    rfl
  have hrela : ∀ s, overRange (relaPass resolve o) o.counts.relaCount o.counts.relaEntries s =
      o.relaEntries.foldlM (ResolveEntry.run resolve o doLazyGotInit) s := by
    intro s
    rw [ModuleObject.relaEntries, List.foldlM_map]
    rfl
  -- table by table: a failure ends both sides, a state goes on into the next table
  rw [resolveOver, hrel, ModuleObject.entries, List.foldlM_append, List.foldlM_append]
  cases o.relEntries.foldlM (ResolveEntry.run resolve o doLazyGotInit) s with
  | error e => rfl
  | ok s₁ =>
    change (overRange (relaPass resolve o) o.counts.relaCount o.counts.relaEntries s₁ >>= _) = _
    rw [hrela]
    change _ = ((o.relaEntries.foldlM (ResolveEntry.run resolve o doLazyGotInit) s₁ >>= _)).map _
    cases o.relaEntries.foldlM (ResolveEntry.run resolve o doLazyGotInit) s₁ with
    | error e => rfl
    | ok s₂ =>
      change (overRange (pltPass resolve o doLazyGotInit) 0 o.counts.pltEntries s₂ >>= _) = _
      rw [hplt]
      rfl

end Run

section Placement
variable (o : ModuleObject) (m : Mem)

/-- The bytes that `ResolveSymbols` may change. -/
def Written (x : Addr) : Prop :=
  (∃ e ∈ o.entries, e.Writes m ∧ (x-e.slot o m).toNat < 8) ∨
    o.got ≠ 0 ∧ (x-(o.got+8)).toNat < 16

def SameElsewhere (m' : Mem) : Prop := ∀ x, ¬Written o m x → m' x = m x

/-- The slots are apart from each other, from the tables and from the reserved
words of the `GOT`. -/
structure WellPlaced : Prop where
  slots : o.entries.Pairwise fun e e' =>
    e.Writes m → e'.Writes m → Sep (e.slot o m) 8 (e'.slot o m) 8
  tables : ∀ e ∈ o.entries, ∀ e' ∈ o.entries, e'.Writes m →
    Sep e.addr e.kind.size (e'.slot o m) 8
  got_slots : o.got ≠ 0 → ∀ e ∈ o.entries, e.Writes m → Sep (o.got+8) 16 (e.slot o m) 8
  got_tables : o.got ≠ 0 → ∀ e ∈ o.entries, Sep e.addr e.kind.size (o.got+8) 16

end Placement

section Fold
variable {ε α β σ : Type}

theorem map_ok {f : α → β} {x : Except ε α} {b : β} (h : x.map f = .ok b) :
    ∃ a, x = .ok a ∧ f a = b := by
  cases x with
  | error e => cases h
  | ok a => exact ⟨a,rfl,Except.ok.inj h⟩

/-- A fold that ends has passed through every element. -/
theorem foldlM_append_cons {f : σ → α → Except ε σ} {pre post : List α} {a : α} {s s' : σ}
    (h : (pre++a :: post).foldlM f s = .ok s') :
    ∃ s₁ s₂, pre.foldlM f s = .ok s₁ ∧ f s₁ a = .ok s₂ ∧ post.foldlM f s₂ = .ok s' := by
  rw [List.foldlM_append] at h
  obtain ⟨s₁,hpre,h⟩ := bind_ok h
  rw [List.foldlM_cons] at h
  obtain ⟨s₂,ha,hpost⟩ := bind_ok h
  exact ⟨s₁,s₂,hpre,ha,hpost⟩

end Fold

section Memory
variable {resolve : Resolver} {o : ModuleObject} {value : SlotValue} {entry : Addr}
  {s s' : ResolveState}

theorem absolute_mem (h : resolveSymbolAbsolute resolve o value entry s = .ok s') :
    s'.mem = s.mem ∨ isAbsolute (s.mem.read64 (entry+8)) = true ∧
      ∃ v, s'.mem = s.mem.write64 (entryTarget o s.mem entry) v := by
  rw [resolveSymbolAbsolute] at h
  by_cases habs : isAbsolute (s.mem.read64 (entry+8)) = true
  · rw [if_pos habs] at h
    obtain ⟨r,-,h⟩ := bind_ok h
    cases r with
    | none =>
      cases h
      exact Or.inl rfl
    | some symbol =>
      cases h
      exact Or.inr ⟨habs,_,rfl⟩
  · rw [if_neg habs] at h
    cases h
    exact Or.inl rfl

theorem checkStub_mem {target : Addr} (h : checkStub target s = .ok s') : s'.mem = s.mem := by
  rw [checkStub] at h
  by_cases hstub : s.gotStubPtr ≠ 0
  · rw [if_pos hstub] at h
    obtain ⟨-,-,rfl⟩ := map_ok h
    rfl
  · rw [if_neg hstub] at h
    cases h
    rfl

theorem jumpSlot_mem {doLazyGotInit : Bool}
    (h : resolveSymbolJumpSlot resolve o value doLazyGotInit entry s = .ok s') :
    s'.mem = s.mem ∨ isJumpSlot (s.mem.read64 (entry+8)) = true ∧
      ∃ v, s'.mem = s.mem.write64 (entryTarget o s.mem entry) v := by
  rw [resolveSymbolJumpSlot] at h
  by_cases hjump : isJumpSlot (s.mem.read64 (entry+8)) = true
  · rw [if_pos hjump] at h
    refine Or.inr ⟨hjump,?_⟩
    obtain ⟨s₁,hs₁,h⟩ := bind_ok h
    have hmem := checkStub_mem hs₁
    cases doLazyGotInit with
    | true =>
      cases h
      exact ⟨_,hmem⟩
    | false =>
      obtain ⟨r,-,h⟩ := bind_ok h
      cases r with
      | none =>
        cases h
        exact ⟨_,by rw [hmem]; rfl⟩
      | some symbol =>
        cases h
        exact ⟨_,by rw [hmem]; rfl⟩
  · rw [if_neg hjump] at h
    cases h
    exact Or.inl rfl

/-- Without lazy binding the slot gets the value made of the looked-up address. -/
theorem jumpSlot_eager {symbol : Addr} (hjump : isJumpSlot (s.mem.read64 (entry+8)) = true)
    (hresolve : resolve s.mem (entrySymbol o s.mem entry) = .ok (some symbol))
    (h : resolveSymbolJumpSlot resolve o value false entry s = .ok s') :
    s'.mem = s.mem.write64 (entryTarget o s.mem entry)
      (value s.mem entry (entryTarget o s.mem entry) symbol) := by
  rw [resolveSymbolJumpSlot, if_pos hjump] at h
  obtain ⟨s₁,hs₁,h⟩ := bind_ok h
  have hmem : s₁.mem = s.mem := checkStub_mem hs₁
  obtain ⟨r,hr,h⟩ := bind_ok h
  rw [hmem] at hr
  obtain rfl := Except.ok.inj (hresolve.symm.trans hr)
  cases h
  rw [hmem]

end Memory

section Frame
variable {resolve : Resolver} {o : ModuleObject} {m : Mem} (hplaced : WellPlaced o m)
include hplaced

/-- No byte of an entry is written. -/
theorem not_written_of_table {e : ResolveEntry} (he : e ∈ o.entries) {x : Addr}
    (hx : (x-e.addr).toNat < e.kind.size) : ¬Written o m x := by
  rintro (⟨e',he',hw,hslot⟩ | ⟨hgot,hword⟩)
  · have hge := (hplaced.tables e he e' he' hw).offset hslot
    omega
  · have hge := (hplaced.got_tables hgot e he).offset hword
    omega

theorem record_same {m' : Mem} (hsame : SameElsewhere o m m') {e : ResolveEntry}
    (he : e ∈ o.entries) {d : BitVec 64} (hd : d.toNat+8 ≤ e.kind.size) :
    m'.read64 (e.addr+d) = m.read64 (e.addr+d) := by
  apply Mem.read64_congr
  intro x hx
  apply hsame
  apply not_written_of_table hplaced he
  have hsize : e.kind.size ≤ 24 := by
    cases e.kind <;> decide
  bv_omega

theorem writes_iff {m' : Mem} (hsame : SameElsewhere o m m') {e : ResolveEntry}
    (he : e ∈ o.entries) : e.Writes m' ↔ e.Writes m := by
  have hinfo : m'.read64 (e.addr+8) = m.read64 (e.addr+8) :=
    record_same hplaced hsame he (by cases e.kind <;> decide)
  rw [ResolveEntry.Writes, ResolveEntry.Writes, hinfo]

theorem slot_eq {m' : Mem} (hsame : SameElsewhere o m m') {e : ResolveEntry}
    (he : e ∈ o.entries) : e.slot o m' = e.slot o m := by
  have hoffset := record_same hplaced hsame he (d := 0) (by cases e.kind <;> decide)
  rw [show e.addr+0 = e.addr from BitVec.add_zero _] at hoffset
  rw [ResolveEntry.slot, ResolveEntry.slot, entryTarget, entryTarget, hoffset]

/-- A pass writes the slot of its entry, or nothing. -/
theorem run_mem {doLazyGotInit : Bool} {s s' : ResolveState} (hsame : SameElsewhere o m s.mem)
    {e : ResolveEntry} (he : e ∈ o.entries) (h : e.run resolve o doLazyGotInit s = .ok s') :
    s'.mem = s.mem ∨ e.Writes m ∧ ∃ v, s'.mem = s.mem.write64 (e.slot o m) v := by
  rw [← writes_iff hplaced hsame he, ← slot_eq hplaced hsame he, ResolveEntry.Writes]
  rw [ResolveEntry.run] at h
  by_cases hj : e.jumpSlot = true
  · rw [if_pos hj] at h ⊢
    exact jumpSlot_mem h
  · rw [if_neg hj] at h ⊢
    exact absolute_mem h

theorem SameElsewhere.run {doLazyGotInit : Bool} {s s' : ResolveState}
    (hsame : SameElsewhere o m s.mem) {e : ResolveEntry} (he : e ∈ o.entries)
    (h : e.run resolve o doLazyGotInit s = .ok s') : SameElsewhere o m s'.mem := by
  obtain hmem | ⟨hw,v,hmem⟩ := run_mem hplaced hsame he h
  · rwa [hmem]
  · intro x hx
    have hout : 8 ≤ (x-e.slot o m).toNat := by
      by_contra hlt
      exact hx (Or.inl ⟨e,he,hw,by omega⟩)
    rw [hmem, Mem.write64_apply_of_le _ _ hout, hsame x hx]

/-- A run over entries keeps a word that is apart from their slots. -/
theorem foldlM_mem {doLazyGotInit : Bool} {es : List ResolveEntry} (hes : ∀ e ∈ es, e ∈ o.entries)
    {b : Addr} (hb : ∀ e ∈ es, e.Writes m → Sep b 8 (e.slot o m) 8) {s s' : ResolveState}
    (hsame : SameElsewhere o m s.mem)
    (h : es.foldlM (ResolveEntry.run resolve o doLazyGotInit) s = .ok s') :
    SameElsewhere o m s'.mem ∧ s'.mem.read64 b = s.mem.read64 b := by
  induction es generalizing s with
  | nil =>
    cases h
    exact ⟨hsame,rfl⟩
  | cons e es ih =>
    rw [List.foldlM_cons] at h
    obtain ⟨s₁,hs₁,hrest⟩ := bind_ok h
    have he := hes e List.mem_cons_self
    have hread : s₁.mem.read64 b = s.mem.read64 b := by
      obtain hmem | ⟨hw,v,hmem⟩ := run_mem hplaced hsame he hs₁
      · rw [hmem]
      · rw [hmem, Mem.read64_write64_of_sep _ _ (hb e List.mem_cons_self hw)]
    obtain ⟨hsame',hread'⟩ := ih (fun e' he' => hes e' (List.mem_cons_of_mem e he'))
      (fun e' he' => hb e' (List.mem_cons_of_mem e he')) (hsame.run hplaced he hs₁) hrest
    exact ⟨hsame',hread'.trans hread⟩

end Frame

section Values
variable {resolve : Resolver} {o : ModuleObject} {m : Mem} (hplaced : WellPlaced o m)

theorem pltEntry_mem {k : BitVec 32} (hk : k.toNat < o.counts.pltEntries) :
    o.pltEntry k ∈ o.entries := by
  apply List.mem_append_right
  rw [ModuleObject.pltEntries]
  refine List.mem_map.mpr ⟨k.toNat,?_,by rw [BitVec.ofNat_toNat, BitVec.setWidth_eq]⟩
  rw [List.mem_range'_1]
  omega

include hplaced

theorem value_same {m' : Mem} (hsame : SameElsewhere o m m') {e : ResolveEntry} (he : e ∈ o.entries)
    (hslot : m'.read64 (e.slot o m) = m.read64 (e.slot o m)) (symbol : Addr) :
    e.value m' e.addr (e.slot o m) symbol = e.value m e.addr (e.slot o m) symbol := by
  rw [ResolveEntry.value]
  cases hkind : e.kind with
  | rel => exact congrArg (·+symbol) hslot
  | rela =>
    have haddend := record_same hplaced hsame he (d := 16) (by rw [hkind]; decide)
    exact congrArg (symbol+·) haddend

theorem setGot_read64 (env : ResolveEnv) {e : ResolveEntry} (he : e ∈ o.entries) (hw : e.Writes m)
    (m' : Mem) : (setGot o env m').read64 (e.slot o m) = m'.read64 (e.slot o m) := by
  rw [setGot]
  by_cases hgot : o.got ≠ 0
  · obtain ⟨h1,h2⟩ := hplaced.got_slots hgot e he hw
    have hself : Sep (e.slot o m) 8 (o.got+8) 8 := ⟨by omega,by omega⟩
    have hresolve : Sep (e.slot o m) 8 (o.got+16) 8 := ⟨by bv_omega,by bv_omega⟩
    rw [if_pos hgot, Mem.read64_write64_of_sep _ _ hresolve, Mem.read64_write64_of_sep _ _ hself]
  · rw [if_neg hgot]

/-- The pass over an entry whose symbol is found, the slot being as it was. -/
theorem run_eager {e : ResolveEntry} (he : e ∈ o.entries) (hj : e.jumpSlot = true) (hw : e.Writes m)
    {symbol : Addr} {s s' : ResolveState} (hsame : SameElsewhere o m s.mem)
    (hslot : s.mem.read64 (e.slot o m) = m.read64 (e.slot o m))
    (hlookup : resolve s.mem (entrySymbol o m e.addr) = .ok (some symbol))
    (h : e.run resolve o false s = .ok s') :
    s'.mem = s.mem.write64 (e.slot o m) (e.value m e.addr (e.slot o m) symbol) := by
  have hjump : isJumpSlot (s.mem.read64 (e.addr+8)) = true := by
    have hw' := (writes_iff hplaced hsame he).mpr hw
    rwa [ResolveEntry.Writes, if_pos hj] at hw'
  have hsymbol : entrySymbol o s.mem e.addr = entrySymbol o m e.addr := by
    rw [entrySymbol, entrySymbol,
      record_same hplaced hsame he (d := 8) (by cases e.kind <;> decide)]
  have htarget : entryTarget o s.mem e.addr = e.slot o m := slot_eq hplaced hsame he
  rw [ResolveEntry.run, if_pos hj] at h
  rw [← hsymbol] at hlookup
  calc
    s'.mem = s.mem.write64 (entryTarget o s.mem e.addr)
        (e.value s.mem e.addr (entryTarget o s.mem e.addr) symbol) :=
      jumpSlot_eager hjump hlookup h
    _ = s.mem.write64 (e.slot o m) (e.value m e.addr (e.slot o m) symbol) := by
      rw [htarget, value_same hplaced hsame he hslot]

/-- What eager binding leaves in the slot of a symbol that is found. -/
theorem eager_value {e : ResolveEntry} (he : e ∈ o.entries) (hj : e.jumpSlot = true)
    (hw : e.Writes m) {symbol : Addr}
    (hlookup : ∀ m', SameElsewhere o m m' → resolve m' (entrySymbol o m e.addr) = .ok (some symbol))
    {env : ResolveEnv} {steps : ℕ} {stub : Addr} {s' : ResolveState}
    (h : resolveSymbols resolve o env steps false ⟨stub,m⟩ = .ok s') :
    s'.mem.read64 (e.slot o m) = e.value m e.addr (e.slot o m) symbol := by
  have hover := (resolveSymbols_over env h).2
  obtain ⟨pre,post,hsplit⟩ := List.append_of_mem he
  have hslots := hplaced.slots
  rw [hsplit, List.pairwise_append, List.pairwise_cons] at hslots
  have hin : ∀ e', e' ∈ pre ∨ e' ∈ post → e' ∈ o.entries := by
    intro e' he'
    rw [hsplit, List.mem_append, List.mem_cons]
    exact he'.imp_right Or.inr
  rw [resolveOver_eq, hsplit] at hover
  obtain ⟨s₃,hfold,rfl⟩ := map_ok hover
  obtain ⟨s₁,s₂,hpre,hrun,hpost⟩ := foldlM_append_cons hfold
  -- up to the entry its slot keeps what it held
  obtain ⟨hsame₁,hread₁⟩ := foldlM_mem hplaced (fun e' he' => hin e' (Or.inl he'))
    (fun e' he' hw' => (hslots.2.2 e' he' e List.mem_cons_self hw' hw).symm) (fun x _ => rfl) hpre
  have hmem₂ := run_eager hplaced he hj hw hsame₁ hread₁ (hlookup _ hsame₁) hrun
  -- and the entries after it leave the slot alone
  obtain ⟨-,hread₃⟩ := foldlM_mem hplaced (fun e' he' => hin e' (Or.inr he'))
    (fun e' he' hw' => hslots.2.1.1 e' he' hw hw') (hsame₁.run hplaced he hrun) hpost
  calc
    (setGot o env s₃.mem).read64 (e.slot o m) = s₃.mem.read64 (e.slot o m) :=
      setGot_read64 hplaced env he hw s₃.mem
    _ = s₂.mem.read64 (e.slot o m) := hread₃
    _ = e.value m e.addr (e.slot o m) symbol := by
      rw [hmem₂, Mem.read64_write64_self]

/-- What lazy binding returns for a symbol that is found. -/
def lazyValue (o : ModuleObject) (m : Mem) (e : ResolveEntry) (symbol : Addr) : Addr :=
  if o.isRela then if symbol = 0 then 0 else symbol+m.read64 (e.addr+16) else symbol

theorem lazy_value {k : BitVec 32} (hk : k.toNat < o.counts.pltEntries) {symbol : Addr}
    (hlookup : ∀ m', SameElsewhere o m m' →
      resolve m' (entrySymbol o m (o.pltEntry k).addr) = .ok (some symbol))
    {m' : Mem} (hsame : SameElsewhere o m m') :
    rtldLazyBindSymbol resolve o m' (k.setWidth 64) =
      .ok (lazyValue o m (o.pltEntry k) symbol) := by
  have he := pltEntry_mem hk
  have hinfo := record_same hplaced hsame he (d := 8) (by cases (o.pltEntry k).kind <;> decide)
  have hsymbol : entrySymbol o m' (o.pltEntry k).addr = entrySymbol o m (o.pltEntry k).addr := by
    rw [entrySymbol, entrySymbol, hinfo]
  -- the entry reads the same in both memories, so the symbol is the same
  have hfound : resolve m' (entrySymbol o m' (o.pltEntry k).addr) = .ok (some symbol) := by
    rw [hsymbol]
    exact hlookup m' hsame
  rw [rtldLazyBindSymbol, lazyValue]
  by_cases hr : o.isRela = true
  · have hkind : o.pltKind = .rela := if_pos hr
    have haddr : (o.pltEntry k).addr = entryAt o.relaOrRelPlt sizeofRela (k.setWidth 64) := by
      rw [ModuleObject.pltEntry, hkind]
      rfl
    have haddend : m'.read64 ((o.pltEntry k).addr+16) = m.read64 ((o.pltEntry k).addr+16) := by
      apply record_same hplaced hsame he
      change _ ≤ o.pltKind.size
      rw [hkind]
      decide
    rw [if_pos hr, if_pos hr, ← haddend]
    rw [haddr] at hfound ⊢
    dsimp only
    rw [hfound]
    rfl
  · have hkind : o.pltKind = .rel := if_neg hr
    have haddr : (o.pltEntry k).addr = entryAt o.relaOrRelPlt sizeofRel (k.setWidth 64) := by
      rw [ModuleObject.pltEntry, hkind]
      rfl
    rw [if_neg hr, if_neg hr]
    rw [haddr] at hfound
    dsimp only
    rw [hfound]
    rfl

omit hplaced in
/-- The two values agree for `REL` if the slot held zero, and for `RELA` unless an
addend is lost with the address 0. -/
theorem value_eq_lazyValue_iff {k : BitVec 32} (symbol : Addr) :
    (o.pltEntry k).value m (o.pltEntry k).addr ((o.pltEntry k).slot o m) symbol =
        lazyValue o m (o.pltEntry k) symbol ↔
      if o.isRela then symbol = 0 → m.read64 ((o.pltEntry k).addr+16) = 0
      else m.read64 ((o.pltEntry k).slot o m) = 0 := by
  have hzero : ∀ x : BitVec 64, 0+x = x := BitVec.zero_add
  rw [lazyValue]
  by_cases hr : o.isRela = true
  · have hkind : (o.pltEntry k).kind = .rela := if_pos hr
    rw [if_pos hr, if_pos hr, ResolveEntry.value, hkind]
    dsimp only [relaValue]
    by_cases h0 : symbol = 0
    · rw [if_pos h0, h0, hzero]
      exact ⟨fun h _ => h,fun h => h rfl⟩
    · rw [if_neg h0]
      exact ⟨fun _ h => absurd h h0,fun _ => rfl⟩
  · have hkind : (o.pltEntry k).kind = .rel := if_neg hr
    rw [if_neg hr, if_neg hr, ResolveEntry.value, hkind]
    dsimp only [relValue]
    constructor
    · intro h
      bv_omega
    · intro h
      rw [h, hzero]

omit hplaced in
/-- The trampoline finds the module and the index of a slot of the `GOT`. -/
theorem rtldRuntimeResolve_eq {resolve : ModuleObject → Resolver} {objectAt : Addr → ModuleObject}
    {k : BitVec 32} (hobject : objectAt (m.read64 (o.got+8)) = o) {target : Addr}
    (hbind : rtldLazyBindSymbol (resolve o) o m (k.setWidth 64) = .ok target) :
    let slot := o.got+24+8*k.setWidth 64
    rtldRuntimeResolve resolve objectAt (o.got+16) slot m = .ok (m.write64 slot target,target) := by
  intro slot
  have hself : o.got+16-8 = o.got+8 := by bv_omega
  have hindex : (slot-(o.got+16)-8) >>> 3 = k.setWidth 64 := by
    have hk := k.isLt
    have hdist : slot-(o.got+16)-8 = 8*k.setWidth 64 := by
      change o.got+24+8*k.setWidth 64-(o.got+16)-8 = _
      bv_omega
    apply BitVec.eq_of_toNat_eq
    rw [hdist, BitVec.toNat_ushiftRight, Nat.shiftRight_eq_div_pow]
    bv_omega
  rw [rtldRuntimeResolve, hself, hobject, hindex, hbind]
  rfl

end Values

/-- For a `JUMP_SLOT` entry whose symbol is found, what eager binding leaves in the
slot is what lazy binding returns, and stores there, if and only if a `REL` slot
held zero, or a `RELA` entry has no addend to lose. -/
theorem eager_eq_lazy_iff (globals : Globals) (fuel : ℕ) {o : ModuleObject} {m : Mem}
    (hplaced : WellPlaced o m) {k : BitVec 32} (hk : k.toNat < o.counts.pltEntries)
    (hjump : (o.pltEntry k).Writes m) {symbol : Addr}
    (hlookup : ∀ m', SameElsewhere o m m' → tryResolveSymbol globals fuel o m'
      (entrySymbol o m (o.pltEntry k).addr) = .ok (some symbol))
    {env : ResolveEnv} {steps : ℕ} {stub : Addr} {s' : ResolveState}
    (heager : resolveSymbols (tryResolveSymbol globals fuel o) o env steps false ⟨stub,m⟩ = .ok s')
    {m' : Mem} (hlazy : SameElsewhere o m m') :
    let slot := (o.pltEntry k).slot o m
    ∃ target, rtldLazyBindSymbol (tryResolveSymbol globals fuel o) o m' (k.setWidth 64) =
        .ok target ∧
      (∀ objectAt, objectAt (m'.read64 (o.got+8)) = o → slot = o.got+24+8*k.setWidth 64 →
        rtldRuntimeResolve (tryResolveSymbol globals fuel) objectAt (o.got+16) slot m' =
          .ok (m'.write64 slot target,target)) ∧
      (s'.mem.read64 slot = target ↔
        if o.isRela then symbol = 0 → m.read64 ((o.pltEntry k).addr+16) = 0
        else m.read64 slot = 0) := by
  intro slot
  have hbind := lazy_value hplaced hk hlookup hlazy
  refine ⟨_,hbind,fun objectAt hobject hslot => ?_,?_⟩
  · rw [hslot]
    exact rtldRuntimeResolve_eq hobject hbind
  · rw [eager_value hplaced (pltEntry_mem hk) rfl hjump hlookup heager]
    exact value_eq_lazyValue_iff symbol

/-- No module is loaded, and the lookup function knows every name. -/
def oneAddress : Globals := ⟨[],some fun _ _ => 0x5000⟩

/-- A module with one `REL` slot, which holds the distance of its stub. -/
def relModule : ModuleObject :=
  { ModuleObject.blank with
    relaOrRelPlt := 0x1000
    moduleBase := 0x2000
    relaOrRelPltSize := 16
    dynsym := 0x1100
    dynstr := 0x1200
    got := 0x2000 }

def relMem : Mem := overlay (overlay zeroMem 0x1000 [0x18,0,1026,0]) 0x2018 [0x100,0]

/-- A module with one `RELA` slot, with an addend, for a weak hidden symbol that is
not defined. -/
def relaModule : ModuleObject :=
  { relModule with
    isRela := true
    relaOrRelPltSize := 24
    hashBucket := 0x1300
    hashNbucketValue := 1 }

def relaMem : Mem := overlay (overlay zeroMem 0x1000 [0x18,0,1026,0,8,0]) 0x1100 [0,0x220]

theorem relModule_entries : relModule.entries = [⟨true,.rel,0x1000⟩] := rfl

theorem relModule_placed : WellPlaced relModule relMem := by
  have hin : ∀ e ∈ relModule.entries, e = ⟨true,.rel,0x1000⟩ := by
    intro e he
    rw [relModule_entries] at he
    exact List.mem_singleton.mp he
  refine ⟨?_,fun e he e' he' _ => ?_,fun _ e he _ => ?_,fun _ e he => ?_⟩
  · rw [relModule_entries]
    exact List.pairwise_singleton _ _
  · rw [hin e he, hin e' he']
    decide
  · rw [hin e he]
    decide
  · rw [hin e he]
    decide

theorem relModule_lookup {m' : Mem} (hsame : SameElsewhere relModule relMem m') :
    tryResolveSymbol oneAddress 2 relModule m' 0x1100 = .ok (some 0x5000) := by
  have hother : stOther m' 0x1100 = 0 := by
    refine (hsame 0x1105 ?_).trans rfl
    rintro (⟨e,he,-,hlt⟩ | ⟨-,hlt⟩)
    · rw [relModule_entries] at he
      rw [List.mem_singleton.mp he] at hlt
      exact absurd hlt (by decide)
    · exact absurd hlt (by decide)
  rw [tryResolveSymbol, hother]
  rfl

theorem eager_eq_lazy_iff_rel :
    ∃ target, rtldLazyBindSymbol (tryResolveSymbol oneAddress 2 relModule) relModule relMem 0 =
        .ok target ∧
      (∀ objectAt : Addr → ModuleObject, objectAt (relMem.read64 0x2008) = relModule →
        (0x2018:Addr) = 0x2018 →
        rtldRuntimeResolve (tryResolveSymbol oneAddress 2) objectAt 0x2010 0x2018 relMem =
          .ok (relMem.write64 0x2018 target,target)) ∧
      ((setGot relModule ⟨0x6000,0x7000⟩ (relMem.write64 0x2018 0x5100)).read64 0x2018 = target ↔
        relMem.read64 0x2018 = 0) :=
  have heager : resolveSymbols (tryResolveSymbol oneAddress 2 relModule) relModule ⟨0x6000,0x7000⟩ 3
      false ⟨0,relMem⟩ =
      .ok ⟨0x2100,setGot relModule ⟨0x6000,0x7000⟩ (relMem.write64 0x2018 0x5100)⟩ := rfl
  eager_eq_lazy_iff (k := 0) oneAddress 2 relModule_placed (by decide)
    (show (relModule.pltEntry 0).Writes relMem from rfl) (fun _ hsame => relModule_lookup hsame)
    heager (fun _ _ => rfl)

/-- The slot held 0x100 and gets 0x5100 of a symbol at 0x5000, which is what lazy
binding stores; and the addend 8 of a weak symbol that resolves to 0 is lost there. -/
theorem eager_ne_lazy :
    let env : ResolveEnv := ⟨0x6000,0x7000⟩
    let rel := tryResolveSymbol oneAddress 2 relModule
    let rela := tryResolveSymbol oneAddress 2 relaModule
    (rel relMem 0x1100 = .ok (some 0x5000) ∧
      (resolveSymbols rel relModule env 3 false ⟨0,relMem⟩).map (fun s => s.mem.read64 0x2018) =
        .ok 0x5100 ∧
      rtldLazyBindSymbol rel relModule relMem 0 = .ok 0x5000) ∧
    (rela relaMem 0x1100 = .ok (some 0) ∧
      (resolveSymbols rela relaModule env 3 false ⟨0,relaMem⟩).map
        (fun s => s.mem.read64 0x2018) = .ok 8 ∧
      rtldLazyBindSymbol rela relaModule relaMem 0 = .ok 0) :=
  ⟨⟨rfl,rfl,rfl⟩,rfl,rfl,rfl⟩

end Zeldar.Rtld
