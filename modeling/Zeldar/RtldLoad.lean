import Zeldar.RtldResolve

namespace Zeldar.Rtld

/-- The counts that a dynamic table states; what it does not state is zero. -/
def statedCounts (ds : List Dyn) : Counts :=
  countsOf ((stated ds dtRelCount).getD 0) ((stated ds dtRelaCount).getD 0) (statedSizes ds)

/-- An object without its links to other objects. -/
def ModuleObject.unlinked (o : ModuleObject) : ModuleObject := { o with next := 0, prev := 0 }

/-- The loops of `Relocate` and `ResolveSymbols` end, and run over the counts. -/
structure RunsOver (o : ModuleObject) (c : Counts) : Prop where
  relocate : ∀ m, ∃ n, ∀ fuel, n ≤ fuel → relocate fuel o m = relocateOver o c m
  resolve : ∀ resolve env doLazyGotInit s, ∃ n, ∀ fuel, n ≤ fuel →
    resolveSymbols resolve o env fuel doLazyGotInit s = resolveOver resolve o env c doLazyGotInit s

section Loads
variable (m : Mem) (aslrBase dynamic : Addr) (ds : List Dyn)

/-- The object that was loaded, for every number of steps that suffices. -/
def LoadsAs (o r : ModuleObject) : Prop :=
  ∀ fuel, ds.length+1 ≤ fuel → initializeObject m fuel aslrBase dynamic o = .ok r

structure Loads : Prop where
  completes : ∀ o, ∃ r, LoadsAs m aslrBase dynamic ds o r
  independent : ∀ o₁ o₂ r₁ r₂, LoadsAs m aslrBase dynamic ds o₁ r₁ →
    LoadsAs m aslrBase dynamic ds o₂ r₂ → r₁.unlinked = r₂.unlinked
  runs : ∀ o r, LoadsAs m aslrBase dynamic ds o r → RunsOver r (statedCounts ds)

/-- The table leaves no count and no hash table out, does not state the size of
a `RELA` entry, and its counts fit the 32 bits of the indices. -/
structure Complete : Prop where
  relaEnt : ∀ d ∈ ds, d.tag ≠ dtRelaEnt
  relCount : ∃ d ∈ ds, d.tag = dtRelCount
  relaCount : ∃ d ∈ ds, d.tag = dtRelaCount
  hash : ∃ d ∈ ds, d.tag = dtHash
  relCount_lt : (statedCounts ds).relCount < 2^32
  relaCount_lt : (statedCounts ds).relaCount < 2^32
  pltEntries_lt : (statedCounts ds).pltEntries < 2^32

end Loads

theorem getD_stated {ds : List Dyn} {tag : BitVec 64} (hin : ∃ d ∈ ds, d.tag = tag) {α : Type}
    (f : BitVec 64 → α) (x y : α) :
    ((stated ds tag).map f).getD x = ((stated ds tag).map f).getD y := by
  obtain ⟨v,hv⟩ := Option.isSome_iff_exists.mp (stated_isSome_iff.mpr hin)
  rw [hv]
  rfl

/-- A default that differs shows in the result unless the tag is there. -/
theorem stated_of_getD_eq {ds : List Dyn} {tag : BitVec 64} {α : Type} {f : BitVec 64 → α}
    {x y : α} (hxy : x ≠ y) (heq : ((stated ds tag).map f).getD x = ((stated ds tag).map f).getD y) :
    ∃ d ∈ ds, d.tag = tag := by
  rw [← stated_isSome_iff]
  cases hv : stated ds tag with
  | none =>
    rw [hv] at heq
    exact absurd heq hxy
  | some v => rfl

/-- An object whose counts are all 1. -/
def ModuleObject.ones : ModuleObject :=
  { ModuleObject.blank with
    relCount := 1
    relaCount := 1
    hashNchainValue := 1
    hashNbucketValue := 1 }

/-- The loops of an object whose counts fit the indices run over these counts. -/
theorem runsOver_counts {o : ModuleObject} (h1 : o.counts.relCount < 2^32)
    (h2 : o.counts.relaCount < 2^32) (h3 : o.counts.pltEntries < 2^32) : RunsOver o o.counts where
  relocate m := ⟨2^32,fun _ hfuel => relocate_eq h1 h2 hfuel m⟩
  resolve _ env doLazyGotInit s :=
    ⟨2^64,fun _ hfuel => resolveSymbols_eq env h3 hfuel doLazyGotInit s⟩

/-- The loops end over no counts but those that fit. -/
theorem RunsOver.lt {o : ModuleObject} {c : Counts} (hr : RunsOver o c) :
    o.counts.relCount < 2^32 ∧ o.counts.relaCount < 2^32 ∧ o.counts.pltEntries < 2^32 := by
  obtain ⟨n,hn⟩ := hr.relocate zeroMem
  obtain ⟨m',hm'⟩ := @relocateOver_ok o c zeroMem
  have hrel := relocate_ok ((hn n le_rfl).trans hm')
  obtain ⟨n,hn⟩ := hr.resolve (fun _ _ => .ok none) ⟨0,0⟩ false ⟨0,zeroMem⟩
  have hplt := resolveSymbols_ok ⟨0,0⟩ (Nat.le_max_right n (2^64))
    ((hn _ (Nat.le_max_left n (2^64))).trans (resolveOver_zeroMem ⟨0,0⟩ c false 0))
  exact ⟨hrel.1,hrel.2,hplt⟩

section Load
variable {m : Mem} {aslrBase dynamic : Addr} {ds : List Dyn} (h : DynamicAt m dynamic ds)
  (hwf : ∀ d ∈ ds, EntryWf d)

/-- The part of the result that the old object has no part in. -/
def Reads (m : Mem) (aslrBase dynamic : Addr) (ds : List Dyn) (s : Loading) : Prop :=
  ds.foldlM (Loading.entry m aslrBase) ⟨ModuleObject.blank.reset aslrBase dynamic,0⟩ = .ok s

/-- The result for an old object. -/
def loaded (m : Mem) (aslrBase : Addr) (ds : List Dyn) (s : Loading) (o : ModuleObject) :
    ModuleObject :=
  (s.withKept (ds.foldl (Kept.entry m aslrBase) o.kept)).finish

theorem loaded_eq (s : Loading) (o : ModuleObject) :
    loaded m aslrBase ds s o =
      { s.object with
        next := o.next
        prev := o.prev
        relaOrRelPlt := s.relPlt
        relCount := (stated ds dtRelCount).getD o.relCount
        relaCount := (stated ds dtRelaCount).getD o.relaCount
        hashNchainValue := ((stated ds dtHash).map fun v =>
          (m.read32 (aslrBase+v+4)).setWidth 64).getD o.hashNchainValue
        hashNbucketValue := ((stated ds dtHash).map fun v =>
          (m.read32 (aslrBase+v)).setWidth 64).getD o.hashNbucketValue } := by
  rw [loaded, foldl_kept]
  rfl

theorem counts_loaded {s : Loading} (hs : Reads m aslrBase dynamic ds s) (o : ModuleObject) :
    (loaded m aslrBase ds s o).counts =
      countsOf ((stated ds dtRelCount).getD o.relCount) ((stated ds dtRelaCount).getD o.relaCount)
        (statedSizes ds) := by
  have hsizes := sizes_foldlM hs
  have hblank : (ModuleObject.blank.reset aslrBase dynamic).sizes = ⟨0,false,0,0⟩ := rfl
  rw [hblank, foldl_sizes] at hsizes
  rw [loaded_eq, ModuleObject.counts, ← hsizes]
  rfl

include h

theorem loadsAs_iff {s : Loading} (hs : Reads m aslrBase dynamic ds s) (o r : ModuleObject) :
    LoadsAs m aslrBase dynamic ds o r ↔ r = loaded m aslrBase ds s o := by
  have heq : ∀ fuel, ds.length+1 ≤ fuel →
      initializeObject m fuel aslrBase dynamic o = .ok (loaded m aslrBase ds s o) := by
    intro fuel hfuel
    rw [initializeObject_eq h hfuel, hs]
    rfl
  constructor
  · intro hl
    have he := (hl _ le_rfl).symm.trans (heq _ le_rfl)
    exact Except.ok.inj he
  · intro hr fuel hfuel
    rw [heq fuel hfuel, hr]

include hwf

/-- The table can be read unless it states the size of a `RELA` entry. -/
theorem loadsAs_exists_iff (o : ModuleObject) :
    (∃ r, LoadsAs m aslrBase dynamic ds o r) ↔ ∀ d ∈ ds, d.tag ≠ dtRelaEnt := by
  rw [← @foldlM_ok_iff m aslrBase ds hwf ⟨ModuleObject.blank.reset aslrBase dynamic,0⟩]
  constructor
  · rintro ⟨r,hr⟩
    have heq := hr _ le_rfl
    rw [initializeObject_eq h le_rfl] at heq
    cases hs : ds.foldlM (Loading.entry m aslrBase)
        ⟨ModuleObject.blank.reset aslrBase dynamic,0⟩ with
    | error e =>
      rw [hs] at heq
      cases heq
    | ok s => exact ⟨s,rfl⟩
  · rintro ⟨s,hs⟩
    exact ⟨_,(loadsAs_iff h hs o _).mpr rfl⟩

theorem Loads.complete (hl : Loads m aslrBase dynamic ds) : Complete ds := by
  obtain ⟨r,hr⟩ := hl.completes ModuleObject.blank
  have hrelaEnt := (loadsAs_exists_iff h hwf ModuleObject.blank).mp ⟨r,hr⟩
  obtain ⟨s,hs⟩ := (@foldlM_ok_iff m aslrBase ds hwf
    ⟨ModuleObject.blank.reset aslrBase dynamic,0⟩).mpr hrelaEnt
  have hload : ∀ o, LoadsAs m aslrBase dynamic ds o (loaded m aslrBase ds s o) := fun o =>
    (loadsAs_iff h hs o _).mpr rfl
  -- the two results would differ where the table says nothing
  have heq := hl.independent _ _ _ _ (hload ModuleObject.blank) (hload ModuleObject.ones)
  rw [loaded_eq, loaded_eq] at heq
  have hone : (0:BitVec 64) ≠ 1 := by decide
  have hruns := (hl.runs _ _ (hload ModuleObject.blank)).lt
  rw [counts_loaded hs] at hruns
  have hrelCount : (stated ds dtRelCount).getD (0:BitVec 64) = (stated ds dtRelCount).getD 1 :=
    congrArg ModuleObject.relCount heq
  have hrelaCount : (stated ds dtRelaCount).getD (0:BitVec 64) = (stated ds dtRelaCount).getD 1 :=
    congrArg ModuleObject.relaCount heq
  refine ⟨hrelaEnt,?_,?_,?_,hruns.1,hruns.2.1,hruns.2.2⟩
  · exact stated_of_getD_eq (f := id) hone (by rwa [Option.map_id])
  · exact stated_of_getD_eq (f := id) hone (by rwa [Option.map_id])
  · exact stated_of_getD_eq hone (congrArg ModuleObject.hashNbucketValue heq)

theorem Complete.loads (hc : Complete ds) : Loads m aslrBase dynamic ds := by
  obtain ⟨s,hs⟩ := (@foldlM_ok_iff m aslrBase ds hwf
    ⟨ModuleObject.blank.reset aslrBase dynamic,0⟩).mpr hc.relaEnt
  -- what the table states does not depend on what stood in the object
  have hrel : ∀ x y, (stated ds dtRelCount).getD x = (stated ds dtRelCount).getD y := by
    intro x y
    have hg := getD_stated hc.relCount id x y
    rwa [Option.map_id] at hg
  have hrela : ∀ x y, (stated ds dtRelaCount).getD x = (stated ds dtRelaCount).getD y := by
    intro x y
    have hg := getD_stated hc.relaCount id x y
    rwa [Option.map_id] at hg
  refine ⟨fun o => ⟨_,(loadsAs_iff h hs o _).mpr rfl⟩,fun o₁ o₂ r₁ r₂ h₁ h₂ => ?_,fun o r hr => ?_⟩
  · rw [(loadsAs_iff h hs o₁ r₁).mp h₁, (loadsAs_iff h hs o₂ r₂).mp h₂, loaded_eq, loaded_eq,
      hrel o₁.relCount o₂.relCount, hrela o₁.relaCount o₂.relaCount,
      getD_stated hc.hash _ o₁.hashNchainValue o₂.hashNchainValue,
      getD_stated hc.hash _ o₁.hashNbucketValue o₂.hashNbucketValue]
    rfl
  · have hcounts : r.counts = statedCounts ds := by
      rw [(loadsAs_iff h hs o r).mp hr, counts_loaded hs, hrel o.relCount 0, hrela o.relaCount 0]
      rfl
    rw [← hcounts]
    apply runsOver_counts
    · rw [hcounts]
      exact hc.relCount_lt
    · rw [hcounts]
      exact hc.relaCount_lt
    · rw [hcounts]
      exact hc.pltEntries_lt

end Load

/-- A dynamic table is loaded as it says, whatever the object held before, if and
only if it has none of the entries that fail and all of those that are not
defaulted, and its counts fit. -/
theorem loads_iff {m : Mem} {aslrBase dynamic : Addr} {ds : List Dyn}
    (h : DynamicAt m dynamic ds) (hwf : ∀ d ∈ ds, EntryWf d) :
    Loads m aslrBase dynamic ds ↔ Complete ds :=
  ⟨Loads.complete h hwf,Complete.loads h hwf⟩

/-- Five entries of a module without a hash table, then `DT_NULL`. -/
def smallTable : List Dyn :=
  [⟨dtRelaEnt,24⟩,⟨dtRela,0x2000⟩,⟨dtRelaSz,48⟩,⟨dtRelaCount,1⟩,⟨dtRelCount,0⟩]

def smallTableMem : Mem :=
  overlay zeroMem 0x1000
    [9,0,24,0,7,0,0x2000,0,8,0,48,0,0x6ffffff9,0,1,0,0x6ffffffa,0,0,0]

theorem smallTable_at : DynamicAt smallTableMem 0x1000 smallTable :=
  ⟨by decide,rfl,by decide,rfl,by decide,rfl,by decide,rfl,by decide,rfl,rfl⟩

theorem smallTable_wf : ∀ d ∈ smallTable, EntryWf d := by decide

theorem not_complete_small : ¬Complete smallTable := fun hc =>
  hc.relaEnt _ List.mem_cons_self rfl

/-- A module with a hash table, two PLT entries, and `RELA` entries without their size. -/
def fullTable : List Dyn :=
  [⟨dtHash,0x300⟩,⟨dtStrTab,0x400⟩,⟨dtSymTab,0x500⟩,⟨dtSymEnt,24⟩,⟨dtRela,0x2000⟩,⟨dtRelaSz,72⟩,
    ⟨dtRelaCount,1⟩,⟨dtRelCount,0⟩,⟨dtPltRel,7⟩,⟨dtPltRelSz,48⟩,⟨dtJmpRel,0x2048⟩]

def fullTableMem : Mem :=
  overlay zeroMem 0x1000
    [4,0,0x300,0,5,0,0x400,0,6,0,0x500,0,11,0,24,0,7,0,0x2000,0,8,0,72,0,0x6ffffff9,0,1,0,
      0x6ffffffa,0,0,0,20,0,7,0,2,0,48,0,23,0,0x2048,0]

theorem fullTable_at : DynamicAt fullTableMem 0x1000 fullTable := by
  unfold fullTable
  repeat' constructor
  all_goals decide

theorem fullTable_complete : Complete fullTable :=
  ⟨by decide,by decide,by decide,by decide,by decide,by decide,by decide⟩

/-- The table without gaps is loaded, the one with the size of its entries is not. -/
theorem loads_iff_full :
    Loads fullTableMem 0x80000 0x1000 fullTable ∧ ¬Loads smallTableMem 0x80000 0x1000 smallTable :=
  ⟨(loads_iff fullTable_at (by decide)).mpr fullTable_complete,
    mt (loads_iff smallTable_at smallTable_wf).mp not_complete_small⟩

/-- The first entry is right and fails its assertion. From the table that ends at
once, what an object held before comes back as counts and hash sizes. -/
theorem not_loads_small :
    (∀ d ∈ smallTable, EntryWf d) ∧ DynamicAt smallTableMem 0x1000 smallTable ∧
    initializeObject smallTableMem 6 0x80000 0x1000 ModuleObject.blank = .error .assertion ∧
    ¬Loads smallTableMem 0x80000 0x1000 smallTable ∧
    DynamicAt smallTableMem 0x1050 [] ∧
    (initializeObject smallTableMem 1 0x80000 0x1050 ModuleObject.ones).map
        (fun o => (o.relCount,o.relaCount,o.hashNchainValue,o.hashNbucketValue)) = .ok (1,1,1,1) ∧
    ¬Loads smallTableMem 0x80000 0x1050 [] := by
  have hnil : DynamicAt smallTableMem 0x1050 [] := rfl
  refine ⟨smallTable_wf,smallTable_at,rfl,fun hl => ?_,hnil,rfl,fun hl => ?_⟩
  · exact not_complete_small (hl.complete smallTable_at smallTable_wf)
  · obtain ⟨d,hd,-⟩ := (hl.complete hnil (fun d hd => absurd hd List.not_mem_nil)).relCount
    exact absurd hd List.not_mem_nil

end Zeldar.Rtld
