import Zeldar.ElfReloc
import Zeldar.RtldLoad

/-! There are two relocators: `exl_dynamic`, which reads the dynamic table itself, and
`Relocate`, which works on what `Initialize` has read. On a table that has entries of
one kind and counts them they leave the same memory, if no count is left from before. -/
namespace Zeldar.Rtld

/-- What `Initialize` tells `Relocate` of the place of the entries. -/
structure Tables where
  moduleBase : Addr
  relaOrRel : Addr
  deriving DecidableEq, Repr

def ModuleObject.tables (o : ModuleObject) : Tables := ⟨o.moduleBase,o.relaOrRel⟩

/-- The two pointers are members of one union. -/
def Tables.entry (aslrBase : Addr) (t : Tables) (d : Dyn) : Tables :=
  if d.tag = dtRel then { t with relaOrRel := aslrBase+d.val }
  else if d.tag = dtRela then { t with relaOrRel := aslrBase+d.val }
  else t

def otherKind : RelocKind → RelocKind
  | .rel => .rela
  | .rela => .rel

/-- The count of relative entries of a kind. -/
def ModuleObject.count (o : ModuleObject) : RelocKind → BitVec 64
  | .rel => o.relCount
  | .rela => o.relaCount

/-- The counts that the table does not state are zero in the object, as they are in one that was
cleared with the BSS. -/
def CountsStated (ds : List Dyn) (o : ModuleObject) : Prop :=
  ∀ k : RelocKind, (∃ d ∈ ds, d.tag = k.countTag) ∨ o.count k = 0

/-- The table describes entries of one kind only, and their count fits 32 bits. -/
structure OneKind (ds : List Dyn) (kind : RelocKind) : Prop where
  table : ∀ d ∈ ds, d.tag ≠ (otherKind kind).tableTag
  otherCount : (otherKind kind).relativeCount ds = 0
  otherSize : (otherKind kind).tableSize ds = 0
  count_lt : (kind.relativeCount ds).toNat < 2^32

/-- The number of entries that `exl_dynamic` goes over: without a count, as many as there are in
the table. -/
def exlCount (ds : List Dyn) (kind : RelocKind) : BitVec 64 :=
  if kind.relativeCount ds = 0 then kind.tableSize ds/BitVec.ofNat 64 kind.size
  else kind.relativeCount ds

section Read
variable {m : Mem} {aslrBase dynamic : Addr} {ds : List Dyn}

theorem tables_entry (s : Loading) (d : Dyn) :
    IfOk (fun s' => s'.object.tables = s.object.tables.entry aslrBase d)
      (s.entry m aslrBase d) := by
  by_cases h1 : d.tag = dtRel
  · simp +decide only [Loading.entry, Tables.entry, h1, ↓reduceIte]
    exact ifOk_ok rfl
  · by_cases h2 : d.tag = dtRela
    · simp +decide only [Loading.entry, Tables.entry, h2, ↓reduceIte]
      exact ifOk_ok rfl
    · -- the other entries set other fields, or fail
      rw [Tables.entry, if_neg h1, if_neg h2, Loading.entry]
      repeat' (apply ifOk_ite <;> intro htag)
      all_goals first
        | exact ifOk_ok rfl
        | exact ifOk_map _ rfl
        | contradiction

theorem tables_foldlM {s s' : Loading} (h : ds.foldlM (Loading.entry m aslrBase) s = .ok s') :
    s'.object.tables = ds.foldl (Tables.entry aslrBase) s.object.tables := by
  induction ds generalizing s with
  | nil =>
    cases h
    rfl
  | cons d ds ih =>
    rw [List.foldlM_cons] at h
    obtain ⟨s₁,hs₁,hrest⟩ := bind_ok h
    rw [ih hrest, List.foldl_cons, tables_entry s d s₁ hs₁]

/-- Without a table of the other kind the pointer is that of the kind. -/
theorem foldl_tables {kind : RelocKind} (hother : ∀ d ∈ ds, d.tag ≠ (otherKind kind).tableTag)
    (t : Tables) :
    ds.foldl (Tables.entry aslrBase) t =
      { t with
        relaOrRel := ((stated ds kind.tableTag).map (aslrBase+·)).getD t.relaOrRel } := by
  induction ds using List.reverseRecOn with
  | nil => rfl
  | append_singleton ds d ih =>
    rw [List.foldl_concat, ih fun e he => hother e (List.mem_append_left _ he), stated_concat]
    have hd := hother d List.mem_concat_self
    cases kind with
    | rel =>
      change d.tag ≠ dtRela at hd
      by_cases h : d.tag = dtRel
      · simp +decide only [Tables.entry, RelocKind.tableTag, h, ↓reduceIte, Option.map_some,
          Option.getD_some]
      · simp only [Tables.entry, RelocKind.tableTag, h, hd, ↓reduceIte]
    | rela =>
      change d.tag ≠ dtRel at hd
      by_cases h : d.tag = dtRela
      · simp +decide only [Tables.entry, RelocKind.tableTag, h, ↓reduceIte, Option.map_some,
          Option.getD_some]
      · simp only [Tables.entry, RelocKind.tableTag, h, hd, ↓reduceIte]

theorem stated_eq_dynLookup (hnodup : (ds.map Dyn.tag).Nodup) (tag : BitVec 64) :
    stated ds tag = dynLookup ds tag :=
  (dynLookup_perm (List.reverse_perm ds).symm hnodup tag).symm

theorem getD_of_stated {tag x : BitVec 64} (h : (∃ d ∈ ds, d.tag = tag) ∨ x = 0) :
    (stated ds tag).getD x = (stated ds tag).elim 0 id := by
  cases hv : stated ds tag with
  | some v => rfl
  | none =>
    rcases h with h | rfl
    · rw [← stated_isSome_iff, hv] at h
      cases h
    · rfl

/-- The object that `Initialize` leaves has the base, the pointer and the counts of the table. -/
theorem loadsAs_tables (hdyn : DynamicAt m dynamic ds) (hnodup : (ds.map Dyn.tag).Nodup)
    (hwf : ∀ d ∈ ds, EntryWf d) {kind : RelocKind} (hone : OneKind ds kind) {o r : ModuleObject}
    (hcounts : CountsStated ds o) (hl : LoadsAs m aslrBase dynamic ds o r) :
    r.moduleBase = aslrBase ∧ r.relaOrRel = kind.tableAddr aslrBase ds ∧
      r.relCount = RelocKind.rel.relativeCount ds ∧
      r.relaCount = RelocKind.rela.relativeCount ds := by
  have hent := (loadsAs_exists_iff hdyn hwf o).mp ⟨r,hl⟩
  obtain ⟨s,hs⟩ := (@foldlM_ok_iff m aslrBase ds hwf
    ⟨ModuleObject.blank.reset aslrBase dynamic,0⟩).mpr hent
  obtain rfl := (loadsAs_iff hdyn hs o r).mp hl
  have htables := tables_foldlM hs
  rw [foldl_tables hone.table] at htables
  have hbase := congrArg Tables.moduleBase htables
  have hptr := congrArg Tables.relaOrRel htables
  rw [loaded_eq]
  refine ⟨hbase,hptr.trans ?_,?_,?_⟩
  · rw [stated_eq_dynLookup hnodup, RelocKind.tableAddr]
    cases dynLookup ds kind.tableTag <;> rfl
  · refine (getD_of_stated (hcounts .rel)).trans ?_
    rw [stated_eq_dynLookup hnodup]
    rfl
  · refine (getD_of_stated (hcounts .rela)).trans ?_
    rw [stated_eq_dynLookup hnodup]
    rfl

end Read

section Loops
variable {m : Mem} {aslrBase dynamic : Addr} {ds : List Dyn}

theorem foldlM_apply {w : ℕ} {body : BitVec w → Mem → Except Halt Mem} {at_ : ℕ → ElfEntry}
    {ks : List ℕ} (h : ∀ k ∈ ks, ∀ m, body (BitVec.ofNat w k) m = .ok ((at_ k).apply m aslrBase)) :
    ks.foldlM (fun m k => body (BitVec.ofNat w k) m) m =
      .ok ((ks.map at_).foldl (fun m e => e.apply m aslrBase) m) := by
  induction ks generalizing m with
  | nil => rfl
  | cons k ks ih =>
    rw [List.foldlM_cons, h k List.mem_cons_self]
    exact ih fun j hj => h j (List.mem_cons_of_mem _ hj)

/-- The body of the loop of `Relocate` over the entries of a kind. -/
def relocateBody (o : ModuleObject) : RelocKind → BitVec 32 → Mem → Except Halt Mem
  | .rel => relocateRel o
  | .rela => relocateRela o

theorem relocateBody_eq (o : ModuleObject) (kind : RelocKind) (i : BitVec 32) (m : Mem) :
    relocateBody o kind i m = .ok (ElfEntry.apply m o.moduleBase
      ⟨kind,entryAt o.relaOrRel kind.size (i.setWidth 64)⟩) := by
  cases kind <;> rfl

/-- The loop applies the entries of the table, one after another. -/
theorem relocate_loop {o : ModuleObject} {kind : RelocKind} (hbase : o.moduleBase = aslrBase)
    (htable : o.relaOrRel = kind.tableAddr aslrBase ds)
    (hstride : kind.stride ds = BitVec.ofNat 64 kind.size) {n : ℕ} (hn : n < 2^32) :
    overRange (relocateBody o kind) 0 n m =
      .ok ((kind.entries aslrBase ds n).foldl (fun m e => e.apply m aslrBase) m) := by
  rw [overRange, RelocKind.entries, Nat.sub_zero, ← List.range_eq_range']
  apply foldlM_apply
  intro k hk m
  have hk32 : k < 2^32 := (List.mem_range.mp hk).trans hn
  have hwidth : (BitVec.ofNat 32 k).setWidth 64 = BitVec.ofNat 64 k := by bv_omega
  rw [relocateBody_eq, hwidth, hbase, htable, hstride, entryAt]

theorem mem_of_dynLookup {tag v : BitVec 64} (h : dynLookup ds tag = some v) :
    ∃ d ∈ ds, d.tag = tag ∧ d.val = v := by
  induction ds with
  | nil => cases h
  | cons d ds ih =>
    rw [dynLookup] at h
    split at h
    · exact ⟨d,List.mem_cons_self,‹_›,Option.some.inj h⟩
    · obtain ⟨e,he,hv⟩ := ih h
      exact ⟨e,List.mem_cons_of_mem _ he,hv⟩

/-- The sizes of the entries that the table states are those of the structures. -/
theorem stride_of_wf (hwf : ∀ d ∈ ds, EntryWf d) (kind : RelocKind) :
    kind.stride ds = BitVec.ofNat 64 kind.size := by
  rw [RelocKind.stride]
  cases h : dynLookup ds kind.entTag with
  | none => rfl
  | some v =>
    obtain ⟨d,hd,htag,rfl⟩ := mem_of_dynLookup h
    cases kind with
    | rel => exact (hwf d hd).relEnt htag
    | rela => exact (hwf d hd).relaEnt htag

theorem entryCount_eq (hwf : ∀ d ∈ ds, EntryWf d) (kind : RelocKind) :
    entryCount (kind.relativeCount ds) (kind.tableSize ds) (kind.stride ds) =
      some (exlCount ds kind) := by
  have hne : BitVec.ofNat 64 kind.size ≠ 0 := by cases kind <;> decide
  rw [entryCount, exlCount, stride_of_wf hwf, if_neg hne]
  split <;> rfl

theorem OneKind.exlCount_other {kind : RelocKind} (hone : OneKind ds kind) :
    exlCount ds (otherKind kind) = 0 := by
  rw [exlCount, if_pos hone.otherCount, hone.otherSize]
  cases kind <;> rfl

/-- With no entries of the other kind, all entries are those of the kind. -/
theorem allEntries_eq {kind : RelocKind} {n : RelocKind → ℕ} (hn : n (otherKind kind) = 0) :
    allEntries aslrBase ds n = kind.entries aslrBase ds (n kind) := by
  cases kind with
  | rel =>
    change n .rela = 0 at hn
    rw [allEntries, hn]
    exact List.append_nil _
  | rela =>
    change n .rel = 0 at hn
    rw [allEntries, hn]
    rfl

/-- Relocating changes nothing exactly if the slots hold already what they are to hold. -/
theorem relocated_eq_iff {m' : Mem} {es : List ElfEntry} (h : Relocated m m' aslrBase es) :
    m = m' ↔ ∀ e ∈ es, e.IsRelative m →
      m.read64 (e.slot m aslrBase) = e.value m aslrBase := by
  constructor
  · rintro rfl
    exact h.slots
  · intro hsame
    funext x
    by_cases hx : ∀ e ∈ es, e.IsRelative m → 8 ≤ (x-e.slot m aslrBase).toNat
    · exact (h.frame x hx).symm
    · push Not at hx
      obtain ⟨e,he,hr,hlt⟩ := hx
      exact Mem.eq_of_read64 ((hsame e he hr).trans (h.slots e he hr).symm) hlt

/-- The loops of `Relocate` apply the entries that `exl_dynamic` applies. -/
theorem relocateOver_entries (hwf : ∀ d ∈ ds, EntryWf d) {kind : RelocKind}
    (hone : OneKind ds kind) {o : ModuleObject} (hbase : o.moduleBase = aslrBase)
    (htable : o.relaOrRel = kind.tableAddr aslrBase ds)
    (hrel : o.relCount = RelocKind.rel.relativeCount ds)
    (hrela : o.relaCount = RelocKind.rela.relativeCount ds) :
    relocateOver o o.counts m = .ok ((allEntries aslrBase ds fun k =>
      (RelocKind.relativeCount k ds).toNat).foldl (fun m e => e.apply m aslrBase) m) := by
  have hloop := @relocate_loop m aslrBase ds o kind hbase htable (stride_of_wf hwf kind) _
    hone.count_lt
  have hcounts : o.counts.relCount = (RelocKind.rel.relativeCount ds).toNat ∧
      o.counts.relaCount = (RelocKind.rela.relativeCount ds).toNat :=
    ⟨congrArg BitVec.toNat hrel,congrArg BitVec.toNat hrela⟩
  have hother := hone.otherCount
  -- the loop over the other kind is empty on both sides
  rw [relocateOver, hcounts.1, hcounts.2, allEntries, List.foldl_append]
  cases kind with
  | rel =>
    change RelocKind.rela.relativeCount ds = 0 at hother
    rw [hother]
    change (overRange (relocateBody o .rel) 0 _ m >>= fun m => .ok m) = _
    rw [hloop]
    rfl
  | rela =>
    change RelocKind.rel.relativeCount ds = 0 at hother
    rw [hother]
    exact hloop

end Loops

/-- A module that `Initialize` has read: `Relocate` relocates the entries that the table counts,
`exl_dynamic` all entries where it counts none. They leave the same memory exactly if there is a
count, or nothing to do for the entries. -/
theorem relocate_exl_dynamic {m : Mem} {aslrBase dynamic : Addr} {ds : List Dyn} {kind : RelocKind}
    (hdyn : DynamicAt m dynamic ds) (hnodup : (ds.map Dyn.tag).Nodup)
    (hwf : ∀ d ∈ ds, EntryWf d) (hone : OneKind ds kind)
    (hsep : Separate m aslrBase (kind.entries aslrBase ds (exlCount ds kind).toNat))
    {o r : ModuleObject} (hcounts : CountsStated ds o) (hl : LoadsAs m aslrBase dynamic ds o r)
    {fuel : ℕ} (hfuel : 2^32 ≤ fuel) (hlength : ds.length+1 ≤ fuel) :
    ∃ m₁ m₂, relocate fuel r m = .ok m₁ ∧ exlDynamic fuel aslrBase dynamic m = some m₂ ∧
      Relocated m m₁ aslrBase (kind.entries aslrBase ds (kind.relativeCount ds).toNat) ∧
      Relocated m m₂ aslrBase (kind.entries aslrBase ds (exlCount ds kind).toNat) ∧
      (m₁ = m₂ ↔ kind.relativeCount ds ≠ 0 ∨
        ∀ e ∈ kind.entries aslrBase ds (exlCount ds kind).toNat, e.IsRelative m →
          m.read64 (e.slot m aslrBase) = e.value m aslrBase) := by
  obtain ⟨hbase,htable,hrel,hrela⟩ := loadsAs_tables hdyn hnodup hwf hone hcounts hl
  have hother : (RelocKind.relativeCount (otherKind kind) ds).toNat = 0 :=
    congrArg BitVec.toNat hone.otherCount
  have hotherExl : (exlCount ds (otherKind kind)).toNat = 0 :=
    congrArg BitVec.toNat hone.exlCount_other
  -- the counter of `Relocate` has 32 bits, which is enough for both counts
  have hlt : ∀ k : RelocKind, (k.relativeCount ds).toNat < 2^32 := by
    intro k
    have hlt := hone.count_lt
    cases kind <;> cases k
    · exact hlt
    · exact hother ▸ (by decide)
    · exact hother ▸ (by decide)
    · exact hlt
  have hrun : relocate fuel r m = .ok ((kind.entries aslrBase ds
      (kind.relativeCount ds).toNat).foldl (fun m e => e.apply m aslrBase) m) := by
    rw [relocate_eq (by rw [hrel]; exact hlt .rel) (by rw [hrela]; exact hlt .rela) hfuel,
      relocateOver_entries hwf hone hbase htable hrel hrela, allEntries_eq hother]
  have hexl := @exlDynamic_eq m aslrBase dynamic ds fuel hnodup _ (entryCount_eq hwf) ds
    (List.Perm.refl ds) hdyn hlength
  rw [allEntries_eq hotherExl] at hexl
  have hdone := hsep.relocated
  by_cases hcount : kind.relativeCount ds = 0
  · -- `Relocate` has no entry to go over
    have hnone : kind.entries aslrBase ds (kind.relativeCount ds).toNat = [] := by
      rw [hcount]
      rfl
    rw [hnone] at hrun
    refine ⟨_,_,hrun,hexl,?_,hdone,?_⟩
    · rw [hnone]
      exact ⟨nofun,fun _ _ => rfl⟩
    · rw [List.foldl_nil, relocated_eq_iff hdone]
      exact ⟨Or.inr,fun h => h.resolve_left (not_not_intro hcount)⟩
  · have heq : exlCount ds kind = kind.relativeCount ds := if_neg hcount
    rw [heq] at hexl hdone ⊢
    exact ⟨_,_,hrun,hexl,hdone,hdone,iff_of_true rfl (Or.inl hcount)⟩

/-- The table of a module at 0x10000 with two `RELA` entries, of which it counts `count`. -/
def relaTable (count : BitVec 64) : List Dyn := [⟨dtRela,0x100⟩,⟨dtRelaSz,48⟩,⟨dtRelaCount,count⟩]

def countedMem (count : Word) : Mem :=
  overlay (overlay zeroMem 0x1000 [7,0,0x100,0,8,0,48,0,0x6ffffff9,0,count,0])
    0x10100 [0x200,0,1027,0,0x30,0,0x208,0,1027,0,0x40,0]

theorem relaTable_at : DynamicAt (countedMem 2) 0x1000 (relaTable 2) ∧
    DynamicAt (countedMem 0) 0x1000 (relaTable 0) :=
  ⟨⟨by decide,rfl,by decide,rfl,by decide,rfl,rfl⟩,⟨by decide,rfl,by decide,rfl,by decide,rfl,rfl⟩⟩

theorem relaTable_oneKind : OneKind (relaTable 2) .rela ∧ OneKind (relaTable 0) .rela :=
  ⟨⟨by decide,rfl,rfl,by decide⟩,⟨by decide,rfl,rfl,by decide⟩⟩

theorem countedMem_separate : Separate (countedMem 2) 0x10000 [⟨.rela,0x10100⟩,⟨.rela,0x10118⟩] ∧
    Separate (countedMem 0) 0x10000 [⟨.rela,0x10100⟩,⟨.rela,0x10118⟩] :=
  ⟨⟨by decide,by decide⟩,⟨by decide,by decide⟩⟩

/-- With the count both relocate the two entries, without it only `exl_dynamic` does. -/
theorem relocate_exl_dynamic_two :
    (∃ r m', LoadsAs (countedMem 2) 0x10000 0x1000 (relaTable 2) .blank r ∧
      relocate (2^32) r (countedMem 2) = .ok m' ∧
      exlDynamic (2^32) 0x10000 0x1000 (countedMem 2) = some m' ∧
      m'.read64 0x10200 = 0x10030 ∧ m'.read64 0x10208 = 0x10040) ∧
    ∃ r m₁ m₂, LoadsAs (countedMem 0) 0x10000 0x1000 (relaTable 0) .blank r ∧
      relocate (2^32) r (countedMem 0) = .ok m₁ ∧
      exlDynamic (2^32) 0x10000 0x1000 (countedMem 0) = some m₂ ∧ m₁ ≠ m₂ ∧
      m₂.read64 0x10200 = 0x10030 ∧ m₂.read64 0x10208 = 0x10040 := by
  obtain ⟨hat2,hat0⟩ := relaTable_at
  obtain ⟨hone2,hone0⟩ := relaTable_oneKind
  obtain ⟨hsep2,hsep0⟩ := countedMem_separate
  have hwf2 : ∀ d ∈ relaTable 2, EntryWf d := by decide
  have hwf0 : ∀ d ∈ relaTable 0, EntryWf d := by decide
  constructor
  · obtain ⟨r,hr⟩ := (loadsAs_exists_iff hat2 hwf2 .blank).mpr (by decide)
    obtain ⟨m₁,m₂,hrun,hexl,hdone,-,hiff⟩ := relocate_exl_dynamic hat2 (by decide) hwf2 hone2 hsep2
      (fun k => Or.inr (by cases k <;> rfl)) hr (le_refl (2^32)) (by decide)
    obtain rfl := hiff.mpr (Or.inl (by decide))
    exact ⟨r,m₁,hr,hrun,hexl,hdone.slots ⟨.rela,0x10100⟩ (by decide) (by decide),
      hdone.slots ⟨.rela,0x10118⟩ (by decide) (by decide)⟩
  -- nothing is counted, but two entries fit the size
  · obtain ⟨r,hr⟩ := (loadsAs_exists_iff hat0 hwf0 .blank).mpr (by decide)
    obtain ⟨m₁,m₂,hrun,hexl,-,hdone,hiff⟩ := relocate_exl_dynamic hat0 (by decide) hwf0 hone0 hsep0
      (fun k => Or.inr (by cases k <;> rfl)) hr (le_refl (2^32)) (by decide)
    have hne : m₁ ≠ m₂ := by
      intro heq
      exact absurd (hiff.mp heq) (by decide)
    exact ⟨r,m₁,m₂,hr,hrun,hexl,hne,hdone.slots ⟨.rela,0x10100⟩ (by decide) (by decide),
      hdone.slots ⟨.rela,0x10118⟩ (by decide) (by decide)⟩

end Zeldar.Rtld
