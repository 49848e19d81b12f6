import Zeldar.Elf

namespace Zeldar

inductive RelocKind
  | rel | rela
  deriving DecidableEq, Repr

/-- An entry of a relocation table, by its address. -/
structure ElfEntry where
  kind : RelocKind
  addr : Addr
  deriving DecidableEq, Repr

namespace RelocKind

def size : RelocKind → ℕ
  | .rel => sizeofRel
  | .rela => sizeofRela

end RelocKind

namespace ElfEntry

variable (m : Mem) (aslrBase : Addr) (e : ElfEntry)

def IsRelative : Prop := elfRType (m.read64 (e.addr+8)) = archRelative

instance : Decidable (e.IsRelative m) := inferInstanceAs (Decidable (_ = _))

def slot : Addr := aslrBase+m.read64 e.addr

/-- What the slot holds once it is relocated. -/
def value : BitVec 64 :=
  match e.kind with
  | .rel => m.read64 (e.slot m aslrBase)+aslrBase
  | .rela => aslrBase+m.read64 (e.addr+16)

def apply : Mem :=
  match e.kind with
  | .rel => relEntry aslrBase e.addr m
  | .rela => relaEntry aslrBase e.addr m

theorem apply_relative {m : Mem} {e : ElfEntry} (h : e.IsRelative m) :
    e.apply m aslrBase = m.write64 (e.slot m aslrBase) (e.value m aslrBase) := by
  obtain ⟨kind,addr⟩ := e
  cases kind with
  | rel => exact if_pos h
  | rela => exact if_pos h

theorem apply_other {m : Mem} {e : ElfEntry} (h : ¬e.IsRelative m) : e.apply m aslrBase = m := by
  obtain ⟨kind,addr⟩ := e
  cases kind with
  | rel => exact if_neg h
  | rela => exact if_neg h

end ElfEntry

section Relocate

variable {aslrBase : Addr} {m m' : Mem}

/-- The slots of relative entries overlap neither each other nor the tables. -/
structure Separate (m : Mem) (aslrBase : Addr) (es : List ElfEntry) : Prop where
  slots : es.Pairwise fun e e' => e.IsRelative m → e'.IsRelative m →
    Sep (e.slot m aslrBase) 8 (e'.slot m aslrBase) 8
  tables : ∀ e ∈ es, e.IsRelative m → ∀ e' ∈ es,
    Sep (e.slot m aslrBase) 8 e'.addr e'.kind.size

theorem Separate.sublist {es fs : List ElfEntry} (h : Separate m aslrBase fs)
    (hsub : es.Sublist fs) :
    Separate m aslrBase es :=
  ⟨h.slots.sublist hsub,fun e he hr e' he' =>
    h.tables e (hsub.subset he) hr e' (hsub.subset he')⟩

/-- Two memories in which an entry reads the same. -/
structure ElfEntry.Same (m m' : Mem) (e : ElfEntry) : Prop where
  offset : m'.read64 e.addr = m.read64 e.addr
  info : m'.read64 (e.addr+8) = m.read64 (e.addr+8)
  addend : e.kind = .rela → m'.read64 (e.addr+16) = m.read64 (e.addr+16)

namespace ElfEntry.Same

variable {e : ElfEntry} (h : e.Same m m')
include h

theorem isRelative : e.IsRelative m' ↔ e.IsRelative m := by
  rw [IsRelative, IsRelative, h.info]

theorem slot : e.slot m' aslrBase = e.slot m aslrBase := by
  rw [ElfEntry.slot, ElfEntry.slot, h.offset]

theorem value (hold : m'.read64 (e.slot m aslrBase) = m.read64 (e.slot m aslrBase)) :
    e.value m' aslrBase = e.value m aslrBase := by
  have hslot := @slot aslrBase m m' e h
  have haddend := h.addend
  obtain ⟨kind,addr⟩ := e
  cases kind with
  | rel =>
    show m'.read64 _+aslrBase = m.read64 _+aslrBase
    rw [hslot, hold]
  | rela =>
    show aslrBase+m'.read64 (addr+16) = aslrBase+m.read64 (addr+16)
    rw [haddend rfl]

end ElfEntry.Same

/-- Memories that agree on an entry read it the same. -/
theorem ElfEntry.same_of_agree {e : ElfEntry}
    (h : ∀ x, (x-e.addr).toNat < e.kind.size → m x = m' x) :
    e.Same m m' := by
  obtain ⟨kind,addr⟩ := e
  have hsize : 16 ≤ RelocKind.size kind := by cases kind <;> decide
  dsimp only at h
  constructor
  · apply Mem.read64_congr
    intro x hx
    dsimp only at hx
    exact (h x (by omega)).symm
  · apply Mem.read64_congr
    intro x hx
    exact (h x (by bv_omega)).symm
  · rintro rfl
    apply Mem.read64_congr
    intro x hx
    have h24 : RelocKind.size .rela = 24 := rfl
    exact (h x (by rw [h24]; bv_omega)).symm

/-- One entry leaves those apart from its slot as they are. -/
theorem Separate.same {e e' : ElfEntry} {es : List ElfEntry} (h : Separate m aslrBase es)
    (he : e ∈ es)
    (he' : e' ∈ es) : e'.Same m (e.apply m aslrBase) := by
  apply ElfEntry.same_of_agree
  intro x hx
  by_cases hr : e.IsRelative m
  · rw [ElfEntry.apply_relative aslrBase hr, Mem.write64_apply_of_le]
    exact (h.tables e he hr e' he').offset hx
  · rw [ElfEntry.apply_other aslrBase hr]

theorem Separate.read_slot {e e' : ElfEntry} (hr' : e'.IsRelative m)
    (hsep : e.IsRelative m → e'.IsRelative m → Sep (e.slot m aslrBase) 8 (e'.slot m aslrBase) 8) :
    (e.apply m aslrBase).read64 (e'.slot m aslrBase) = m.read64 (e'.slot m aslrBase) := by
  by_cases hr : e.IsRelative m
  · rw [ElfEntry.apply_relative aslrBase hr]
    exact Mem.read64_write64_of_sep _ _ (hsep hr hr').symm
  · rw [ElfEntry.apply_other aslrBase hr]

/-- After one entry the others are still separate. -/
theorem Separate.tail {e : ElfEntry} {es : List ElfEntry} (h : Separate m aslrBase (e::es)) :
    Separate (e.apply m aslrBase) aslrBase es := by
  have hsame : ∀ e' ∈ es, e'.Same m (e.apply m aslrBase) := fun e' he' =>
    h.same List.mem_cons_self (List.mem_cons_of_mem e he')
  constructor
  · apply (List.pairwise_cons.mp h.slots).2.imp_of_mem
    intro e1 e2 he1 he2 hsep
    rw [(hsame e1 he1).isRelative, (hsame e2 he2).isRelative, (hsame e1 he1).slot,
      (hsame e2 he2).slot]
    exact hsep
  · intro e1 he1 hr e2 he2
    rw [(hsame e1 he1).slot]
    exact h.tables e1 (List.mem_cons_of_mem e he1) ((hsame e1 he1).isRelative.mp hr) e2
      (List.mem_cons_of_mem e he2)

/-- Every relative entry has its slot relocated, and all other bytes are kept. -/
structure Relocated (m m' : Mem) (aslrBase : Addr) (es : List ElfEntry) : Prop where
  slots : ∀ e ∈ es, e.IsRelative m → m'.read64 (e.slot m aslrBase) = e.value m aslrBase
  frame : ∀ x, (∀ e ∈ es, e.IsRelative m → 8 ≤ (x-e.slot m aslrBase).toNat) → m' x = m x

theorem Separate.relocated {es : List ElfEntry} (h : Separate m aslrBase es) :
    Relocated m (es.foldl (fun m e => e.apply m aslrBase) m) aslrBase es := by
  induction es generalizing m with
  | nil => exact ⟨nofun,fun _ _ => rfl⟩
  | cons e es ih =>
    -- the induction is over the memory that the first entry has left
    obtain ⟨hslots,hframe⟩ := ih h.tail
    have hsame : ∀ e' ∈ es, e'.Same m (e.apply m aslrBase) := fun e' he' =>
      h.same List.mem_cons_self (List.mem_cons_of_mem e he')
    have hapart := (List.pairwise_cons.mp h.slots).1
    rw [List.foldl_cons]
    constructor
    · intro e' he' hr
      rcases List.mem_cons.mp he' with rfl | he'
      · -- the slot of the first entry is not touched again
        calc _ = (e'.apply m aslrBase).read64 (e'.slot m aslrBase) := by
              apply Mem.read64_congr
              intro x hx
              apply hframe
              intro e1 he1 hr1
              rw [(hsame e1 he1).slot]
              rw [(hsame e1 he1).isRelative] at hr1
              exact (hapart e1 he1 hr hr1).symm.offset hx
          _ = e'.value m aslrBase := by
              rw [ElfEntry.apply_relative aslrBase hr, Mem.read64_write64_self]
      · -- a later entry and its slot are as they were before the first one was relocated
        have hs := hsame e' he'
        have hold := Separate.read_slot hr (hapart e' he')
        rw [← hs.slot, hslots e' he' (hs.isRelative.mpr hr)]
        exact hs.value hold
    · intro x hx
      rw [hframe]
      · by_cases hr : e.IsRelative m
        · rw [ElfEntry.apply_relative aslrBase hr, Mem.write64_apply_of_le]
          exact hx e List.mem_cons_self hr
        · rw [ElfEntry.apply_other aslrBase hr]
      · intro e1 he1 hr1
        rw [(hsame e1 he1).slot]
        exact hx e1 (List.mem_cons_of_mem e he1) ((hsame e1 he1).isRelative.mp hr1)

/-- The bytes from `a` on for `n` are neither in an entry nor in a slot. -/
structure EntriesAvoid (m : Mem) (aslrBase : Addr) (es : List ElfEntry) (a : Addr) (n : ℕ) :
    Prop where
  tables : ∀ e ∈ es, Sep a n e.addr e.kind.size
  slots : ∀ e ∈ es, e.IsRelative m → Sep a n (e.slot m aslrBase) 8

/-- Equal except for `n` bytes at `a`. -/
def AgreeOutside (a : Addr) (n : ℕ) (m m' : Mem) : Prop := ∀ x, n ≤ (x-a).toNat → m' x = m x

theorem write64_congr {m m' : Mem} {x : Addr} (h : m' x = m x) (a : Addr) (v : BitVec 64) :
    m'.write64 a v x = m.write64 a v x := by
  simp only [Mem.write64, Mem.write32, h]

theorem EntriesAvoid.same {es : List ElfEntry} {a : Addr} {n : ℕ}
    (h : EntriesAvoid m aslrBase es a n)
    (hagree : AgreeOutside a n m m') {e : ElfEntry} (he : e ∈ es) : e.Same m m' := by
  apply ElfEntry.same_of_agree
  intro x hx
  exact (hagree x ((h.tables e he).offset hx)).symm

/-- One entry does the same to memories that agree where it looks. -/
theorem EntriesAvoid.apply {es : List ElfEntry} {a : Addr} {n : ℕ}
    (h : EntriesAvoid m aslrBase es a n)
    (hagree : AgreeOutside a n m m') {e : ElfEntry} (he : e ∈ es) :
    AgreeOutside a n (e.apply m aslrBase) (e.apply m' aslrBase) ∧
      ∀ x, (x-a).toNat < n → e.apply m' aslrBase x = m' x := by
  have hsame := h.same hagree he
  by_cases hr : e.IsRelative m
  · have hsep := h.slots e he hr
    have hold : m'.read64 (e.slot m aslrBase) = m.read64 (e.slot m aslrBase) := by
      apply Mem.read64_congr
      intro x hx
      exact hagree x (hsep.offset hx)
    rw [ElfEntry.apply_relative aslrBase hr,
      ElfEntry.apply_relative aslrBase (hsame.isRelative.mpr hr),
      hsame.slot, hsame.value hold]
    constructor
    · intro x hx
      exact write64_congr (hagree x hx) _ _
    · intro x hx
      exact Mem.write64_apply_of_le _ _ (hsep.symm.offset hx)
  · rw [ElfEntry.apply_other aslrBase hr, ElfEntry.apply_other aslrBase (mt hsame.isRelative.mp hr)]
    exact ⟨hagree,fun _ _ => rfl⟩

/-- So do all entries, one after another. -/
theorem Separate.agree {es : List ElfEntry} {a : Addr} {n : ℕ} (h : Separate m aslrBase es)
    (havoid : EntriesAvoid m aslrBase es a n) (hagree : AgreeOutside a n m m') :
    AgreeOutside a n (es.foldl (fun m e => e.apply m aslrBase) m)
        (es.foldl (fun m e => e.apply m aslrBase) m') ∧
      ∀ x, (x-a).toNat < n → es.foldl (fun m e => e.apply m aslrBase) m' x = m' x := by
  induction es generalizing m m' with
  | nil => exact ⟨hagree,fun _ _ => rfl⟩
  | cons e es ih =>
    obtain ⟨hstep,hkeep⟩ := havoid.apply hagree List.mem_cons_self
    have hsame : ∀ e' ∈ es, e'.Same m (e.apply m aslrBase) := fun e' he' =>
      h.same List.mem_cons_self (List.mem_cons_of_mem e he')
    have hrest : EntriesAvoid (e.apply m aslrBase) aslrBase es a n := by
      constructor
      · intro e' he'
        exact havoid.tables e' (List.mem_cons_of_mem e he')
      · intro e' he' hr
        rw [(hsame e' he').slot]
        exact havoid.slots e' (List.mem_cons_of_mem e he') ((hsame e' he').isRelative.mp hr)
    obtain ⟨hoff,hon⟩ := ih h.tail hrest hstep
    exact ⟨hoff,fun x hx => (hon x hx).trans (hkeep x hx)⟩

end Relocate

namespace RelocKind

def tableTag : RelocKind → BitVec 64
  | .rel => dtRel
  | .rela => dtRela

def entTag : RelocKind → BitVec 64
  | .rel => dtRelEnt
  | .rela => dtRelaEnt

def sizeTag : RelocKind → BitVec 64
  | .rel => dtRelSz
  | .rela => dtRelaSz

def countTag : RelocKind → BitVec 64
  | .rel => dtRelCount
  | .rela => dtRelaCount

variable (kind : RelocKind) (aslrBase : Addr) (ds : List Dyn)

def tableAddr : Addr := (dynLookup ds kind.tableTag).elim 0 (aslrBase+·)

def stride : BitVec 64 := (dynLookup ds kind.entTag).elim (BitVec.ofNat 64 kind.size) id

def tableSize : BitVec 64 := (dynLookup ds kind.sizeTag).elim 0 id

def relativeCount : BitVec 64 := (dynLookup ds kind.countTag).elim 0 id

/-- The first `n` entries of the table. -/
def entries (n : ℕ) : List ElfEntry :=
  (List.range n).map fun k => ⟨kind,kind.tableAddr aslrBase ds+BitVec.ofNat 64 k*kind.stride ds⟩

/-- The table has `n` entries: as many as fit its size, or any number of which the relative ones
are among the first that the count tag gives. -/
def HasLength (m : Mem) (n : ℕ) : Prop :=
  if kind.relativeCount ds = 0 then n = (kind.tableSize ds/kind.stride ds).toNat
  else (kind.relativeCount ds).toNat ≤ n ∧
    ∀ e ∈ (kind.entries aslrBase ds n).drop (kind.relativeCount ds).toNat, ¬e.IsRelative m

end RelocKind

/-- All entries of both tables. -/
def allEntries (aslrBase : Addr) (ds : List Dyn) (n : RelocKind → ℕ) : List ElfEntry :=
  RelocKind.rel.entries aslrBase ds (n .rel)++RelocKind.rela.entries aslrBase ds (n .rela)

/-- A dynamic table and the two tables it describes, ready to be relocated. -/
structure Relocatable (m : Mem) (aslrBase dynamic : Addr) (ds : List Dyn) (n : RelocKind → ℕ) :
    Prop where
  dynamic : DynamicAt m dynamic ds
  nodup : (ds.map Dyn.tag).Nodup
  stride_ne : ∀ kind, dynLookup ds (RelocKind.entTag kind) ≠ some 0
  length : ∀ kind, RelocKind.HasLength kind aslrBase ds m (n kind)
  separate : Separate m aslrBase (allEntries aslrBase ds n)

section Run

variable {m m' : Mem} {aslrBase dynamic : Addr} {ds : List Dyn} {n : RelocKind → ℕ} {fuel : ℕ}

theorem entries_take (kind : RelocKind) {c l : ℕ} (h : c ≤ l) :
    (kind.entries aslrBase ds l).take c = kind.entries aslrBase ds c := by
  rw [RelocKind.entries, ← List.map_take, List.take_range, Nat.min_eq_left h]
  rfl

/-- The entries that the loop over one table reads: the relative ones are among them. -/
theorem Relocatable.count (h : Relocatable m aslrBase dynamic ds n) (kind : RelocKind) :
    ∃ c, entryCount (kind.relativeCount ds) (kind.tableSize ds) (kind.stride ds) = some c ∧
      (kind.entries aslrBase ds c.toNat).Sublist (kind.entries aslrBase ds (n kind)) ∧
      ∀ e ∈ kind.entries aslrBase ds (n kind), e.IsRelative m →
        e ∈ kind.entries aslrBase ds c.toNat := by
  have hne : kind.stride ds ≠ 0 := by
    have := h.stride_ne kind
    rw [RelocKind.stride]
    cases hl : dynLookup ds kind.entTag with
    | none => cases kind <;> decide
    | some v =>
      intro hv
      rw [hl] at this
      exact this (congrArg some hv)
  have hlength := h.length kind
  rw [RelocKind.HasLength] at hlength
  -- without a count tag all entries are read, with one only the relative ones in front
  by_cases h0 : kind.relativeCount ds = 0
  · rw [if_pos h0] at hlength
    rw [entryCount, if_pos h0, if_neg hne]
    exact ⟨_,rfl,hlength ▸ List.Sublist.refl _,fun e he _ => hlength ▸ he⟩
  · rw [if_neg h0] at hlength
    obtain ⟨hle,hdrop⟩ := hlength
    rw [entryCount, if_neg h0]
    have htake := @entries_take aslrBase ds kind _ _ hle
    refine ⟨_,rfl,htake ▸ List.take_sublist _ _,?_⟩
    intro e he hr
    rw [← List.take_append_drop (kind.relativeCount ds).toNat
      (kind.entries aslrBase ds (n kind)), htake] at he
    rcases List.mem_append.mp he with he | he
    · exact he
    · exact absurd hr (hdrop e he)

theorem entryLoop_eq (kind : RelocKind) (c : BitVec 64) (m : Mem) :
    entryLoop (fun a m => ElfEntry.apply m aslrBase ⟨kind,a⟩) (kind.tableAddr aslrBase ds)
        (kind.stride ds) c m =
      (kind.entries aslrBase ds c.toNat).foldl (fun m e => e.apply m aslrBase) m := by
  rw [entryLoop, RelocKind.entries, List.foldl_map]

/-- `exl_dynamic`, for the table of which the entries are `ds` in some order. -/
theorem exlDynamic_eq (hnodup : (ds.map Dyn.tag).Nodup) {c : RelocKind → BitVec 64}
    (hc : ∀ kind, entryCount (RelocKind.relativeCount kind ds) (kind.tableSize ds)
      (kind.stride ds) = some (c kind))
    {ds' : List Dyn} (hperm : ds.Perm ds') (hdyn : DynamicAt m dynamic ds')
    (hfuel : ds'.length+1 ≤ fuel) :
    exlDynamic fuel aslrBase dynamic m =
      some ((allEntries aslrBase ds fun kind => (c kind).toNat).foldl
        (fun m e => e.apply m aslrBase) m) := by
  have hinfo : dynInfo aslrBase ds' = dynInfo aslrBase ds := by
    simp only [dynInfo, dynLookup_perm hperm hnodup]
  have hnodup' := (hperm.map Dyn.tag).nodup_iff.mp hnodup
  rw [exlDynamic, readDynamic_eq ds' hdyn hfuel, foldl_entry hnodup', hinfo]
  -- the counts, and then the two loops
  have hrela : entryCount (dynInfo aslrBase ds).relaEntryCount (dynInfo aslrBase ds).relaSize
      (dynInfo aslrBase ds).relaEntrySize = some (c .rela) := hc .rela
  have hrel : entryCount (dynInfo aslrBase ds).relEntryCount (dynInfo aslrBase ds).relSize
      (dynInfo aslrBase ds).relEntrySize = some (c .rel) := hc .rel
  simp only [Option.bind_eq_bind, Option.bind_some, hrela, hrel]
  have hfirst := @entryLoop_eq aslrBase ds .rel (c .rel) m
  have hsecond := @entryLoop_eq aslrBase ds .rela (c .rela)
    ((RelocKind.rel.entries aslrBase ds (c .rel).toNat).foldl (fun m e => e.apply m aslrBase) m)
  rw [allEntries, List.foldl_append]
  exact congrArg some ((congrArg _ hfirst).trans hsecond)

/-- Self-relocation: every relative entry of the two tables has its slot relocated and no
other byte of memory changes; and with the entries of the dynamic table in another order
it does the same to the rest of memory. -/
theorem exl_dynamic_relocates (h : Relocatable m aslrBase dynamic ds n)
    (hfuel : ds.length+1 ≤ fuel) :
    ∃ m', exlDynamic fuel aslrBase dynamic m = some m' ∧
      Relocated m m' aslrBase (allEntries aslrBase ds n) ∧
      ∀ m₂ ds₂, ds.Perm ds₂ → DynamicAt m₂ dynamic ds₂ →
        AgreeOutside dynamic (sizeofDyn*(ds.length+1)) m m₂ →
        EntriesAvoid m aslrBase (allEntries aslrBase ds n) dynamic (sizeofDyn*(ds.length+1)) →
        ∃ m₂', exlDynamic fuel aslrBase dynamic m₂ = some m₂' ∧
          AgreeOutside dynamic (sizeofDyn*(ds.length+1)) m' m₂' ∧
          ∀ x, (x-dynamic).toNat < sizeofDyn*(ds.length+1) → m₂' x = m₂ x := by
  choose c hc hsub hmem using h.count
  have hsubAll : (allEntries aslrBase ds fun kind => (c kind).toNat).Sublist
      (allEntries aslrBase ds n) := (hsub .rel).append (hsub .rela)
  -- the counted entries are a part of the table, and hold all relative ones
  have hrelative : ∀ e ∈ allEntries aslrBase ds n, e.IsRelative m →
      e ∈ allEntries aslrBase ds fun kind => (c kind).toNat := by
    intro e he hr
    rcases List.mem_append.mp he with he | he
    · exact List.mem_append_left _ (hmem .rel e he hr)
    · exact List.mem_append_right _ (hmem .rela e he hr)
  have hseparate := h.separate.sublist hsubAll
  have hdone := hseparate.relocated
  refine ⟨_,exlDynamic_eq h.nodup hc (List.Perm.refl ds) h.dynamic hfuel,⟨?_,?_⟩,?_⟩
  · intro e he hr
    exact hdone.slots e (hrelative e he hr) hr
  · intro x hx
    exact hdone.frame x fun e he => hx e (hsubAll.subset he)
  · -- the permuted table gives the same counts, and no entry looks at the table
    intro m₂ ds₂ hperm hdyn hagree havoid
    have havoid' : EntriesAvoid m aslrBase (allEntries aslrBase ds fun kind => (c kind).toNat)
        dynamic
        (sizeofDyn*(ds.length+1)) :=
      ⟨fun e he => havoid.tables e (hsubAll.subset he),
        fun e he => havoid.slots e (hsubAll.subset he)⟩
    exact ⟨_,exlDynamic_eq h.nodup hc hperm hdyn (hperm.length_eq ▸ hfuel),
      hseparate.agree havoid' hagree⟩

end Run

/-- The dynamic table of a module at `0x10000` with two `REL` and three `RELA` entries, of which
one and two are relative. -/
def twoTables : List Dyn :=
  [⟨dtRel,0x300⟩,⟨dtRelSz,32⟩,⟨dtRelCount,1⟩,⟨dtRela,0x100⟩,⟨dtRelaSz,72⟩,⟨dtRelaCount,2⟩]

/-- The entries, and the slot of the first `REL` one. -/
def entriesMem : Mem :=
  overlay (overlay (overlay (fun _ => 0)
    0x10100 [0x200,0,1027,0,0x30,0,0x208,0,1027,0,0x40,0,0x210,0,1026,0,0x60,0])
    0x10300 [0x400,0,1027,0,0x410,0,1026,0]) 0x10400 [0x50,0]

/-- The table `ds` at `0x1000`. -/
def tablesMem (ds : List Dyn) : Mem :=
  overlay entriesMem 0x1000 (ds.flatMap fun d => [d.tag.extractLsb' 0 32,d.tag.extractLsb' 32 32,
    d.val.extractLsb' 0 32,d.val.extractLsb' 32 32])

def tableEntries (kind : RelocKind) : ℕ := match kind with | .rel => 2 | .rela => 3

theorem twoTables_entries : allEntries 0x10000 twoTables tableEntries =
    [⟨.rel,0x10300⟩,⟨.rel,0x10310⟩,⟨.rela,0x10100⟩,⟨.rela,0x10118⟩,⟨.rela,0x10130⟩] := by decide

theorem twoTables_relocatable :
    Relocatable (tablesMem twoTables) 0x10000 0x1000 twoTables tableEntries where
  dynamic := ⟨by decide,by decide,by decide,by decide,by decide,by decide,by decide,by decide,
    by decide,by decide,by decide,by decide,rfl⟩
  nodup := by decide
  stride_ne := by
    intro kind
    cases kind <;> decide
  length := by
    intro kind
    cases kind <;> rw [RelocKind.HasLength, if_neg (by decide)] <;> exact ⟨by decide,by decide⟩
  separate := by
    rw [twoTables_entries]
    exact ⟨by decide,by decide⟩

/-- The three relative entries are relocated, in whichever order the table is. -/
theorem exl_dynamic_relocates_tables : ∃ m' m₂',
    exlDynamic 7 0x10000 0x1000 (tablesMem twoTables) = some m' ∧
    exlDynamic 7 0x10000 0x1000 (tablesMem twoTables.reverse) = some m₂' ∧
    m'.read64 0x10200 = 0x10030 ∧ m'.read64 0x10208 = 0x10040 ∧ m'.read64 0x10210 = 0 ∧
    m'.read64 0x10400 = 0x10050 ∧ ∀ x, 112 ≤ (x-0x1000).toNat → m₂' x = m' x := by
  obtain ⟨m',hrun,hdone,hperm⟩ := exl_dynamic_relocates twoTables_relocatable (by decide : _ ≤ 7)
  have hreverse : DynamicAt (tablesMem twoTables.reverse) 0x1000 twoTables.reverse :=
    ⟨by decide,by decide,by decide,by decide,by decide,by decide,by decide,by decide,
      by decide,by decide,by decide,by decide,rfl⟩
  have hagree : AgreeOutside 0x1000 (sizeofDyn*(twoTables.length+1)) (tablesMem twoTables)
      (tablesMem twoTables.reverse) := by
    intro x hx
    have hlen : 96 ≤ (x-0x1000).toNat := le_trans (by decide) hx
    have hkeep : tablesMem twoTables x = entriesMem x := overlay_apply_of_le _ _ _ _ hlen
    rw [hkeep]
    exact overlay_apply_of_le _ _ _ _ hlen
  rw [twoTables_entries] at hdone hperm
  obtain ⟨m₂',hrun₂,hsame,-⟩ := hperm _ _ (List.reverse_perm twoTables).symm hreverse hagree
    ⟨by decide,by decide⟩
  have hslot := hdone.slots
  refine ⟨m',m₂',hrun,hrun₂,hslot ⟨.rela,0x10100⟩ (by decide) (by decide),
    hslot ⟨.rela,0x10118⟩ (by decide) (by decide),?_,
    hslot ⟨.rel,0x10300⟩ (by decide) (by decide),hsame⟩
  -- the entry that is not relative is passed over
  have hapart : ∀ e ∈ [ElfEntry.mk .rel 0x10300,⟨.rel,0x10310⟩,⟨.rela,0x10100⟩,⟨.rela,0x10118⟩,
      ⟨.rela,0x10130⟩], e.IsRelative (tablesMem twoTables) →
        Sep (e.slot (tablesMem twoTables) 0x10000) 8 0x10210 8 := by decide
  have hkeep : m'.read64 0x10210 = (tablesMem twoTables).read64 0x10210 := by
    apply Mem.read64_congr
    intro x hx
    apply hdone.frame
    intro e he hr
    exact (hapart e he hr).offset hx
  rw [hkeep]
  decide

end Zeldar
