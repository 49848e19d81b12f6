import Zeldar.ByteMem

namespace Zeldar

def dtNull : BitVec 64 := 0
def dtRela : BitVec 64 := 7
def dtRelaSz : BitVec 64 := 8
def dtRelaEnt : BitVec 64 := 9
def dtRel : BitVec 64 := 17
def dtRelSz : BitVec 64 := 18
def dtRelEnt : BitVec 64 := 19
def dtRelaCount : BitVec 64 := 0x6ffffff9
def dtRelCount : BitVec 64 := 0x6ffffffa

/-- `R_AARCH64_RELATIVE`. -/
def archRelative : BitVec 64 := 1027

def elfRType (info : BitVec 64) : BitVec 64 := info &&& 0xffffffff

def sizeofRel : ℕ := 16
def sizeofRela : ℕ := 24

structure Dyn where
  tag : BitVec 64
  val : BitVec 64
  deriving DecidableEq, Repr

def sizeofDyn : ℕ := 16

def readDyn (m : Mem) (a : Addr) : Dyn := ⟨m.read64 a,m.read64 (a+8)⟩

/-- The local variables that the dynamic table sets. -/
structure DynInfo where
  rela : Addr
  rel : Addr
  relaEntrySize : BitVec 64
  relEntrySize : BitVec 64
  relaEntryCount : BitVec 64
  relEntryCount : BitVec 64
  relaSize : BitVec 64
  relSize : BitVec 64
  deriving DecidableEq, Repr

namespace DynInfo

def initial : DynInfo where
  rela := 0
  rel := 0
  relaEntrySize := BitVec.ofNat 64 sizeofRela
  relEntrySize := BitVec.ofNat 64 sizeofRel
  relaEntryCount := 0
  relEntryCount := 0
  relaSize := 0
  relSize := 0

/-- The switch on `d_tag`; all other tags are skipped. -/
def entry (aslrBase : Addr) (info : DynInfo) (d : Dyn) : DynInfo :=
  if d.tag = dtRela then { info with rela := aslrBase+d.val }
  else if d.tag = dtRelaEnt then { info with relaEntrySize := d.val }
  else if d.tag = dtRelaSz then { info with relaSize := d.val }
  else if d.tag = dtRel then { info with rel := aslrBase+d.val }
  else if d.tag = dtRelEnt then { info with relEntrySize := d.val }
  else if d.tag = dtRelSz then { info with relSize := d.val }
  else if d.tag = dtRelaCount then { info with relaEntryCount := d.val }
  else if d.tag = dtRelCount then { info with relEntryCount := d.val }
  else info

end DynInfo

/-- The loop over the dynamic table, up to `DT_NULL`. -/
def readDynamic (aslrBase : Addr) (m : Mem) : ℕ → Addr → DynInfo → Option DynInfo
  | 0,_,_ => none
  | fuel+1,dynamic,info =>
    let d := readDyn m dynamic
    if d.tag = dtNull then some info
    else readDynamic aslrBase m fuel (dynamic+BitVec.ofNat 64 sizeofDyn) (info.entry aslrBase d)

/-- The count from its tag, or the quotient; dividing by zero does not return. -/
def entryCount (count size entrySize : BitVec 64) : Option (BitVec 64) :=
  if count = 0 then
    if entrySize = 0 then none else some (size/entrySize)
  else some count

/-- The body of the loop over `REL`: the addend is in the slot. -/
def relEntry (aslrBase entry : Addr) (m : Mem) : Mem :=
  if elfRType (m.read64 (entry+8)) = archRelative then
    let ptr := aslrBase+m.read64 entry
    m.write64 ptr (m.read64 ptr+aslrBase)
  else m

/-- The body of the loop over `RELA`: the addend is in the entry. -/
def relaEntry (aslrBase entry : Addr) (m : Mem) : Mem :=
  if elfRType (m.read64 (entry+8)) = archRelative then
    let ptr := aslrBase+m.read64 entry
    m.write64 ptr (aslrBase+m.read64 (entry+16))
  else m

/-- `while (i < count)`, over the entries of a table. -/
def entryLoop (body : Addr → Mem → Mem) (table entrySize count : BitVec 64) (m : Mem) : Mem :=
  (List.range count.toNat).foldl (fun m i => body (table+BitVec.ofNat 64 i*entrySize) m) m

def exlDynamic (fuel : ℕ) (aslrBase dynamic : Addr) (m : Mem) : Option Mem := do
  let info ← readDynamic aslrBase m fuel dynamic .initial
  let relaEntryCount ← entryCount info.relaEntryCount info.relaSize info.relaEntrySize
  let relEntryCount ← entryCount info.relEntryCount info.relSize info.relEntrySize
  let m := entryLoop (relEntry aslrBase) info.rel info.relEntrySize relEntryCount m
  return entryLoop (relaEntry aslrBase) info.rela info.relaEntrySize relaEntryCount m

/-- The entries `ds` stand at `dynamic`, and `DT_NULL` after them. -/
def DynamicAt (m : Mem) : Addr → List Dyn → Prop
  | dynamic,[] => (readDyn m dynamic).tag = dtNull
  | dynamic,d::ds => d.tag ≠ dtNull ∧ readDyn m dynamic = d ∧
    DynamicAt m (dynamic+BitVec.ofNat 64 sizeofDyn) ds

/-- The value of a tag. -/
def dynLookup : List Dyn → BitVec 64 → Option (BitVec 64)
  | [],_ => none
  | d::ds,tag => if d.tag = tag then some d.val else dynLookup ds tag

theorem readDynamic_eq {aslrBase : Addr} {m : Mem} (ds : List Dyn) {dynamic : Addr}
    {info : DynInfo} (h : DynamicAt m dynamic ds) {fuel : ℕ} (hfuel : ds.length+1 ≤ fuel) :
    readDynamic aslrBase m fuel dynamic info = some (ds.foldl (DynInfo.entry aslrBase) info) := by
  obtain ⟨fuel,rfl⟩ := Nat.exists_eq_add_of_le' hfuel
  induction ds generalizing dynamic info with
  | nil =>
    rw [List.length_nil, Nat.zero_add, readDynamic]
    exact if_pos h
  | cons d ds ih =>
    obtain ⟨hne,hread,hrest⟩ := h
    rw [List.length_cons, ← Nat.add_assoc, readDynamic, hread]
    exact (if_neg hne).trans (ih hrest (Nat.le_add_left _ _))

theorem dynLookup_none {ds : List Dyn} {tag : BitVec 64} (h : tag ∉ ds.map Dyn.tag) :
    dynLookup ds tag = none := by
  induction ds with
  | nil => rfl
  | cons d ds ih =>
    rw [List.map_cons, List.mem_cons, not_or] at h
    rw [dynLookup, if_neg (fun he => h.1 he.symm)]
    exact ih h.2

/-- A variable that one tag sets ends up with the value of that tag. -/
theorem foldl_entry_field {α : Type} {aslrBase : Addr} (field : DynInfo → α)
    (set : BitVec 64 → α) (tag : BitVec 64)
    (hset : ∀ info d, field (DynInfo.entry aslrBase info d) =
      if d.tag = tag then set d.val else field info)
    {ds : List Dyn} (hnodup : (ds.map Dyn.tag).Nodup) (info : DynInfo) :
    field (ds.foldl (DynInfo.entry aslrBase) info) =
      (dynLookup ds tag).elim (field info) set := by
  induction ds generalizing info with
  | nil => rfl
  | cons d ds ih =>
    obtain ⟨hnot,hrest⟩ := List.nodup_cons.mp hnodup
    rw [List.foldl_cons, ih hrest, hset, dynLookup]
    by_cases hd : d.tag = tag
    · -- the tag does not come again
      rw [dynLookup_none (hd ▸ hnot), if_pos hd, if_pos hd]
      rfl
    · rw [if_neg hd, if_neg hd]

/-- The order of the entries does not matter to a lookup. -/
theorem dynLookup_perm {ds ds' : List Dyn} (hperm : ds.Perm ds')
    (hnodup : (ds.map Dyn.tag).Nodup) (tag : BitVec 64) : dynLookup ds tag = dynLookup ds' tag := by
  induction hperm with
  | nil => rfl
  | cons d _ ih => rw [dynLookup, dynLookup, ih (List.nodup_cons.mp hnodup).2]
  | swap d d' ds =>
    have hne : d'.tag ≠ d.tag := by
      intro he
      exact (List.nodup_cons.mp hnodup).1 (he ▸ List.mem_cons_self)
    simp only [dynLookup]
    by_cases hd : d.tag = tag
    · rw [if_neg (fun he => hne (he.trans hd.symm)), if_pos hd, if_pos hd]
    · rw [if_neg hd, if_neg hd]
  | trans h12 _ ih12 ih23 =>
    exact (ih12 hnodup).trans (ih23 ((h12.map Dyn.tag).nodup_iff.mp hnodup))

/-- The variables that a dynamic table sets, tag by tag. -/
def dynInfo (aslrBase : Addr) (ds : List Dyn) : DynInfo where
  rela := (dynLookup ds dtRela).elim 0 (aslrBase+·)
  rel := (dynLookup ds dtRel).elim 0 (aslrBase+·)
  relaEntrySize := (dynLookup ds dtRelaEnt).elim (BitVec.ofNat 64 sizeofRela) id
  relEntrySize := (dynLookup ds dtRelEnt).elim (BitVec.ofNat 64 sizeofRel) id
  relaEntryCount := (dynLookup ds dtRelaCount).elim 0 id
  relEntryCount := (dynLookup ds dtRelCount).elim 0 id
  relaSize := (dynLookup ds dtRelaSz).elim 0 id
  relSize := (dynLookup ds dtRelSz).elim 0 id

/-- A tag is not another one, so the order of the tests does not matter. -/
theorem ite_tag {α : Type} {t a b : BitVec 64} (h : a ≠ b) (x v : α) :
    (if t = a then x else if t = b then v else x) = if t = b then v else x := by
  by_cases ha : t = a
  · rw [if_pos ha, if_neg (fun hb => h (ha.symm.trans hb))]
  · rw [if_neg ha]

theorem foldl_entry {aslrBase : Addr} {ds : List Dyn} (hnodup : (ds.map Dyn.tag).Nodup) :
    ds.foldl (DynInfo.entry aslrBase) .initial = dynInfo aslrBase ds := by
  have hfield {α : Type} (field : DynInfo → α) (set : BitVec 64 → α) (tag : BitVec 64)
      (hset : ∀ info d, field (DynInfo.entry aslrBase info d) =
        if d.tag = tag then set d.val else field info) :=
    foldl_entry_field field set tag hset hnodup .initial
  -- each field is set by its own tag only
  have h1 := hfield DynInfo.rela (aslrBase+·) dtRela fun info d => by
    simp only [DynInfo.entry, apply_ite DynInfo.rela, ite_self]
  have h2 := hfield DynInfo.rel (aslrBase+·) dtRel fun info d => by
    simp only [DynInfo.entry, apply_ite DynInfo.rel, ite_self]
    simp (disch := decide) only [ite_tag]
  have h3 := hfield DynInfo.relaEntrySize id dtRelaEnt fun info d => by
    simp only [DynInfo.entry, apply_ite DynInfo.relaEntrySize, ite_self]
    simp (disch := decide) only [ite_tag,id]
  have h4 := hfield DynInfo.relEntrySize id dtRelEnt fun info d => by
    simp only [DynInfo.entry, apply_ite DynInfo.relEntrySize, ite_self]
    simp (disch := decide) only [ite_tag,id]
  have h5 := hfield DynInfo.relaEntryCount id dtRelaCount fun info d => by
    simp only [DynInfo.entry, apply_ite DynInfo.relaEntryCount, ite_self]
    simp (disch := decide) only [ite_tag,id]
  have h6 := hfield DynInfo.relEntryCount id dtRelCount fun info d => by
    simp only [DynInfo.entry, apply_ite DynInfo.relEntryCount]
    simp (disch := decide) only [ite_tag,id]
  have h7 := hfield DynInfo.relaSize id dtRelaSz fun info d => by
    simp only [DynInfo.entry, apply_ite DynInfo.relaSize, ite_self]
    simp (disch := decide) only [ite_tag,id]
  have h8 := hfield DynInfo.relSize id dtRelSz fun info d => by
    simp only [DynInfo.entry, apply_ite DynInfo.relSize, ite_self]
    simp (disch := decide) only [ite_tag,id]
  rw [dynInfo, DynInfo.mk.injEq]
  exact ⟨h1,h2,h3,h4,h5,h6,h7,h8⟩

end Zeldar
