import Zeldar.Elf
import Zeldar.Kernel

namespace Zeldar

def dtPltRelSz : BitVec 64 := 2
def dtPltGot : BitVec 64 := 3
def dtHash : BitVec 64 := 4
def dtStrTab : BitVec 64 := 5
def dtSymTab : BitVec 64 := 6
def dtStrSz : BitVec 64 := 10
def dtSymEnt : BitVec 64 := 11
def dtInit : BitVec 64 := 12
def dtFini : BitVec 64 := 13
def dtSoname : BitVec 64 := 14
def dtPltRel : BitVec 64 := 20
def dtJmpRel : BitVec 64 := 23

def sizeofSym : ℕ := 24

namespace Rtld

/-- The pointers are addresses, and the two members of a union are one field. -/
structure ModuleObject where
  next : Addr
  prev : Addr
  relaOrRelPlt : Addr
  relaOrRel : Addr
  moduleBase : Addr
  dynamic : Addr
  isRela : Bool
  relaOrRelPltSize : BitVec 64
  dtInit : Addr
  dtFini : Addr
  hashBucket : Addr
  hashChain : Addr
  dynstr : Addr
  dynsym : Addr
  dynstrSize : BitVec 64
  got : Addr
  relaDynSize : BitVec 64
  relDynSize : BitVec 64
  relCount : BitVec 64
  relaCount : BitVec 64
  hashNchainValue : BitVec 64
  hashNbucketValue : BitVec 64
  gotStubPtr : Addr
  sonameIdx : BitVec 64
  nroSize : BitVec 64
  cannotRevertSymbols : Bool
  deriving DecidableEq, Repr

/-- The fields that `Initialize` clears before it reads the table. -/
def ModuleObject.reset (aslrBase dynamic : Addr) (o : ModuleObject) : ModuleObject :=
  { o with
    nroSize := 0
    sonameIdx := 0
    cannotRevertSymbols := false
    isRela := false
    moduleBase := aslrBase
    dynamic := dynamic
    relaOrRelPltSize := 0
    dtInit := 0
    dtFini := 0
    hashBucket := 0
    hashChain := 0
    dynstr := 0
    dynsym := 0
    dynstrSize := 0
    relaOrRel := 0
    got := 0
    relaDynSize := 0
    relDynSize := 0
    gotStubPtr := 0 }

/-- The object, and the local `rel_plt`. -/
structure Loading where
  object : ModuleObject
  relPlt : Addr
  deriving DecidableEq, Repr

/-- The number of buckets and the number of chain entries start the hash table. -/
def hashTable (m : Mem) (table : Addr) (o : ModuleObject) : ModuleObject :=
  let nbucket := m.read32 table
  let nchain := m.read32 (table+4)
  { o with
    hashNbucketValue := nbucket.setWidth 64
    hashNchainValue := nchain.setWidth 64
    hashBucket := table+4*2
    hashChain := table+4*(2+nbucket).setWidth 64 }

/-- The switch on `d_tag`. -/
def Loading.entry (m : Mem) (aslrBase : Addr) (s : Loading) (d : Dyn) : Except Halt Loading :=
  let o := s.object
  if d.tag = dtPltRelSz then .ok { s with object := { o with relaOrRelPltSize := d.val } }
  else if d.tag = dtPltGot then .ok { s with object := { o with got := aslrBase+d.val } }
  else if d.tag = dtHash then .ok { s with object := hashTable m (aslrBase+d.val) o }
  else if d.tag = dtStrTab then .ok { s with object := { o with dynstr := aslrBase+d.val } }
  else if d.tag = dtSymTab then .ok { s with object := { o with dynsym := aslrBase+d.val } }
  else if d.tag = dtRel then .ok { s with object := { o with relaOrRel := aslrBase+d.val } }
  else if d.tag = dtRela then .ok { s with object := { o with relaOrRel := aslrBase+d.val } }
  else if d.tag = dtRelaSz then .ok { s with object := { o with relaDynSize := d.val } }
  else if d.tag = dtRelaEnt then
    (exlAssert (d.val != BitVec.ofNat 64 sizeofRela)).map fun _ => s
  else if d.tag = dtSymEnt then
    (exlAssert (d.val == BitVec.ofNat 64 sizeofSym)).map fun _ => s
  else if d.tag = dtStrSz then .ok { s with object := { o with dynstrSize := d.val } }
  else if d.tag = dtInit then .ok { s with object := { o with dtInit := aslrBase+d.val } }
  else if d.tag = dtFini then .ok { s with object := { o with dtFini := aslrBase+d.val } }
  else if d.tag = dtRelSz then .ok { s with object := { o with relDynSize := d.val } }
  else if d.tag = dtRelEnt then
    (exlAssert (d.val == BitVec.ofNat 64 sizeofRel)).map fun _ => s
  else if d.tag = dtPltRel then
    (exlAssert (d.val == dtRel || d.val == dtRela)).map fun _ =>
      { s with object := { o with isRela := d.val == dtRela } }
  else if d.tag = dtJmpRel then .ok { s with relPlt := aslrBase+d.val }
  else if d.tag = dtRelaCount then .ok { s with object := { o with relaCount := d.val } }
  else if d.tag = dtRelCount then .ok { s with object := { o with relCount := d.val } }
  else if d.tag = dtSoname then .ok { s with object := { o with sonameIdx := d.val } }
  else .ok s

/-- The loop over the dynamic table, up to `DT_NULL`. -/
def initializeLoop (m : Mem) (aslrBase : Addr) : ℕ → Addr → Loading → Except Halt Loading
  | 0,_,_ => .error .diverged
  | fuel+1,dynamic,s =>
    let d := readDyn m dynamic
    if d.tag = dtNull then .ok s
    else do
      let s ← s.entry m aslrBase d
      initializeLoop m aslrBase fuel (dynamic+BitVec.ofNat 64 sizeofDyn) s

def initializeObject (m : Mem) (fuel : ℕ) (aslrBase dynamic : Addr) (o : ModuleObject) :
    Except Halt ModuleObject := do
  let s ← initializeLoop m aslrBase fuel dynamic ⟨o.reset aslrBase dynamic,0⟩
  return { s.object with relaOrRelPlt := s.relPlt }

theorem initializeLoop_eq {m : Mem} {aslrBase : Addr} (ds : List Dyn) {dynamic : Addr} {s : Loading}
    (h : DynamicAt m dynamic ds) {fuel : ℕ} (hfuel : ds.length+1 ≤ fuel) :
    initializeLoop m aslrBase fuel dynamic s = ds.foldlM (Loading.entry m aslrBase) s := by
  obtain ⟨fuel,rfl⟩ := Nat.exists_eq_add_of_le' hfuel
  induction ds generalizing dynamic s with
  | nil =>
    rw [List.length_nil, Nat.zero_add, initializeLoop]
    exact if_pos h
  | cons d ds ih =>
    obtain ⟨hne,hread,hrest⟩ := h
    rw [List.length_cons, ← Nat.add_assoc, initializeLoop, hread]
    refine (if_neg hne).trans ?_
    rw [List.foldlM_cons]
    cases Loading.entry m aslrBase s d with
    | error e => rfl
    | ok s' => exact ih hrest (Nat.le_add_left _ _)

/-- The sizes that the table states are those of the structures, and its PLT
relocations are of one of the two formats. -/
structure EntryWf (d : Dyn) : Prop where
  relaEnt : d.tag = dtRelaEnt → d.val = BitVec.ofNat 64 sizeofRela
  relEnt : d.tag = dtRelEnt → d.val = BitVec.ofNat 64 sizeofRel
  symEnt : d.tag = dtSymEnt → d.val = BitVec.ofNat 64 sizeofSym
  pltRel : d.tag = dtPltRel → d.val = dtRel ∨ d.val = dtRela

instance (d : Dyn) : Decidable (EntryWf d) :=
  decidable_of_iff ((d.tag = dtRelaEnt → d.val = BitVec.ofNat 64 sizeofRela) ∧
      (d.tag = dtRelEnt → d.val = BitVec.ofNat 64 sizeofRel) ∧
      (d.tag = dtSymEnt → d.val = BitVec.ofNat 64 sizeofSym) ∧
      (d.tag = dtPltRel → d.val = dtRel ∨ d.val = dtRela))
    ⟨fun h => ⟨h.1,h.2.1,h.2.2.1,h.2.2.2⟩,fun h => ⟨h.relaEnt,h.relEnt,h.symEnt,h.pltRel⟩⟩

/-- The value of a tag; the last entry counts. -/
def stated (ds : List Dyn) (tag : BitVec 64) : Option (BitVec 64) := dynLookup ds.reverse tag

/-- The fields that `Initialize` leaves as they were unless the table sets them. -/
structure Kept where
  next : Addr
  prev : Addr
  relaOrRelPlt : Addr
  relCount : BitVec 64
  relaCount : BitVec 64
  hashNchainValue : BitVec 64
  hashNbucketValue : BitVec 64

def ModuleObject.kept (o : ModuleObject) : Kept :=
  ⟨o.next,o.prev,o.relaOrRelPlt,o.relCount,o.relaCount,o.hashNchainValue,o.hashNbucketValue⟩

def ModuleObject.withKept (k : Kept) (o : ModuleObject) : ModuleObject :=
  { o with
    next := k.next
    prev := k.prev
    relaOrRelPlt := k.relaOrRelPlt
    relCount := k.relCount
    relaCount := k.relaCount
    hashNchainValue := k.hashNchainValue
    hashNbucketValue := k.hashNbucketValue }

def Loading.withKept (k : Kept) (s : Loading) : Loading := ⟨s.object.withKept k,s.relPlt⟩

/-- The entries that set them. -/
def Kept.entry (m : Mem) (aslrBase : Addr) (k : Kept) (d : Dyn) : Kept :=
  if d.tag = dtHash then
    { k with
      hashNchainValue := (m.read32 (aslrBase+d.val+4)).setWidth 64
      hashNbucketValue := (m.read32 (aslrBase+d.val)).setWidth 64 }
  else if d.tag = dtRelaCount then { k with relaCount := d.val }
  else if d.tag = dtRelCount then { k with relCount := d.val }
  else k

theorem Kept.entry_of_ne {m : Mem} {aslrBase : Addr} {k : Kept} {d : Dyn} (h1 : d.tag ≠ dtHash)
    (h2 : d.tag ≠ dtRelaCount) (h3 : d.tag ≠ dtRelCount) : k.entry m aslrBase d = k := by
  rw [Kept.entry, if_neg h1, if_neg h2, if_neg h3]

theorem ite_eq_map {ε α β : Type} {c : Prop} [Decidable c] {g : α → β} {x y : Except ε β}
    {x' y' : Except ε α} (hx : c → x = x'.map g) (hy : ¬c → y = y'.map g) :
    (if c then x else y) = (if c then x' else y').map g := by
  by_cases h : c
  · rw [if_pos h, if_pos h, hx h]
  · rw [if_neg h, if_neg h, hy h]

/-- An entry does the same to an object whatever the kept fields hold. -/
theorem entry_withKept (m : Mem) (aslrBase : Addr) (k : Kept) (s : Loading) (d : Dyn) :
    (s.withKept k).entry m aslrBase d =
      (s.entry m aslrBase d).map (Loading.withKept (k.entry m aslrBase d)) := by
  by_cases h1 : d.tag = dtHash
  · simp +decide only [Loading.entry, Kept.entry, h1, ↓reduceIte]
    rfl
  · by_cases h2 : d.tag = dtRelaCount
    · simp +decide only [Loading.entry, Kept.entry, h2, ↓reduceIte]
      rfl
    · by_cases h3 : d.tag = dtRelCount
      · simp +decide only [Loading.entry, Kept.entry, h3, ↓reduceIte]
        rfl
      · -- the other entries set other fields, or fail
        rw [Kept.entry_of_ne h1 h2 h3, Loading.entry, Loading.entry]
        repeat' (apply ite_eq_map <;> intro htag)
        all_goals first
          | rfl
          | cases exlAssert _ <;> rfl
          | contradiction

section Load
variable {m : Mem} {aslrBase : Addr}

theorem foldlM_withKept (ds : List Dyn) (k : Kept) (s : Loading) :
    ds.foldlM (Loading.entry m aslrBase) (s.withKept k) =
      (ds.foldlM (Loading.entry m aslrBase) s).map
        (Loading.withKept (ds.foldl (Kept.entry m aslrBase) k)) := by
  induction ds generalizing k s with
  | nil => rfl
  | cons d ds ih =>
    rw [List.foldlM_cons, List.foldlM_cons, entry_withKept]
    cases s.entry m aslrBase d with
    | error e => rfl
    | ok s' => exact ih _ s'

theorem stated_concat (ds : List Dyn) (d : Dyn) (tag : BitVec 64) :
    stated (ds++[d]) tag = if d.tag = tag then some d.val else stated ds tag := by
  rw [stated, List.reverse_concat]
  rfl

theorem stated_isSome_iff {ds : List Dyn} {tag : BitVec 64} :
    (stated ds tag).isSome ↔ ∃ d ∈ ds, d.tag = tag := by
  induction ds using List.reverseRecOn with
  | nil => simp [stated, dynLookup]
  | append_singleton ds d ih =>
    rw [stated_concat]
    by_cases h : d.tag = tag
    · rw [if_pos h]
      exact ⟨fun _ => ⟨d,List.mem_concat_self,h⟩,fun _ => rfl⟩
    · rw [if_neg h, ih]
      constructor
      · rintro ⟨e,he,ht⟩
        exact ⟨e,List.mem_append_left _ he,ht⟩
      · rintro ⟨e,he,ht⟩
        obtain he | he := List.mem_append.mp he
        · exact ⟨e,he,ht⟩
        · rw [List.mem_singleton.mp he] at ht
          exact absurd ht h

/-- The kept fields after the whole table. -/
theorem foldl_kept (ds : List Dyn) (k : Kept) :
    ds.foldl (Kept.entry m aslrBase) k =
      { k with
        relCount := (stated ds dtRelCount).getD k.relCount
        relaCount := (stated ds dtRelaCount).getD k.relaCount
        hashNchainValue := ((stated ds dtHash).map fun v =>
          (m.read32 (aslrBase+v+4)).setWidth 64).getD k.hashNchainValue
        hashNbucketValue := ((stated ds dtHash).map fun v =>
          (m.read32 (aslrBase+v)).setWidth 64).getD k.hashNbucketValue } := by
  induction ds using List.reverseRecOn with
  | nil => rfl
  | append_singleton ds d ih =>
    rw [List.foldl_concat, ih]
    simp only [stated_concat]
    by_cases h1 : d.tag = dtHash
    · simp +decide only [Kept.entry, h1, ↓reduceIte, Option.map_some, Option.getD_some]
    · by_cases h2 : d.tag = dtRelaCount
      · simp +decide only [Kept.entry, h2, ↓reduceIte, Option.getD_some]
      · by_cases h3 : d.tag = dtRelCount
        · simp +decide only [Kept.entry, h3, ↓reduceIte, Option.getD_some]
        · rw [Kept.entry_of_ne h1 h2 h3, if_neg h1, if_neg h2, if_neg h3]

/-- The fields that bound the loops over the tables and that `Initialize` clears. -/
structure Sizes where
  relaOrRelPltSize : BitVec 64
  isRela : Bool
  relDynSize : BitVec 64
  relaDynSize : BitVec 64
  deriving DecidableEq, Repr

def ModuleObject.sizes (o : ModuleObject) : Sizes :=
  ⟨o.relaOrRelPltSize,o.isRela,o.relDynSize,o.relaDynSize⟩

def Sizes.entry (z : Sizes) (d : Dyn) : Sizes :=
  if d.tag = dtPltRelSz then { z with relaOrRelPltSize := d.val }
  else if d.tag = dtPltRel then { z with isRela := d.val == dtRela }
  else if d.tag = dtRelSz then { z with relDynSize := d.val }
  else if d.tag = dtRelaSz then { z with relaDynSize := d.val }
  else z

/-- What the table says about them. -/
def statedSizes (ds : List Dyn) : Sizes where
  relaOrRelPltSize := (stated ds dtPltRelSz).getD 0
  isRela := stated ds dtPltRel == some dtRela
  relDynSize := (stated ds dtRelSz).getD 0
  relaDynSize := (stated ds dtRelaSz).getD 0

/-- A fact about the result of a call that succeeds. -/
def IfOk {ε α : Type} (P : α → Prop) (x : Except ε α) : Prop := ∀ a, x = .ok a → P a

theorem ifOk_ok {ε α : Type} {P : α → Prop} {a : α} (h : P a) : IfOk P (.ok a : Except ε α) :=
  fun _ hb => Except.ok.inj hb ▸ h

theorem ifOk_map {ε α β : Type} {P : α → Prop} {a : α} (x : Except ε β) (h : P a) :
    IfOk P (x.map fun _ => a) := by
  cases x with
  | error e => exact fun _ hb => by cases hb
  | ok b => exact ifOk_ok h

theorem ifOk_ite {ε α : Type} {P : α → Prop} {c : Prop} [Decidable c] {x y : Except ε α}
    (hx : c → IfOk P x) (hy : ¬c → IfOk P y) : IfOk P (if c then x else y) := by
  by_cases h : c
  · rw [if_pos h]
    exact hx h
  · rw [if_neg h]
    exact hy h

theorem sizes_entry (s : Loading) (d : Dyn) :
    IfOk (fun s' => s'.object.sizes = s.object.sizes.entry d) (s.entry m aslrBase d) := by
  by_cases h1 : d.tag = dtPltRelSz
  · simp +decide only [Loading.entry, Sizes.entry, h1, ↓reduceIte]
    exact ifOk_ok rfl
  · by_cases h2 : d.tag = dtPltRel
    · simp +decide only [Loading.entry, Sizes.entry, h2, ↓reduceIte]
      exact ifOk_map _ rfl
    · by_cases h3 : d.tag = dtRelSz
      · simp +decide only [Loading.entry, Sizes.entry, h3, ↓reduceIte]
        exact ifOk_ok rfl
      · by_cases h4 : d.tag = dtRelaSz
        · simp +decide only [Loading.entry, Sizes.entry, h4, ↓reduceIte]
          exact ifOk_ok rfl
        · -- the other entries set other fields, or fail
          rw [Sizes.entry, if_neg h1, if_neg h2, if_neg h3, if_neg h4, Loading.entry]
          repeat' (apply ifOk_ite <;> intro htag)
          all_goals first
            | exact ifOk_ok rfl
            | exact ifOk_map _ rfl
            | contradiction

theorem sizes_foldlM {ds : List Dyn} {s s' : Loading}
    (h : ds.foldlM (Loading.entry m aslrBase) s = .ok s') :
    s'.object.sizes = ds.foldl Sizes.entry s.object.sizes := by
  induction ds generalizing s with
  | nil => cases h; rfl
  | cons d ds ih =>
    rw [List.foldlM_cons] at h
    obtain ⟨s₁,hs₁,hrest⟩ := bind_ok h
    rw [ih hrest, List.foldl_cons, sizes_entry s d s₁ hs₁]

theorem foldl_sizes (ds : List Dyn) : ds.foldl Sizes.entry ⟨0,false,0,0⟩ = statedSizes ds := by
  induction ds using List.reverseRecOn with
  | nil => rfl
  | append_singleton ds d ih =>
    rw [List.foldl_concat, ih, statedSizes, statedSizes]
    simp only [stated_concat]
    by_cases h1 : d.tag = dtPltRelSz
    · simp +decide only [Sizes.entry, h1, ↓reduceIte, Option.getD_some]
    · by_cases h2 : d.tag = dtPltRel
      · simp +decide only [Sizes.entry, h2, ↓reduceIte, Option.some_beq_some]
      · by_cases h3 : d.tag = dtRelSz
        · simp +decide only [Sizes.entry, h3, ↓reduceIte, Option.getD_some]
        · by_cases h4 : d.tag = dtRelaSz
          · simp +decide only [Sizes.entry, h4, ↓reduceIte, Option.getD_some]
          · rw [Sizes.entry, if_neg h1, if_neg h2, if_neg h3, if_neg h4, if_neg h1, if_neg h2,
              if_neg h3, if_neg h4]

/-- Every proper entry but `DT_RELAENT` is read. -/
theorem entry_ok {d : Dyn} (hwf : EntryWf d) (hne : d.tag ≠ dtRelaEnt) (s : Loading) :
    ∃ s', s.entry m aslrBase d = .ok s' := by
  have hite : ∀ {c : Prop} [Decidable c] {x y : Except Halt Loading}, (c → ∃ s', x = .ok s') →
      (¬c → ∃ s', y = .ok s') → ∃ s', (if c then x else y) = .ok s' := by
    intro c _ x y hx hy
    by_cases h : c
    · rw [if_pos h]
      exact hx h
    · rw [if_neg h]
      exact hy h
  rw [Loading.entry]
  repeat' (apply hite <;> intro htag)
  all_goals first
    | exact ⟨_,rfl⟩
    | contradiction
    | rw [hwf.symEnt htag]; exact ⟨_,rfl⟩
    | rw [hwf.relEnt htag]; exact ⟨_,rfl⟩
    | obtain h | h := hwf.pltRel htag <;> rw [h] <;> exact ⟨_,rfl⟩

/-- `DT_RELAENT` with the right size fails its assertion. -/
theorem entry_relaEnt {d : Dyn} (hwf : EntryWf d) (htag : d.tag = dtRelaEnt) (s : Loading) :
    s.entry m aslrBase d = .error .assertion := by
  simp +decide only [Loading.entry, htag, ↓reduceIte, hwf.relaEnt htag]
  rfl

/-- So the table is read to its end exactly if it has no such entry. -/
theorem foldlM_ok_iff {ds : List Dyn} (hwf : ∀ d ∈ ds, EntryWf d) (s : Loading) :
    (∃ s', ds.foldlM (Loading.entry m aslrBase) s = .ok s') ↔ ∀ d ∈ ds, d.tag ≠ dtRelaEnt := by
  induction ds generalizing s with
  | nil => exact ⟨fun _ d hd => absurd hd List.not_mem_nil,fun _ => ⟨s,rfl⟩⟩
  | cons d ds ih =>
    have hwfd := hwf d List.mem_cons_self
    rw [List.foldlM_cons, List.forall_mem_cons]
    by_cases htag : d.tag = dtRelaEnt
    · rw [entry_relaEnt hwfd htag]
      constructor
      · rintro ⟨s',h⟩
        cases h
      · exact fun h => absurd htag h.1
    · obtain ⟨s₁,hs₁⟩ := @entry_ok m aslrBase d hwfd htag s
      have hrest := ih (fun e he => hwf e (List.mem_cons_of_mem d he)) s₁
      rw [hs₁]
      exact ⟨fun h => ⟨htag,hrest.mp h⟩,fun h => hrest.mpr h.2⟩

end Load

/-- An object that holds nothing. -/
def ModuleObject.blank : ModuleObject :=
  ⟨0,0,0,0,0,0,false,0,0,0,0,0,0,0,0,0,0,0,0,0,0,0,0,0,0,false⟩

/-- `rel_plt` is stored when the whole table was read. -/
def Loading.finish (s : Loading) : ModuleObject := { s.object with relaOrRelPlt := s.relPlt }

/-- The result is that of a blank object with the kept fields of the old one. -/
theorem initializeObject_eq {m : Mem} {aslrBase dynamic : Addr} {ds : List Dyn}
    (h : DynamicAt m dynamic ds) {fuel : ℕ} (hfuel : ds.length+1 ≤ fuel) (o : ModuleObject) :
    initializeObject m fuel aslrBase dynamic o =
      (ds.foldlM (Loading.entry m aslrBase) ⟨ModuleObject.blank.reset aslrBase dynamic,0⟩).map
        fun s => (s.withKept (ds.foldl (Kept.entry m aslrBase) o.kept)).finish := by
  have hreset : (⟨o.reset aslrBase dynamic,0⟩ : Loading) =
      Loading.withKept o.kept ⟨ModuleObject.blank.reset aslrBase dynamic,0⟩ := rfl
  rw [initializeObject, initializeLoop_eq ds h hfuel, hreset, foldlM_withKept]
  cases ds.foldlM (Loading.entry m aslrBase) ⟨ModuleObject.blank.reset aslrBase dynamic,0⟩ with
  | error e => rfl
  | ok s => rfl

end Rtld

end Zeldar
