import Zeldar.DList
import Zeldar.RtldBind

namespace Zeldar

section Backward
variable {α : Type} {get : α → Option (Link α)} {prev : α → α} {p h l q : α} {xs : List α}

/-- Going back from the last node of a segment meets its nodes in reverse. -/
theorem DSeg.backward (hs : DSeg get p h xs l q) (hp : p ∉ xs)
    (hprev : ∀ x ∈ xs, ∀ k, get x = some k → prev x = k.prev) :
    Terminated id p prev l xs.reverse := by
  induction xs using List.reverseRecOn generalizing l q with
  | nil => exact hs.2
  | append_singleton xs x ih =>
    obtain ⟨k,n,hxs,hn,n',hget,-,hl⟩ := DSeg.append_iff.mp hs
    have hx : x ∈ xs++[x] := List.mem_append_right _ List.mem_cons_self
    rw [List.reverse_append, List.reverse_singleton, List.singleton_append, hl]
    refine ⟨?_,rfl,?_⟩
    · rintro rfl
      exact hp hx
    · rw [hprev x hx _ hget]
      exact ih hxs (fun hm => hp (List.mem_append_left _ hm))
        fun y hy => hprev y (List.mem_append_left _ hy)

end Backward

namespace Rtld

/-- The head of a ring of modules, which is a node of the ring itself. -/
structure ModuleObjectList where
  front : Addr
  back : Addr
  deriving DecidableEq, Repr

section Ring
variable (objectAt : Addr → ModuleObject) (list : Addr) (l : ModuleObjectList) (fuel : ℕ) (m : Mem)
  (name : Addr)

/-- `for (ModuleObject *module : ro::g_pAutoLoadList)`: from `back` through `prev`, up to the
list. -/
def autoLoadLoop : ℕ → Addr → Except Halt Addr
  | 0,_ => .error .diverged
  | n+1,module =>
    if module = list then .ok 0
    else if module = 0 then .error .fault
    else do
      match ← getSymbolByName m fuel (objectAt module) name with
      | some symbol =>
        if elfStBind (stInfo m symbol) ≠ 0 then
          return (objectAt module).moduleBase+stValue m symbol
        else autoLoadLoop n (objectAt module).prev
      | none => autoLoadLoop n (objectAt module).prev

def lookupGlobalAutoRing : Except Halt Addr :=
  if l.back = list then .ok 0 else autoLoadLoop objectAt list fuel m name fuel l.back

/-- The nodes from `front` through `next` are `modules`, and the links lead back as well. -/
structure LinkedRing (modules : List Addr) : Prop where
  segment : DSeg (fun a => some ⟨(objectAt a).next,(objectAt a).prev⟩) list l.front modules l.back
    list
  list_off : list ∉ modules
  null_off : 0 ∉ modules

variable {objectAt list l fuel m name}

theorem autoLoadLoop_eq {as : List Addr} (hnull : 0 ∉ as) {module : Addr}
    (h : Terminated id list (fun a => (objectAt a).prev) module as) {n : ℕ} (hn : as.length < n) :
    autoLoadLoop objectAt list fuel m name n module =
      lookupGlobalAuto fuel m name (as.map objectAt) := by
  obtain ⟨n,rfl⟩ := Nat.exists_eq_add_of_lt hn
  clear hn
  induction as generalizing module with
  | nil => exact if_pos h
  | cons a as ih =>
    obtain ⟨hne,hread,hrest⟩ := h
    change module = a at hread
    subst hread
    -- neither the end of the loop nor a null pointer, so the loop looks into the module
    have h0 : module ≠ 0 := fun h0 => hnull (h0 ▸ List.mem_cons_self)
    have hlater := ih (fun hm => hnull (List.mem_cons_of_mem _ hm)) hrest
    have hsucc : (module :: as).length+n+1 = as.length+n+1+1 := by
      rw [List.length_cons]
      omega
    rw [hsucc, autoLoadLoop, if_neg hne, if_neg h0, hlater]
    rfl

/-- Over a ring the loop is the loop over its modules, the last one first. -/
theorem lookupGlobalAutoRing_eq {modules : List Addr} (h : LinkedRing objectAt list l modules)
    (hfuel : modules.length < fuel) :
    lookupGlobalAutoRing objectAt list l fuel m name =
      lookupGlobalAuto fuel m name (modules.reverse.map objectAt) := by
  have hback := @DSeg.backward _ _ (fun a => (objectAt a).prev) _ _ _ _ _ h.segment h.list_off
    fun x _ k hk => congrArg Link.prev (Option.some.inj hk)
  rw [lookupGlobalAutoRing]
  split
  · rename_i hempty
    -- the list is its own last node
    cases hrev : modules.reverse with
    | nil => rfl
    | cons a as =>
      rw [hrev] at hback
      exact absurd (hback.2.1.symm.trans hempty) hback.1
  · refine autoLoadLoop_eq ?_ hback ?_
    · rw [List.mem_reverse]
      exact h.null_off
    · rwa [List.length_reverse]

end Ring

section Meaning
variable (m : Mem) (names : ModuleObject → Word → List (BitVec 8)) (s : List (BitVec 8))

/-- A defined symbol of the name that is not local. -/
def Exports (o : ModuleObject) (i : Word) : Prop :=
  Named m o (names o) s i ∧ elfStBind (stInfo m (symbolAt o i)) ≠ 0

def symbolAddress (o : ModuleObject) (i : Word) : Addr := o.moduleBase+stValue m (symbolAt o i)

/-- The address of the name in the first of the modules that exports it, or 0. -/
inductive FirstExport : List ModuleObject → Addr → Prop
  | nil : FirstExport [] 0
  | here {o os i} (h : Exports m names s o i) : FirstExport (o :: os) (symbolAddress m o i)
  | later {o os a} (h : ∀ i, ¬Exports m names s o i) (hos : FirstExport os a) :
    FirstExport (o :: os) a

/-- A module whose hash table was built by a linker, with the name at most once, and whose lookup
searches the right bucket for it. -/
structure Searchable (o : ModuleObject) : Prop where
  built : ∃ chains, BuiltTable m o (names o) chains
  once : ∀ i j, Named m o (names o) s i → Named m o (names o) s j → i = j
  bucket : o.hashNbucketValue.toNat ∣ 2^32*(hashCarry s).toNat

/-- What a symbol of `o` stands for: with a visibility of its own a definition of `o`, or 0 if it
is weak; otherwise the first export, or what the manual lookup gives. -/
inductive Resolution (os : List ModuleObject) (manual : Option (Mem → Addr → Addr))
    (o : ModuleObject) (name symbol : Addr) : Option Addr → Prop
  | own {i} (hv : elfStVisibility (stOther m symbol) ≠ 0) (h : Named m o (names o) s i) :
    Resolution os manual o name symbol (some (symbolAddress m o i))
  | weak (hv : elfStVisibility (stOther m symbol) ≠ 0) (h : ∀ i, ¬Named m o (names o) s i)
    (hw : elfStBind (stInfo m symbol) &&& stbWeak = stbWeak) :
    Resolution os manual o name symbol (some 0)
  | undefined (hv : elfStVisibility (stOther m symbol) ≠ 0) (h : ∀ i, ¬Named m o (names o) s i)
    (hw : elfStBind (stInfo m symbol) &&& stbWeak ≠ stbWeak) :
    Resolution os manual o name symbol none
  | auto {a} (hv : elfStVisibility (stOther m symbol) = 0) (h : FirstExport m names s os a)
    (ha : a ≠ 0) : Resolution os manual o name symbol (some a)
  | manual {f} (hv : elfStVisibility (stOther m symbol) = 0) (h : FirstExport m names s os 0)
    (hf : manual = some f) (ha : f m name ≠ 0) :
    Resolution os manual o name symbol (some (f m name))
  | missing (hv : elfStVisibility (stOther m symbol) = 0) (h : FirstExport m names s os 0)
    (hf : ∀ f, manual = some f → f m name = 0) : Resolution os manual o name symbol none

end Meaning

section Lookup
variable {m : Mem} {names : ModuleObject → Word → List (BitVec 8)} {s : List (BitVec 8)}
  {name : Addr} (hs : CStrAt m name s)
include hs

theorem Searchable.finds {o : ModuleObject} (h : Searchable m names s o) :
    ∃ n, ∀ fuel, n ≤ fuel →
      (∀ i, Named m o (names o) s i → getSymbolByName m fuel o name = .ok (some (symbolAt o i))) ∧
        ((∀ i, ¬Named m o (names o) s i) → getSymbolByName m fuel o name = .ok none) := by
  obtain ⟨chains,hb⟩ := h.built
  have hbucket := (bucket_eq_iff s o.hashNbucketValue.toNat).mpr h.bucket
  obtain ⟨n,hn⟩ := (finds_iff_bucket hb hs).mpr (Or.inr hbucket)
  refine ⟨n,fun fuel hfuel => ?_⟩
  obtain ⟨i,hi,hget⟩ | ⟨hnone,hget⟩ := hn fuel hfuel
  · refine ⟨fun j hj => ?_,fun hnone => absurd hi (hnone i)⟩
    -- it may have found another symbol of the name, but there is only one
    rw [h.once j i hj hi]
    exact hget
  · exact ⟨fun j hj => absurd hj (hnone j),fun _ => hget⟩

/-- The search comes to the first export. -/
theorem lookupGlobalAuto_first {os : List ModuleObject} (h : ∀ o ∈ os, Searchable m names s o) :
    ∃ a, FirstExport m names s os a ∧ ∃ n, ∀ fuel, n ≤ fuel →
      lookupGlobalAuto fuel m name os = .ok a := by
  induction os with
  | nil => exact ⟨0,.nil,0,fun _ _ => rfl⟩
  | cons o os ih =>
    obtain ⟨n,hn⟩ := (h o List.mem_cons_self).finds hs
    obtain ⟨a,ha,k,hk⟩ := ih fun o' ho' => h o' (List.mem_cons_of_mem _ ho')
    by_cases hnamed : ∃ i, Named m o (names o) s i
    · obtain ⟨i,hi⟩ := hnamed
      by_cases hbind : elfStBind (stInfo m (symbolAt o i)) ≠ 0
      · refine ⟨_,.here ⟨hi,hbind⟩,n,fun fuel hfuel => ?_⟩
        rw [lookupGlobalAuto, (hn fuel hfuel).1 i hi]
        exact if_pos hbind
      · -- the only symbol of the name is a local one
        refine ⟨a,.later (fun j hj => hbind ?_) ha,max n k,fun fuel hfuel => ?_⟩
        · rw [h o List.mem_cons_self |>.once i j hi hj.1]
          exact hj.2
        · rw [lookupGlobalAuto, (hn fuel ((Nat.le_max_left _ _).trans hfuel)).1 i hi]
          exact (if_neg hbind).trans (hk fuel ((Nat.le_max_right _ _).trans hfuel))
    · have hnone : ∀ i, ¬Named m o (names o) s i := fun i hi => hnamed ⟨i,hi⟩
      refine ⟨a,.later (fun j hj => hnone j hj.1) ha,max n k,fun fuel hfuel => ?_⟩
      rw [lookupGlobalAuto, (hn fuel ((Nat.le_max_left _ _).trans hfuel)).2 hnone]
      exact hk fuel ((Nat.le_max_right _ _).trans hfuel)

/-- `lookup_global_auto` gives the address of the name in the module nearest to the end of the
ring that exports it, and 0 if no module does. -/
theorem lookup_global_auto_first {objectAt : Addr → ModuleObject} {list : Addr}
    {l : ModuleObjectList} {modules : List Addr} (hring : LinkedRing objectAt list l modules)
    (h : ∀ a ∈ modules, Searchable m names s (objectAt a)) :
    ∃ a, FirstExport m names s (modules.reverse.map objectAt) a ∧ ∃ n, ∀ fuel, n ≤ fuel →
      lookupGlobalAutoRing objectAt list l fuel m name = .ok a := by
  have hos : ∀ o ∈ modules.reverse.map objectAt, Searchable m names s o := by
    intro o ho
    obtain ⟨a,ha,rfl⟩ := List.mem_map.mp ho
    exact h a (List.mem_reverse.mp ha)
  obtain ⟨a,ha,n,hn⟩ := lookupGlobalAuto_first hs hos
  refine ⟨a,ha,max n (modules.length+1),fun fuel hfuel => ?_⟩
  rw [lookupGlobalAutoRing_eq hring ((Nat.le_max_right _ _).trans hfuel)]
  exact hn fuel ((Nat.le_max_left _ _).trans hfuel)

end Lookup

section ThreeModules

/-- A table with one bucket and one symbol besides the reserved one. -/
theorem oneSymbol_built {m : Mem} {o : ModuleObject} {names : Word → List (BitVec 8)}
    (hnbucket : o.hashNbucketValue = 1) (hnchain : o.hashNchainValue = 2)
    (hnames : ∀ i : Word, i = 0 ∨ i = 1 → CStrAt m (nameAt m o i) (names i))
    (hreserved : ¬Defined m o 0) (hhead : bucketHead m o 0 = 1) (hnext : chainNext m o 1 = 0) :
    BuiltTable m o names fun _ => [1] where
  nbucket_pos := by
    rw [hnbucket]
    decide
  name_at i hi := by
    rw [hnchain] at hi
    exact hnames i (by bv_omega)
  reserved := hreserved
  chain_at b hb := by
    rw [hnbucket] at hb
    obtain rfl : b = 0 := Nat.lt_one_iff.mp hb
    refine ⟨by decide,hhead,?_⟩
    change chainNext m o (bucketHead m o 0) = 0
    rw [hhead, hnext]
  mem_chain b hb i := by
    rw [hnbucket] at hb
    obtain rfl : b = 0 := Nat.lt_one_iff.mp hb
    rw [List.mem_singleton, hnbucket, hnchain]
    constructor
    · rintro rfl
      exact ⟨by decide,by decide,Nat.mod_one _⟩
    · rintro ⟨hne,hlt,-⟩
      bv_omega

theorem named_one {m : Mem} {o : ModuleObject} {names : Word → List (BitVec 8)}
    {s : List (BitVec 8)} {i : Word} (hnchain : o.hashNchainValue = 2) (h0 : names 0 ≠ s)
    (h : Named m o names s i) : i = 1 := by
  have hlt := h.1
  rw [hnchain] at hlt
  have hne : i ≠ 0 := by
    rintro rfl
    exact h0 h.2.2
  bv_omega

/-- A symbol with a name from the common string table, where `f` is at 1 and `g` at 3. -/
def symbolTable (name info value : Word) : List Word :=
  [1,0,0,0,0,0,0,0,0,0,name,info,value,0,0,0]

/-- A global `f`, a global `g` and a local `f`. -/
def ringMem : Mem :=
  overlay zeroMem 0x1000 (symbolTable 1 0x10012 0x100++symbolTable 3 0x10012 0x200++
    symbolTable 1 0x10002 0x300++[0x67006600])

def ringModule (table next prev moduleBase : Addr) : ModuleObject :=
  { ModuleObject.blank with
    next := next
    prev := prev
    moduleBase := moduleBase
    hashBucket := table
    hashChain := table+4
    dynsym := table+0x10
    dynstr := 0x10c0
    hashNbucketValue := 1
    hashNchainValue := 2 }

def exporter : ModuleObject := ringModule 0x1000 0x2100 0x3000 0x40000

def bystander : ModuleObject := ringModule 0x1040 0x2200 0x2000 0x50000

def concealer : ModuleObject := ringModule 0x1080 0x3000 0x2100 0x60000

def ringObject (a : Addr) : ModuleObject :=
  if a = 0x2000 then exporter else if a = 0x2100 then bystander else concealer

def ringNames (o : ModuleObject) (i : Word) : List (BitVec 8) :=
  if i = 0 then [] else if o = bystander then [0x67] else [0x66]

theorem ring_linked :
    LinkedRing ringObject 0x3000 ⟨0x2000,0x2200⟩ [0x2000,0x2100,0x2200] :=
  ⟨⟨rfl,_,rfl,rfl,_,rfl,rfl,_,rfl,rfl,rfl⟩,by decide,by decide⟩

theorem f_at : CStrAt ringMem 0x10c1 [0x66] := ⟨by decide,rfl,rfl⟩

theorem ring_searchable {o : ModuleObject} (ho : o ∈ [concealer,bystander,exporter]) :
    Searchable ringMem ringNames [0x66] o := by
  have hnchain : o.hashNchainValue = 2 := by
    simp only [List.mem_cons, List.not_mem_nil, or_false] at ho
    rcases ho with rfl | rfl | rfl <;> rfl
  refine ⟨⟨fun _ => [1],?_⟩,fun i j hi hj => ?_,?_⟩
  · simp only [List.mem_cons, List.not_mem_nil, or_false] at ho
    rcases ho with rfl | rfl | rfl <;>
      refine oneSymbol_built rfl rfl ?_ (fun h => h.1 rfl) rfl rfl <;> rintro i (rfl | rfl)
    · exact (rfl : ringMem 0x10c0 = 0)
    · exact f_at
    · exact (rfl : ringMem 0x10c0 = 0)
    · exact (⟨by decide,rfl,rfl⟩ : CStrAt ringMem 0x10c3 [0x67])
    · exact (rfl : ringMem 0x10c0 = 0)
    · exact f_at
  · have h0 : ringNames o 0 ≠ [0x66] := by
      rw [ringNames, if_pos rfl]
      decide
    rw [named_one hnchain h0 hi, named_one hnchain h0 hj]
  · simp only [List.mem_cons, List.not_mem_nil, or_false] at ho
    rcases ho with rfl | rfl | rfl <;> exact one_dvd _

/-- The last module has an `f` of its own, the one before it has none. -/
theorem ring_first {a : Addr}
    (ha : FirstExport ringMem ringNames [0x66] [concealer,bystander,exporter] a) :
    a = 0x40100 := by
  have hexports {o : ModuleObject} {i : Word} (hnchain : o.hashNchainValue = 2)
      (h : Exports ringMem ringNames [0x66] o i) : i = 1 := by
    refine named_one hnchain ?_ h.1
    rw [ringNames, if_pos rfl]
    decide
  cases ha with
  | here h =>
    obtain rfl := hexports rfl h
    exact absurd h.2 (by decide)
  | later _ ha =>
    cases ha with
    | here h =>
      obtain rfl := hexports rfl h
      exact absurd h.1.2.2 (by decide)
    | later _ ha =>
      cases ha with
      | here h =>
        obtain rfl := hexports rfl h
        rfl
      | later hno _ => exact absurd ⟨⟨by decide,by decide,by decide⟩,by decide⟩ (hno 1)

theorem lookup_global_auto_first_ring : ∃ n, ∀ fuel, n ≤ fuel →
    lookupGlobalAutoRing ringObject 0x3000 ⟨0x2000,0x2200⟩ fuel ringMem 0x10c1 = .ok 0x40100 := by
  obtain ⟨a,ha,h⟩ := lookup_global_auto_first f_at ring_linked fun a ha => by
    apply ring_searchable
    simp only [List.mem_cons, List.not_mem_nil, or_false] at ha
    rcases ha with rfl | rfl | rfl <;> decide
  rw [ring_first ha] at h
  exact h

end ThreeModules

section Resolve
variable {m : Mem} {names : ModuleObject → Word → List (BitVec 8)} {s : List (BitVec 8)}
  {globals : Globals} {o : ModuleObject} {symbol : Addr}
  (hs : CStrAt m (o.dynstr+(stName m symbol).setWidth 64) s)
include hs

theorem tryResolveSymbol_own (ho : Searchable m names s o)
    (hv : elfStVisibility (stOther m symbol) ≠ 0) :
    ∃ r, Resolution m names s globals.autoLoadList globals.lookupGlobalManual o
        (o.dynstr+(stName m symbol).setWidth 64) symbol r ∧ ∃ n, ∀ fuel, n ≤ fuel →
      tryResolveSymbol globals fuel o m symbol = .ok r := by
  obtain ⟨n,hn⟩ := ho.finds hs
  by_cases hnamed : ∃ i, Named m o (names o) s i
  · obtain ⟨i,hi⟩ := hnamed
    refine ⟨_,.own hv hi,n,fun fuel hfuel => ?_⟩
    rw [tryResolveSymbol]
    dsimp only
    rw [if_pos hv, (hn fuel hfuel).1 i hi]
    rfl
  have hnone : ∀ i, ¬Named m o (names o) s i := fun i hi => hnamed ⟨i,hi⟩
  have hrun : ∀ fuel, n ≤ fuel → tryResolveSymbol globals fuel o m symbol =
      if elfStBind (stInfo m symbol) &&& stbWeak = stbWeak then .ok (some 0) else .ok none := by
    intro fuel hfuel
    rw [tryResolveSymbol]
    dsimp only
    rw [if_pos hv, (hn fuel hfuel).2 hnone]
    rfl
  by_cases hw : elfStBind (stInfo m symbol) &&& stbWeak = stbWeak
  · exact ⟨_,.weak hv hnone hw,n,fun fuel hfuel => (hrun fuel hfuel).trans (if_pos hw)⟩
  · exact ⟨_,.undefined hv hnone hw,n,fun fuel hfuel => (hrun fuel hfuel).trans (if_neg hw)⟩

theorem tryResolveSymbol_global (h : ∀ o ∈ globals.autoLoadList, Searchable m names s o)
    (hv : elfStVisibility (stOther m symbol) = 0) :
    ∃ r, Resolution m names s globals.autoLoadList globals.lookupGlobalManual o
        (o.dynstr+(stName m symbol).setWidth 64) symbol r ∧ ∃ n, ∀ fuel, n ≤ fuel →
      tryResolveSymbol globals fuel o m symbol = .ok r := by
  obtain ⟨a,ha,n,hn⟩ := lookupGlobalAuto_first hs h
  have hrun : ∀ fuel, n ≤ fuel → tryResolveSymbol globals fuel o m symbol =
      .ok (let address := if a = 0 then (globals.lookupGlobalManual.map fun f =>
          f m (o.dynstr+(stName m symbol).setWidth 64)).getD a else a
        if address ≠ 0 then some address else none) := by
    intro fuel hfuel
    rw [tryResolveSymbol]
    dsimp only
    rw [if_neg (not_not_intro hv), hn fuel hfuel]
    rfl
  rcases ne_or_eq a 0 with ha0 | rfl
  · refine ⟨some a,.auto hv ha ha0,n,fun fuel hfuel => ?_⟩
    rw [hrun fuel hfuel]
    simp only [ha0, ↓reduceIte, ne_eq, not_false_eq_true]
  -- nothing is loaded at 0, so 0 stands for a name that was not found
  cases hm : globals.lookupGlobalManual with
  | none =>
    refine ⟨none,.missing hv ha (by rintro g ⟨⟩),n,fun fuel hfuel => ?_⟩
    rw [hrun fuel hfuel, hm]
    rfl
  | some f =>
    by_cases hf : f m (o.dynstr+(stName m symbol).setWidth 64) = 0
    · refine ⟨none,.missing hv ha (by rintro g ⟨⟩; exact hf),n,fun fuel hfuel => ?_⟩
      rw [hrun fuel hfuel, hm]
      simp only [↓reduceIte, Option.map_some, Option.getD_some, hf, ne_eq, not_true_eq_false]
    · refine ⟨_,.manual hv ha rfl hf,n,fun fuel hfuel => ?_⟩
      rw [hrun fuel hfuel, hm]
      simp only [↓reduceIte, Option.map_some, Option.getD_some, hf, ne_eq, not_false_eq_true]

/-- `TryResolveSymbol` finds what the symbol stands for. -/
theorem tryResolveSymbol_resolution (ho : Searchable m names s o)
    (h : ∀ o ∈ globals.autoLoadList, Searchable m names s o) :
    ∃ r, Resolution m names s globals.autoLoadList globals.lookupGlobalManual o
        (o.dynstr+(stName m symbol).setWidth 64) symbol r ∧ ∃ n, ∀ fuel, n ≤ fuel →
      tryResolveSymbol globals fuel o m symbol = .ok r := by
  by_cases hv : elfStVisibility (stOther m symbol) = 0
  · exact tryResolveSymbol_global hs h hv
  · exact tryResolveSymbol_own hs ho hv

end Resolve

/-- The entry at 0x10a8 has the name `f` and the default visibility; it stands for the `f` that is
exported, though the last module has one of its own. -/
theorem tryResolveSymbol_resolution_ring : ∃ n, ∀ fuel, n ≤ fuel →
    tryResolveSymbol ⟨[concealer,bystander,exporter],none⟩ fuel bystander ringMem 0x10a8 =
      .ok (some 0x40100) := by
  obtain ⟨r,hr,h⟩ := @tryResolveSymbol_resolution ringMem ringNames [0x66]
    ⟨[concealer,bystander,exporter],none⟩ bystander 0x10a8 f_at (ring_searchable (by decide))
    fun _ => ring_searchable
  have hvisible : elfStVisibility (stOther ringMem 0x10a8) = 0 := by decide
  cases hr with
  | own hv _ | weak hv _ _ | undefined hv _ _ => exact absurd hvisible hv
  | auto _ ha _ =>
    rw [ring_first ha] at h
    exact h
  | manual _ ha _ _ => exact absurd (ring_first ha) (by decide)
  | missing _ ha _ => exact absurd (ring_first ha) (by decide)

end Rtld

end Zeldar
