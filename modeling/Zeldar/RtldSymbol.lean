import Zeldar.ElfHash
import Zeldar.RtldResolve

namespace Zeldar

def Mem.read16 (m : Mem) (a : Addr) : BitVec 16 := m (a+1)++m a

namespace Rtld

section Symbol
variable (m : Mem) (symbol : Addr)

def stName : Word := m.read32 symbol

def stInfo : BitVec 8 := m (symbol+4)

def stOther : BitVec 8 := m (symbol+5)

def stShndx : BitVec 16 := m.read16 (symbol+6)

def stValue : BitVec 64 := m.read64 (symbol+8)

end Symbol

/-- `SHN_COMMON`. -/
def shnCommon : BitVec 16 := 0xfff2

/-- `strcmp`; equal strings give zero. -/
def strcmp (m : Mem) : ℕ → Addr → Addr → Option ℤ
  | 0,_,_ => none
  | fuel+1,a,b =>
    if m a ≠ m b then some ((m a).toNat-(m b).toNat)
    else if m a = 0 then some 0
    else strcmp m fuel (a+1) (b+1)

/-- A loop that ran out of fuel. -/
def ended {α : Type} : Option α → Except Halt α
  | some a => .ok a
  | none => .error .diverged

section Lookup
variable (m : Mem) (fuel : ℕ) (o : ModuleObject) (name : Addr)

def symbolAt (i : Word) : Addr := entryAt o.dynsym sizeofSym (i.setWidth 64)

def nameAt (i : Word) : Addr := o.dynstr+(stName m (symbolAt o i)).setWidth 64

/-- The condition under which the loop returns. -/
def symbolMatches (i : Word) : Option Bool :=
  let shndx := stShndx m (symbolAt o i)
  let isCommon := if shndx ≠ 0 then shndx == shnCommon else true
  if !isCommon then (strcmp m fuel name (nameAt m o i)).map (· == 0) else some false

/-- The next index of a chain. -/
def chainNext (i : Word) : Word := m.read32 (o.hashChain+4*i.setWidth 64)

def bucketHead (bucket : BitVec 64) : Word := m.read32 (o.hashBucket+4*bucket)

/-- `GetSymbolByName`; the null pointer is `none`. -/
def getSymbolByName : Except Halt (Option Addr) := do
  let nameHash ← ended (rtldElfHash m fuel name)
  if o.hashNbucketValue = 0 then .error .fault
  else
    let i ← ended (findUntil id 0 (chainNext m o) (symbolMatches m fuel o name) fuel
      (bucketHead m o (nameHash%o.hashNbucketValue)))
    return i.map (symbolAt o)

end Lookup

theorem toNat_sub_ne_zero {x y : BitVec 8} (h : x ≠ y) : (x.toNat:ℤ)-y.toNat ≠ 0 := by
  intro h0
  apply h
  apply BitVec.eq_of_toNat_eq
  omega

theorem strcmp_eq {m : Mem} {a b : Addr} {s t : List (BitVec 8)} (ha : CStrAt m a s)
    (hb : CStrAt m b t) {fuel : ℕ} (hfuel : s.length < fuel) :
    ∃ d, strcmp m fuel a b = some d ∧ (d = 0 ↔ s = t) := by
  obtain ⟨fuel,rfl⟩ := Nat.exists_eq_add_of_lt hfuel
  clear hfuel
  -- the loop goes down both strings at once; the one that ends first decides
  induction s generalizing a b t with
  | nil =>
    have ha0 : m a = 0 := ha
    cases t with
    | nil =>
      have hb0 : m b = 0 := hb
      refine ⟨0,?_,by simp⟩
      rw [strcmp, if_neg (by rw [ha0, hb0]; exact not_not_intro rfl), if_pos ha0]
    | cons e t =>
      have hne : m a ≠ m b := by
        rw [ha0, hb.2.1]
        exact Ne.symm hb.1
      refine ⟨_,if_pos hne,?_⟩
      exact ⟨fun h => absurd h (toNat_sub_ne_zero hne),
        fun h => absurd h.symm (List.cons_ne_nil e t)⟩
  | cons c s ih =>
    obtain ⟨hc,hac,harest⟩ := ha
    cases t with
    | nil =>
      have hne : m a ≠ m b := by
        rw [hac, show m b = 0 from hb]
        exact hc
      refine ⟨_,if_pos hne,?_⟩
      exact ⟨fun h => absurd h (toNat_sub_ne_zero hne),fun h => absurd h (List.cons_ne_nil c s)⟩
    | cons e t =>
      obtain ⟨he,hbe,hbrest⟩ := hb
      by_cases hce : c = e
      · -- equal characters, none of them NUL
        obtain ⟨d,hd,hiff⟩ := ih harest hbrest
        refine ⟨d,?_,?_⟩
        · rw [show (c :: s).length+fuel+1 = s.length+fuel+1+1 by rw [List.length_cons]; omega,
            strcmp, if_neg (by rw [hac, hbe]; exact not_not_intro hce),
            if_neg (by rw [hac]; exact hc), hd]
        · rw [hiff, hce, List.cons_inj_right]
      · have hne : m a ≠ m b := by rwa [hac, hbe]
        refine ⟨_,if_pos hne,?_⟩
        exact ⟨fun h => absurd h (toNat_sub_ne_zero hne),fun h => absurd (List.cons.inj h).1 hce⟩

/-- A symbol that is neither undefined nor common. -/
def Defined (m : Mem) (o : ModuleObject) (i : Word) : Prop :=
  stShndx m (symbolAt o i) ≠ 0 ∧ stShndx m (symbolAt o i) ≠ shnCommon

instance (m : Mem) (o : ModuleObject) (i : Word) : Decidable (Defined m o i) :=
  inferInstanceAs (Decidable (_ ∧ _))

/-- A `DT_HASH` table over the symbols of a module, as a linker builds it: the
chain of each bucket ends, and holds the symbols whose names hash into it. -/
structure BuiltTable (m : Mem) (o : ModuleObject) (names : Word → List (BitVec 8))
    (chains : ℕ → List Word) : Prop where
  nbucket_pos : 0 < o.hashNbucketValue.toNat
  name_at : ∀ i : Word, i.toNat < o.hashNchainValue.toNat → CStrAt m (nameAt m o i) (names i)
  reserved : ¬Defined m o 0
  chain_at : ∀ b < o.hashNbucketValue.toNat,
    Terminated id 0 (chainNext m o) (bucketHead m o (BitVec.ofNat 64 b)) (chains b)
  mem_chain : ∀ b < o.hashNbucketValue.toNat, ∀ i, i ∈ chains b ↔
    i ≠ 0 ∧ i.toNat < o.hashNchainValue.toNat ∧
      (sysvHash (names i)).toNat%o.hashNbucketValue.toNat = b

/-- A defined symbol of the table with a name. -/
def Named (m : Mem) (o : ModuleObject) (names : Word → List (BitVec 8)) (s : List (BitVec 8))
    (i : Word) : Prop :=
  i.toNat < o.hashNchainValue.toNat ∧ Defined m o i ∧ names i = s

/-- The lookup ends with a defined symbol of the name, or with null if there is none. -/
def Finds (m : Mem) (o : ModuleObject) (names : Word → List (BitVec 8)) (name : Addr)
    (s : List (BitVec 8)) : Prop :=
  ∃ n, ∀ fuel, n ≤ fuel →
    (∃ i, Named m o names s i ∧ getSymbolByName m fuel o name = .ok (some (symbolAt o i))) ∨
    ((∀ i, ¬Named m o names s i) ∧ getSymbolByName m fuel o name = .ok none)

section Built
variable {m : Mem} {o : ModuleObject} {names : Word → List (BitVec 8)} {chains : ℕ → List Word}
  (hb : BuiltTable m o names chains) {name : Addr} {s : List (BitVec 8)} (hs : CStrAt m name s)
include hb hs

theorem symbolMatches_eq {i : Word} (hi : i.toNat < o.hashNchainValue.toNat) {fuel : ℕ}
    (hfuel : s.length < fuel) :
    symbolMatches m fuel o name i = some (decide (Defined m o i ∧ names i = s)) := by
  obtain ⟨d,hd,hiff⟩ := strcmp_eq hs (hb.name_at i hi) hfuel
  have hcmp : (strcmp m fuel name (nameAt m o i)).map (· == 0) = some (decide (names i = s)) := by
    rw [hd, Option.map_some, Option.some_inj, Bool.eq_iff_iff, beq_iff_eq, decide_eq_true_eq, hiff]
    exact eq_comm
  rw [symbolMatches, hcmp]
  by_cases h0 : stShndx m (symbolAt o i) = 0
  · have hno : ¬(Defined m o i ∧ names i = s) := fun h => h.1.1 h0
    rw [if_neg (not_not_intro h0), decide_eq_false hno]
    rfl
  · rw [if_pos h0]
    by_cases hcommon : stShndx m (symbolAt o i) = shnCommon
    · have hno : ¬(Defined m o i ∧ names i = s) := fun h => h.1.2 hcommon
      rw [beq_iff_eq.mpr hcommon, decide_eq_false hno]
      rfl
    · have hdef : Defined m o i := ⟨h0,hcommon⟩
      rw [beq_eq_false_iff_ne.mpr hcommon]
      simp only [hdef, true_and]
      rfl

/-- The bucket that the lookup searches. -/
def bucketOf (o : ModuleObject) (s : List (BitVec 8)) : ℕ :=
  (hashCarry s++sysvHash s : BitVec 64).toNat%o.hashNbucketValue.toNat

theorem getSymbolByName_eq {fuel : ℕ} (hfuel : s.length+(chains (bucketOf o s)).length < fuel) :
    getSymbolByName m fuel o name = .ok (((chains (bucketOf o s)).find?
      (fun i => decide (Defined m o i ∧ names i = s))).map (symbolAt o)) := by
  have hpos := hb.nbucket_pos
  have hlt : bucketOf o s < o.hashNbucketValue.toNat := Nat.mod_lt _ hpos
  have hne : o.hashNbucketValue ≠ 0 := by
    intro h0
    rw [h0] at hpos
    exact absurd hpos (by decide)
  have hval : ((hashCarry s++sysvHash s : BitVec 64)%o.hashNbucketValue).toNat = bucketOf o s :=
    BitVec.toNat_umod
  have hbucket : (hashCarry s++sysvHash s : BitVec 64)%o.hashNbucketValue =
      BitVec.ofNat 64 (bucketOf o s) := by
    rw [← hval, BitVec.ofNat_toNat, BitVec.setWidth_eq]
  have hfind := findUntil_eq (hb.chain_at _ hlt) (fun i hi =>
    symbolMatches_eq hb hs ((hb.mem_chain _ hlt i).mp hi).2.1 (show s.length < fuel by omega))
    (show (chains (bucketOf o s)).length < fuel by omega)
  rw [getSymbolByName, rtldElfHash_eq hs (by omega)]
  change (if o.hashNbucketValue = 0 then _ else _) = _
  rw [if_neg hne, hbucket, hfind]
  rfl

omit hs in
/-- What the searched chain yields is in the table, and hashes into that bucket. -/
theorem named_of_find {i : Word}
    (h : (chains (bucketOf o s)).find? (fun i => decide (Defined m o i ∧ names i = s)) = some i) :
    Named m o names s i ∧ bucketOf o s = (sysvHash s).toNat%o.hashNbucketValue.toNat := by
  have hpasses : Defined m o i ∧ names i = s :=
    of_decide_eq_true (List.find?_some (p := fun i => decide (Defined m o i ∧ names i = s)) h)
  obtain ⟨-,hlt,hhash⟩ :=
    (hb.mem_chain _ (Nat.mod_lt _ hb.nbucket_pos) i).mp (List.mem_of_find?_eq_some h)
  rw [hpasses.2] at hhash
  exact ⟨⟨hlt,hpasses⟩,hhash.symm⟩

omit hs in
/-- A defined symbol of the name is in the chain of the bucket of its 32-bit hash. -/
theorem mem_chain_of_named {i : Word} (h : Named m o names s i) :
    i ∈ chains ((sysvHash s).toNat%o.hashNbucketValue.toNat) := by
  obtain ⟨hlt,hdef,hname⟩ := h
  apply (hb.mem_chain _ (Nat.mod_lt _ hb.nbucket_pos) i).mpr
  refine ⟨?_,hlt,by rw [hname]⟩
  rintro rfl
  exact hb.reserved hdef

/-- The lookup finds what there is if and only if there is nothing of the name, or
the bucket it searches is that of the 32-bit hash. -/
theorem finds_iff_bucket :
    Finds m o names name s ↔ (∀ i, ¬Named m o names s i) ∨
      bucketOf o s = (sysvHash s).toNat%o.hashNbucketValue.toNat := by
  constructor
  · rintro ⟨n,hn⟩
    obtain ⟨i,-,hr⟩ | ⟨hnone,-⟩ := hn (max n (s.length+(chains (bucketOf o s)).length+1))
      (Nat.le_max_left _ _)
    · right
      rw [getSymbolByName_eq hb hs (Nat.lt_of_succ_le (Nat.le_max_right _ _))] at hr
      cases hfind : (chains (bucketOf o s)).find?
          (fun i => decide (Defined m o i ∧ names i = s)) with
      | none =>
        rw [hfind] at hr
        cases hr
      | some j => exact (named_of_find hb hfind).2
    · exact Or.inl hnone
  · intro h
    refine ⟨s.length+(chains (bucketOf o s)).length+1,fun fuel hfuel => ?_⟩
    rw [getSymbolByName_eq hb hs hfuel]
    cases hfind : (chains (bucketOf o s)).find? (fun i => decide (Defined m o i ∧ names i = s)) with
    | some j => exact Or.inl ⟨j,(named_of_find hb hfind).1,rfl⟩
    | none =>
      refine Or.inr ⟨?_,rfl⟩
      obtain hnone | hbucket := h
      · exact hnone
      · -- the chain was searched to its end, and the symbol would be in it
        intro i hi
        have hmem := mem_chain_of_named hb hi
        rw [← hbucket] at hmem
        have hpass := List.find?_eq_none.mp hfind i hmem
        exact hpass (decide_eq_true hi.2)

end Built

/-- `GetSymbolByName` is right about a name exactly if the table has no defined
symbol of it, or the number of buckets divides the carries that the 64-bit hash
keeps and the 32-bit hash drops. -/
theorem getSymbolByName_finds_iff {m : Mem} {o : ModuleObject} {names : Word → List (BitVec 8)}
    {chains : ℕ → List Word} (hb : BuiltTable m o names chains) {name : Addr}
    {s : List (BitVec 8)} (hs : CStrAt m name s) :
    Finds m o names name s ↔ (∀ i, ¬Named m o names s i) ∨
      o.hashNbucketValue.toNat ∣ 2^32*(hashCarry s).toNat := by
  rw [finds_iff_bucket hb hs, bucketOf, bucket_eq_iff]

/-- A name whose hash carries out of 32 bits: its hash of 64 bits is `2^32+2`. -/
def carryName : List (BitVec 8) := [0xff,0x0f,0x0f,0x0f,0x0f,0x0f,0x12]

/-- Three buckets and the symbol of that name, in the bucket of its 32-bit hash. -/
def carryModule : ModuleObject :=
  { ModuleObject.blank with
    hashBucket := 0x1000
    hashChain := 0x1010
    dynsym := 0x1020
    dynstr := 0x1050
    hashNbucketValue := 3
    hashNchainValue := 2 }

def carryMem : Mem :=
  overlay zeroMem 0x1000
    [0,0,1,0,0,0,0,0,0,0,0,0,0,0,1,0x10012,0x100,0,0,0,0x0f0fff00,0x120f0f0f,0]

def carryNames (i : Word) : List (BitVec 8) := if i = 0 then [] else carryName

def carryChains (b : ℕ) : List Word := if b = 2 then [1] else []

theorem carryName_at : CStrAt carryMem 0x1051 carryName :=
  ⟨by decide,rfl,by decide,rfl,by decide,rfl,by decide,rfl,by decide,rfl,by decide,rfl,by decide,
    rfl,rfl⟩

theorem carry_built : BuiltTable carryMem carryModule carryNames carryChains where
  nbucket_pos := by decide
  name_at i hi := by
    have hlt : i.toNat < 2 := hi
    obtain rfl | rfl : i = 0 ∨ i = 1 := by bv_omega
    · exact (rfl : carryMem 0x1050 = 0)
    · exact carryName_at
  reserved h := h.1 rfl
  chain_at b hb := by
    have hlt : b < 3 := hb
    interval_cases b
    · exact (rfl : bucketHead carryMem carryModule 0 = 0)
    · exact (rfl : bucketHead carryMem carryModule 1 = 0)
    · exact ⟨by decide,rfl,rfl⟩
  mem_chain b hb i := by
    have hlt : b < 3 := hb
    by_cases hi : i = 1
    · subst hi
      interval_cases b <;> decide
    · have hnot : i ∉ carryChains b := by
        rw [carryChains]
        split_ifs
        · exact fun h => hi (List.mem_singleton.mp h)
        · exact List.not_mem_nil
      refine ⟨fun h => absurd h hnot,fun h => absurd ?_ hi⟩
      have hsmall : i.toNat < 2 := h.2.1
      have hne := h.1
      bv_omega

theorem getSymbolByName_finds_iff_carry :
    Finds carryMem carryModule carryNames 0x1051 carryName ↔
      (∀ i, ¬Named carryMem carryModule carryNames carryName i) ∨
        (3#64).toNat ∣ 2^32*(hashCarry carryName).toNat :=
  getSymbolByName_finds_iff carry_built carryName_at

/-- The symbol is there, and the lookup returns null. -/
theorem not_finds_carry :
    BuiltTable carryMem carryModule carryNames carryChains ∧ CStrAt carryMem 0x1051 carryName ∧
    Named carryMem carryModule carryNames carryName 1 ∧
    getSymbolByName carryMem 8 carryModule 0x1051 = .ok none ∧
    ¬Finds carryMem carryModule carryNames 0x1051 carryName := by
  have hnamed : Named carryMem carryModule carryNames carryName 1 :=
    ⟨by decide,⟨by decide,by decide⟩,rfl⟩
  refine ⟨carry_built,carryName_at,hnamed,rfl,fun h => ?_⟩
  obtain hnone | hbucket := (finds_iff_bucket carry_built carryName_at).mp h
  · exact hnone 1 hnamed
  · exact absurd hbucket (by decide)

end Rtld

end Zeldar
