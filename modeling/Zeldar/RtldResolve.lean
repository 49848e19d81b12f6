import Zeldar.RtldObject
import Zeldar.ElfReloc

namespace Zeldar

/-- `R_AARCH64_ABS64`, `R_AARCH64_ABS32`, `R_AARCH64_GLOB_DAT` and
`R_AARCH64_JUMP_SLOT`. -/
def archAbs64 : BitVec 64 := 257
def archAbs32 : BitVec 64 := 258
def archGlobDat : BitVec 64 := 1025
def archJumpSlot : BitVec 64 := 1026

def elfRSym (info : BitVec 64) : BitVec 64 := info >>> 32

namespace Rtld

section Loop
variable {w : ℕ} {τ : Type} (body : BitVec w → τ → Except Halt τ) (count : BitVec 64)

/-- `for (; i < count; i++)`, whose index has `w` bits. -/
def indexLoop : ℕ → BitVec w → τ → Except Halt τ
  | 0,_,_ => .error .diverged
  | fuel+1,i,s =>
    if i.setWidth 64 < count then do
      let s ← body i s
      indexLoop fuel (i+1) s
    else .ok s

/-- The indices from `lo` up to, and not including, `hi`. -/
def overRange (lo hi : ℕ) (s : τ) : Except Halt τ :=
  (List.range' lo (hi-lo)).foldlM (fun s i => body (BitVec.ofNat w i) s) s

variable {body} {count}

/-- A loop whose index can reach the count runs over the indices up to it. -/
theorem indexLoop_eq (hw : w ≤ 64) (hcount : count.toNat < 2^w) (i : BitVec w) (s : τ) {fuel : ℕ}
    (hfuel : count.toNat-i.toNat < fuel) :
    indexLoop body count fuel i s = overRange body i.toNat count.toNat s := by
  have hle : ∀ i : BitVec w, i.setWidth 64 < count ↔ i.toNat < count.toNat := by
    intro i
    rw [BitVec.lt_def, BitVec.toNat_setWidth_of_le hw]
  induction fuel generalizing i s with
  | zero => exact absurd hfuel (Nat.not_lt_zero _)
  | succ fuel ih =>
    rw [indexLoop, overRange]
    by_cases hi : i.toNat < count.toNat
    · have hnext : (i+1).toNat = i.toNat+1 := by
        have hlt : i.toNat+1 < 2^w := by omega
        have hone : (1#w).toNat = 1 := by
          rw [BitVec.toNat_ofNat, Nat.mod_eq_of_lt (by omega)]
        have hadd := BitVec.toNat_add i (1#w)
        rw [hone, Nat.mod_eq_of_lt hlt] at hadd
        exact hadd
      rw [if_pos ((hle i).mpr hi), show count.toNat-i.toNat = count.toNat-(i.toNat+1)+1 by omega,
        List.range'_succ, List.foldlM_cons, BitVec.ofNat_toNat, BitVec.setWidth_eq]
      cases body i s with
      | error e => rfl
      | ok s' =>
        have hrest := ih (i+1) s' (by omega)
        rw [overRange, hnext] at hrest
        exact hrest
    · rw [if_neg (fun h => hi ((hle i).mp h)), Nat.sub_eq_zero_of_le (by omega)]
      rfl

/-- A loop whose index cannot reach the count does not end, whatever it does. -/
theorem indexLoop_ne_ok (hw : w ≤ 64) (hcount : 2^w ≤ count.toNat) (fuel : ℕ) (i : BitVec w)
    (s s' : τ) : indexLoop body count fuel i s ≠ .ok s' := by
  induction fuel generalizing i s with
  | zero =>
    intro h
    cases h
  | succ fuel ih =>
    have hi : i.setWidth 64 < count := by
      rw [BitVec.lt_def, BitVec.toNat_setWidth_of_le hw]
      exact i.isLt.trans_le hcount
    rw [indexLoop, if_pos hi]
    intro h
    obtain ⟨s₁,-,hrest⟩ := bind_ok h
    exact ih (i+1) s₁ hrest

/-- A loop that ends with some fuel ends in the same way with more. -/
theorem indexLoop_mono {fuel fuel' : ℕ} (hle : fuel ≤ fuel') {i : BitVec w} {s s' : τ}
    (h : indexLoop body count fuel i s = .ok s') : indexLoop body count fuel' i s = .ok s' := by
  induction fuel generalizing fuel' i s with
  | zero => cases h
  | succ fuel ih =>
    obtain ⟨fuel',rfl⟩ := Nat.exists_eq_add_of_le' (Nat.one_le_of_lt hle)
    rw [indexLoop] at h ⊢
    by_cases hi : i.setWidth 64 < count
    · rw [if_pos hi] at h ⊢
      obtain ⟨s₁,hs₁,hrest⟩ := bind_ok h
      rw [hs₁]
      exact ih (by omega) hrest
    · rwa [if_neg hi] at h ⊢

theorem overRange_ok {f : BitVec w → τ → τ} (hf : ∀ i s, body i s = .ok (f i s)) (lo hi : ℕ)
    (s : τ) : ∃ s', overRange body lo hi s = .ok s' := by
  rw [overRange]
  induction List.range' lo (hi-lo) generalizing s with
  | nil => exact ⟨s,rfl⟩
  | cons i is ih =>
    rw [List.foldlM_cons, hf]
    exact ih _

/-- A state that every pass leaves alone is left alone by the range. -/
theorem overRange_fixed {s : τ} (hfix : ∀ i, body i s = .ok s) (lo hi : ℕ) :
    overRange body lo hi s = .ok s := by
  rw [overRange]
  induction List.range' lo (hi-lo) with
  | nil => rfl
  | cons i is ih =>
    rw [List.foldlM_cons, hfix]
    exact ih

end Loop

/-- The address of an entry in a table. -/
def entryAt (table : Addr) (size : ℕ) (index : BitVec 64) : Addr :=
  table+index*BitVec.ofNat 64 size

/-- The bodies of the two loops of `Relocate`. -/
def relocateRel (o : ModuleObject) (i : BitVec 32) (m : Mem) : Except Halt Mem :=
  .ok (relEntry o.moduleBase (entryAt o.relaOrRel sizeofRel (i.setWidth 64)) m)

def relocateRela (o : ModuleObject) (i : BitVec 32) (m : Mem) : Except Halt Mem :=
  .ok (relaEntry o.moduleBase (entryAt o.relaOrRel sizeofRela (i.setWidth 64)) m)

/-- `if (count) for (...)`. -/
def countedLoop {τ : Type} (body : BitVec 32 → τ → Except Halt τ) (count : BitVec 64) (fuel : ℕ)
    (s : τ) : Except Halt τ :=
  if count ≠ 0 then indexLoop body count fuel 0 s else .ok s

def relocate (fuel : ℕ) (o : ModuleObject) (m : Mem) : Except Halt Mem := do
  let m ← countedLoop (relocateRel o) o.relCount fuel m
  countedLoop (relocateRela o) o.relaCount fuel m

/-- What `ResolveSymbols` changes: the member `got_stub_ptr`, and the memory. -/
structure ResolveState where
  gotStubPtr : Addr
  mem : Mem

/-- The code around the module: the object's own address, and that of the lazy
resolver. -/
structure ResolveEnv where
  self : Addr
  runtimeResolve : Addr

/-- `TryResolveSymbol`: the target address if it succeeds, of the symbol at an
address. -/
abbrev Resolver := Mem → Addr → Except Halt (Option Addr)

section Resolve
variable (resolve : Resolver) (o : ModuleObject)

/-- The value that a slot gets of the looked-up address. -/
abbrev SlotValue := Mem → (entry target symbol : Addr) → BitVec 64

/-- `REL`: the addend is in the slot. -/
def relValue : SlotValue := fun m _ target symbol => m.read64 target+symbol

/-- `RELA`: the addend is in the entry. -/
def relaValue : SlotValue := fun m entry _ symbol => symbol+m.read64 (entry+16)

def entryTarget (m : Mem) (entry : Addr) : Addr := o.moduleBase+m.read64 entry

def entrySymbol (m : Mem) (entry : Addr) : Addr :=
  entryAt o.dynsym sizeofSym (elfRSym (m.read64 (entry+8)))

/-- `ARCH_IS_REL_ABSOLUTE(r_type) || r_type == ARCH_GLOB_DAT`. -/
def isAbsolute (info : BitVec 64) : Bool :=
  elfRType info == archAbs32 || elfRType info == archAbs64 || elfRType info == archGlobDat

def isJumpSlot (info : BitVec 64) : Bool := elfRType info == archJumpSlot

/-- A symbol that is not found leaves the slot; printing its name does nothing. -/
def resolveSymbolAbsolute (value : SlotValue) (entry : Addr) (s : ResolveState) :
    Except Halt ResolveState := do
  if isAbsolute (s.mem.read64 (entry+8)) then
    match ← resolve s.mem (entrySymbol o s.mem entry) with
    | some symbol =>
      let target := entryTarget o s.mem entry
      return { s with mem := s.mem.write64 target (value s.mem entry target symbol) }
    | none => return s
  else return s

def resolveSymbolRelAbsolute : Addr → ResolveState → Except Halt ResolveState :=
  resolveSymbolAbsolute resolve o relValue

def resolveSymbolRelaAbsolute : Addr → ResolveState → Except Halt ResolveState :=
  resolveSymbolAbsolute resolve o relaValue

/-- All slots must hold one address, that of the stub. -/
def checkStub (targetAddress : Addr) (s : ResolveState) : Except Halt ResolveState :=
  if s.gotStubPtr ≠ 0 then (exlAssert (s.gotStubPtr == targetAddress)).map fun _ => s
  else .ok { s with gotStubPtr := targetAddress }

def resolveSymbolJumpSlot (value : SlotValue) (doLazyGotInit : Bool) (entry : Addr)
    (s : ResolveState) : Except Halt ResolveState := do
  if isJumpSlot (s.mem.read64 (entry+8)) then
    let target := entryTarget o s.mem entry
    let symbolAddr := entrySymbol o s.mem entry
    let targetAddress := o.moduleBase+s.mem.read64 target
    let s := if doLazyGotInit then { s with mem := s.mem.write64 target targetAddress } else s
    let s ← checkStub targetAddress s
    if doLazyGotInit then return s
    else match ← resolve s.mem symbolAddr with
      | some symbol =>
        return { s with mem := s.mem.write64 target (value s.mem entry target symbol) }
      | none => return { s with mem := s.mem.write64 target targetAddress }
  else return s

def resolveSymbolRelJumpSlot : Bool → Addr → ResolveState → Except Halt ResolveState :=
  resolveSymbolJumpSlot resolve o relValue

def resolveSymbolRelaJumpSlot : Bool → Addr → ResolveState → Except Halt ResolveState :=
  resolveSymbolJumpSlot resolve o relaValue

/-- The three loops of `ResolveSymbols`, by what each does to an entry. -/
def relPass (i : BitVec 64) : ResolveState → Except Halt ResolveState :=
  resolveSymbolRelAbsolute resolve o (entryAt o.relaOrRel sizeofRel i)

def relaPass (i : BitVec 64) : ResolveState → Except Halt ResolveState :=
  resolveSymbolRelaAbsolute resolve o (entryAt o.relaOrRel sizeofRela i)

def pltPass (doLazyGotInit : Bool) (i : BitVec 32) : ResolveState → Except Halt ResolveState :=
  if o.isRela then
    resolveSymbolRelaJumpSlot resolve o doLazyGotInit
      (entryAt o.relaOrRelPlt sizeofRela (i.setWidth 64))
  else
    resolveSymbolRelJumpSlot resolve o doLazyGotInit
      (entryAt o.relaOrRelPlt sizeofRel (i.setWidth 64))

/-- `got[1]` and `got[2]`. -/
def setGot (env : ResolveEnv) (m : Mem) : Mem :=
  if o.got ≠ 0 then (m.write64 (o.got+8) env.self).write64 (o.got+16) env.runtimeResolve else m

/-- The loop over the PLT relocations, whose entries have one size. -/
def pltTable (size : ℕ) (fuel : ℕ) (doLazyGotInit : Bool) (s : ResolveState) :
    Except Halt ResolveState :=
  if BitVec.ofNat 64 size ≤ o.relaOrRelPltSize then
    indexLoop (pltPass resolve o doLazyGotInit) (o.relaOrRelPltSize/BitVec.ofNat 64 size) fuel 0 s
  else .ok s

def pltLoop (fuel : ℕ) (doLazyGotInit : Bool) (s : ResolveState) : Except Halt ResolveState :=
  if o.isRela then pltTable resolve o sizeofRela fuel doLazyGotInit s
  else pltTable resolve o sizeofRel fuel doLazyGotInit s

def resolveSymbols (env : ResolveEnv) (fuel : ℕ) (doLazyGotInit : Bool) (s : ResolveState) :
    Except Halt ResolveState := do
  let s ← indexLoop (relPass resolve o) (o.relDynSize/BitVec.ofNat 64 sizeofRel) fuel o.relCount s
  let s ← indexLoop (relaPass resolve o) (o.relaDynSize/BitVec.ofNat 64 sizeofRela) fuel
    o.relaCount s
  let s ← pltLoop resolve o fuel doLazyGotInit s
  return { s with mem := setGot o env s.mem }

end Resolve

/-- How many entries each table has, and at which the loops over the first two
tables change from relative entries to symbols. -/
structure Counts where
  relCount : ℕ
  relaCount : ℕ
  relEntries : ℕ
  relaEntries : ℕ
  pltEntries : ℕ
  deriving DecidableEq, Repr

def Sizes.pltEntries (z : Sizes) : ℕ :=
  z.relaOrRelPltSize.toNat/(if z.isRela then sizeofRela else sizeofRel)

def countsOf (relCount relaCount : BitVec 64) (z : Sizes) : Counts where
  relCount := relCount.toNat
  relaCount := relaCount.toNat
  relEntries := z.relDynSize.toNat/sizeofRel
  relaEntries := z.relaDynSize.toNat/sizeofRela
  pltEntries := z.pltEntries

def ModuleObject.counts (o : ModuleObject) : Counts := countsOf o.relCount o.relaCount o.sizes

section Counted
variable (resolve : Resolver) (o : ModuleObject)

/-- `Relocate` over given counts. -/
def relocateOver (c : Counts) (m : Mem) : Except Halt Mem := do
  let m ← overRange (relocateRel o) 0 c.relCount m
  overRange (relocateRela o) 0 c.relaCount m

/-- `ResolveSymbols` over given counts. -/
def resolveOver (env : ResolveEnv) (c : Counts) (doLazyGotInit : Bool) (s : ResolveState) :
    Except Halt ResolveState := do
  let s ← overRange (relPass resolve o) c.relCount c.relEntries s
  let s ← overRange (relaPass resolve o) c.relaCount c.relaEntries s
  let s ← overRange (pltPass resolve o doLazyGotInit) 0 c.pltEntries s
  return { s with mem := setGot o env s.mem }

variable {resolve o}

theorem countedLoop_eq {τ : Type} (body : BitVec 32 → τ → Except Halt τ) {count : BitVec 64}
    (hcount : count.toNat < 2^32) {fuel : ℕ} (hfuel : 2^32 ≤ fuel) (s : τ) :
    countedLoop body count fuel s = overRange body 0 count.toNat s := by
  rw [countedLoop]
  by_cases h : count = 0
  · rw [if_neg (not_not_intro h), h]
    rfl
  · rw [if_pos h, indexLoop_eq (by decide) hcount 0 s (by omega)]
    rfl

theorem countedLoop_ne_ok {τ : Type} (body : BitVec 32 → τ → Except Halt τ) {count : BitVec 64}
    (hcount : 2^32 ≤ count.toNat) (fuel : ℕ) (s s' : τ) :
    countedLoop body count fuel s ≠ .ok s' := by
  have hne : count ≠ 0 := by
    rintro rfl
    exact absurd hcount (by decide)
  rw [countedLoop, if_pos hne]
  exact indexLoop_ne_ok (by decide) hcount fuel 0 s s'

theorem relocate_eq (h1 : o.relCount.toNat < 2^32) (h2 : o.relaCount.toNat < 2^32) {fuel : ℕ}
    (hfuel : 2^32 ≤ fuel) (m : Mem) : relocate fuel o m = relocateOver o o.counts m := by
  rw [relocate, relocateOver, countedLoop_eq _ h1 hfuel]
  congr 1
  funext m
  exact countedLoop_eq _ h2 hfuel m

theorem relocate_ok {fuel : ℕ} {m m' : Mem} (h : relocate fuel o m = .ok m') :
    o.relCount.toNat < 2^32 ∧ o.relaCount.toNat < 2^32 := by
  obtain ⟨m₁,h1,h2⟩ := bind_ok h
  constructor
  · by_contra hge
    exact countedLoop_ne_ok _ (by omega) fuel m m₁ h1
  · by_contra hge
    exact countedLoop_ne_ok _ (by omega) fuel m₁ m' h2

section Plt
variable {size : ℕ} (hsize : size < 2^64)
include hsize

theorem toNat_div_size (x : BitVec 64) : (x/BitVec.ofNat 64 size).toNat = x.toNat/size := by
  rw [BitVec.toNat_udiv, BitVec.toNat_ofNat, Nat.mod_eq_of_lt hsize]

theorem pltTable_eq (hlt : o.relaOrRelPltSize.toNat/size < 2^32) {fuel : ℕ} (hfuel : 2^32 ≤ fuel)
    (doLazyGotInit : Bool) (s : ResolveState) :
    pltTable resolve o size fuel doLazyGotInit s =
      overRange (pltPass resolve o doLazyGotInit) 0 (o.relaOrRelPltSize.toNat/size) s := by
  have hcount := toNat_div_size hsize o.relaOrRelPltSize
  rw [pltTable]
  by_cases h : BitVec.ofNat 64 size ≤ o.relaOrRelPltSize
  · rw [if_pos h, indexLoop_eq (by decide) (by rw [hcount]; exact hlt) 0 s (by omega), hcount]
    rfl
  · rw [BitVec.le_def, BitVec.toNat_ofNat, Nat.mod_eq_of_lt hsize] at h
    rw [if_neg (by rwa [BitVec.le_def, BitVec.toNat_ofNat, Nat.mod_eq_of_lt hsize]),
      Nat.div_eq_of_lt (by omega)]
    rfl

theorem pltTable_ok {fuel : ℕ} {doLazyGotInit : Bool} {s s' : ResolveState}
    (h : pltTable resolve o size fuel doLazyGotInit s = .ok s') :
    o.relaOrRelPltSize.toNat/size < 2^32 := by
  by_contra hge
  have hcount := toNat_div_size hsize o.relaOrRelPltSize
  have hle : BitVec.ofNat 64 size ≤ o.relaOrRelPltSize := by
    rw [BitVec.le_def, BitVec.toNat_ofNat, Nat.mod_eq_of_lt hsize]
    by_contra hlt
    rw [Nat.div_eq_of_lt (by omega)] at hge
    exact hge (by decide)
  rw [pltTable, if_pos hle] at h
  exact indexLoop_ne_ok (by decide) (by omega) fuel 0 s s' h

end Plt

theorem pltLoop_eq (hlt : o.sizes.pltEntries < 2^32) {fuel : ℕ} (hfuel : 2^32 ≤ fuel)
    (doLazyGotInit : Bool) (s : ResolveState) :
    pltLoop resolve o fuel doLazyGotInit s =
      overRange (pltPass resolve o doLazyGotInit) 0 o.sizes.pltEntries s := by
  rw [pltLoop]
  rw [Sizes.pltEntries, ModuleObject.sizes] at hlt ⊢
  dsimp only at hlt ⊢
  by_cases h : o.isRela = true
  · rw [if_pos h] at hlt ⊢
    rw [if_pos h]
    exact pltTable_eq (by decide) hlt hfuel doLazyGotInit s
  · rw [if_neg h] at hlt ⊢
    rw [if_neg h]
    exact pltTable_eq (by decide) hlt hfuel doLazyGotInit s

theorem pltLoop_ok {fuel : ℕ} {doLazyGotInit : Bool} {s s' : ResolveState}
    (h : pltLoop resolve o fuel doLazyGotInit s = .ok s') : o.sizes.pltEntries < 2^32 := by
  rw [pltLoop] at h
  rw [Sizes.pltEntries, ModuleObject.sizes]
  dsimp only
  by_cases hr : o.isRela = true
  · rw [if_pos hr] at h ⊢
    exact pltTable_ok (by decide) h
  · rw [if_neg hr] at h ⊢
    exact pltTable_ok (by decide) h

/-- The loops over the first two tables count with 64 bits, and always end. -/
theorem resolveSymbols_loops (env : ResolveEnv) {fuel : ℕ} (hfuel : 2^64 ≤ fuel)
    (doLazyGotInit : Bool) (s : ResolveState) :
    resolveSymbols resolve o env fuel doLazyGotInit s = (do
      let s ← overRange (relPass resolve o) o.counts.relCount o.counts.relEntries s
      let s ← overRange (relaPass resolve o) o.counts.relaCount o.counts.relaEntries s
      let s ← pltLoop resolve o fuel doLazyGotInit s
      return { s with mem := setGot o env s.mem }) := by
  have hloop : ∀ (body : BitVec 64 → ResolveState → Except Halt ResolveState) (x i : BitVec 64)
      (n : ℕ) (s : ResolveState), x.toNat = n →
      indexLoop body x fuel i s = overRange body i.toNat n s := by
    intro body x i n s hx
    have hlt := x.isLt
    rw [indexLoop_eq (le_refl 64) hlt i s (by omega), hx]
  have hrel := toNat_div_size (show sizeofRel < 2^64 by decide) o.relDynSize
  have hrela := toNat_div_size (show sizeofRela < 2^64 by decide) o.relaDynSize
  rw [resolveSymbols, hloop _ _ _ _ _ hrel]
  congr 1
  funext s
  rw [hloop _ _ _ _ _ hrela]
  rfl

theorem resolveSymbols_eq (env : ResolveEnv) (hlt : o.sizes.pltEntries < 2^32) {fuel : ℕ}
    (hfuel : 2^64 ≤ fuel) (doLazyGotInit : Bool) (s : ResolveState) :
    resolveSymbols resolve o env fuel doLazyGotInit s =
      resolveOver resolve o env o.counts doLazyGotInit s := by
  rw [resolveSymbols_loops env hfuel, resolveOver]
  congr 1
  funext s
  congr 1
  funext s
  rw [pltLoop_eq hlt (by omega)]
  rfl

theorem relocateOver_ok (c : Counts) (m : Mem) : ∃ m', relocateOver o c m = .ok m' := by
  obtain ⟨m₁,h1⟩ := @overRange_ok _ _ (relocateRel o) _ (fun _ _ => rfl) 0 c.relCount m
  obtain ⟨m₂,h2⟩ := @overRange_ok _ _ (relocateRela o) _ (fun _ _ => rfl) 0 c.relaCount m₁
  refine ⟨m₂,?_⟩
  rw [relocateOver, h1]
  exact h2

/-- If the function ends, the index of the PLT loop could reach its count. -/
theorem resolveSymbols_ok (env : ResolveEnv) {fuel : ℕ} (hfuel : 2^64 ≤ fuel)
    {doLazyGotInit : Bool} {s s' : ResolveState}
    (h : resolveSymbols resolve o env fuel doLazyGotInit s = .ok s') :
    o.sizes.pltEntries < 2^32 := by
  rw [resolveSymbols_loops env hfuel] at h
  obtain ⟨s₁,-,h⟩ := bind_ok h
  obtain ⟨s₂,-,h⟩ := bind_ok h
  obtain ⟨s₃,hplt,-⟩ := bind_ok h
  exact pltLoop_ok hplt

theorem pltLoop_mono {fuel fuel' : ℕ} (hle : fuel ≤ fuel') {doLazyGotInit : Bool}
    {s s' : ResolveState} (h : pltLoop resolve o fuel doLazyGotInit s = .ok s') :
    pltLoop resolve o fuel' doLazyGotInit s = .ok s' := by
  have htable : ∀ size, pltTable resolve o size fuel doLazyGotInit s = .ok s' →
      pltTable resolve o size fuel' doLazyGotInit s = .ok s' := by
    intro size ht
    rw [pltTable] at ht ⊢
    by_cases hs : BitVec.ofNat 64 size ≤ o.relaOrRelPltSize
    · rw [if_pos hs] at ht ⊢
      exact indexLoop_mono hle ht
    · rwa [if_neg hs] at ht ⊢
  rw [pltLoop] at h ⊢
  by_cases hr : o.isRela = true
  · rw [if_pos hr] at h ⊢
    exact htable _ h
  · rw [if_neg hr] at h ⊢
    exact htable _ h

/-- What the function does if it ends, whatever the number of steps. -/
theorem resolveSymbols_over (env : ResolveEnv) {fuel : ℕ} {doLazyGotInit : Bool}
    {s s' : ResolveState} (h : resolveSymbols resolve o env fuel doLazyGotInit s = .ok s') :
    o.sizes.pltEntries < 2^32 ∧ resolveOver resolve o env o.counts doLazyGotInit s = .ok s' := by
  have hmax : resolveSymbols resolve o env (max fuel (2^64)) doLazyGotInit s = .ok s' := by
    obtain ⟨s₁,h1,h⟩ := bind_ok h
    obtain ⟨s₂,h2,h⟩ := bind_ok h
    obtain ⟨s₃,h3,h⟩ := bind_ok h
    have hle := Nat.le_max_left fuel (2^64)
    rw [resolveSymbols, indexLoop_mono hle h1]
    change (indexLoop (relaPass resolve o) _ _ _ s₁ >>= _) = _
    rw [indexLoop_mono hle h2]
    change (pltLoop resolve o _ doLazyGotInit s₂ >>= _) = _
    rw [pltLoop_mono hle h3]
    exact h
  have hlt := resolveSymbols_ok env (Nat.le_max_right _ _) hmax
  exact ⟨hlt,(resolveSymbols_eq env hlt (Nat.le_max_right _ _) doLazyGotInit s).symm.trans hmax⟩

/-- A memory of zeros has no entry that asks for a symbol. -/
def zeroMem : Mem := fun _ => 0

theorem read64_zeroMem (a : Addr) : zeroMem.read64 a = 0 := by
  have h32 : ∀ b, zeroMem.read32 b = 0 := by
    intro b
    change 0#8++0#8++0#8++0#8 = 0#32
    rfl
  rw [Mem.read64, h32, h32]
  rfl

theorem absolute_zeroMem (value : SlotValue) (entry stub : Addr) :
    resolveSymbolAbsolute resolve o value entry ⟨stub,zeroMem⟩ = .ok ⟨stub,zeroMem⟩ := by
  rw [resolveSymbolAbsolute, read64_zeroMem]
  rfl

theorem jumpSlot_zeroMem (value : SlotValue) (doLazyGotInit : Bool) (entry stub : Addr) :
    resolveSymbolJumpSlot resolve o value doLazyGotInit entry ⟨stub,zeroMem⟩ =
      .ok ⟨stub,zeroMem⟩ := by
  rw [resolveSymbolJumpSlot, read64_zeroMem]
  rfl

theorem resolveOver_zeroMem (env : ResolveEnv) (c : Counts) (doLazyGotInit : Bool) (stub : Addr) :
    resolveOver resolve o env c doLazyGotInit ⟨stub,zeroMem⟩ = .ok ⟨stub,setGot o env zeroMem⟩ := by
  have hrel : ∀ i, relPass resolve o i ⟨stub,zeroMem⟩ = .ok ⟨stub,zeroMem⟩ := fun i =>
    absolute_zeroMem relValue _ stub
  have hrela : ∀ i, relaPass resolve o i ⟨stub,zeroMem⟩ = .ok ⟨stub,zeroMem⟩ := fun i =>
    absolute_zeroMem relaValue _ stub
  have hplt : ∀ i, pltPass resolve o doLazyGotInit i ⟨stub,zeroMem⟩ = .ok ⟨stub,zeroMem⟩ := by
    intro i
    rw [pltPass]
    by_cases h : o.isRela = true
    · rw [if_pos h]
      exact jumpSlot_zeroMem relaValue doLazyGotInit _ stub
    · rw [if_neg h]
      exact jumpSlot_zeroMem relValue doLazyGotInit _ stub
  calc
    resolveOver resolve o env c doLazyGotInit ⟨stub,zeroMem⟩ = (do
        let s ← overRange (relaPass resolve o) c.relaCount c.relaEntries ⟨stub,zeroMem⟩
        let s ← overRange (pltPass resolve o doLazyGotInit) 0 c.pltEntries s
        return { s with mem := setGot o env s.mem }) := by
      rw [resolveOver, overRange_fixed hrel]
      rfl
    _ = (do
        let s ← overRange (pltPass resolve o doLazyGotInit) 0 c.pltEntries ⟨stub,zeroMem⟩
        return { s with mem := setGot o env s.mem }) := by
      rw [overRange_fixed hrela]
      rfl
    _ = .ok ⟨stub,setGot o env zeroMem⟩ := by
      rw [overRange_fixed hplt]
      rfl

end Counted

end Rtld

end Zeldar
