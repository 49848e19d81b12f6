import Mathlib.Data.List.OfFn
import Zeldar.Kernel

namespace Zeldar

/-- `MemState_Type`. -/
def memStateType : Word := 0xff

def memTypeCodeStatic : Word := 0x03
def memTypeCodeMutable : Word := 0x04
def memTypeReserved : Word := 0x10

def permR : Word := 1
def permRw : Word := 3
def permRx : Word := 5

/-- `result::TooManyStaticModules`. -/
def tooManyStaticModules : Result := makeResult 252 5

def maxModules : ℕ := 13

/-- What a query reports, with the permission, which only the scan reads. -/
structure Region extends MemoryInfo where
  perm : Word
  deriving DecidableEq, Repr

structure Range where
  start : Addr
  size : BitVec 64
  deriving DecidableEq, Repr

def Range.getEnd (r : Range) : Addr := r.start+r.size

structure ModuleInfo where
  total : Range
  text : Range
  rodata : Range
  data : Range
  deriving DecidableEq, Repr

/-- A value-initialised module. -/
def ModuleInfo.empty : ModuleInfo := ⟨⟨0,0⟩,⟨0,0⟩,⟨0,0⟩,⟨0,0⟩⟩

namespace Region

def span (r : Region) : Span ℕ := r.toMemoryInfo.span

def memtype (r : Region) : Word := r.type &&& memStateType

def range (r : Region) : Range := ⟨r.addr,r.size⟩

/-- The three regions of a module. -/
def IsText (r : Region) : Prop := r.memtype = memTypeCodeStatic ∧ r.perm = permRx

def IsRodata (r : Region) : Prop := r.memtype = memTypeCodeStatic ∧ r.perm = permR

def IsData (r : Region) : Prop := r.memtype = memTypeCodeMutable ∧ r.perm = permRw

instance (r : Region) : Decidable r.IsText := inferInstanceAs (Decidable (_ ∧ _))

instance (r : Region) : Decidable r.IsRodata := inferInstanceAs (Decidable (_ ∧ _))

instance (r : Region) : Decidable r.IsData := inferInstanceAs (Decidable (_ ∧ _))

end Region

inductive ScanState
  | lookingForCodeStatic
  | expectingRodata
  | expectingData
  deriving DecidableEq, Repr

/-- The variables of the scan, and those it stores its result to. -/
structure Scan where
  meminfo : Region
  state : ScanState
  nextModIdx : ℕ
  offset : Addr
  prevOffset : Addr
  curModInfo : ModuleInfo
  moduleInfos : Fin maxModules → ModuleInfo
  moduleCount : ℤ
  selfModuleIdx : ℤ

namespace Scan

def initial : Scan where
  meminfo := ⟨⟨0,0,0⟩,0⟩
  state := .lookingForCodeStatic
  nextModIdx := 0
  offset := 0
  prevOffset := 0
  curModInfo := .empty
  moduleInfos := fun _ => .empty
  moduleCount := -1
  selfModuleIdx := -1

def reset (s : Scan) : Scan := { s with curModInfo := .empty, state := .lookingForCodeStatic }

/-- The module is stored under the next index; a store past the array is a fault. -/
def storeModule (s : Scan) (m : ModuleInfo) : Except Halt Scan :=
  if h : s.nextModIdx < maxModules then
    .ok { s with
      moduleInfos := Function.update s.moduleInfos ⟨s.nextModIdx,h⟩ m
      nextModIdx := s.nextModIdx+1
      moduleCount := s.nextModIdx+1 }
  else .error .fault

/-- The three states of the switch. `moduleStart` is the address of `__module_start`. -/
def region (moduleStart : Addr) (s : Scan) : Except Halt Scan :=
  match s.state with
  | .lookingForCodeStatic =>
    if s.meminfo.memtype ≠ memTypeCodeStatic ∨ s.meminfo.perm ≠ permRx then .ok s
    else .ok { s with
      curModInfo := { s.curModInfo with
        total := { s.curModInfo.total with start := s.meminfo.addr }
        text := ⟨s.meminfo.addr,s.meminfo.size⟩ }
      state := .expectingRodata }
  | .expectingRodata =>
    -- a region that does not fit ends the attempt, and does not start another one
    if s.meminfo.memtype ≠ memTypeCodeStatic ∨ s.meminfo.perm ≠ permR then .ok s.reset
    else .ok { s with
      curModInfo := { s.curModInfo with rodata := ⟨s.meminfo.addr,s.meminfo.size⟩ }
      state := .expectingData }
  | .expectingData =>
    if s.meminfo.memtype ≠ memTypeCodeMutable ∨ s.meminfo.perm ≠ permRw then .ok s.reset
    else do
      let data : Range := ⟨s.meminfo.addr,s.meminfo.size⟩
      let total := { s.curModInfo.total with size := data.getEnd-s.curModInfo.total.start }
      let m := { s.curModInfo with data := data, total := total }
      let self : ℤ := if total.start = moduleStart then s.nextModIdx else s.selfModuleIdx
      let s ← { s with curModInfo := m, selfModuleIdx := self }.storeModule m
      return s.reset

/-- The last assertions, after the loop. -/
def assertions (s : Scan) : Except Halt Unit := do
  exlAssert (s.selfModuleIdx != -1)
  exlAssert (s.selfModuleIdx < maxModules)
  exlAssert (s.moduleCount != -1)
  exlAssert (s.moduleCount ≤ maxModules)

/-- The modules that have been stored. -/
def recorded (s : Scan) : List ModuleInfo := (List.ofFn s.moduleInfos).take s.nextModIdx

end Scan

section FindModules

variable (query : Addr → Except Result Region) (moduleStart : Addr)

/-- The loop, with the variables as they are when it is left. -/
def findModulesLoop : ℕ → Scan → Except Halt Unit × Scan
  | 0,s => (.error .diverged,s)
  | fuel+1,s =>
    -- checked before every region, also when no module is left to store
    if maxModules ≤ s.nextModIdx then (.error (.abort tooManyStaticModules),s)
    else
      match query (s.meminfo.addr+s.meminfo.size) with
      | .error r => (.error (.abort r),s)
      | .ok meminfo =>
        let s := { s with prevOffset := s.offset, meminfo := meminfo, offset := meminfo.addr }
        match s.region moduleStart with
        | .error e => (.error e,s)
        | .ok s => if s.prevOffset ≤ s.offset then findModulesLoop fuel s else (.ok (),s)

def findModules (fuel : ℕ) : Except Halt Unit × Scan :=
  match findModulesLoop query moduleStart fuel .initial with
  | (.ok _,s) => (s.assertions,s)
  | out => out

end FindModules

/-- A memory map: a partition of the 64-bit addresses into at least two nonempty
regions, of which the first is unmapped and the last reserved. -/
structure MemoryMap where
  first : Region
  middle : List Region
  last : Region
  tiles : Tiles 0 ((first :: middle++[last]).map Region.span) (2^64)
  first_unmapped : first.memtype = memTypeUnmapped
  last_reserved : last.memtype = memTypeReserved

def MemoryMap.regions (l : MemoryMap) : List Region := l.first :: l.middle++[l.last]

/-- A query reports the region that holds the address. -/
def MemoryMap.Answers (l : MemoryMap) (query : Addr → Except Result Region) : Prop :=
  ∀ r ∈ l.regions, ∀ a : Addr, r.span.Mem a.toNat → query a = .ok r

def Region.holds (x : ℕ) (r : Region) : Bool := decide (r.span.lo ≤ x ∧ x < r.span.hi)

/-- The answers of a kernel that has the map. -/
def MemoryMap.query (l : MemoryMap) (a : Addr) : Except Result Region :=
  match l.regions.find? (Region.holds a.toNat) with
  | some r => .ok r
  | none => .error libnxBadQueryMemory

theorem find?_of_tiles {rs : List Region} {lo hi x : ℕ} (h : Tiles lo (rs.map Region.span) hi)
    {r : Region} (hr : r ∈ rs) (hx : r.span.Mem x) :
    rs.find? (Region.holds x) = some r := by
  induction rs generalizing lo with
  | nil => exact absurd hr List.not_mem_nil
  | cons u rs ih =>
    obtain ⟨_,_,hrest⟩ := h
    rcases List.mem_cons.mp hr with rfl | hr
    · exact List.find?_cons_of_pos (decide_eq_true hx)
    · have hge := (hrest.mem_bounds (List.mem_map_of_mem hr)).1
      have hnot : ¬u.holds x = true := by
        rw [Region.holds, decide_eq_true_eq]
        rintro ⟨_,hlt⟩
        exact absurd hx.1 (Nat.not_le.mpr (lt_of_lt_of_le hlt hge))
      rw [List.find?_cons_of_neg hnot]
      exact ih hrest hr

theorem MemoryMap.query_answers (l : MemoryMap) : l.Answers l.query := by
  intro r hr a ha
  have hfind : l.regions.find? (Region.holds a.toNat) = some r := find?_of_tiles l.tiles hr ha
  rw [MemoryMap.query, hfind]

/-- Regions of a page each, from page `k` on. -/
def pageRegions : ℕ → List (Word × Word) → List Region
  | _,[] => []
  | k,(type,perm)::kinds =>
    ⟨⟨BitVec.ofNat 64 (0x1000*k),0x1000,type⟩,perm⟩ :: pageRegions (k+1) kinds

def pageLast (k : ℕ) : Region :=
  ⟨⟨BitVec.ofNat 64 (0x1000*k),-BitVec.ofNat 64 (0x1000*k),memTypeReserved⟩,0⟩

theorem pageRegions_tiles (kinds : List (Word × Word)) {k : ℕ} (hk : 0 < k)
    (h : k+kinds.length < 2^52) :
    Tiles (0x1000*k) ((pageRegions k kinds++[pageLast (k+kinds.length)]).map Region.span)
      (2^64) := by
  have hlt : 0x1000*k < 2^64 := by omega
  -- after the pages the reserved rest goes up to the end of the address space
  induction kinds generalizing k with
  | nil =>
    have hne : (BitVec.ofNat 64 (0x1000*k)).toNat = 0x1000*k := by
      rw [BitVec.toNat_ofNat, Nat.mod_eq_of_lt hlt]
    refine ⟨hne,?_,?_⟩
    · simp only [pageLast, Region.span, MemoryInfo.span, List.length_nil, Nat.add_zero]
      rw [BitVec.toNat_neg, hne]
      omega
    · show (BitVec.ofNat 64 (0x1000*k)).toNat+(-BitVec.ofNat 64 (0x1000*k)).toNat = 2^64
      rw [BitVec.toNat_neg, hne]
      omega
  | cons kind kinds ih =>
    rw [List.length_cons] at h
    have hne : (BitVec.ofNat 64 (0x1000*k)).toNat = 0x1000*k := by
      rw [BitVec.toNat_ofNat, Nat.mod_eq_of_lt hlt]
    have hrest := @ih (k+1) (Nat.succ_pos k) (by omega) (by omega)
    have hsize : (0x1000:BitVec 64).toNat = 0x1000 := rfl
    refine ⟨hne,?_,?_⟩
    · simp only [Region.span, MemoryInfo.span, hsize]
      omega
    · have hend : (BitVec.ofNat 64 (0x1000*k)).toNat+(0x1000:BitVec 64).toNat = 0x1000*(k+1) := by
        rw [hne, hsize]
        omega
      rw [List.length_cons, ← Nat.add_assoc, Nat.add_right_comm]
      simp only [Region.span, MemoryInfo.span, hend]
      exact hrest

/-- A map of single pages, between an unmapped one and a reserved rest. -/
def pageMap (kinds : List (Word × Word)) (h : kinds.length < 1000) : MemoryMap where
  first := ⟨⟨0,0x1000,memTypeUnmapped⟩,0⟩
  middle := pageRegions 1 kinds
  last := pageLast (1+kinds.length)
  tiles := ⟨rfl,by decide,pageRegions_tiles kinds Nat.one_pos (by omega)⟩
  first_unmapped := rfl
  last_reserved := (by decide : memTypeReserved &&& memStateType = memTypeReserved)

def pageText : Word × Word := (memTypeCodeStatic,permRx)
def pageRodata : Word × Word := (memTypeCodeStatic,permR)
def pageData : Word × Word := (memTypeCodeMutable,permRw)

end Zeldar
