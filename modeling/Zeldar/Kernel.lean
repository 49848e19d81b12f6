import Zeldar.ByteMem
import Zeldar.Tiling

namespace Zeldar

abbrev Result := BitVec 32

def makeResult (module description : Result) : Result :=
  (module &&& 0x1FF) ||| (description &&& 0x1FFF) <<< 9

def moduleKernel : Result := 1
def moduleLibnx : Result := 345

def kernelInvalidMemoryState : Result := makeResult moduleKernel 106
def kernelInvalidMemoryRange : Result := makeResult moduleKernel 110

def libnxBadGetInfoStack : Result := makeResult moduleLibnx 4
def libnxBadGetInfoHeap : Result := makeResult moduleLibnx 5
def libnxBadQueryMemory : Result := makeResult moduleLibnx 6
def libnxWeirdKernel : Result := makeResult moduleLibnx 36

/-- `R_VALUE`. -/
def rValue (r : Result) : Result := r &&& 0x3FFFFF

/-- The ways a function does not return: an abort with a result, a failed
assertion, an access through a pointer to no object, a loop still running when
the fuel is spent. -/
inductive Halt
  | abort (r : Result)
  | assertion
  | fault
  | diverged
  deriving DecidableEq, Repr

/-- `R_ABORT_UNLESS`. -/
def abortUnless {α : Type} : Except Result α → Except Halt α
  | .ok a => .ok a
  | .error r => .error (.abort r)

/-- `EXL_ASSERT`. -/
def exlAssert (b : Bool) : Except Halt Unit := if b then .ok () else .error .assertion

theorem bind_ok {ε α β : Type} {x : Except ε α} {f : α → Except ε β} {b : β}
    (h : (x >>= f) = .ok b) : ∃ a, x = .ok a ∧ f a = .ok b := by
  cases x with
  | error e => cases h
  | ok a => exact ⟨a,rfl,h⟩

theorem abortUnless_ok {α : Type} {x : Except Result α} {a : α} (h : abortUnless x = .ok a) :
    x = .ok a := by
  cases x with
  | error e => cases h
  | ok b =>
    injection h with e
    rw [e]

theorem exlAssert_ok {b : Bool} {u : Unit} (h : exlAssert b = .ok u) : b = true := by
  cases b with
  | false => cases h
  | true => rfl

/-- `MemType_Unmapped`. -/
def memTypeUnmapped : Word := 0

structure MemoryInfo where
  addr : BitVec 64
  size : BitVec 64
  type : Word
  deriving DecidableEq, Repr

inductive InfoType
  | aliasRegionAddress | aliasRegionSize
  | heapRegionAddress | heapRegionSize
  | aslrRegionAddress | aslrRegionSize
  | stackRegionAddress | stackRegionSize
  deriving DecidableEq, Repr

/-- The kernel, over its own state. A call that fails reports a result. -/
structure Kernel (σ : Type) where
  svcQueryMemory : σ → Addr → Except Result MemoryInfo
  svcMapProcessMemory : σ → Addr → Addr → BitVec 64 → Except Result σ
  svcUnmapProcessMemory : σ → Addr → Addr → BitVec 64 → Except Result σ
  svcGetInfo : σ → InfoType → Except Result (BitVec 64)
  svcUnmapMemory : σ → Addr → Addr → BitVec 64 → Result

def MemoryInfo.span (r : MemoryInfo) : Span ℕ := ⟨r.addr.toNat,r.addr.toNat+r.size.toNat⟩

/-- A partition of the addresses below `top` into nonempty page-aligned regions,
none of which ends past the address space. -/
structure Layout where
  regions : List MemoryInfo
  top : ℕ
  top_lt : top < 2^64
  tiles : Tiles 0 (regions.map MemoryInfo.span) top
  aligned : ∀ r ∈ regions, r.addr.toNat%4096 = 0 ∧ r.size.toNat%4096 = 0

/-- A successful query reports the region that holds the address. -/
def Kernel.QuerySound {σ : Type} (k : Kernel σ) : Prop :=
  ∀ s a r, k.svcQueryMemory s a = .ok r → r.span.Mem a.toNat ∧ r.span.hi ≤ 2^64

/-- Queries between `lo` and `hi` report the region of the layout that holds
the address. -/
def Layout.Answers (l : Layout) (lo hi : ℕ) (query : Addr → Except Result MemoryInfo) : Prop :=
  ∀ a : Addr, lo ≤ a.toNat → a.toNat < hi →
    ∃ r ∈ l.regions, query a = .ok r ∧ r.span.Mem a.toNat

namespace Layout

variable (l : Layout)

def spans : List (Span ℕ) := l.regions.map MemoryInfo.span

theorem spans_tiles : Tiles 0 l.spans l.top := l.tiles

theorem mem_spans {r : MemoryInfo} (h : r ∈ l.regions) : r.span ∈ l.spans :=
  List.mem_map_of_mem h

theorem region_bounds {r : MemoryInfo} (h : r ∈ l.regions) :
    0 < r.size.toNat ∧ r.addr.toNat+r.size.toNat ≤ l.top := by
  obtain ⟨_,hne,hhi⟩ := l.tiles.mem_bounds (l.mem_spans h)
  simp only [MemoryInfo.span] at hne hhi
  omega

theorem region_end {r : MemoryInfo} (h : r ∈ l.regions) :
    (r.addr+r.size).toNat = r.addr.toNat+r.size.toNat := by
  have hb := (l.region_bounds h).2
  rw [BitVec.toNat_add, Nat.mod_eq_of_lt (lt_of_le_of_lt hb l.top_lt)]

theorem span_aligned {t : Span ℕ} (h : t ∈ l.spans) : t.lo%4096 = 0 ∧ t.hi%4096 = 0 := by
  obtain ⟨r,hr,rfl⟩ := List.mem_map.mp h
  obtain ⟨ha,hs⟩ := l.aligned r hr
  simp only [MemoryInfo.span]
  omega

theorem top_aligned : l.top%4096 = 0 := by
  by_cases h : l.top = 0
  · rw [h]
  · obtain ⟨t,ht,htop⟩ := l.spans_tiles.last (fun e => h e.symm)
    rw [← htop]
    exact (l.span_aligned ht).2

end Layout

end Zeldar
