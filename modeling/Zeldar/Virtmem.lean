import Zeldar.Kernel
import Zeldar.DList

namespace Zeldar

/-- Addresses from `start` up to the source's `end`. -/
structure MemRegion where
  start : Addr
  stop : Addr
  deriving DecidableEq, Repr

structure VirtmemReservation where
  next : Addr
  prev : Addr
  region : MemRegion
  deriving DecidableEq, Repr

/-- The globals, the reservation objects that `malloc` has given out, and how
many values `exl_random` has returned. -/
structure Virtmem where
  aliasRegion : MemRegion
  heapRegion : MemRegion
  aslrRegion : MemRegion
  stackRegion : MemRegion
  reservations : Addr
  isLegacyKernel : Bool
  nodes : Addr → Option VirtmemReservation
  draws : ℕ

/-- The kernel and the library functions around it. `malloc` may depend on
anything outside and on the reservation objects in use; `load` reads a byte
that is mapped. -/
structure Platform (σ : Type) extends Kernel σ where
  exlRandom : ℕ → BitVec 64
  malloc : σ → (Addr → Option VirtmemReservation) → Option Addr
  load : σ → Addr → Option (BitVec 8)

/-- `malloc` returns no null pointer and no object in use. -/
def Platform.Fresh {σ : Type} (p : Platform σ) : Prop :=
  ∀ s nodes a, p.malloc s nodes = some a → a ≠ 0 ∧ nodes a = none

def randomMaxAttempts : ℕ := 0x200

section Regions

variable {σ : Type} (k : Kernel σ) (s : σ)

def memregionInitWithInfo (id0Addr id0Sz : InfoType) : Except Result MemRegion := do
  let base ← k.svcGetInfo s id0Addr
  let size ← k.svcGetInfo s id0Sz
  return ⟨base,base+size⟩

def memregionOverlaps (r : MemRegion) (start stop : Addr) : Bool :=
  start < r.stop && r.start < stop

/-- The value for `out_end` when the range is mapped. -/
def memregionIsMapped (start stop guardSize : Addr) : Except Halt (Option Addr) :=
  let start := start-guardSize
  let stop := stop+guardSize
  match k.svcQueryMemory s start with
  | .error _ => .error (.abort libnxBadQueryMemory)
  | .ok meminfo =>
    let memend := meminfo.addr+meminfo.size
    if meminfo.type ≠ memTypeUnmapped ∨ memend < stop then .ok (some (memend+guardSize))
    else .ok none

/-- The walk along the reservations from `rv`. -/
def memregionIsReservedFrom (nodes : Addr → Option VirtmemReservation)
    (start stop guardSize : Addr) : ℕ → Addr → Except Halt (Option Addr)
  | 0,_ => .error .diverged
  | fuel+1,rv =>
    if rv = 0 then .ok none
    else match nodes rv with
      | none => .error .fault
      | some r =>
        if memregionOverlaps r.region start stop then .ok (some (r.region.stop+guardSize))
        else memregionIsReservedFrom nodes start stop guardSize fuel r.next

def memregionIsReserved (vm : Virtmem) (fuel : ℕ) (start stop guardSize : Addr) :
    Except Halt (Option Addr) :=
  memregionIsReservedFrom vm.nodes (start-guardSize) (stop+guardSize) guardSize fuel
    vm.reservations

end Regions

section Find

variable {σ : Type} (p : Platform σ) (s : σ) (vm : Virtmem) (fuel : ℕ) (r : MemRegion)

/-- The inner loop: draws until the range avoids the alias and heap regions. -/
def memregionPick (size aslrMaxPageOffset : BitVec 64) : ℕ → ℕ → Except Halt (Addr × ℕ)
  | 0,_ => .error .diverged
  | n+1,draws =>
    let pageOffset := p.exlRandom draws % (aslrMaxPageOffset+1)
    let curAddr := r.start+(pageOffset <<< 12)
    if memregionOverlaps vm.aliasRegion curAddr (curAddr+size) then
      memregionPick size aslrMaxPageOffset n (draws+1)
    else if memregionOverlaps vm.heapRegion curAddr (curAddr+size) then
      memregionPick size aslrMaxPageOffset n (draws+1)
    else .ok (curAddr,draws+1)

/-- The main allocation loop, with the attempts that remain. -/
def memregionAttempt (size guardSize aslrMaxPageOffset : BitVec 64) :
    ℕ → ℕ → Except Halt (Addr × ℕ)
  | 0,draws => .ok (0,draws)
  | i+1,draws => do
    let (curAddr,draws) ← memregionPick p vm r size aslrMaxPageOffset fuel draws
    -- a range that is taken costs an attempt
    if (← memregionIsMapped p.toKernel s curAddr (curAddr+size) guardSize).isSome then
      memregionAttempt size guardSize aslrMaxPageOffset i draws
    else if (← memregionIsReserved vm fuel curAddr (curAddr+size) guardSize).isSome then
      memregionAttempt size guardSize aslrMaxPageOffset i draws
    else return (curAddr,draws)

def memregionFindRandom (size guardSize : BitVec 64) : Except Halt (Addr × Virtmem) :=
  let size := (size+0xFFF) &&& ~~~0xFFF
  let guardSize := (guardSize+0xFFF) &&& ~~~0xFFF
  let regionSize := r.stop-r.start
  if regionSize < size then .ok (0,vm)
  else do
    let aslrMaxPageOffset := (regionSize-size) >>> 12
    let (a,draws) ←
      memregionAttempt p s vm fuel r size guardSize aslrMaxPageOffset randomMaxAttempts vm.draws
    return (a,{ vm with draws := draws })

def virtmemFindAslr (size guardSize : BitVec 64) : Except Halt (Addr × Virtmem) :=
  memregionFindRandom p s vm fuel vm.aslrRegion size guardSize

end Find

/-- The globals before `virtmemSetup`. -/
def Virtmem.zero : Virtmem where
  aliasRegion := ⟨0,0⟩
  heapRegion := ⟨0,0⟩
  aslrRegion := ⟨0,0⟩
  stackRegion := ⟨0,0⟩
  reservations := 0
  isLegacyKernel := false
  nodes := fun _ => none
  draws := 0

/-- The aslr and stack regions where the kernel does not report them. -/
def virtmemSetupLegacy {σ : Type} (k : Kernel σ) (s : σ) (vm : Virtmem) : Except Halt Virtmem :=
  let rc := rValue (k.svcUnmapMemory s 0xFFFFFFFFFFFFE000 0xFFFFFE000 0x1000)
  if rc = kernelInvalidMemoryState then
    .ok { vm with isLegacyKernel := true, aslrRegion := ⟨0x200000,0x100000000⟩,
                  stackRegion := ⟨0x200000,0x40000000⟩ }
  else if rc = kernelInvalidMemoryRange then
    .ok { vm with isLegacyKernel := true, aslrRegion := ⟨0x8000000,0x1000000000⟩,
                  stackRegion := ⟨0x8000000,0x80000000⟩ }
  else .error (.abort libnxWeirdKernel)

def virtmemSetup {σ : Type} (k : Kernel σ) (s : σ) : Except Halt Virtmem :=
  match memregionInitWithInfo k s .aliasRegionAddress .aliasRegionSize with
  | .error _ => .error (.abort libnxWeirdKernel)
  | .ok aliasRegion =>
    match memregionInitWithInfo k s .heapRegionAddress .heapRegionSize with
    | .error _ => .error (.abort libnxBadGetInfoHeap)
    | .ok heapRegion =>
      let vm := { Virtmem.zero with aliasRegion := aliasRegion, heapRegion := heapRegion }
      match memregionInitWithInfo k s .aslrRegionAddress .aslrRegionSize with
      | .error _ => virtmemSetupLegacy k s vm
      | .ok aslrRegion =>
        match memregionInitWithInfo k s .stackRegionAddress .stackRegionSize with
        | .error _ => .error (.abort libnxBadGetInfoStack)
        | .ok stackRegion => .ok { vm with aslrRegion := aslrRegion, stackRegion := stackRegion }

def readNode (nodes : Addr → Option VirtmemReservation) (a : Addr) :
    Except Halt VirtmemReservation :=
  match nodes a with
  | none => .error .fault
  | some r => .ok r

/-- A write to a field of a reservation object. -/
def modifyNode (nodes : Addr → Option VirtmemReservation) (a : Addr)
    (f : VirtmemReservation → VirtmemReservation) :
    Except Halt (Addr → Option VirtmemReservation) := do
  let r ← readNode nodes a
  return Function.update nodes a (some (f r))

/-- The write to the back link of the next node, where there is one. -/
def setPrev (nodes : Addr → Option VirtmemReservation) (next prev : Addr) :
    Except Halt (Addr → Option VirtmemReservation) :=
  if next ≠ 0 then modifyNode nodes next (fun r => { r with prev := prev }) else .ok nodes

def virtmemAddReservation {σ : Type} (p : Platform σ) (s : σ) (vm : Virtmem) (mem : Addr)
    (size : BitVec 64) : Except Halt (Addr × Virtmem) :=
  match p.malloc s vm.nodes with
  | none => .ok (0,vm)
  | some rv => do
    let node : VirtmemReservation := ⟨vm.reservations,0,⟨mem,mem+size⟩⟩
    let nodes ← setPrev (Function.update vm.nodes rv (some node)) node.next rv
    return (rv,{ vm with reservations := rv, nodes := nodes })

def virtmemRemoveReservation (vm : Virtmem) (rv : Addr) : Except Halt Virtmem := do
  let node ← readNode vm.nodes rv
  let nodes ← setPrev vm.nodes node.next node.prev
  let node ← readNode nodes rv
  if node.prev ≠ 0 then
    let nodes ← modifyNode nodes node.prev (fun r => { r with next := node.next })
    return { vm with nodes := Function.update nodes rv none }
  else
    -- the first node of the list: the head moves on
    return { vm with reservations := node.next, nodes := Function.update nodes rv none }

end Zeldar
