import Zeldar.Armv8
import Zeldar.HookContext

namespace Zeldar

/-- The window of the patchers, over the memory of the machine. A store to an address
that is not writable faults, and no address space is writable as a whole. -/
structure PatchPages where
  ro : Addr
  rw : Addr
  size : BitVec 64
  tr : Addr → Addr
  writable : Addr → Bool
  /-- The null page. -/
  hole : ∃ a, writable a = false
  /-- The window holds the module. -/
  aliases : ∀ k, k < size → tr (rw+k) = ro+k
  /-- It is the only way to write to it. -/
  apart : ∀ k, writable (rw+k) = true → size ≤ k → size ≤ tr (rw+k)-ro

namespace PatchPages

variable (pages : PatchPages)

def addrFromRo (ro : Addr) : Addr := ro-pages.ro

def roFromAddr (addr : Addr) : Addr := pages.ro+addr

def rwFromAddr (addr : Addr) : Addr := pages.rw+addr

end PatchPages

def Machine.store8 (tr : Addr → Addr) (m : Machine) (a : Addr) (b : BitVec 8) : Machine where
  mem := Function.update m.mem (tr a) b
  log := .write a :: m.log

/-- The stores of an object of any size, byte by byte. -/
def PatchPages.store (pages : PatchPages) (m : Machine) (a : Addr) :
    List (BitVec 8) → Option Machine
  | [] => some m
  | b :: bs =>
    if pages.writable a then pages.store (m.store8 pages.tr a b) (a+1) bs
    else none

/-- The bytes of an instruction in memory. -/
def instBytes (inst : Word) : List (BitVec 8) :=
  [inst.extractLsb' 0 8,inst.extractLsb' 8 8,inst.extractLsb' 16 8,inst.extractLsb' 24 8]

/-- `m_Start` and `m_Current`, and the machine the patcher works on. -/
structure StreamPatcher where
  m : Machine
  start : Addr
  current : Addr

namespace StreamPatcher

variable (pages : PatchPages) (s : StreamPatcher)

def new (m : Machine) (start : Addr) : StreamPatcher := ⟨m,start,start⟩

def doneNothing : Bool := s.start == s.current

def flush : StreamPatcher :=
  if s.doneNothing then s
  else
    let ro := pages.roFromAddr s.start
    let rw := pages.rwFromAddr s.start
    let size := s.current-s.start
    { s with
      m := (s.m.record (.dcacheFlush rw size)).record (.icacheInvalidate ro size)
      start := s.start+size }

def relativeAddressFromBase (address : Addr) : Addr := address-s.current

def relativeAddressFromPointer (ptr : Addr) : Addr := pages.addrFromRo ptr-s.current

def write (v : List (BitVec 8)) : Option StreamPatcher := do
  let m ← pages.store s.m (pages.rwFromAddr s.current) v
  return { s with m, current := s.current+BitVec.ofNat 64 v.length }

def seekRel (address : Addr) : StreamPatcher :=
  if address = 0 then s
  else
    let address := address+s.current
    { s.flush pages with start := address, current := address }

def seek (address : Addr) : StreamPatcher :=
  s.seekRel pages (s.relativeAddressFromBase address)

/-- The overload of `Seek` on a pointer. -/
def seekPointer (ptr : Addr) : StreamPatcher :=
  s.seekRel pages (s.relativeAddressFromPointer pages ptr)

def writeInst (inst : Word) : Option StreamPatcher := s.write pages (instBytes inst)

def branchInstRel (address : Addr) : Option StreamPatcher :=
  s.writeInst pages (Armv8.branch (address.setWidth 32))

def branchLinkInstRel (address : Addr) : Option StreamPatcher :=
  s.writeInst pages (Armv8.branchLink (address.setWidth 32))

def branchInst (address : Addr) : Option StreamPatcher :=
  s.branchInstRel pages (s.relativeAddressFromBase address)

def branchLinkInst (address : Addr) : Option StreamPatcher :=
  s.branchLinkInstRel pages (s.relativeAddressFromBase address)

def branchInstPointer (ptr : Addr) : Option StreamPatcher :=
  s.branchInstRel pages (s.relativeAddressFromPointer pages ptr)

def branchLinkInstPointer (ptr : Addr) : Option StreamPatcher :=
  s.branchLinkInstRel pages (s.relativeAddressFromPointer pages ptr)

end StreamPatcher

/-- The operations of a program on a `CodePatcher`. -/
inductive PatchOp
  | write (v : List (BitVec 8))
  | writeInst (inst : Word)
  | branchInstRel (address : Addr)
  | branchLinkInstRel (address : Addr)
  | branchInst (address : Addr)
  | branchLinkInst (address : Addr)
  | branchInstPointer (ptr : Addr)
  | branchLinkInstPointer (ptr : Addr)
  | seekRel (address : Addr)
  | seek (address : Addr)
  | seekPointer (ptr : Addr)
  deriving DecidableEq, Repr

def PatchOp.step (pages : PatchPages) (s : StreamPatcher) : PatchOp → Option StreamPatcher
  | .write v => s.write pages v
  | .writeInst inst => s.writeInst pages inst
  | .branchInstRel address => s.branchInstRel pages address
  | .branchLinkInstRel address => s.branchLinkInstRel pages address
  | .branchInst address => s.branchInst pages address
  | .branchLinkInst address => s.branchLinkInst pages address
  | .branchInstPointer ptr => s.branchInstPointer pages ptr
  | .branchLinkInstPointer ptr => s.branchLinkInstPointer pages ptr
  | .seekRel address => some (s.seekRel pages address)
  | .seek address => some (s.seek pages address)
  | .seekPointer ptr => some (s.seekPointer pages ptr)

/-- A patcher from its construction at `start` to its destruction. -/
def codePatch (pages : PatchPages) (m : Machine) (start : Addr) (ops : List PatchOp) :
    Option Machine := do
  let s ← ops.foldlM (PatchOp.step pages) (.new m start)
  return (s.flush pages).m

/-- `UINTPTR_MAX`, which marks a bound that is not set. -/
def uintptrMax : Addr := 0xffffffffffffffff

structure RandomAccessPatcher where
  m : Machine
  lowest : Addr
  highest : Addr

namespace RandomAccessPatcher

variable (pages : PatchPages) (s : RandomAccessPatcher)

def new (m : Machine) : RandomAccessPatcher := ⟨m,uintptrMax,uintptrMax⟩

def isUnset : Bool := s.lowest == uintptrMax || s.highest == uintptrMax

def setLowest (addr : Addr) : RandomAccessPatcher :=
  if s.isUnset then { s with lowest := addr }
  else { s with lowest := if addr < s.lowest then addr else s.lowest }

def setHighest (addr : Addr) : RandomAccessPatcher :=
  if s.isUnset then { s with highest := addr }
  else { s with highest := if s.highest < addr then addr else s.highest }

def write (addr : Addr) (v : List (BitVec 8)) : Option RandomAccessPatcher := do
  let s := (s.setLowest addr).setHighest (addr+BitVec.ofNat 64 v.length)
  let m ← pages.store s.m (pages.rwFromAddr addr) v
  return { s with m }

def flush : RandomAccessPatcher :=
  if s.isUnset then s
  else
    let ro := pages.roFromAddr s.lowest
    let rw := pages.rwFromAddr s.lowest
    let size := s.highest-s.lowest
    { s with m := (s.m.record (.dcacheFlush rw size)).record (.icacheInvalidate ro size) }

end RandomAccessPatcher

/-- A write of an object, which has at least one byte, at an offset. -/
structure RandomWrite where
  addr : Addr
  v : List (BitVec 8)
  nonempty : v ≠ []

/-- A patcher from its construction to its destruction. -/
def randomPatch (pages : PatchPages) (m : Machine) (ws : List RandomWrite) : Option Machine := do
  let s ← ws.foldlM (fun s w => s.write pages w.addr w.v) (RandomAccessPatcher.new m)
  return (s.flush pages).m

/-- The stores of `n` bytes from `a`, newest first. -/
def storeEvents (a : Addr) : ℕ → List Event
  | 0 => []
  | n+1 => .write (a+BitVec.ofNat 64 n) :: storeEvents a n

/-- The memory with the bytes `v` laid over it from `a`, each at the byte it aliases. -/
def layBytes (tr : Addr → Addr) (m : Mem) (a : Addr) : List (BitVec 8) → Mem
  | [] => m
  | b :: bs => layBytes tr (Function.update m (tr a) b) (a+1) bs

theorem storeEvents_succ (a : Addr) (n : ℕ) :
    storeEvents a (n+1) = storeEvents (a+1) n++[.write a] := by
  induction n with
  | zero => simp [storeEvents]
  | succ n ih =>
    have he : a+BitVec.ofNat 64 (n+1) = a+1+BitVec.ofNat 64 n := by bv_omega
    rw [storeEvents, ih, storeEvents, he]
    rfl

theorem storeEvents_add (a : Addr) (n k : ℕ) :
    storeEvents a (n+k) = storeEvents (a+BitVec.ofNat 64 n) k++storeEvents a n := by
  induction k with
  | zero => rfl
  | succ k ih =>
    have he : a+BitVec.ofNat 64 (n+k) = a+BitVec.ofNat 64 n+BitVec.ofNat 64 k := by bv_omega
    rw [← Nat.add_assoc, storeEvents, ih, storeEvents, he]
    rfl

theorem mem_storeEvents {a : Addr} {n : ℕ} {e : Event} :
    e ∈ storeEvents a n ↔ ∃ i < n, e = .write (a+BitVec.ofNat 64 i) := by
  induction n with
  | zero => simp [storeEvents]
  | succ n ih =>
    rw [storeEvents, List.mem_cons, ih]
    constructor
    · rintro (rfl | ⟨i,hi,rfl⟩)
      · exact ⟨n,Nat.lt_succ_self n,rfl⟩
      · exact ⟨i,Nat.lt_succ_of_lt hi,rfl⟩
    · rintro ⟨i,hi,rfl⟩
      rcases Nat.lt_succ_iff_lt_or_eq.mp hi with hlt | rfl
      · exact Or.inr ⟨i,hlt,rfl⟩
      · exact Or.inl rfl

/-- All that a store does. -/
theorem PatchPages.store_ok {pages : PatchPages} {v : List (BitVec 8)} {m m' : Machine} {a : Addr}
    (h : pages.store m a v = some m') :
    (∀ i < v.length, pages.writable (a+BitVec.ofNat 64 i) = true) ∧
      m'.log = storeEvents a v.length++m.log ∧ m'.mem = layBytes pages.tr m.mem a v := by
  induction v generalizing m a with
  | nil =>
    injection h with h
    subst h
    exact ⟨fun i hi => absurd hi (Nat.not_lt_zero i),rfl,rfl⟩
  | cons b bs ih =>
    rw [store] at h
    by_cases hw : pages.writable a = true
    · rw [if_pos hw] at h
      obtain ⟨hall,hlog,hmem⟩ := ih h
      refine ⟨?_,?_,hmem⟩
      · intro i hi
        cases i with
        | zero => simpa using hw
        | succ i =>
          have he : a+BitVec.ofNat 64 (i+1) = a+1+BitVec.ofNat 64 i := by bv_omega
          rw [he]
          exact hall i (Nat.lt_of_succ_lt_succ hi)
      · rw [hlog, List.length_cons, storeEvents_succ, List.append_assoc]
        rfl
    · rw [if_neg hw] at h
      cases h

/-- A store that reaches the end is shorter than the address space. -/
theorem PatchPages.lt_of_writable (pages : PatchPages) {a : Addr} {n : ℕ}
    (h : ∀ i < n, pages.writable (a+BitVec.ofNat 64 i) = true) : n < 2^64 := by
  obtain ⟨x,hx⟩ := pages.hole
  by_contra hn
  have hw := h (x-a).toNat (by omega)
  rw [BitVec.ofNat_toNat, BitVec.setWidth_eq, BitVec.add_comm, BitVec.sub_add_cancel] at hw
  rw [hw] at hx
  cases hx

end Zeldar
