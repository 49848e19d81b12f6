import Zeldar.ByteMem
import Zeldar.EventLog
import Zeldar.SignedField

/-! State of the relocating loop of `hook_impl.cpp`: the machine it writes to,
its four cursors, and the `context` that resolves references between the
relocated instructions.

Memory is keyed by the address a word is executed at. `tr` translates the
address of a data access to that key: a read-write window resolves to the
read-only address it aliases. -/
namespace Zeldar

def maxInstructions : ℕ := 5
def trampolineSize : ℕ := maxInstructions*10
def maxReferences : ℕ := maxInstructions*2
def aarch64Nop : Word := 0xd503201f

/-- One store, or one cache maintenance operation over a range. -/
inductive Event
  | write (a : Addr)
  | dcacheFlush (a : Addr) (size : BitVec 64)
  | icacheInvalidate (a : Addr) (size : BitVec 64)
  | clearCache (a : Addr) (size : BitVec 64)
  deriving DecidableEq, Repr

/-- Memory, and what was done to it and to the caches, newest first. -/
structure Machine where
  mem : Mem
  log : List Event

namespace Machine

def load32 (tr : Addr → Addr) (m : Machine) (a : Addr) : Word := m.mem.read32 (tr a)

def store32 (tr : Addr → Addr) (m : Machine) (a : Addr) (w : Word) : Machine where
  mem := m.mem.write32 (tr a) w
  log := .write a :: m.log

def store64 (tr : Addr → Addr) (m : Machine) (a : Addr) (v : BitVec 64) : Machine :=
  (m.store32 tr a (v.extractLsb' 0 32)).store32 tr (a+4) (v.extractLsb' 32 32)

def record (m : Machine) (e : Event) : Machine := { m with log := e :: m.log }

end Machine

/-- How a relocation can fail to return: an index outside `dat`, a padding loop
that never ends, or the debug check on the instruction count. -/
inductive Fault
  | outOfBounds
  | diverges
  | tooManyInstructions
  deriving DecidableEq, Repr

/-- `fix_info`: a word to patch once the address it refers to is known. -/
structure FixInfo where
  bprx : Addr
  bprw : Addr
  ls : ℕ
  ad : Word

/-- An entry whose `bprw` is null is free. -/
def FixInfo.null : FixInfo := ⟨0,0,0,0⟩

/-- `insns_info`: where an instruction was relocated to, and who waits for it. -/
structure InsnsInfo where
  ins : Addr
  fmap : List FixInfo

structure Context where
  basep : Addr
  endp : Addr
  dat : Fin maxInstructions → InsnsInfo

namespace Context

def isInFixingRange (c : Context) (absoluteAddr : Addr) : Bool :=
  c.basep.sle absoluteAddr && absoluteAddr.slt c.endp

/-- The division is unsigned, so the index is never negative. -/
def getRefInsIndex (c : Context) (absoluteAddr : Addr) : ℕ := (absoluteAddr-c.basep).toNat/4

def index (i : ℕ) : Except Fault (Fin maxInstructions) :=
  if h : i < maxInstructions then .ok ⟨i,h⟩ else .error .outOfBounds

def resetCurrentIns (c : Context) (idx : Fin maxInstructions) (outp : Addr) : Context :=
  { c with dat := Function.update c.dat idx { c.dat idx with ins := outp } }

def getAndSetCurrentIndex (c : Context) (inp outp : Addr) :
    Except Fault (Fin maxInstructions × Context) := do
  let idx ← index (c.getRefInsIndex inp)
  return (idx,c.resetCurrentIns idx outp)

/-- The first free entry is taken; with none left the request is dropped. -/
def insertEntry (g : FixInfo) : List FixInfo → List FixInfo
  | [] => []
  | f :: fs => if f.bprw = 0 then g :: fs else f :: insertEntry g fs

def insertFixMap (c : Context) (idx : Fin maxInstructions) (bprw bprx : Addr) (ls : ℕ)
    (ad : Word) : Context :=
  let info := { c.dat idx with fmap := insertEntry ⟨bprx,bprw,ls,ad⟩ (c.dat idx).fmap }
  { c with dat := Function.update c.dat idx info }

end Context

/-- The word a fix-up leaves: the old word with the distance to `ins` merged in. -/
def fixedWord (old : Word) (ins : Addr) (f : FixInfo) : Word :=
  old ||| ((((ins-f.bprx).setWidth 32).sshiftRight 2 <<< f.ls) &&& f.ad)

/-- The loop of `process_fix_map`: it patches and frees entries up to the first free one. -/
def processEntries (tr : Addr → Addr) (ins : Addr) :
    List FixInfo → Machine → List FixInfo × Machine
  | [], m => ([],m)
  | f :: fs, m =>
    if f.bprw = 0 then (f :: fs,m)
    else
      let m := m.store32 tr f.bprw (fixedWord (m.load32 tr f.bprx) ins f)
      let (fs,m) := processEntries tr ins fs m
      ({ f with bprw := 0, bprx := 0 } :: fs,m)

structure FixState where
  m : Machine
  inprw : Addr
  inprx : Addr
  outprw : Addr
  outprx : Addr
  ctx : Context

namespace FixState

/-- `(*outprw)[k] = w`. -/
def put (tr : Addr → Addr) (s : FixState) (k : ℕ) (w : Word) : FixState :=
  { s with m := s.m.store32 tr (wordAt s.outprw k) w }

/-- `memcpy(*outprw + k, &v, sizeof(v))`. -/
def put64 (tr : Addr → Addr) (s : FixState) (k : ℕ) (v : BitVec 64) : FixState :=
  { s with m := s.m.store64 tr (wordAt s.outprw k) v }

/-- `*outprw += k; *outprx += k`. -/
def advance (s : FixState) (k : ℕ) : FixState :=
  { s with outprw := wordAt s.outprw k, outprx := wordAt s.outprx k }

def emitNop (tr : Addr → Addr) (s : FixState) : FixState := (s.put tr 0 aarch64Nop).advance 1

def resetCurrentIns (s : FixState) (idx : Fin maxInstructions) (outp : Addr) : FixState :=
  { s with ctx := s.ctx.resetCurrentIns idx outp }

def insertFixMap (s : FixState) (idx : Fin maxInstructions) (bprw bprx : Addr) (ls : ℕ)
    (ad : Word) : FixState :=
  { s with ctx := s.ctx.insertFixMap idx bprw bprx ls ad }

def getAndSetCurrentIndex (s : FixState) (inp outp : Addr) :
    Except Fault (Fin maxInstructions × FixState) := do
  let (idx,ctx) ← s.ctx.getAndSetCurrentIndex inp outp
  return (idx,{ s with ctx })

def processFixMap (tr : Addr → Addr) (s : FixState) (idx : Fin maxInstructions) : FixState :=
  let info := s.ctx.dat idx
  let (fmap,m) := processEntries tr info.ins info.fmap s.m
  { s with m, ctx := { s.ctx with dat := Function.update s.ctx.dat idx { info with fmap } } }

/-- `++(*inprxp); ++(*inprwp)`. -/
def nextIn (s : FixState) : FixState :=
  { s with inprw := wordAt s.inprw 1, inprx := wordAt s.inprx 1 }

/-- Emits alignment NOPs while `more` holds. Every condition of the source depends on
the cursor modulo sixteen only, so one that holds four times in a row holds forever. -/
def padWhile (tr : Addr → Addr) (more : FixState → Bool) : ℕ → FixState → Except Fault FixState
  | 0, s => if more s then .error .diverges else .ok s
  | n+1, s => if more s then padWhile tr more n (s.emitNop tr) else .ok s

end FixState

namespace Event

/-- The data cache holds no newer byte of `a` than memory once this is done. -/
def cleans (a : Addr) : Event → Bool
  | .dcacheFlush base size => (a-base).ult size
  | .clearCache base size => (a-base).ult size
  | _ => false

/-- The instruction cache holds no byte of `a` once this is done. -/
def discards (a : Addr) : Event → Bool
  | .icacheInvalidate base size => (a-base).ult size
  | .clearCache base size => (a-base).ult size
  | _ => false

/-- The `width` bytes of a store are made coherent in `later`. They are executed
`exec` of the address they are stored at. -/
def Coherent (exec : Addr → Addr) (width : ℕ) (e : Event) (later : List Event) : Prop :=
  ∀ a, e = .write a → ∀ i < width,
    Followed (fun f => f.cleans (a+BitVec.ofNat 64 i) = true)
      (fun f => f.discards (exec a+BitVec.ofNat 64 i) = true) later

theorem coherent_persistent (exec : Addr → Addr) (width : ℕ) :
    Persistent (Coherent exec width) :=
  fun _ _ more h a ha i hi => (h a ha i hi).append_left more

end Event

/-- A flush of `size` bytes and then an invalidation of as many make every store
to them coherent. -/
theorem coherent_of_flush {exec : Addr → Addr} {width : ℕ} {a base exbase : Addr}
    {size : BitVec 64} (newer older : List Event)
    (hrw : ∀ i < width, a+BitVec.ofNat 64 i-base < size)
    (hrx : ∀ i < width, exec a+BitVec.ofNat 64 i-exbase < size) :
    (Event.write a).Coherent exec width
      (newer++.icacheInvalidate exbase size :: .dcacheFlush base size :: older) := by
  intro a' ha i hi
  injection ha with ha
  subst ha
  apply Followed.of_pair
  · exact BitVec.ult_iff_lt.mpr (hrw i hi)
  · exact BitVec.ult_iff_lt.mpr (hrx i hi)

end Zeldar
