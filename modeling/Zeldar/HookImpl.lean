import Zeldar.HookFix
import Zeldar.RwClaim

namespace Zeldar

def jitSize : ℕ := 0x1000
def hookMax : ℕ := jitSize/(trampolineSize*4)

/-- What a call to `Hook` finds around it: how the addresses of data accesses resolve, the
read-write address and the reservation that `RwPages` gets for a range, and `s_HookJit`. -/
structure HookEnv where
  tr : Addr → Addr
  window : Addr → BitVec 64 → Addr
  reserve : Addr → BitVec 64 → Addr
  jit : Claim

/-- The ways a call to `Hook` does not return. -/
inductive HookFault
  | fix (f : Fault)
  | assertion
  | trampolineAllocFail
  | hookFailed
  deriving DecidableEq, Repr

/-- `index` is the static counter of `AllocForTrampoline`. -/
structure HookState where
  m : Machine
  index : BitVec 32

def HookState.initial (m : Machine) : HookState := ⟨m,-1⟩

def HookEnv.rwPages (env : HookEnv) (ro : Addr) (size : BitVec 64) : Claim where
  ro := ro
  rw := env.window ro size
  size := size
  rwReserve := env.reserve ro size

/-- The cache maintenance of `~RwPages`. -/
def Machine.releasePages (m : Machine) (c : Claim) : Machine :=
  (m.record (.dcacheFlush c.rw c.size)).record (.icacheInvalidate c.ro c.size)

/-- `RwPages::Flush`. -/
def Machine.flushPages (m : Machine) (c : Claim) : Machine :=
  (m.record (.dcacheFlush c.getAlignedRw c.getAlignedSize)).record
    (.icacheInvalidate c.getAlignedRw c.getAlignedSize)

/-- The new counter and, on success, the read-execute and read-write addresses of a slot. -/
def allocForTrampoline (jit : Claim) (index : BitVec 32) : BitVec 32 × Option (Addr × Addr) :=
  let i := index+1
  if hookMax < i.toNat then (i,none)
  else (i,some (wordAt jit.ro (trampolineSize*i.toNat),wordAt jit.rw (trampolineSize*i.toNat)))

/-- Relocates `count` words if there is a trampoline to hold them; `none` is its `return false`. -/
def relocate (env : HookEnv) (m : Machine) (ctrl : Claim) (count : ℕ) (tr rxtr rwtr : Addr) :
    Except Fault (Option Machine) :=
  if tr = 0 then return some m
  else if trampolineSize < count*10 then return none
  else do return some (← fixInstructions env.tr m ctrl.rw ctrl.ro count rwtr rxtr)

def hookFuncImpl (env : HookEnv) (m : Machine) (symbol replace rxtr rwtr : Addr) :
    Except Fault (Bool × Machine) := do
  let mask : BitVec 64 := 0x03ffffff
  let pcOffset := (replace-symbol).sshiftRight 2
  if (mask >>> 1).ule (llabs pcOffset) then
    let ctrl := env.rwPages symbol (5*4)
    let count := if wordAt symbol 2 &&& 7 ≠ 0 then 5 else 4
    match ← relocate env m ctrl count rxtr rxtr rwtr with
    | none => return (false,m.releasePages ctrl)
    | some m =>
      -- five words are a NOP and the four of the jump
      let (original,m) :=
        if count = 5 then (wordAt ctrl.rw 1,m.store32 env.tr ctrl.rw aarch64Nop) else (ctrl.rw,m)
      let m := m.store32 env.tr original 0x58000051
      let m := m.store32 env.tr (wordAt original 1) 0xd61f0220
      let m := m.store64 env.tr (wordAt original 2) replace
      let m := m.record (.clearCache symbol (5*4))
      return (true,m.releasePages ctrl)
  else
    let ctrl := env.rwPages symbol (1*4)
    -- here it is the read-write pointer that is tested
    match ← relocate env m ctrl 1 rwtr rxtr rwtr with
    | none => return (false,m.releasePages ctrl)
    | some m =>
      let m := m.store32 env.tr ctrl.rw ((0x14000000 ||| (pcOffset &&& mask)).setWidth 32)
      let m := m.record (.clearCache symbol (1*4))
      return (true,m.releasePages ctrl)

/-- `Hook` once its trampoline pointers are known. -/
def hookInto (env : HookEnv) (m : Machine) (hook callback : Addr) (index : BitVec 32)
    (rxtrampoline rwtrampoline : Addr) : Except HookFault (Addr × HookState) :=
  match hookFuncImpl env m hook callback rxtrampoline rwtrampoline with
  | .error f => .error (.fix f)
  | .ok (false,_) => .error .hookFailed
  | .ok (true,m) => .ok (rxtrampoline,⟨m.flushPages env.jit,index⟩)

def hook (env : HookEnv) (st : HookState) (hook callback : Addr) (doTrampoline : Bool) :
    Except HookFault (Addr × HookState) :=
  if hook = 0 then .error .assertion
  else if callback = 0 then .error .assertion
  else if doTrampoline then
    match allocForTrampoline env.jit st.index with
    | (index,some (rx,rw)) => hookInto env st.m hook callback index rx rw
    | (_,none) => .error .trampolineAllocFail
  else hookInto env st.m hook callback st.index 0 0

end Zeldar
