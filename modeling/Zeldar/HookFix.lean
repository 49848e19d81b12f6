import Zeldar.HookContext

/-! The relocating loop of `hook_impl.cpp`. Each handler answers `none` for a
word of another kind, and otherwise the state after relocating the word. -/
namespace Zeldar

section Handlers
variable (tr : Addr → Addr)

/-- `LDR X17, #8; BR X17` and the address, at the cursor. -/
def FixState.putAbsoluteJump (s : FixState) (target : Addr) : FixState :=
  ((s.put tr 0 0x58000051).put tr 1 0xd61f0220).put64 tr 2 target

/-- The block three handlers share for a target inside the range: the distance to the address
recorded for an earlier instruction, or none and a fix-up at the cursor for a later one. -/
def FixState.refer (s : FixState) (currentIdx : Fin maxInstructions) (absoluteAddr : Addr)
    (ls : ℕ) (ad : Word) : Except Fault (Addr × FixState) := do
  let refIdx ← Context.index (s.ctx.getRefInsIndex absoluteAddr)
  if refIdx ≤ currentIdx then
    return ((s.ctx.dat refIdx).ins-s.outprx,s)
  else
    return (0,s.insertFixMap refIdx s.outprw s.outprx ls ad)

def branchTarget (inprx : Addr) (ins : Word) : Addr :=
  let mbits := 6
  inprx+((ins <<< mbits).sshiftRight (mbits-2)).signExtend 64

def branchWord (opc : Word) (distance : Addr) : Word :=
  let mask : Word := 0xfc000000
  let newPcOffset := distance.sshiftRight 2
  (opc.setWidth 64 ||| (newPcOffset &&& (~~~mask).setWidth 64)).setWidth 32

def fixBranchImm (s : FixState) : Except Fault (Option FixState) :=
  let mask : Word := 0xfc000000
  let rmask : Word := 0x03ffffff
  let opB : Word := 0x14000000
  let opBl : Word := 0x94000000
  let ins := s.m.load32 tr s.inprw
  let opc := ins &&& mask
  if opc = opB ∨ opc = opBl then do
    let (currentIdx,s) ← s.getAndSetCurrentIndex s.inprx s.outprx
    let absoluteAddr := branchTarget s.inprx ins
    let newPcOffset := (absoluteAddr-s.outprx).sshiftRight 2
    let special := s.ctx.isInFixingRange absoluteAddr
    if ¬special ∧ ((rmask >>> 1).setWidth 64).sle (llabs newPcOffset) then
      -- out of reach of a branch: the target is loaded into X17 and jumped to
      let bAligned := wordAt s.outprx 2 &&& 7 = 0
      if opc = opB then
        let s := if bAligned then s
          else (s.emitNop tr).resetCurrentIns currentIdx (wordAt s.outprx 1)
        let s := (s.putAbsoluteJump tr absoluteAddr).advance 4
        return some (s.nextIn.processFixMap tr currentIdx)
      else
        -- the literal comes one word later than for B, so the parity is the opposite one
        let s := if bAligned then (s.emitNop tr).resetCurrentIns currentIdx (wordAt s.outprx 1)
          else s
        let s := ((s.put tr 0 0x58000071).put tr 1 0x1000009e).put tr 2 0xd61f0220
        let s := (s.put64 tr 3 absoluteAddr).advance 5
        return some (s.nextIn.processFixMap tr currentIdx)
    else
      -- a target that is relocated later on is filled in by the fix-up of its word
      let (distance,s) ←
        if special then s.refer currentIdx absoluteAddr 0 rmask
        else pure (absoluteAddr-s.outprx,s)
      let s := (s.put tr 0 (branchWord opc distance)).advance 1
      return some (s.nextIn.processFixMap tr currentIdx)
  else
    return none

/-- The bits a conditional branch keeps: everything but its 19- or 14-bit offset. -/
def condLmask (ins : Word) : Option Word :=
  let lmask01 : Word := 0xff00001f
  let lmask2 : Word := 0xfff8001f
  if ins &&& 0xff000010 = 0x54000000 then some lmask01
  else if ins &&& 0x7f000000 = 0x34000000 ∨ ins &&& 0x7f000000 = 0x35000000 then some lmask01
  else if ins &&& 0x7f000000 = 0x36000000 ∨ ins &&& 0x7f000000 = 0x37000000 then some lmask2
  else none

/-- Unlike its siblings this handler does not sign-extend the offset. -/
def condTarget (inprx : Addr) (lmask ins : Word) : Addr :=
  let lsb := 5
  inprx+((ins &&& ~~~lmask) >>> (lsb-2)).setWidth 64

def condWord (lmask ins : Word) (distance : Addr) : Word :=
  let lsb := 5
  let newPcOffset := distance.sshiftRight 2
  ((newPcOffset <<< lsb).setWidth 32 &&& ~~~lmask) ||| (ins &&& lmask)

def fixCondCompTestBranch (s : FixState) : Except Fault (Option FixState) :=
  let lsb := 5
  let ins := s.m.load32 tr s.inprw
  match condLmask ins with
  | none => return none
  | some lmask => do
    let (currentIdx,s) ← s.getAndSetCurrentIndex s.inprx s.outprx
    let absoluteAddr := condTarget s.inprx lmask ins
    let newPcOffset := (absoluteAddr-s.outprx).sshiftRight 2
    let special := s.ctx.isInFixingRange absoluteAddr
    if ¬special ∧ ((~~~lmask >>> (lsb+1)).setWidth 64).sle (llabs newPcOffset) then
      -- taken, it skips over a jump past the end and runs into a jump to the target
      let s := if wordAt s.outprx 4 &&& 7 ≠ 0 then
          ((s.put tr 0 aarch64Nop).resetCurrentIns currentIdx s.outprx).advance 1
        else s
      let s := s.put tr 0 ((((8:Word) >>> 2) <<< lsb &&& ~~~lmask) ||| (ins &&& lmask))
      let s := ((s.put tr 1 0x14000005).put tr 2 0x58000051).put tr 3 0xd61f0220
      let s := (s.put64 tr 4 absoluteAddr).advance 6
      return some (s.nextIn.processFixMap tr currentIdx)
    else
      let (distance,s) ←
        if special then s.refer currentIdx absoluteAddr lsb (~~~lmask)
        else pure (absoluteAddr-s.outprx,s)
      let s := (s.put tr 0 (condWord lmask ins distance)).advance 1
      return some (s.nextIn.processFixMap tr currentIdx)

/-- The opcode mask of a literal load and its alignment mask (access size minus one). -/
def litMask (ins : Word) : Option (Word × BitVec 64) :=
  let faligned : BitVec 64 := if ins &&& 0x40000000 ≠ 0 then 7 else 3
  if ins &&& 0xbf000000 = 0x18000000 then some (0xbf000000,faligned)
  else
    let faligned := if faligned ≠ 7 then (if ins &&& 0x80000000 ≠ 0 then 15 else 3) else faligned
    if ins &&& 0x3f000000 = 0x1c000000 then some (0x3f000000,faligned)
    else if ins &&& 0xff000000 = 0x98000000 then some (0xff000000,7)
    else none

/-- Consecutive words from the `k`-th one at the cursor. -/
def FixState.putWords (s : FixState) (k : ℕ) : List Word → FixState
  | [] => s
  | w :: ws => (s.put tr k w).putWords (k+1) ws

/-- `memcpy(*outprw + k, absolute_addr, 4 * n)`. -/
def FixState.copyWords (s : FixState) (k : ℕ) (src : Addr) (n : ℕ) : FixState :=
  s.putWords tr k ((List.range n).map fun i => s.m.load32 tr (wordAt src i))

/-- The offset is sign-extended in 32 bits and then added as an unsigned number. -/
def litTarget (inprx : Addr) (ins : Word) : Addr :=
  let msb := 8
  let lsb := 5
  inprx+((ins <<< msb).sshiftRight (msb+lsb-2) &&& ~~~(3:Word)).setWidth 64

def litWord (mask ins : Word) (distance : Addr) : Word :=
  let lsb := 5
  let lmask : Word := 0xff00001f
  let newPcOffset := distance.sshiftRight 2
  ((newPcOffset <<< lsb).setWidth 32 &&& ~~~mask) ||| (ins &&& lmask)

def fixLoadlit (s : FixState) : Except Fault (Option FixState) :=
  let lsb := 5
  let lmask : Word := 0xff00001f
  let ins := s.m.load32 tr s.inprw
  if ins &&& 0xff000000 = 0xd8000000 then do
    -- a prefetch is dropped
    let (currentIdx,s) ← s.getAndSetCurrentIndex s.inprx s.outprx
    return some (s.processFixMap tr currentIdx).nextIn
  else match litMask ins with
  | none => return none
  | some (mask,faligned) => do
    let (currentIdx,s) ← s.getAndSetCurrentIndex s.inprx s.outprx
    let absoluteAddr := litTarget s.inprx ins
    let newPcOffset := (absoluteAddr-s.outprx).sshiftRight 2
    let special := s.ctx.isInFixingRange absoluteAddr
    if special ∨ ((~~~lmask >>> (lsb+1)).setWidth 64).ule
        (llabs newPcOffset+(faligned+1-4)/4) then
      let s ← s.padWhile tr (fun s => wordAt s.outprx 2 &&& faligned != 0) 3
      let s := s.resetCurrentIns currentIdx s.outprx
      -- the load, a branch over the literal, and a copy of the literal
      let ns := (faligned.toNat+1)/4
      let s := s.put tr 0 ((((8:Word) >>> 2) <<< lsb &&& ~~~mask) ||| (ins &&& lmask))
      let s := s.put tr 1 (0x14000001+BitVec.ofNat 32 ns)
      let s := (s.copyWords tr 2 absoluteAddr ns).advance (2+ns)
      return some (s.nextIn.processFixMap tr currentIdx)
    else
      -- NOPs until the old literal is at a distance that the load can encode
      let faligned := faligned >>> 2
      let s ← s.padWhile tr (fun s => (absoluteAddr-s.outprx).sshiftRight 2 &&& faligned != 0) 3
      let s := s.resetCurrentIns currentIdx s.outprx
      let s := (s.put tr 0 (litWord mask ins (absoluteAddr-s.outprx))).advance 1
      return some (s.nextIn.processFixMap tr currentIdx)

/-- The alignment NOP and the load of an address that was computed at hooking time. -/
def FixState.putAddressLoad (s : FixState) (currentIdx : Fin maxInstructions) (rt : Word)
    (absoluteAddr : Addr) : FixState :=
  let s := if wordAt s.outprx 2 &&& 7 ≠ 0 then
      (s.emitNop tr).resetCurrentIns currentIdx (wordAt s.outprx 1)
    else s
  let mask : Word := 0x9f000000
  let s := s.put tr 0 ((0x58000000:Word) ||| (((8:Word) >>> 2) <<< 5 &&& ~~~mask) ||| rt)
  ((s.put tr 1 0x14000003).put64 tr 2 absoluteAddr).advance 4

/-- As for literal loads the sign stops at bit 31. -/
def adrTarget (inprx : Addr) (ins : Word) : Addr :=
  let msb := 8
  let lsb := 5
  let lsbBytes := ((ins <<< 1) >>> 30).setWidth 64
  inprx+(((ins <<< msb).sshiftRight (msb+lsb-2) &&& ~~~(3:Word)).setWidth 64 ||| lsbBytes)

def adrWord (ins : Word) (newPcOffset : Addr) : Word :=
  let lsb := 5
  let lmask : Word := 0xff00001f
  let fmask : Word := 0x00ffffff
  ((newPcOffset <<< (lsb-2)).setWidth 32 &&& fmask) ||| (ins &&& lmask)

/-- The page displacement is shifted in 32 bits, so it loses its top bit and its sign. -/
def adrpTarget (inprx : Addr) (ins : Word) : Addr :=
  let msb := 8
  let lsb := 5
  let lsbBytes := (ins <<< 1) >>> 30
  (inprx &&& ~~~(0xfff:Addr))+
    ((((ins <<< msb).sshiftRight (msb+lsb-2) &&& ~~~(3:Word)) ||| lsbBytes) <<< 12).setWidth 64

def fixPcreladdr (s : FixState) : Except Fault (Option FixState) :=
  let lsb := 5
  let mask : Word := 0x9f000000
  let rmask : Word := 0x0000001f
  let fmask : Word := 0x00ffffff
  let maxVal : Word := 0x001fffff
  let ins := s.m.load32 tr s.inprw
  if ins &&& mask = 0x10000000 then do
    let (currentIdx,s) ← s.getAndSetCurrentIndex s.inprx s.outprx
    let absoluteAddr := adrTarget s.inprx ins
    let newPcOffset := absoluteAddr-s.outprx
    let special := s.ctx.isInFixingRange absoluteAddr
    if ¬special ∧ ((maxVal >>> 1).setWidth 64).sle (llabs newPcOffset) then
      let s := s.putAddressLoad tr currentIdx (ins &&& rmask) absoluteAddr
      return some (s.processFixMap tr currentIdx).nextIn
    else
      let (newPcOffset,s) ←
        if special then s.refer currentIdx (absoluteAddr &&& ~~~(3:Addr)) lsb fmask
        else pure (newPcOffset,s)
      let s := (s.put tr 0 (adrWord ins newPcOffset)).advance 1
      return some (s.processFixMap tr currentIdx).nextIn
  else if ins &&& mask = 0x90000000 then do
    -- this handler alone records the read-write cursor
    let (currentIdx,s) ← s.getAndSetCurrentIndex s.inprx s.outprw
    let absoluteAddr := adrpTarget s.inprx ins
    if s.ctx.isInFixingRange absoluteAddr then
      -- copied as it is, though the page it computes is now another one
      let s := (s.put tr 0 ins).advance 1
      return some (s.processFixMap tr currentIdx).nextIn
    else
      let s := s.putAddressLoad tr currentIdx (ins &&& rmask) absoluteAddr
      return some (s.processFixMap tr currentIdx).nextIn
  else
    return none

/-- A word without a PC-relative operand is copied. The fix-ups run before the copy. -/
def fixOther (s : FixState) : Except Fault FixState := do
  let (idx,s) ← s.getAndSetCurrentIndex s.inprx s.outprx
  let s := s.processFixMap tr idx
  return ((s.put tr 0 (s.m.load32 tr s.inprw)).advance 1).nextIn

/-- One iteration of the loop of `__fix_instructions`. -/
def fixInstruction (s : FixState) : Except Fault FixState := do
  if let some s ← fixBranchImm tr s then return s
  if let some s ← fixCondCompTestBranch tr s then return s
  if let some s ← fixLoadlit tr s then return s
  if let some s ← fixPcreladdr tr s then return s
  fixOther tr s

def fixLoop : ℕ → FixState → Except Fault FixState
  | 0, s => return s
  | count+1, s => do fixLoop count (← fixInstruction tr s)

/-- The jump back to the first instruction that was not relocated. -/
def fixJumpBack (s : FixState) : FixState :=
  let mask : BitVec 64 := 0x03ffffff
  let callback := s.inprx
  let pcOffset := (callback-s.outprx).sshiftRight 2
  if (mask >>> 1).ule (llabs pcOffset) then
    let s := if wordAt s.outprx 2 &&& 7 ≠ 0 then s.emitNop tr else s
    (s.putAbsoluteJump tr callback).advance 4
  else
    (s.put tr 0 ((0x14000000 ||| (pcOffset &&& mask)).setWidth 32)).advance 1

end Handlers

def fixStart (m : Machine) (inprw inprx : Addr) (count : ℕ) (outrwp outrxp : Addr) : FixState where
  m := m
  inprw := inprw
  inprx := inprx
  outprw := outrwp
  outprx := outrxp
  ctx := {
    basep := inprx
    endp := wordAt inprx count
    dat := fun _ => ⟨0,List.replicate maxReferences FixInfo.null⟩ }

def fixInstructions (tr : Addr → Addr) (m : Machine) (inprw inprx : Addr) (count : ℕ)
    (outrwp outrxp : Addr) : Except Fault Machine := do
  if maxInstructions < count then throw .tooManyInstructions
  let s ← fixLoop tr count (fixStart m inprw inprx count outrwp outrxp)
  let s := fixJumpBack tr s
  let total := s.outprx-outrxp
  return s.m.record (.clearCache outrwp total)

end Zeldar
