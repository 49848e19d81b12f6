import Zeldar.A64Tables
import Zeldar.Armv8

namespace Zeldar.Armv8
open A64 (Reg Inst)

/-- `None32` and `None64`, whose index is minus one. -/
def Register.none (kind : RegisterKind) : Register := ⟨kind,-1⟩

def uint (b : Bool) : BitVec 32 := (BitVec.ofBool b).setWidth 32

/-- `SetRd(rd.Index())` and its like, on the register field at bit `lo`. -/
def setReg (lo : ℕ) (inst : BitVec 32) (r : Register) : BitVec 32 :=
  setBits ⟨lo,lo+5⟩ inst (r.index.setWidth 32)

def op100xInstruction (op0 : BitVec 32) : BitVec 32 := setBits ⟨23,26⟩ (instruction 0b1000) op0

def addSubtractImmediate (sf op s : Bool) : BitVec 32 :=
  let inst := op100xInstruction 0b010
  let inst := setBits (Mask.bit 31) inst (uint sf)
  let inst := setBits (Mask.bit 30) inst (uint op)
  setBits (Mask.bit 29) inst (uint s)

def calcSh (imm : BitVec 32) : Bool := imm != 0 && imm &&& 0xfff == 0

def calcImm (imm : BitVec 32) : BitVec 16 :=
  (if calcSh imm then imm >>> 12 else imm).setWidth 16

/-- The constructors of the four instructions, which differ in `op` and `s`. -/
def addSubtractOf (op s : Bool) (rd rn : Register) (imm : BitVec 32) : BitVec 32 :=
  let inst := addSubtractImmediate rd.is64 op s
  let inst := setReg 0 inst rd
  let inst := setReg 5 inst rn
  let inst := setBits ⟨10,22⟩ inst ((calcImm imm).setWidth 32)
  setBits (Mask.bit 22) inst (uint (calcSh imm))

def addImmediate : Register → Register → BitVec 32 → BitVec 32 := addSubtractOf false false

def addsImmediate : Register → Register → BitVec 32 → BitVec 32 := addSubtractOf false true

def subImmediate : Register → Register → BitVec 32 → BitVec 32 := addSubtractOf true false

def subsImmediate : Register → Register → BitVec 32 → BitVec 32 := addSubtractOf true true

/-- `GetRd` of the comparisons and `GetRn` of `MovRegister`: no register, of the same width. -/
def getNone (reg : Register) : Register := if reg.is64 then .none .x else .none .w

def cmpImmediate (reg : Register) (imm : BitVec 32) : BitVec 32 :=
  subsImmediate (getNone reg) reg imm

def cmnImmediate (reg : Register) (imm : BitVec 32) : BitVec 32 :=
  addsImmediate (getNone reg) reg imm

def moveWideImmediate (reg : Register) (opc hw : BitVec 32) (imm : BitVec 16) : BitVec 32 :=
  let inst := op100xInstruction 0b101
  let inst := setBits (Mask.bit 31) inst (uint reg.is64)
  let inst := setBits ⟨29,31⟩ inst opc
  let inst := setBits ⟨21,23⟩ inst hw
  let inst := setBits ⟨5,21⟩ inst (imm.setWidth 32)
  setReg 0 inst reg

def movk (reg : Register) (imm : BitVec 16) : BitVec 32 := moveWideImmediate reg 0b11 0b00 imm

def movn (reg : Register) (imm : BitVec 16) : BitVec 32 := moveWideImmediate reg 0b00 0b00 imm

def movz (reg : Register) (imm : BitVec 16) : BitVec 32 := moveWideImmediate reg 0b10 0b00 imm

def opx101Instruction (op0 op1 op2 op3 : BitVec 32) : BitVec 32 :=
  let inst := instruction 0b0101
  let inst := setBits (Mask.bit 30) inst op0
  let inst := setBits (Mask.bit 28) inst op1
  let inst := setBits ⟨20,24⟩ inst op2
  setBits ⟨10,15⟩ inst op3

def logicalShiftedRegister (sf opc : BitVec 32) : BitVec 32 :=
  let inst := opx101Instruction 0b0 0b0 0b0000 0b000000
  let inst := setBits (Mask.bit 31) inst sf
  setBits ⟨29,31⟩ inst opc

inductive ShiftType
  | lsl | lsr | asr | ror
  deriving DecidableEq, Repr

def ShiftType.value (shift : ShiftType) : BitVec 32 :=
  match shift with
  | .lsl => 0b00
  | .lsr => 0b01
  | .asr => 0b10
  | .ror => 0b11

def orrShiftedRegister (rd rn rm : Register) (shift : ShiftType) (amount : BitVec 16) :
    BitVec 32 :=
  let inst := logicalShiftedRegister (uint rd.is64) 0b01
  let inst := setBits ⟨22,24⟩ inst shift.value
  let inst := setBits (Mask.bit 21) inst 0
  let inst := setReg 16 inst rm
  let inst := setBits ⟨10,16⟩ inst (amount.setWidth 32)
  let inst := setReg 5 inst rn
  setReg 0 inst rd

def movRegister (rd rm : Register) : BitVec 32 := orrShiftedRegister rd (getNone rd) rm .lsl 0

def loadStoreRegisterOffset (size v opc : BitVec 32) : BitVec 32 :=
  let inst := opx1x0Instruction 0b0011
  let inst := setBits ⟨30,32⟩ inst size
  let inst := setBits ⟨22,24⟩ inst opc
  let inst := setBits (Mask.bit 26) inst 0
  let inst := setBits ⟨23,25⟩ inst 0b00
  let inst := setBits ⟨16,22⟩ inst 0b100000
  let inst := setBits ⟨10,12⟩ inst 0b10
  setBits (Mask.bit 26) inst v

/-- `ExtendType_UXTX` is another name of the value of `lsl`. -/
inductive ExtendType
  | uxtb | uxth | uxtw | lsl | sxtb | sxth | sxtw | sxtx
  deriving DecidableEq, Repr

def createOption (extend : ExtendType) : BitVec 32 :=
  match extend with
  | .uxtw => 0b010
  | .lsl => 0b011
  | .sxtw => 0b110
  | .sxtx => 0b111
  | _ => 0b000

def createS (rt : Register) (amount : BitVec 8) : Bool :=
  if amount = 0 then false
  else if rt.is64 ∧ amount = 3 then true
  else if ¬rt.is64 ∧ amount = 2 then true
  else false

/-- The constructors of the load and the store, which differ in `opc`. -/
def registerOffsetOf (opc : BitVec 32) (rt rn rm : Register) (extend : ExtendType)
    (amount : BitVec 8) : BitVec 32 :=
  let inst := loadStoreRegisterOffset (unscaledSize rt) 0b0 opc
  let inst := setBits ⟨30,32⟩ inst (unscaledSize rt)
  let inst := setReg 16 inst rm
  let inst := setBits ⟨13,16⟩ inst (createOption extend)
  let inst := setBits (Mask.bit 12) inst (uint (createS rt amount))
  let inst := setReg 0 inst rt
  setReg 5 inst rn

def ldrRegisterOffset : Register → Register → Register → ExtendType → BitVec 8 → BitVec 32 :=
  registerOffsetOf 0b01

def strRegisterOffset : Register → Register → Register → ExtendType → BitVec 8 → BitVec 32 :=
  registerOffsetOf 0b00

def loadStoreRegisterUnsignedImmediate (size v opc : BitVec 32) (imm12 : BitVec 16)
    (rn rt : Register) : BitVec 32 :=
  let inst := opx1x0Instruction 0b0011
  let inst := setBits ⟨23,25⟩ inst 0b10
  let inst := setBits ⟨30,32⟩ inst size
  let inst := setBits (Mask.bit 26) inst v
  let inst := setBits ⟨22,24⟩ inst opc
  let inst := setBits ⟨10,22⟩ inst (imm12.setWidth 32)
  let inst := setReg 5 inst rn
  setReg 0 inst rt

def ldrRegisterImmediate (rt rn : Register) (imm12 : BitVec 16) : BitVec 32 :=
  loadStoreRegisterUnsignedImmediate (unscaledSize rt) 0b0 0b01 imm12 rn rt

def strRegisterImmediate (rt rn : Register) (imm12 : BitVec 16) : BitVec 32 :=
  loadStoreRegisterUnsignedImmediate (unscaledSize rt) 0b0 0b00 imm12 rn rt

def unconditionalBranchRegister (opc op2 : BitVec 32) : BitVec 32 :=
  let inst := op101xInstruction 0b110
  let inst := setBits ⟨12,26⟩ inst 0b10000000000000
  let inst := setBits ⟨21,25⟩ inst opc
  setBits ⟨16,21⟩ inst op2

/-- The constructors of the two branches, which differ in `opc`. -/
def branchRegisterOf (opc : BitVec 32) (rn : Register) : BitVec 32 :=
  let inst := unconditionalBranchRegister opc 0b11111
  let inst := setBits ⟨10,16⟩ inst 0b000000
  let inst := setReg 5 inst rn
  setBits ⟨0,5⟩ inst 0b00000

def branchRegister : Register → BitVec 32 := branchRegisterOf 0b0000

def ret : Register → BitVec 32 := branchRegisterOf 0b0010

def hints : BitVec 32 :=
  let inst := op101xInstruction 0b110
  let inst := setBits ⟨12,26⟩ inst 0b01000000110010
  setBits ⟨0,5⟩ inst 0b11111

def nop : BitVec 32 :=
  let inst := setBits ⟨8,12⟩ hints 0b0000
  setBits ⟨5,8⟩ inst 0b000

end Zeldar.Armv8
