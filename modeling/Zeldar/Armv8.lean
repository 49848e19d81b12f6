import Zeldar.BitSet
import Zeldar.HookJump

namespace Zeldar.Armv8

inductive RegisterKind
  | w | x
  deriving DecidableEq, Repr

structure Register where
  kind : RegisterKind
  index : BitVec 7
  deriving DecidableEq, Repr

namespace Register

def is64 (r : Register) : Bool := r.kind == .x

def lr : Register := ⟨.x,30⟩

def sp : Register := ⟨.x,31⟩

end Register

/-- A word in which only the main opcode is set. -/
def instruction (op0 : BitVec 32) : BitVec 32 := setBits ⟨25,29⟩ 0 op0

def op101xInstruction (op0 : BitVec 32) : BitVec 32 :=
  setBits ⟨29,32⟩ (instruction 0b1010) op0

/-- `op` is 0 for `B` and 1 for `BL`. The address is unsigned, and so is its quarter. -/
def unconditionalBranchImmediate (op relativeAddress : BitVec 32) : BitVec 32 :=
  let inst := op101xInstruction 0b000
  let inst := setBits (Mask.bit 31) inst op
  setBits ⟨0,26⟩ inst (relativeAddress/4)

def branch (relativeAddress : BitVec 32) : BitVec 32 :=
  unconditionalBranchImmediate 0 relativeAddress

def branchLink (relativeAddress : BitVec 32) : BitVec 32 :=
  unconditionalBranchImmediate 1 relativeAddress

def opx1x0Instruction (op0 : BitVec 32) : BitVec 32 :=
  setBits ⟨28,32⟩ (instruction 0b0100) op0

def loadStoreRegisterUnscaledImmediate (size v opc : BitVec 32) (imm9 : BitVec 16)
    (rn rt : Register) : BitVec 32 :=
  let inst := opx1x0Instruction 0b0011
  let inst := setBits ⟨23,25⟩ inst 0b00
  let inst := setBits ⟨16,22⟩ inst 0b000000
  let inst := setBits ⟨10,12⟩ inst 0b00
  let inst := setBits ⟨30,32⟩ inst size
  let inst := setBits (Mask.bit 26) inst v
  let inst := setBits ⟨22,24⟩ inst opc
  let inst := setBits ⟨12,21⟩ inst ((signExtend 9 imm9).signExtend 32)
  let inst := setBits ⟨5,10⟩ inst (rn.index.setWidth 32)
  setBits ⟨0,5⟩ inst (rt.index.setWidth 32)

def unscaledSize (rt : Register) : BitVec 32 := 0b10 ||| (BitVec.ofBool rt.is64).setWidth 32

def sturUnscaledImmediate (rt rn : Register) (imm : BitVec 16) : BitVec 32 :=
  loadStoreRegisterUnscaledImmediate (unscaledSize rt) 0 0b00 imm rn rt

def ldurUnscaledImmediate (rt rn : Register) (imm : BitVec 16) : BitVec 32 :=
  loadStoreRegisterUnscaledImmediate (unscaledSize rt) 0 0b01 imm rn rt

theorem quarter_field (d : Addr) :
    (d.setWidth 32/4) <<< 0 &&& fieldMask 0 26 =
      (d.sshiftRight 2).setWidth 32 <<< 0 &&& fieldMask 0 26 := by
  have hq : d.setWidth 32/(4:BitVec 32) = d.setWidth 32 >>> 2 := by
    apply BitVec.eq_of_toNat_eq
    rw [BitVec.toNat_udiv, BitVec.toNat_ushiftRight, Nat.shiftRight_eq_div_pow]
    rfl
  rw [hq]
  apply BitVec.eq_of_getLsbD_eq
  intro i hi
  rw [BitVec.getLsbD_and, BitVec.getLsbD_and, getLsbD_fieldMask]
  by_cases h : i < 26
  · simp only [BitVec.shiftLeft_zero, BitVec.getLsbD_ushiftRight, BitVec.getLsbD_setWidth,
      BitVec.getLsbD_sshiftRight, hi, show 2+i < 32 by omega, show 2+i < 64 by omega,
      show ¬64 ≤ i by omega, ↓reduceIte, decide_true, decide_false, Bool.not_false, Bool.true_and]
  · simp [h]

/-- On a distance cut to 32 bits the builder writes the word that a near hook writes. -/
theorem setBits_quarter {opc : Word} (d : Addr) (h : opc &&& ~~~fieldMask 0 26 = opc) :
    setBits ⟨0,26⟩ opc (d.setWidth 32/4) = branchWord opc d := by
  have hv : Mask.value ⟨0,26⟩ = fieldMask 0 26 := by decide
  rw [setBits, hv, branchWord_eq, quarter_field, h]

theorem branch_eq (d : Addr) : branch (d.setWidth 32) = branchWord 0x14000000 d :=
  setBits_quarter d (by decide)

theorem branchLink_eq (d : Addr) : branchLink (d.setWidth 32) = branchWord 0x94000000 d :=
  setBits_quarter d (by decide)

theorem stur_lr : sturUnscaledImmediate .lr .sp (-0x10) = 0xf81f03fe := by decide

theorem ldur_lr : ldurUnscaledImmediate .lr .sp (-0x10) = 0xf85f03fe := by decide

end Zeldar.Armv8
