import Zeldar.A64Decode
import Zeldar.Armv8Encode

namespace Zeldar.Armv8
open A64

/-- `ImmloMask`. -/
def immloMask : Mask := ⟨29,31⟩

inductive PcRelOp
  | adr | adrp
  deriving DecidableEq, Repr

def PcRelOp.value (op : PcRelOp) : BitVec 32 :=
  match op with
  | .adr => 0
  | .adrp => 1

def pcRelAddressing (reg : Register) (imm : BitVec 32) (op : PcRelOp) : BitVec 32 :=
  let inst := op100xInstruction 0b000
  let inst := setBits (Mask.bit 31) inst op.value
  let inst := setBits immloMask inst imm
  let inst := setBits ⟨5,24⟩ inst (imm >>> immloMask.count)
  setReg 0 inst reg

def adr (reg : Register) (imm : BitVec 32) : BitVec 32 := pcRelAddressing reg imm .adr

/-- The page distance is cut off the byte distance by a shift that brings in zeros. -/
def adrp (reg : Register) (imm : BitVec 32) : BitVec 32 := pcRelAddressing reg (imm >>> 12) .adrp

/-- A place named by a distance in bytes, as the architecture reads it. -/
inductive PcRelInst
  | b (link : Bool) (d : ℤ)
  | adr (rd : Reg) (d : ℤ)
  | adrp (rd : Reg) (d : ℤ)
  deriving DecidableEq, Repr

/-- Every distance is a field of the word with its sign extended, scaled by words or by pages. -/
def decodePcRel (w : Word) : Option PcRelInst :=
  match decode w with
  | .b link imm26 => some (.b link (imm26++0#2).toInt)
  | .adr imm21 rd => some (.adr (Reg.orZr rd) imm21.toInt)
  | .adrp imm21 rd => some (.adrp (Reg.orZr rd) (imm21++0#12).toInt)
  | _ => none

/-- The distances in reach of a branch. -/
abbrev BranchDistance := { d : ℤ // d%4 = 0 ∧ -2^27 ≤ d ∧ d < 2^27 }

abbrev AdrDistance := { d : ℤ // -2^20 ≤ d ∧ d < 2^20 }

/-- The distances in reach of `ADRP` that 32 bits can carry. -/
abbrev PageDistance := { d : ℤ // d%4096 = 0 ∧ -2^31 ≤ d ∧ d < 2^31 }

/-- A builder with a distance in its reach. -/
inductive PcRelCall
  | branch (d : BranchDistance)
  | branchLink (d : BranchDistance)
  | adr (sf : Bool) (rd : ZReg) (d : AdrDistance)
  | adrp (sf : Bool) (rd : ZReg) (d : PageDistance)

namespace PcRelCall

/-- The word that the builder returns from `Value()`. -/
def value (c : PcRelCall) : BitVec 32 :=
  match c with
  | .branch d => Armv8.branch (BitVec.ofInt 32 d.1)
  | .branchLink d => Armv8.branchLink (BitVec.ofInt 32 d.1)
  | .adr sf rd d => Armv8.adr (register sf rd.1) (BitVec.ofInt 32 d.1)
  | .adrp sf rd d => Armv8.adrp (register sf rd.1) (BitVec.ofInt 32 d.1)

/-- The instruction that the builder is named for. -/
def inst (c : PcRelCall) : PcRelInst :=
  match c with
  | .branch d => .b false d.1
  | .branchLink d => .b true d.1
  | .adr _ rd d => .adr rd.1 d.1
  | .adrp _ rd d => .adrp rd.1 d.1

/-- The call is no `Adrp` to a page before its own. -/
def NoPageBack (c : PcRelCall) : Prop :=
  match c with
  | .adrp _ _ d => 0 ≤ d.1
  | _ => True

end PcRelCall

section Words
variable (reg : Register) (imm : BitVec 32)

theorem pcRelAddressing_opcode (op : PcRelOp) :
    pcRelAddressing reg imm op &&& 0x9f000000 = op.value <<< 31 ||| 0x10000000 := by
  have hbase : ∀ op : PcRelOp, setBits (Mask.bit 31) (op100xInstruction 0b000) op.value &&&
      0x9f000000 = op.value <<< 31 ||| 0x10000000 := by
    intro op
    cases op <;> decide
  simp only [pcRelAddressing, setReg, immloMask]
  simp (disch := decide) only [setBits_and_of_ne]
  exact hbase op

/-- The two fields together hold the low 21 bits of what they are given. -/
theorem pcRelAddressing_imm (op : PcRelOp) :
    (pcRelAddressing reg imm op).extractLsb' 5 19++(pcRelAddressing reg imm op).extractLsb' 29 2 =
      imm.setWidth 21 := by
  have hhi : (pcRelAddressing reg imm op).extractLsb' 5 19 = (imm >>> 2).setWidth 19 := by
    simp only [pcRelAddressing, setReg, immloMask]
    simp (disch := decide) only [extract_setBits_of_ne, extract_setBits_self]
    rfl
  have hlo : (pcRelAddressing reg imm op).extractLsb' 29 2 = imm.setWidth 2 := by
    simp only [pcRelAddressing, setReg, immloMask]
    simp (disch := decide) only [extract_setBits_of_ne, extract_setBits_self]
  rw [hhi, hlo]
  apply BitVec.eq_of_getLsbD_eq
  intro i hi
  rw [BitVec.getLsbD_append]
  -- bits 0 and 1 come from the low field, the other ones from the high field
  by_cases h2 : i < 2
  · simp [h2, show i < 21 by omega]
  · simp [h2, show i-2 < 19 by omega, show i < 21 by omega, show 2+(i-2) = i by omega]

theorem pcRelAddressing_reg (op : PcRelOp) :
    (pcRelAddressing reg imm op).extractLsb' 0 5 = (reg.index.setWidth 32).setWidth 5 := by
  simp only [pcRelAddressing, setReg, immloMask]
  simp (disch := decide) only [extract_setBits_self]

theorem decode_adr_word :
    decode (adr reg imm) = .adr (imm.setWidth 21) ((reg.index.setWidth 32).setWidth 5) := by
  unfold adr
  rw [decode_adr (pcRelAddressing_opcode reg imm .adr), pcRelAddressing_imm, pcRelAddressing_reg]

theorem decode_adrp_word : decode (adrp reg imm) =
    .adrp ((imm >>> 12).setWidth 21) ((reg.index.setWidth 32).setWidth 5) := by
  unfold adrp
  rw [decode_adrp (pcRelAddressing_opcode reg _ .adrp), pcRelAddressing_imm, pcRelAddressing_reg]

end Words

section Distances

/-- The field of a branch holds every distance in its reach. -/
theorem branch_distance (d : BranchDistance) :
    (((BitVec.ofInt 64 d.1).sshiftRight 2).setWidth 26++0#2).toInt = d.1 := by
  obtain ⟨d,h4,hlo,hhi⟩ := d
  dsimp only
  have hd : (BitVec.ofInt 64 d).toInt = d :=
    @toInt_ofInt_of_reach 63 d (by omega) (by omega)
  have hmod : (BitVec.ofInt 64 d).toNat%4 = 0 := by
    have hcond := BitVec.toInt_eq_toNat_cond (BitVec.ofInt 64 d)
    rw [hd] at hcond
    split_ifs at hcond <;> omega
  have hfield := @displacement_of_range 26 (BitVec.ofInt 64 d) (by decide) (by decide) hmod
    (by rw [hd]; omega) (by rw [hd]; omega)
  have hint := congrArg BitVec.toInt hfield
  rwa [BitVec.toInt_signExtend_of_le (by decide), hd] at hint

theorem adr_distance (d : AdrDistance) : ((BitVec.ofInt 32 d.1).setWidth 21).toInt = d.1 := by
  obtain ⟨d,hlo,hhi⟩ := d
  rw [setWidth_ofInt (by decide)]
  exact @toInt_ofInt_of_reach 20 d hlo hhi

/-- Cut to pages by a shift that brings in zeros, no distance is negative. -/
theorem page_distance (d : PageDistance) :
    ((BitVec.ofInt 32 d.1 >>> 12).setWidth 21++0#12).toInt = d.1%2^32 := by
  obtain ⟨d,hpage,hlo,hhi⟩ := d
  dsimp only
  have hnat : ((BitVec.ofInt 32 d).toNat:ℤ) = d%2^32 := by
    rw [BitVec.toNat_ofInt, Int.toNat_of_nonneg (Int.emod_nonneg d (by decide))]
    rfl
  have hlt := (BitVec.ofInt 32 d).isLt
  have hshift : ((BitVec.ofInt 32 d >>> 12).setWidth 21).toNat =
      (BitVec.ofInt 32 d).toNat/4096 := by
    rw [BitVec.toNat_setWidth, BitVec.toNat_ushiftRight, Nat.shiftRight_eq_div_pow]
    omega
  have hsign : ((BitVec.ofInt 32 d >>> 12).setWidth 21).toInt =
      ((BitVec.ofInt 32 d).toNat/4096:ℕ) := by
    rw [← hshift]
    apply BitVec.toInt_eq_toNat_of_lt
    rw [hshift]
    omega
  rw [BitVec.toInt_append_zero, hsign]
  omega

end Distances

/-- What a builder encodes decodes to the instruction it is named for, unless it is an `Adrp` to
a page before its own. -/
theorem pcRelCall_decodes_iff (c : PcRelCall) :
    decodePcRel c.value = some c.inst ↔ c.NoPageBack := by
  cases c with
  | branch d =>
    have hword := branch_eq (BitVec.ofInt 64 d.1)
    rw [setWidth_ofInt (by decide)] at hword
    refine iff_of_true ?_ trivial
    unfold decodePcRel PcRelCall.value PcRelCall.inst
    dsimp only
    rw [hword, decode_b (branchWord_opcode _ (by decide)), branchWord_imm _ (by decide)]
    dsimp only
    rw [branch_distance]
  | branchLink d =>
    have hword := branchLink_eq (BitVec.ofInt 64 d.1)
    rw [setWidth_ofInt (by decide)] at hword
    refine iff_of_true ?_ trivial
    unfold decodePcRel PcRelCall.value PcRelCall.inst
    dsimp only
    rw [hword, decode_bl (branchWord_opcode _ (by decide)), branchWord_imm _ (by decide)]
    dsimp only
    rw [branch_distance]
  | adr sf rd d =>
    refine iff_of_true ?_ trivial
    unfold decodePcRel PcRelCall.value PcRelCall.inst
    dsimp only
    rw [decode_adr_word]
    dsimp only
    rw [orZr_register, adr_distance]
  | adrp sf rd d =>
    obtain ⟨-,hlo,hhi⟩ := d.2
    unfold decodePcRel PcRelCall.value PcRelCall.inst PcRelCall.NoPageBack
    dsimp only
    rw [decode_adrp_word]
    dsimp only
    rw [orZr_register, page_distance, Option.some.injEq, PcRelInst.adrp.injEq]
    -- the distance comes back modulo 2^32, and so unsigned
    constructor
    · rintro ⟨-,h⟩
      omega
    · intro h
      exact ⟨rfl,by omega⟩

/-- `ADRP X0` to the page before the one it stands on comes back as nearly 4 GiB ahead. -/
theorem adrp_backward_unsigned :
    decodePcRel (PcRelCall.adrp true ⟨.x 0,by decide⟩ ⟨-4096,by decide⟩).value =
        some (.adrp (.x 0) 0xfffff000) ∧
      ¬∀ c : PcRelCall, decodePcRel c.value = some c.inst := by
  refine ⟨by decide,?_⟩
  intro h
  have hback := h (.adrp true ⟨.x 0,by decide⟩ ⟨-4096,by decide⟩)
  revert hback
  decide

end Zeldar.Armv8
