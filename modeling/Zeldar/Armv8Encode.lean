import Zeldar.Armv8Builders

namespace Zeldar.Armv8
open A64

/-- A register, or none. -/
abbrev ZReg := { r : Reg // r ≠ .sp }

/-- A register, or the stack pointer. -/
abbrev SReg := { r : Reg // r ≠ .zr }

/-- The immediates of add and subtract: twelve bits, in place or shifted by twelve. -/
abbrev ArithImm := { imm : BitVec 32 // ∃ i < 4096, imm.toNat = i ∨ imm.toNat = i*2^12 }

abbrev ShiftAmount (sf : Bool) := { amount : BitVec 16 // amount.toNat < if sf then 64 else 32 }

/-- The shift of an offset register: by the size of the access, or none. -/
abbrev OffsetAmount (sf : Bool) := { amount : BitVec 8 // amount = 0 ∨ amount = if sf then 3 else 2 }

abbrev Imm12 := { imm : BitVec 16 // imm.toNat < 2^12 }

abbrev Imm9 := { imm : BitVec 16 // -2^8 ≤ imm.toInt ∧ imm.toInt < 2^8 }

/-- A builder with operands that its instruction admits. -/
inductive Call
  | add (sf : Bool) (rd rn : SReg) (imm : ArithImm)
  | adds (sf : Bool) (rd : ZReg) (rn : SReg) (imm : ArithImm)
  | sub (sf : Bool) (rd rn : SReg) (imm : ArithImm)
  | subs (sf : Bool) (rd : ZReg) (rn : SReg) (imm : ArithImm)
  | cmp (sf : Bool) (rn : SReg) (imm : ArithImm)
  | cmn (sf : Bool) (rn : SReg) (imm : ArithImm)
  | movz (sf : Bool) (rd : ZReg) (imm : BitVec 16)
  | movn (sf : Bool) (rd : ZReg) (imm : BitVec 16)
  | movk (sf : Bool) (rd : ZReg) (imm : BitVec 16)
  | orr (sf : Bool) (rd rn rm : ZReg) (shift : Shift) (amount : ShiftAmount sf)
  | mov (sf : Bool) (rd rm : ZReg)
  | ldrOffset (sf : Bool) (rt : ZReg) (rn : SReg) (rm : ZReg) (extend : Extend)
      (amount : OffsetAmount sf)
  | strOffset (sf : Bool) (rt : ZReg) (rn : SReg) (rm : ZReg) (extend : Extend)
      (amount : OffsetAmount sf)
  | ldrImm (sf : Bool) (rt : ZReg) (rn : SReg) (imm : Imm12)
  | strImm (sf : Bool) (rt : ZReg) (rn : SReg) (imm : Imm12)
  | ldur (sf : Bool) (rt : ZReg) (rn : SReg) (imm : Imm9)
  | stur (sf : Bool) (rt : ZReg) (rn : SReg) (imm : Imm9)
  | br (rn : ZReg)
  | ret (rn : ZReg)
  | nop

/-- The constant of `armv8::reg` for an operand. -/
def register (sf : Bool) (r : Reg) : Register :=
  let kind := if sf then RegisterKind.x else RegisterKind.w
  match r with
  | .x n => ⟨kind,BitVec.ofNat 7 n⟩
  | .zr => .none kind
  | .sp => ⟨kind,31⟩

def shiftType (shift : Shift) : ShiftType :=
  match shift with
  | .lsl => .lsl
  | .lsr => .lsr
  | .asr => .asr
  | .ror => .ror

def extendType (extend : Extend) : ExtendType :=
  match extend with
  | .uxtw => .uxtw
  | .lsl => .lsl
  | .sxtw => .sxtw
  | .sxtx => .sxtx

/-- Whether the extension takes a 64-bit register. -/
def wide (extend : Extend) : Bool :=
  match extend with
  | .lsl | .sxtx => true
  | _ => false

/-- The word that the builder returns from `Value()`. -/
def Call.value (c : Call) : BitVec 32 :=
  match c with
  | .add sf rd rn imm => addImmediate (register sf rd.1) (register sf rn.1) imm.1
  | .adds sf rd rn imm => addsImmediate (register sf rd.1) (register sf rn.1) imm.1
  | .sub sf rd rn imm => subImmediate (register sf rd.1) (register sf rn.1) imm.1
  | .subs sf rd rn imm => subsImmediate (register sf rd.1) (register sf rn.1) imm.1
  | .cmp sf rn imm => cmpImmediate (register sf rn.1) imm.1
  | .cmn sf rn imm => cmnImmediate (register sf rn.1) imm.1
  | .movz sf rd imm => Armv8.movz (register sf rd.1) imm
  | .movn sf rd imm => Armv8.movn (register sf rd.1) imm
  | .movk sf rd imm => Armv8.movk (register sf rd.1) imm
  | .orr sf rd rn rm shift amount => orrShiftedRegister (register sf rd.1) (register sf rn.1)
      (register sf rm.1) (shiftType shift) amount.1
  | .mov sf rd rm => movRegister (register sf rd.1) (register sf rm.1)
  | .ldrOffset sf rt rn rm extend amount => ldrRegisterOffset (register sf rt.1)
      (register true rn.1) (register (wide extend) rm.1) (extendType extend) amount.1
  | .strOffset sf rt rn rm extend amount => strRegisterOffset (register sf rt.1)
      (register true rn.1) (register (wide extend) rm.1) (extendType extend) amount.1
  | .ldrImm sf rt rn imm => ldrRegisterImmediate (register sf rt.1) (register true rn.1) imm.1
  | .strImm sf rt rn imm => strRegisterImmediate (register sf rt.1) (register true rn.1) imm.1
  | .ldur sf rt rn imm => ldurUnscaledImmediate (register sf rt.1) (register true rn.1) imm.1
  | .stur sf rt rn imm => sturUnscaledImmediate (register sf rt.1) (register true rn.1) imm.1
  | .br rn => branchRegister (register true rn.1)
  | .ret rn => Armv8.ret (register true rn.1)
  | .nop => Armv8.nop

/-- The instruction that the builder is named for. The comparisons and `mov` are aliases. -/
def Call.inst (c : Call) : Inst :=
  match c with
  | .add sf rd rn imm => .addSubImm sf false false rd.1 rn.1 imm.1.toNat
  | .adds sf rd rn imm => .addSubImm sf false true rd.1 rn.1 imm.1.toNat
  | .sub sf rd rn imm => .addSubImm sf true false rd.1 rn.1 imm.1.toNat
  | .subs sf rd rn imm => .addSubImm sf true true rd.1 rn.1 imm.1.toNat
  | .cmp sf rn imm => .addSubImm sf true true .zr rn.1 imm.1.toNat
  | .cmn sf rn imm => .addSubImm sf false true .zr rn.1 imm.1.toNat
  | .movz sf rd imm => .moveWide sf .movz rd.1 imm 0
  | .movn sf rd imm => .moveWide sf .movn rd.1 imm 0
  | .movk sf rd imm => .moveWide sf .movk rd.1 imm 0
  | .orr sf rd rn rm shift amount => .orrShifted sf rd.1 rn.1 rm.1 shift amount.1.toNat
  | .mov sf rd rm => .orrShifted sf rd.1 .zr rm.1 .lsl 0
  | .ldrOffset sf rt rn rm extend amount =>
      .memOffset true sf rt.1 rn.1 rm.1 extend amount.1.toNat
  | .strOffset sf rt rn rm extend amount =>
      .memOffset false sf rt.1 rn.1 rm.1 extend amount.1.toNat
  | .ldrImm sf rt rn imm => .memUnsigned true sf rt.1 rn.1 imm.1.toNat
  | .strImm sf rt rn imm => .memUnsigned false sf rt.1 rn.1 imm.1.toNat
  | .ldur sf rt rn imm => .memUnscaled true sf rt.1 rn.1 imm.1.toInt
  | .stur sf rt rn imm => .memUnscaled false sf rt.1 rn.1 imm.1.toInt
  | .br rn => .br rn.1
  | .ret rn => .ret rn.1
  | .nop => .nop

section Operands

theorem is64_register (sf : Bool) (r : Reg) : (register sf r).is64 = sf := by
  cases sf <;> cases r <;> rfl

theorem getNone_register (sf : Bool) (r : Reg) : getNone (register sf r) = register sf .zr := by
  rw [getNone, is64_register]
  cases sf <;> rfl

/-- The five bits of the index of a general register. -/
theorem index_register (sf : Bool) (n : Fin 31) :
    ((register sf (.x n)).index.setWidth 32).setWidth 5 = BitVec.ofNat 5 n := by
  have hall : ∀ n : Fin 31, ((BitVec.ofNat 7 n).setWidth 32).setWidth 5 = BitVec.ofNat 5 n := by
    decide
  exact hall n

theorem orZr_register (sf : Bool) (r : ZReg) :
    Reg.orZr (((register sf r.1).index.setWidth 32).setWidth 5) = r.1 := by
  obtain ⟨r,hr⟩ := r
  cases r with
  | x n =>
    have hall : ∀ n : Fin 31, Reg.orZr (BitVec.ofNat 5 n) = .x n := by decide
    rw [index_register, hall]
  | zr =>
    have hall : ∀ sf, Reg.orZr (((register sf .zr).index.setWidth 32).setWidth 5) = .zr := by decide
    exact hall sf
  | sp => exact absurd rfl hr

theorem orSp_register (sf : Bool) (r : SReg) :
    Reg.orSp (((register sf r.1).index.setWidth 32).setWidth 5) = r.1 := by
  obtain ⟨r,hr⟩ := r
  cases r with
  | x n =>
    have hall : ∀ n : Fin 31, Reg.orSp (BitVec.ofNat 5 n) = .x n := by decide
    rw [index_register, hall]
  | zr => exact absurd rfl hr
  | sp => rfl

/-- An admitted immediate is its twelve bits, shifted as `sh` says. -/
theorem calc_imm (imm : ArithImm) :
    (((calcImm imm.1).setWidth 32).setWidth 12).toNat*2^(if calcSh imm.1 then 12 else 0) =
      imm.1.toNat := by
  obtain ⟨imm,i,hi,himm⟩ := imm
  have hmask : (imm &&& 0xfff).toNat = imm.toNat%2^12 := by
    rw [BitVec.toNat_and]
    exact Nat.and_two_pow_sub_one_eq_mod imm.toNat 12
  have hsh : calcSh imm = true ↔ imm.toNat ≠ 0 ∧ imm.toNat%2^12 = 0 := by
    rw [calcSh, Bool.and_eq_true, bne_iff_ne, beq_iff_eq, ne_eq, ← BitVec.toNat_inj,
      ← BitVec.toNat_inj, hmask]
    rfl
  by_cases h : calcSh imm = true
  · obtain ⟨h0,h12⟩ := hsh.mp h
    simp only [calcImm, h, ↓reduceIte, BitVec.toNat_setWidth, BitVec.toNat_ushiftRight,
      Nat.shiftRight_eq_div_pow]
    omega
  · have hs : imm.toNat < 4096 := by
      by_contra hbig
      apply h
      rw [hsh]
      omega
    simp only [calcImm, h, Bool.false_eq_true, ↓reduceIte, BitVec.toNat_setWidth]
    omega

end Operands

section Words
variable (sf : Bool)

/-- No register, as an operand. -/
def zero : ZReg := ⟨.zr,by decide⟩

theorem addSubtract_encodes (op s : Bool) (rd : Reg) (rn : SReg) (imm : ArithImm)
    (hrd : (if s then Reg.orZr (((register sf rd).index.setWidth 32).setWidth 5)
      else Reg.orSp (((register sf rd).index.setWidth 32).setWidth 5)) = rd) :
    decodeTables (addSubtractOf op s (register sf rd) (register sf rn.1) imm.1) =
      some (.addSubImm sf op s rd rn.1 imm.1.toNat) := by
  have hbase : ∀ sf op s : Bool,
      addSubtractImmediate sf op s &&& 0x1f800000 = 0x11000000 ∧
      (addSubtractImmediate sf op s).getLsbD 31 = sf ∧
      (addSubtractImmediate sf op s).getLsbD 30 = op ∧
      (addSubtractImmediate sf op s).getLsbD 29 = s := by decide
  obtain ⟨hb,h31,h30,h29⟩ := hbase sf op s
  have hbit (b : Bool) : (uint b).getLsbD 0 = b := by cases b <;> rfl
  simp only [addSubtractOf, is64_register, setReg]
  rw [decode_addSubImm (by simp (disch := decide) only [setBits_and_of_ne, hb])]
  simp (disch := decide) only [getLsbD_setBits_bit, getLsbD_setBits_bit_of_ne,
    getLsbD_setBits_of_ne, extract_setBits_bit, extract_setBits_self, extract_setBits_of_ne,
    h31, h30, h29, hbit, orSp_register, hrd, calc_imm]

/-- The two kinds of destination of `addSubtract_encodes`. -/
theorem dest_sp (sf : Bool) (rd : SReg) :
    (if false = true then Reg.orZr (((register sf rd.1).index.setWidth 32).setWidth 5)
      else Reg.orSp (((register sf rd.1).index.setWidth 32).setWidth 5)) = rd.1 := by
  rw [if_neg (by decide), orSp_register]

theorem dest_zr (sf : Bool) (rd : ZReg) :
    (if true = true then Reg.orZr (((register sf rd.1).index.setWidth 32).setWidth 5)
      else Reg.orSp (((register sf rd.1).index.setWidth 32).setWidth 5)) = rd.1 := by
  rw [if_pos rfl, orZr_register]

theorem moveWide_encodes (op : MoveWide) (opc : BitVec 32)
    (hop : moveWideOf (opc.setWidth 2) = some op) (rd : ZReg) (imm : BitVec 16) :
    decodeTables (moveWideImmediate (register sf rd.1) opc 0b00 imm) =
      some (.moveWide sf op rd.1 imm 0) := by
  have hbase : ∀ sf : Bool,
      setBits (Mask.bit 31) (op100xInstruction 0b101) (uint sf) &&& 0x1f800000 = 0x12800000 ∧
      (setBits (Mask.bit 31) (op100xInstruction 0b101) (uint sf)).getLsbD 31 = sf := by decide
  obtain ⟨hb,h31⟩ := hbase sf
  simp only [moveWideImmediate, is64_register, setReg]
  rw [decode_moveWide (by simp (disch := decide) only [setBits_and_of_ne, hb])]
  · simp (disch := decide) only [getLsbD_setBits_of_ne, extract_setBits_self, extract_setBits_of_ne,
      h31, hop, orZr_register, Option.map_some]
    rw [BitVec.setWidth_setWidth_of_le _ (by decide), BitVec.setWidth_eq]
    rfl
  · right
    simp (disch := decide) only [extract_setBits_self, extract_setBits_of_ne]
    decide

theorem orrShifted_encodes (rd rn rm : ZReg) (shift : Shift) (amount : ShiftAmount sf) :
    decodeTables (orrShiftedRegister (register sf rd.1) (register sf rn.1) (register sf rm.1)
      (shiftType shift) amount.1) = some (.orrShifted sf rd.1 rn.1 rm.1 shift amount.1.toNat) := by
  obtain ⟨amount,ha⟩ := amount
  have hbase : ∀ sf : Bool, logicalShiftedRegister (uint sf) 0b01 &&&
        (~~~(Mask.bit 21).value &&& 0x7f200000) = 0x2a000000 ∧
      (logicalShiftedRegister (uint sf) 0b01).getLsbD 31 = sf := by decide
  obtain ⟨hb,h31⟩ := hbase sf
  have hshift : shiftOf ((shiftType shift).value.setWidth 2) = shift := by cases shift <;> rfl
  have hamount : ((amount.setWidth 32).setWidth 6).toNat = amount.toNat := by
    simp only [BitVec.toNat_setWidth]
    split_ifs at ha <;> omega
  simp only [orrShiftedRegister, is64_register, setReg]
  rw [decode_orrShifted (by
    simp (disch := decide) only [setBits_and_of_ne, setBits_zero_and, hb])]
  · simp (disch := decide) only [getLsbD_setBits_of_ne, getLsbD_setBits_bit_of_ne,
      extract_setBits_self, extract_setBits_of_ne, extract_setBits_bit, h31, hshift, hamount,
      orZr_register]
  · simp (disch := decide) only [getLsbD_setBits_of_ne, getLsbD_setBits_bit_of_ne,
      extract_setBits_self, extract_setBits_of_ne, h31, hamount]
    cases sf
    · exact Or.inr ha
    · exact Or.inl rfl

theorem size_register (r : Reg) : unscaledSize (register sf r) = 0b10 ||| uint sf := by
  rw [unscaledSize, is64_register]
  rfl

theorem uint_bit (b : Bool) : (uint b).getLsbD 0 = b := by cases b <;> rfl

/-- `S` says whether the offset is shifted by the size of the access. -/
theorem createS_amount (rt : Reg) (amount : OffsetAmount sf) :
    (if createS (register sf rt) amount.1 then (if sf then 3 else 2) else 0) = amount.1.toNat := by
  obtain ⟨amount,ha⟩ := amount
  rcases ha with rfl | rfl
  · rfl
  · rw [createS, is64_register]
    cases sf <;> rfl

theorem memOffset_encodes (load : Bool) (rt : ZReg) (rn : SReg) (rm : ZReg) (extend : Extend)
    (amount : OffsetAmount sf) :
    decodeTables (registerOffsetOf (uint load) (register sf rt.1) (register true rn.1)
      (register (wide extend) rm.1) (extendType extend) amount.1) =
        some (.memOffset load sf rt.1 rn.1 rm.1 extend amount.1.toNat) := by
  have hbase : ∀ load sf : Bool,
      loadStoreRegisterOffset (0b10 ||| uint sf) 0b0 (uint load) &&& 0x3f200c00 = 0x38200800 ∧
      memOf ((0b10 ||| uint sf).setWidth 2) ((loadStoreRegisterOffset (0b10 ||| uint sf) 0b0
        (uint load)).extractLsb' 22 2) = some (load,sf) := by decide
  obtain ⟨hb,hm⟩ := hbase load sf
  have hextend : extendOf ((createOption (extendType extend)).setWidth 3) = some extend := by
    cases extend <;> rfl
  simp only [registerOffsetOf, size_register, setReg]
  rw [@decode_memOffset _ (by simp (disch := decide) only [setBits_and_of_ne, hb]) load sf (by
    simp (disch := decide) only [extract_setBits_self, extract_setBits_of_ne, extract_setBits_bit,
      hm])]
  simp (disch := decide) only [getLsbD_setBits_of_ne, getLsbD_setBits_bit, extract_setBits_self,
    extract_setBits_of_ne, extract_setBits_bit, hextend, Option.map_some, uint_bit, createS_amount,
    orZr_register, orSp_register]

/-- What `SetImm9` stores of the pattern that `SignExtend` leaves. -/
theorem signExtend_field (imm : BitVec 16) :
    ((signExtend 9 imm).signExtend 32).setWidth 9 = imm.setWidth 9 := by
  apply BitVec.eq_of_getLsbD_eq
  intro i hi
  have hmask : (((1 <<< 9:ℕ):BitVec 64)-1).getLsbD i = true := by
    interval_cases i <;> rfl
  simp only [signExtend, BitVec.getLsbD_setWidth, BitVec.getLsbD_signExtend, BitVec.getLsbD_and, hi,
    hmask, show i < 32 by omega, show i < 16 by omega, show i < 64 by omega, decide_true,
    Bool.true_and, Bool.and_true, ↓reduceIte]

theorem memUnscaled_encodes (load : Bool) (rt : ZReg) (rn : SReg) (imm : Imm9) :
    decodeTables (loadStoreRegisterUnscaledImmediate (unscaledSize (register sf rt.1)) 0
      (uint load) imm.1 (register true rn.1) (register sf rt.1)) =
        some (.memUnscaled load sf rt.1 rn.1 imm.1.toInt) := by
  obtain ⟨imm,hlo,hhi⟩ := imm
  have himm : (((signExtend 9 imm).signExtend 32).setWidth 9).toInt = imm.toInt := by
    have hfield := BitVec.toInt_eq_toNat_cond (imm.setWidth 9)
    have hvalue := BitVec.toInt_eq_toNat_cond imm
    rw [BitVec.toNat_setWidth] at hfield
    rw [signExtend_field, hfield]
    split_ifs at hvalue ⊢ <;> omega
  simp only [loadStoreRegisterUnscaledImmediate, size_register]
  rw [@decode_memUnscaled _ (by
    simp (disch := decide) only [setBits_and_of_ne]
    revert load sf
    decide) load sf (by
    simp (disch := decide) only [extract_setBits_self, extract_setBits_of_ne, extract_setBits_bit]
    revert load sf
    decide)]
  simp (disch := decide) only [extract_setBits_self, extract_setBits_of_ne, himm, orZr_register,
    orSp_register]

theorem memUnsigned_encodes (load : Bool) (rt : ZReg) (rn : SReg) (imm : Imm12) :
    decodeTables (loadStoreRegisterUnsignedImmediate (unscaledSize (register sf rt.1)) 0b0
      (uint load) imm.1 (register true rn.1) (register sf rt.1)) =
        some (.memUnsigned load sf rt.1 rn.1 imm.1.toNat) := by
  obtain ⟨imm,himm⟩ := imm
  have hfield : ((imm.setWidth 32).setWidth 12).toNat = imm.toNat := by
    simp only [BitVec.toNat_setWidth]
    omega
  simp only [loadStoreRegisterUnsignedImmediate, size_register, setReg]
  rw [@decode_memUnsigned _ (by
    simp (disch := decide) only [setBits_and_of_ne]
    revert load sf
    decide) load sf (by
    simp (disch := decide) only [extract_setBits_self, extract_setBits_of_ne, extract_setBits_bit]
    revert load sf
    decide)]
  simp (disch := decide) only [extract_setBits_self, extract_setBits_of_ne, hfield, orZr_register,
    orSp_register]

theorem branchRegister_encodes (rn : ZReg) :
    decodeTables (branchRegister (register true rn.1)) = some (.br rn.1) ∧
      decodeTables (ret (register true rn.1)) = some (.ret rn.1) := by
  have hbr : setBits ⟨10,16⟩ (unconditionalBranchRegister 0b0000 0b11111) 0b000000 &&&
      (~~~Mask.value ⟨0,5⟩ &&& 0xfffffc1f) = 0xd61f0000 := by decide
  have hret : setBits ⟨10,16⟩ (unconditionalBranchRegister 0b0010 0b11111) 0b000000 &&&
      (~~~Mask.value ⟨0,5⟩ &&& 0xfffffc1f) = 0xd65f0000 := by decide
  constructor
  · simp only [branchRegister, branchRegisterOf, setReg]
    rw [@decode_branchRegister _ 0xd61f0000 (by
      simp (disch := decide) only [setBits_and_of_ne, setBits_zero_and, hbr]) (Or.inl rfl)]
    simp (disch := decide) only [extract_setBits_self, extract_setBits_of_ne, orZr_register,
      ↓reduceIte]
  · simp only [ret, branchRegisterOf, setReg]
    rw [@decode_branchRegister _ 0xd65f0000 (by
      simp (disch := decide) only [setBits_and_of_ne, setBits_zero_and, hret]) (Or.inr rfl),
      if_neg (by decide)]
    simp (disch := decide) only [extract_setBits_self, extract_setBits_of_ne, orZr_register]

end Words

/-- Every builder, called with operands that its instruction admits, builds the word that the
encoding tables give to that instruction. -/
theorem builders_encode (c : Call) : decodeTables c.value = some c.inst := by
  cases c with
  | add sf rd rn imm => exact addSubtract_encodes sf false false rd.1 rn imm (dest_sp sf rd)
  | adds sf rd rn imm => exact addSubtract_encodes sf false true rd.1 rn imm (dest_zr sf rd)
  | sub sf rd rn imm => exact addSubtract_encodes sf true false rd.1 rn imm (dest_sp sf rd)
  | subs sf rd rn imm => exact addSubtract_encodes sf true true rd.1 rn imm (dest_zr sf rd)
  | cmp sf rn imm =>
    rw [Call.value, cmpImmediate, getNone_register]
    exact addSubtract_encodes sf true true .zr rn imm (dest_zr sf zero)
  | cmn sf rn imm =>
    rw [Call.value, cmnImmediate, getNone_register]
    exact addSubtract_encodes sf false true .zr rn imm (dest_zr sf zero)
  | movz sf rd imm => exact moveWide_encodes sf .movz 0b10 rfl rd imm
  | movn sf rd imm => exact moveWide_encodes sf .movn 0b00 rfl rd imm
  | movk sf rd imm => exact moveWide_encodes sf .movk 0b11 rfl rd imm
  | orr sf rd rn rm shift amount => exact orrShifted_encodes sf rd rn rm shift amount
  | mov sf rd rm =>
    rw [Call.value, movRegister, getNone_register]
    exact orrShifted_encodes sf rd zero rm .lsl ⟨0,by cases sf <;> decide⟩
  | ldrOffset sf rt rn rm extend amount => exact memOffset_encodes sf true rt rn rm extend amount
  | strOffset sf rt rn rm extend amount => exact memOffset_encodes sf false rt rn rm extend amount
  | ldrImm sf rt rn imm => exact memUnsigned_encodes sf true rt rn imm
  | strImm sf rt rn imm => exact memUnsigned_encodes sf false rt rn imm
  | ldur sf rt rn imm => exact memUnscaled_encodes sf true rt rn imm
  | stur sf rt rn imm => exact memUnscaled_encodes sf false rt rn imm
  | br rn => exact (branchRegister_encodes rn).1
  | ret rn => exact (branchRegister_encodes rn).2
  | nop => decide

end Zeldar.Armv8
