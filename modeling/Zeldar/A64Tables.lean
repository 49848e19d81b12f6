import Zeldar.A64

/-! The encoding tables of the instructions that have a builder, for both
register widths. Words outside these classes, and the unallocated ones inside
them, decode to nothing. -/
namespace Zeldar.A64

/-- A register operand. Number 31 is one of the last two, and each operand of an instruction
admits only one of them. -/
inductive Reg
  | x (n : Fin 31)
  | zr
  | sp
  deriving DecidableEq, Repr

namespace Reg

/-- An operand for which number 31 is the zero register. -/
def orZr (n : BitVec 5) : Reg := if h : n.toNat < 31 then x ⟨n.toNat,h⟩ else zr

/-- An operand for which it is the stack pointer. -/
def orSp (n : BitVec 5) : Reg := if h : n.toNat < 31 then x ⟨n.toNat,h⟩ else sp

end Reg

inductive MoveWide
  | movn | movz | movk
  deriving DecidableEq, Repr

inductive Shift
  | lsl | lsr | asr | ror
  deriving DecidableEq, Repr

inductive Extend
  | uxtw | lsl | sxtw | sxtx
  deriving DecidableEq, Repr

/-- `sf` chooses the 64-bit registers. Base registers of loads and stores are always 64-bit, and
an offset register is when its extension is `lsl` or `sxtx`. -/
inductive Inst
  | addSubImm (sf sub setFlags : Bool) (rd rn : Reg) (imm : ℕ)
  | moveWide (sf : Bool) (op : MoveWide) (rd : Reg) (imm16 : BitVec 16) (shift : ℕ)
  | orrShifted (sf : Bool) (rd rn rm : Reg) (shift : Shift) (amount : ℕ)
  | memOffset (load sf : Bool) (rt rn rm : Reg) (extend : Extend) (amount : ℕ)
  | memUnscaled (load sf : Bool) (rt rn : Reg) (simm : ℤ)
  | memUnsigned (load sf : Bool) (rt rn : Reg) (imm12 : ℕ)
  | br (rn : Reg)
  | ret (rn : Reg)
  | nop
  deriving DecidableEq, Repr

def moveWideOf (opc : BitVec 2) : Option MoveWide :=
  match opc with
  | 0b00 => some .movn
  | 0b10 => some .movz
  | 0b11 => some .movk
  | _ => none

def shiftOf (shift : BitVec 2) : Shift :=
  match shift with
  | 0b00 => .lsl
  | 0b01 => .lsr
  | 0b10 => .asr
  | _ => .ror

def extendOf (option : BitVec 3) : Option Extend :=
  match option with
  | 0b010 => some .uxtw
  | 0b011 => some .lsl
  | 0b110 => some .sxtw
  | 0b111 => some .sxtx
  | _ => none

/-- From `size` and `opc`: whether a word or double word is loaded, and whether it is a double
word. Bytes, half words and the loads that extend a sign have no builder. -/
def memOf (size opc : BitVec 2) : Option (Bool × Bool) :=
  match size, opc with
  | 0b10, 0b00 => some (false,false)
  | 0b10, 0b01 => some (true,false)
  | 0b11, 0b00 => some (false,true)
  | 0b11, 0b01 => some (true,true)
  | _, _ => none

def decodeTables (w : Word) : Option Inst :=
  let rd := w.extractLsb' 0 5
  let rn := w.extractLsb' 5 5
  let rm := w.extractLsb' 16 5
  let sf := w.getLsbD 31
  let mem := memOf (w.extractLsb' 30 2) (w.extractLsb' 22 2)
  -- data processing, immediate
  if w &&& 0x1f800000 = 0x11000000 then
    let setFlags := w.getLsbD 29
    let shift := if w.getLsbD 22 then 12 else 0
    some (.addSubImm sf (w.getLsbD 30) setFlags (if setFlags then .orZr rd else .orSp rd)
      (.orSp rn) ((w.extractLsb' 10 12).toNat*2^shift))
  else if w &&& 0x1f800000 = 0x12800000 then
    let hw := (w.extractLsb' 21 2).toNat
    if sf ∨ hw < 2 then
      (moveWideOf (w.extractLsb' 29 2)).map fun op =>
        .moveWide sf op (.orZr rd) (w.extractLsb' 5 16) (16*hw)
    else none
  -- data processing, register
  else if w &&& 0x7f200000 = 0x2a000000 then
    let amount := (w.extractLsb' 10 6).toNat
    if sf ∨ amount < 32 then
      some (.orrShifted sf (.orZr rd) (.orZr rn) (.orZr rm) (shiftOf (w.extractLsb' 22 2)) amount)
    else none
  -- loads and stores
  else if w &&& 0x3f200c00 = 0x38200800 then do
    let (load,sf) ← mem
    let extend ← extendOf (w.extractLsb' 13 3)
    let amount := if w.getLsbD 12 then (if sf then 3 else 2) else 0
    return .memOffset load sf (.orZr rd) (.orSp rn) (.orZr rm) extend amount
  else if w &&& 0x3f200c00 = 0x38000000 then
    mem.map fun (load,sf) =>
      .memUnscaled load sf (.orZr rd) (.orSp rn) (w.extractLsb' 12 9).toInt
  else if w &&& 0x3f000000 = 0x39000000 then
    mem.map fun (load,sf) => .memUnsigned load sf (.orZr rd) (.orSp rn) (w.extractLsb' 10 12).toNat
  -- branches and hints
  else if w &&& 0xfffffc1f = 0xd61f0000 then some (.br (.orZr rn))
  else if w &&& 0xfffffc1f = 0xd65f0000 then some (.ret (.orZr rn))
  else if w = 0xd503201f then some .nop
  else none

section Classes
variable {w : Word}

/-- Two classes whose patterns differ in a bit that both masks cover exclude each other. -/
theorem other_class {m p m' p' : Word} (h : w &&& m = p) (hne : p &&& m' ≠ p' &&& m) :
    ¬w &&& m' = p' := by
  intro h'
  apply hne
  calc
    p &&& m' = w &&& m &&& m' := by rw [h]
    _ = w &&& m' &&& m := by rw [BitVec.and_assoc, BitVec.and_comm m, ← BitVec.and_assoc]
    _ = p' &&& m := by rw [h']

theorem decode_addSubImm (h : w &&& 0x1f800000 = 0x11000000) :
    decodeTables w = some (.addSubImm (w.getLsbD 31) (w.getLsbD 30) (w.getLsbD 29)
      (if w.getLsbD 29 then .orZr (w.extractLsb' 0 5) else .orSp (w.extractLsb' 0 5))
      (.orSp (w.extractLsb' 5 5))
      ((w.extractLsb' 10 12).toNat*2^(if w.getLsbD 22 then 12 else 0))) := by
  simp only [decodeTables, h, ↓reduceIte]

theorem decode_moveWide (h : w &&& 0x1f800000 = 0x12800000)
    (hw : w.getLsbD 31 = true ∨ (w.extractLsb' 21 2).toNat < 2) :
    decodeTables w = (moveWideOf (w.extractLsb' 29 2)).map fun op =>
      .moveWide (w.getLsbD 31) op (.orZr (w.extractLsb' 0 5)) (w.extractLsb' 5 16)
        (16*(w.extractLsb' 21 2).toNat) := by
  simp only [decodeTables]
  rw [if_neg (other_class h (by decide)), if_pos h, if_pos hw]

theorem decode_orrShifted (h : w &&& 0x7f200000 = 0x2a000000)
    (ha : w.getLsbD 31 = true ∨ (w.extractLsb' 10 6).toNat < 32) :
    decodeTables w = some (.orrShifted (w.getLsbD 31) (.orZr (w.extractLsb' 0 5))
      (.orZr (w.extractLsb' 5 5)) (.orZr (w.extractLsb' 16 5)) (shiftOf (w.extractLsb' 22 2))
      (w.extractLsb' 10 6).toNat) := by
  simp only [decodeTables]
  rw [if_neg (other_class h (by decide)), if_neg (other_class h (by decide)), if_pos h, if_pos ha]

theorem decode_memOffset (h : w &&& 0x3f200c00 = 0x38200800) {load sf : Bool}
    (hm : memOf (w.extractLsb' 30 2) (w.extractLsb' 22 2) = some (load,sf)) :
    decodeTables w = (extendOf (w.extractLsb' 13 3)).map fun extend =>
      .memOffset load sf (.orZr (w.extractLsb' 0 5)) (.orSp (w.extractLsb' 5 5))
        (.orZr (w.extractLsb' 16 5)) extend
        (if w.getLsbD 12 then (if sf then 3 else 2) else 0) := by
  simp only [decodeTables]
  rw [if_neg (other_class h (by decide)), if_neg (other_class h (by decide)),
    if_neg (other_class h (by decide)), if_pos h, hm]
  cases extendOf (w.extractLsb' 13 3) <;> rfl

theorem decode_memUnscaled (h : w &&& 0x3f200c00 = 0x38000000) {load sf : Bool}
    (hm : memOf (w.extractLsb' 30 2) (w.extractLsb' 22 2) = some (load,sf)) :
    decodeTables w = some (.memUnscaled load sf (.orZr (w.extractLsb' 0 5))
      (.orSp (w.extractLsb' 5 5)) (w.extractLsb' 12 9).toInt) := by
  simp only [decodeTables]
  rw [if_neg (other_class h (by decide)), if_neg (other_class h (by decide)),
    if_neg (other_class h (by decide)), if_neg (other_class h (by decide)), if_pos h, hm]
  rfl

theorem decode_memUnsigned (h : w &&& 0x3f000000 = 0x39000000) {load sf : Bool}
    (hm : memOf (w.extractLsb' 30 2) (w.extractLsb' 22 2) = some (load,sf)) :
    decodeTables w = some (.memUnsigned load sf (.orZr (w.extractLsb' 0 5))
      (.orSp (w.extractLsb' 5 5)) (w.extractLsb' 10 12).toNat) := by
  simp only [decodeTables]
  rw [if_neg (other_class h (by decide)), if_neg (other_class h (by decide)),
    if_neg (other_class h (by decide)), if_neg (other_class h (by decide)),
    if_neg (other_class h (by decide)), if_pos h, hm]
  rfl

theorem decode_branchRegister {opc : Word} (h : w &&& 0xfffffc1f = opc)
    (hopc : opc = 0xd61f0000 ∨ opc = 0xd65f0000) :
    decodeTables w = some (if opc = 0xd61f0000 then .br (.orZr (w.extractLsb' 5 5))
      else .ret (.orZr (w.extractLsb' 5 5))) := by
  simp only [decodeTables]
  rcases hopc with rfl | rfl
  · rw [if_neg (other_class h (by decide)), if_neg (other_class h (by decide)),
      if_neg (other_class h (by decide)), if_neg (other_class h (by decide)),
      if_neg (other_class h (by decide)), if_neg (other_class h (by decide)), if_pos h, if_pos rfl]
  · rw [if_neg (other_class h (by decide)), if_neg (other_class h (by decide)),
      if_neg (other_class h (by decide)), if_neg (other_class h (by decide)),
      if_neg (other_class h (by decide)), if_neg (other_class h (by decide)),
      if_neg (other_class h (by decide)), if_pos h, if_neg (by decide)]

end Classes

end Zeldar.A64
