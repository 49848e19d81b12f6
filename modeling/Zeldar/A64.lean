import Zeldar.ByteMem

/-! The part of the A64 instruction set that the patches and their relocated
code use: a decoder from words, the effect of one instruction, and runs.
Anything outside the part decodes to `other` and has no modelled effect. -/
namespace Zeldar.A64

/-- What a literal load reads and where it puts it, from its `opc` and `V` fields. -/
inductive LitKind
  | w | x | sw | prfm | s | d | q
  deriving DecidableEq, Repr

inductive Instr
  | b (link : Bool) (imm26 : BitVec 26)
  | bcond (cond : BitVec 4) (imm19 : BitVec 19)
  | cbz (sf nz : Bool) (imm19 : BitVec 19) (rt : BitVec 5)
  | tbz (nz : Bool) (bit : BitVec 6) (imm14 : BitVec 14) (rt : BitVec 5)
  | ldrLit (kind : LitKind) (imm19 : BitVec 19) (rt : BitVec 5)
  | adr (imm21 : BitVec 21) (rd : BitVec 5)
  | adrp (imm21 : BitVec 21) (rd : BitVec 5)
  | br (rn : BitVec 5)
  | blr (rn : BitVec 5)
  | ret (rn : BitVec 5)
  | nop
  | stur (imm9 : BitVec 9) (rn rt : BitVec 5)
  | ldur (imm9 : BitVec 9) (rn rt : BitVec 5)
  | stp (imm7 : BitVec 7) (rt2 rn rt : BitVec 5)
  | ldp (imm7 : BitVec 7) (rt2 rn rt : BitVec 5)
  | ldrImm (imm12 : BitVec 12) (rn rt : BitVec 5)
  | addImm (imm12 : BitVec 12) (rn rd : BitVec 5)
  | subImm (imm12 : BitVec 12) (rn rd : BitVec 5)
  | movReg (rm rd : BitVec 5)
  | other (w : Word)
  deriving DecidableEq, Repr

def litKind (v : Bool) (opc : BitVec 2) : Option LitKind :=
  match v, opc with
  | false, 0 => some .w
  | false, 1 => some .x
  | false, 2 => some .sw
  | false, _ => some .prfm
  | true, 0 => some .s
  | true, 1 => some .d
  | true, 2 => some .q
  | true, _ => none

/-- The instructions that refer to their own address. -/
def decodeRelative (w : Word) : Option Instr :=
  let rt := w.extractLsb' 0 5
  let imm19 := w.extractLsb' 5 19
  if w &&& 0xfc000000 = 0x14000000 then some (.b false (w.extractLsb' 0 26))
  else if w &&& 0xfc000000 = 0x94000000 then some (.b true (w.extractLsb' 0 26))
  else if w &&& 0xff000010 = 0x54000000 then some (.bcond (w.extractLsb' 0 4) imm19)
  else if w &&& 0x7e000000 = 0x34000000 then
    some (.cbz (w.getLsbD 31) (w.getLsbD 24) imm19 rt)
  else if w &&& 0x7e000000 = 0x36000000 then
    some (.tbz (w.getLsbD 24) (w.extractLsb' 31 1++w.extractLsb' 19 5) (w.extractLsb' 5 14) rt)
  else if w &&& 0x3b000000 = 0x18000000 then
    (litKind (w.getLsbD 26) (w.extractLsb' 30 2)).map fun kind => .ldrLit kind imm19 rt
  else if w &&& 0x9f000000 = 0x10000000 then some (.adr (imm19++w.extractLsb' 29 2) rt)
  else if w &&& 0x9f000000 = 0x90000000 then some (.adrp (imm19++w.extractLsb' 29 2) rt)
  else none

def decodeOther (w : Word) : Instr :=
  let rt := w.extractLsb' 0 5
  let rn := w.extractLsb' 5 5
  let rt2 := w.extractLsb' 10 5
  let rm := w.extractLsb' 16 5
  if w &&& 0xfffffc1f = 0xd61f0000 then .br rn
  else if w &&& 0xfffffc1f = 0xd63f0000 then .blr rn
  else if w &&& 0xfffffc1f = 0xd65f0000 then .ret rn
  else if w = 0xd503201f then .nop
  else if w &&& 0xffe00c00 = 0xf8000000 then .stur (w.extractLsb' 12 9) rn rt
  else if w &&& 0xffe00c00 = 0xf8400000 then .ldur (w.extractLsb' 12 9) rn rt
  else if w &&& 0xffc00000 = 0xa9000000 then .stp (w.extractLsb' 15 7) rt2 rn rt
  else if w &&& 0xffc00000 = 0xa9400000 then .ldp (w.extractLsb' 15 7) rt2 rn rt
  else if w &&& 0xffc00000 = 0xf9400000 then .ldrImm (w.extractLsb' 10 12) rn rt
  else if w &&& 0xffc00000 = 0x91000000 then .addImm (w.extractLsb' 10 12) rn rt
  else if w &&& 0xffc00000 = 0xd1000000 then .subImm (w.extractLsb' 10 12) rn rt
  else if w &&& 0xffe0ffe0 = 0xaa0003e0 then .movReg rm rt
  else .other w

def decode (w : Word) : Instr := (decodeRelative w).getD (decodeOther w)

structure Flags where
  n : Bool
  z : Bool
  c : Bool
  v : Bool
  deriving DecidableEq, Repr

/-- `ConditionHolds`: the low bit inverts, except for the two forms of "always". -/
def Flags.holds (f : Flags) (cond : BitVec 4) : Bool :=
  let base := match cond.extractLsb' 1 3 with
    | 0 => f.z
    | 1 => f.c
    | 2 => f.n
    | 3 => f.v
    | 4 => f.c && !f.z
    | 5 => f.n == f.v
    | 6 => f.n == f.v && !f.z
    | _ => true
  if cond.getLsbD 0 && cond != 15 then !base else base

/-- The state of a core. Register number 31 is not a register: `x 31` is never used. -/
structure Cpu where
  x : BitVec 5 → BitVec 64
  v : BitVec 5 → BitVec 128
  sp : BitVec 64
  pc : Addr
  flags : Flags
  mem : Mem

namespace Cpu

def getX (c : Cpu) (r : BitVec 5) : BitVec 64 := if r = 31 then 0 else c.x r

def getXsp (c : Cpu) (r : BitVec 5) : BitVec 64 := if r = 31 then c.sp else c.x r

def setX (c : Cpu) (r : BitVec 5) (a : BitVec 64) : Cpu :=
  if r = 31 then c else { c with x := Function.update c.x r a }

def setXsp (c : Cpu) (r : BitVec 5) (a : BitVec 64) : Cpu :=
  if r = 31 then { c with sp := a } else { c with x := Function.update c.x r a }

def setV (c : Cpu) (r : BitVec 5) (a : BitVec 128) : Cpu :=
  { c with v := Function.update c.v r a }

def goto (c : Cpu) (a : Addr) : Cpu := { c with pc := a }

def next (c : Cpu) : Cpu := c.goto (c.pc+4)

end Cpu

/-- A word offset of `n` bits, sign-extended to a byte displacement. -/
def wordOffset {n : ℕ} (imm : BitVec n) : BitVec 64 := (imm++0#2).signExtend 64

def loadLit (kind : LitKind) (a : Addr) (rt : BitVec 5) (c : Cpu) : Cpu :=
  match kind with
  | .w => c.setX rt ((c.mem.read32 a).setWidth 64)
  | .x => c.setX rt (c.mem.read64 a)
  | .sw => c.setX rt ((c.mem.read32 a).signExtend 64)
  | .prfm => c
  | .s => c.setV rt ((c.mem.read32 a).setWidth 128)
  | .d => c.setV rt ((c.mem.read64 a).setWidth 128)
  | .q => c.setV rt (c.mem.read64 (a+8)++c.mem.read64 a)

/-- The effect of one instruction on the core that executes it at its `pc`. -/
def exec (i : Instr) (c : Cpu) : Option Cpu :=
  match i with
  | .b link imm =>
    let c' := if link then c.setX 30 (c.pc+4) else c
    some (c'.goto (c.pc+wordOffset imm))
  | .bcond cond imm =>
    some (if c.flags.holds cond then c.goto (c.pc+wordOffset imm) else c.next)
  | .cbz sf nz imm rt =>
    let zero := if sf then c.getX rt == 0 else (c.getX rt).setWidth 32 == 0#32
    some (if zero != nz then c.goto (c.pc+wordOffset imm) else c.next)
  | .tbz nz bit imm rt =>
    some (if (c.getX rt).getLsbD bit.toNat == nz then c.goto (c.pc+wordOffset imm) else c.next)
  | .ldrLit kind imm rt => some (loadLit kind (c.pc+wordOffset imm) rt c).next
  | .adr imm rd => some (c.setX rd (c.pc+imm.signExtend 64)).next
  | .adrp imm rd => some (c.setX rd ((c.pc &&& ~~~0xfff)+(imm++0#12).signExtend 64)).next
  | .br rn => some (c.goto (c.getX rn))
  | .blr rn => some ((c.setX 30 (c.pc+4)).goto (c.getX rn))
  | .ret rn => some (c.goto (c.getX rn))
  | .nop => some c.next
  | .stur imm rn rt =>
    some { c.next with mem := c.mem.write64 (c.getXsp rn+imm.signExtend 64) (c.getX rt) }
  | .ldur imm rn rt => some (c.setX rt (c.mem.read64 (c.getXsp rn+imm.signExtend 64))).next
  | .stp imm rt2 rn rt =>
    let a := c.getXsp rn+(imm.signExtend 64 <<< 3)
    some { c.next with mem := (c.mem.write64 a (c.getX rt)).write64 (a+8) (c.getX rt2) }
  | .ldp imm rt2 rn rt =>
    let a := c.getXsp rn+(imm.signExtend 64 <<< 3)
    some ((c.setX rt (c.mem.read64 a)).setX rt2 (c.mem.read64 (a+8))).next
  | .ldrImm imm rn rt =>
    some (c.setX rt (c.mem.read64 (c.getXsp rn+(imm.setWidth 64 <<< 3)))).next
  | .addImm imm rn rd => some (c.setXsp rd (c.getXsp rn+imm.setWidth 64)).next
  | .subImm imm rn rd => some (c.setXsp rd (c.getXsp rn-imm.setWidth 64)).next
  | .movReg rm rd => some (c.setX rd (c.getX rm)).next
  | .other _ => none

def step (c : Cpu) : Option Cpu := exec (decode (c.mem.read32 c.pc)) c

def run : ℕ → Cpu → Option Cpu
  | 0, c => some c
  | n+1, c => (step c).bind (run n)

/-- Executing from `c` arrives at `c'` after finitely many instructions. -/
def Reaches (c c' : Cpu) : Prop := ∃ n, run n c = some c'

theorem Reaches.refl (c : Cpu) : Reaches c c := ⟨0,rfl⟩

theorem Reaches.head {a b c : Cpu} (h : step a = some b) (hr : Reaches b c) : Reaches a c := by
  obtain ⟨n,hn⟩ := hr
  exact ⟨n+1,by simp only [run, h, Option.bind_some, hn]⟩

theorem Reaches.single {a b : Cpu} (h : step a = some b) : Reaches a b :=
  Reaches.head h (Reaches.refl b)

theorem Reaches.trans {a b c : Cpu} (h : Reaches a b) (hr : Reaches b c) : Reaches a c := by
  obtain ⟨n,hn⟩ := h
  induction n generalizing a with
  | zero =>
    cases hn
    exact hr
  | succ n ih =>
    cases hs : step a with
    | none => simp [run, hs] at hn
    | some a' =>
      simp only [run, hs, Option.bind_some] at hn
      exact Reaches.head hs (ih hn)

/-- Of two places that a core reaches one comes after the other. -/
theorem Reaches.linear {a b c : Cpu} (h : Reaches a b) (h' : Reaches a c) :
    Reaches b c ∨ Reaches c b := by
  obtain ⟨n,hn⟩ := h
  induction n generalizing a with
  | zero =>
    cases hn
    exact Or.inl h'
  | succ n ih =>
    obtain ⟨k,hk⟩ := h'
    cases hs : step a with
    | none => simp [run, hs] at hn
    | some a' =>
      have hn' : run n a' = some b := by simpa only [run, hs, Option.bind_some] using hn
      cases k with
      | zero =>
        cases hk
        exact Or.inr ⟨n+1,hn⟩
      | succ k => exact ih ⟨k,by simpa only [run, hs, Option.bind_some] using hk⟩ hn'

/-- A core that stops, or that steps to itself, reaches nothing else. -/
theorem Reaches.of_end {a b : Cpu} (h : Reaches a b) (hs : step a = none ∨ step a = some a) :
    b = a := by
  obtain ⟨n,hn⟩ := h
  induction n with
  | zero =>
    cases hn
    rfl
  | succ n ih =>
    rcases hs with hs | hs
    · simp [run, hs] at hn
    · exact ih (by simpa only [run, hs, Option.bind_some] using hn)

theorem step_of_read {c : Cpu} {w : Word} {i : Instr} (hr : c.mem.read32 c.pc = w)
    (hd : decode w = i) : step c = exec i c := by
  rw [step, hr, hd]

theorem decode_b {w : Word} (h : w &&& 0xfc000000 = 0x14000000) :
    decode w = .b false (w.extractLsb' 0 26) := by
  simp only [decode, decodeRelative, h, ↓reduceIte, Option.getD_some]

theorem decode_bl {w : Word} (h : w &&& 0xfc000000 = 0x94000000) :
    decode w = .b true (w.extractLsb' 0 26) := by
  have hn : ¬(0x94000000:Word) = 0x14000000 := by decide
  simp only [decode, decodeRelative, h, hn, ↓reduceIte, Option.getD_some]

end Zeldar.A64
