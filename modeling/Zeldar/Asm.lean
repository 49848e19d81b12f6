import Zeldar.ByteMem
import Mathlib.Logic.Relation

/-! Routines written in A64 assembly: a core that executes the lines of a listing.
What an instruction asks of the world outside the core (maintenance of a cache, a
system call, a function that is called) is a parameter. -/
namespace Zeldar.Asm

/-- `x0` to `x30`, and 31 for the zero register. -/
abbrev Reg := Fin 32

/-- A numeral names a register. -/
scoped instance registers : NeZero 32 := ⟨by decide⟩

inductive Cond
  | eq
  | ne
  | cc
  deriving DecidableEq, Repr

inductive Operand
  | imm (v : BitVec 64)
  | reg (r : Reg)
  | sp
  deriving DecidableEq, Repr

inductive AluOp
  | add
  | sub
  | and
  | bic
  | lsr
  | lsl
  deriving DecidableEq, Repr

/-- The base of a load or of a store. -/
inductive Base
  | sp
  | x (r : Reg)
  deriving DecidableEq, Repr

/-- `[base, #imm]`, `[base, #imm]!` and `[base], #imm`. -/
inductive Mode
  | offset
  | pre
  | post
  deriving DecidableEq, Repr

/-- The targets of `b` and `bl` are lines of the listing; `goto` is a `b` to another symbol, and
`sys` is whatever the parameter gives a meaning. -/
inductive Instr (ω : Type)
  | mov (rd : Reg) (v : Operand)
  | alu (op : AluOp) (rd rn : Reg) (v : Operand)
  | sxtw (rd rn : Reg)
  | subsW (rd rn : Reg) (imm : BitVec 32)
  | cmp (rn : Reg) (v : Operand)
  | ccmn (rn : Reg) (imm : BitVec 64) (z : Bool) (cond : Cond)
  | ldr (rt : Reg) (base : Base) (imm : BitVec 64) (mode : Mode)
  | ldrW (rt : Reg) (base : Base) (imm : BitVec 64) (mode : Mode)
  | str (rt : Reg) (base : Base) (imm : BitVec 64) (mode : Mode)
  | strW (rt : Reg) (base : Base) (imm : BitVec 64) (mode : Mode)
  | ldp (rt rt2 : Reg) (base : Base) (imm : BitVec 64) (mode : Mode)
  | stp (rt rt2 : Reg) (base : Base) (imm : BitVec 64) (mode : Mode)
  | ldpQ (rt rt2 : Reg) (base : Base) (imm : BitVec 64) (mode : Mode)
  | stpQ (rt rt2 : Reg) (base : Base) (imm : BitVec 64) (mode : Mode)
  | sys (op : ω)
  | b (target : ℕ)
  | bcond (cond : Cond) (target : ℕ)
  | bl (target : ℕ)
  | br (rn : Reg)
  | ret
  | goto (a : Addr)
  | word (w : Word)
  deriving DecidableEq, Repr

structure Core (σ : Type) where
  x : Reg → BitVec 64
  q : Reg → BitVec 128
  sp : Addr
  z : Bool
  c : Bool
  mem : Mem
  world : σ

def read128 (m : Mem) (a : Addr) : BitVec 128 := m.read64 (a+8)++m.read64 a

def write128 (m : Mem) (a : Addr) (v : BitVec 128) : Mem :=
  (m.write64 a (v.extractLsb' 0 64)).write64 (a+8) (v.extractLsb' 64 64)

namespace Core
variable {σ : Type} (s : Core σ)

def get (r : Reg) : BitVec 64 := if r = 31 then 0 else s.x r

def set (r : Reg) (v : BitVec 64) : Core σ :=
  if r = 31 then s else { s with x := Function.update s.x r v }

def operand : Operand → BitVec 64
  | .imm v => v
  | .reg r => s.get r
  | .sp => s.sp

def base : Base → Addr
  | .sp => s.sp
  | .x r => s.get r

def setBase (b : Base) (v : Addr) : Core σ :=
  match b with
  | .sp => { s with sp := v }
  | .x r => s.set r v

/-- Where a load or a store goes. -/
def address (b : Base) (imm : BitVec 64) : Mode → Addr
  | .offset => s.base b+imm
  | .pre => s.base b+imm
  | .post => s.base b

def writeBack (b : Base) (imm : BitVec 64) (mode : Mode) (s : Core σ) : Core σ :=
  if mode = .offset then s else s.setBase b (s.base b+imm)

def holds : Cond → Bool
  | .eq => s.z
  | .ne => !s.z
  | .cc => !s.c

end Core

def AluOp.value : AluOp → BitVec 64 → BitVec 64 → BitVec 64
  | .add,a,b => a+b
  | .sub,a,b => a-b
  | .and,a,b => a &&& b
  | .bic,a,b => a &&& ~~~b
  | .lsr,a,b => a >>> (b.toNat%64)
  | .lsl,a,b => a <<< (b.toNat%64)

/-- The listing, where it stands, and what lies outside the core. -/
structure Routine (ω σ : Type) where
  code : List (Instr ω)
  start : Addr
  outside : ω → Core σ → Option (Core σ)

/-- A line of the listing, or an address that it has left for. -/
inductive Pc
  | line (k : ℕ)
  | left (a : Addr)
  deriving DecidableEq, Repr

section Exec
variable {ω σ : Type}

/-- An instruction after which the next line follows. -/
def Instr.straight : Instr ω → Bool
  | .b _ | .bcond _ _ | .bl _ | .br _ | .ret | .goto _ | .word _ => false
  | _ => true

/-- What such an instruction does. The carry of a comparison is that no borrow is needed. -/
def Instr.effect (outside : ω → Core σ → Option (Core σ)) (i : Instr ω) (s : Core σ) :
    Option (Core σ) :=
  match i with
  | .mov rd v => some (s.set rd (s.operand v))
  | .alu op rd rn v => some (s.set rd (op.value (s.get rn) (s.operand v)))
  | .sxtw rd rn => some (s.set rd (((s.get rn).setWidth 32).signExtend 64))
  | .subsW rd rn imm =>
    let a := (s.get rn).setWidth 32
    some { s.set rd ((a-imm).setWidth 64) with z := a == imm, c := decide (imm ≤ a) }
  | .cmp rn v =>
    let a := s.get rn
    let y := s.operand v
    some { s with z := a == y, c := decide (y ≤ a) }
  | .ccmn rn imm z cond =>
    if s.holds cond then
      let a := s.get rn
      some { s with z := a+imm == 0, c := decide (2^64 ≤ a.toNat+imm.toNat) }
    else some { s with z := z, c := false }
  | .ldr rt base imm mode =>
    some ((s.writeBack base imm mode).set rt (s.mem.read64 (s.address base imm mode)))
  | .ldrW rt base imm mode =>
    some ((s.writeBack base imm mode).set rt ((s.mem.read32 (s.address base imm mode)).setWidth 64))
  | .str rt base imm mode =>
    some { s.writeBack base imm mode with
      mem := s.mem.write64 (s.address base imm mode) (s.get rt) }
  | .strW rt base imm mode =>
    some { s.writeBack base imm mode with
      mem := s.mem.write32 (s.address base imm mode) ((s.get rt).setWidth 32) }
  | .ldp rt rt2 base imm mode =>
    let a := s.address base imm mode
    some (((s.writeBack base imm mode).set rt (s.mem.read64 a)).set rt2 (s.mem.read64 (a+8)))
  | .stp rt rt2 base imm mode =>
    let a := s.address base imm mode
    some { s.writeBack base imm mode with
      mem := (s.mem.write64 a (s.get rt)).write64 (a+8) (s.get rt2) }
  | .ldpQ rt rt2 base imm mode =>
    let a := s.address base imm mode
    let s := s.writeBack base imm mode
    some { s with
      q := Function.update (Function.update s.q rt (read128 s.mem a)) rt2 (read128 s.mem (a+16)) }
  | .stpQ rt rt2 base imm mode =>
    let a := s.address base imm mode
    some { s.writeBack base imm mode with
      mem := write128 (write128 s.mem a (s.q rt)) (a+16) (s.q rt2) }
  | .sys op => outside op s
  | _ => none

namespace Routine
variable (p : Routine ω σ)

/-- Where an instruction that can leave the line goes. -/
def transfer (k : ℕ) (s : Core σ) : Instr ω → Option (Pc × Core σ)
  | .b target => some (.line target,s)
  | .bcond cond target => some (if s.holds cond then .line target else .line (k+1),s)
  | .bl target => some (.line target,s.set 30 (p.start+BitVec.ofNat 64 (4*(k+1))))
  | .br rn => some (.left (s.get rn),s)
  | .ret => some (.left (s.get 30),s)
  | .goto a => some (.left a,s)
  | _ => none

def step : Pc × Core σ → Option (Pc × Core σ)
  | (.left _,_) => none
  | (.line k,s) => do
    let i ← p.code[k]?
    if i.straight then (i.effect p.outside s).map fun s => (.line (k+1),s) else p.transfer k s i

def Runs : Pc × Core σ → Pc × Core σ → Prop :=
  Relation.ReflTransGen fun c d => p.step c = some d

/-- The routine, entered at its first line, leaves for `a`. -/
def Leaves (s : Core σ) (a : Addr) (s' : Core σ) : Prop := p.Runs (.line 0,s) (.left a,s')

end Routine

/-- What the instructions of a block do, one after another. -/
def execBlock (outside : ω → Core σ → Option (Core σ)) (block : List (Instr ω)) (s : Core σ) :
    Option (Core σ) :=
  block.foldlM (fun s i => i.effect outside s) s

end Exec

namespace Core
variable {σ : Type} (s : Core σ)

theorem get_of_ne {r : Reg} (h : r ≠ 31) : s.get r = s.x r := if_neg h

theorem set_of_ne {r : Reg} (h : r ≠ 31) (v : BitVec 64) :
    s.set r v = { s with x := Function.update s.x r v } := if_neg h

section Address
variable (imm : BitVec 64)

@[simp] theorem address_sp_pre : s.address .sp imm .pre = s.sp+imm := rfl

@[simp] theorem address_sp_post : s.address .sp imm .post = s.sp := rfl

@[simp] theorem writeBack_offset (b : Base) : s.writeBack b imm .offset = s := rfl

@[simp] theorem writeBack_sp_pre : s.writeBack .sp imm .pre = { s with sp := s.sp+imm } := rfl

@[simp] theorem writeBack_sp_post : s.writeBack .sp imm .post = { s with sp := s.sp+imm } := rfl

end Address

end Core

section Rules
variable {ω σ : Type} {p : Routine ω σ} {k : ℕ} {i : Instr ω} {s s' : Core σ}
  {c d e : Pc × Core σ}

namespace Routine

theorem step_straight (hk : p.code[k]? = some i) (hi : i.straight = true)
    (he : i.effect p.outside s = some s') : p.step (.line k,s) = some (.line (k+1),s') := by
  simp only [step, hk, Option.bind_eq_bind, Option.bind_some, hi, ↓reduceIte, he, Option.map_some]

theorem step_transfer (hk : p.code[k]? = some i) (hi : i.straight = false) :
    p.step (.line k,s) = p.transfer k s i := by
  simp only [step, hk, Option.bind_eq_bind, Option.bind_some, hi, Bool.false_eq_true, ↓reduceIte]

theorem Runs.single (h : p.step c = some d) : p.Runs c d := Relation.ReflTransGen.single h

theorem Runs.trans (h : p.Runs c d) (h' : p.Runs d e) : p.Runs c e :=
  Relation.ReflTransGen.trans h h'

theorem Runs.tail (h : p.Runs c d) (h' : p.step d = some e) : p.Runs c e :=
  Relation.ReflTransGen.tail h h'

/-- A run through a block of straight lines does what its instructions do. -/
theorem runs_block {block rest : List (Instr ω)} (hat : p.code.drop k = block++rest)
    (hs : ∀ i ∈ block, i.straight = true) (he : execBlock p.outside block s = some s') :
    p.Runs (.line k,s) (.line (k+block.length),s') := by
  induction block generalizing k s with
  | nil =>
    cases he
    exact Relation.ReflTransGen.refl
  | cons i block ih =>
    have hk : p.code[k]? = some i := by
      rw [← List.head?_drop, hat]
      rfl
    have hrest : p.code.drop (k+1) = block++rest := by
      rw [← List.drop_drop, hat]
      rfl
    rw [execBlock, List.foldlM_cons] at he
    obtain ⟨s₁,hs₁,he⟩ := Option.bind_eq_some_iff.mp he
    have hstep := step_straight hk (hs i List.mem_cons_self) hs₁
    have hblock := ih hrest (fun j hj => hs j (List.mem_cons_of_mem _ hj)) he
    rw [List.length_cons, ← Nat.add_assoc, Nat.add_right_comm]
    exact (Runs.single hstep).trans hblock

/-- Of two runs from one point one goes on from where the other one has got to. -/
theorem Runs.linear (hd : p.Runs c d) (he : p.Runs c e) : p.Runs d e ∨ p.Runs e d := by
  induction hd with
  | refl => exact Or.inl he
  | @tail d d' _ hstep ih =>
    rcases ih with h | h
    · rcases Relation.ReflTransGen.cases_head h with rfl | ⟨f,hf,hrest⟩
      · exact Or.inr (Runs.single hstep)
      · obtain rfl := Option.some.inj (hstep.symm.trans hf)
        exact Or.inl hrest
    · exact Or.inr (h.tail hstep)

/-- A loop that comes back to its head whenever it has been there never leaves. -/
theorem not_left_of_loop {P : Core σ → Prop}
    (hloop : ∀ t, P t → ∃ t' u, P t' ∧ p.step (.line k,t) = some u ∧ p.Runs u (.line k,t'))
    (hs : P s) {a : Addr} : ¬p.Runs (.line k,s) (.left a,s') := by
  intro hrun
  -- every point of the run leads to the head once more
  have hinv : ∀ d, p.Runs (.line k,s) d → ∃ t, P t ∧ p.Runs d (.line k,t) := by
    intro d hd
    induction hd with
    | refl => exact ⟨s,hs,Relation.ReflTransGen.refl⟩
    | @tail d e _ hstep ih =>
      obtain ⟨t,ht,hto⟩ := ih
      rcases Relation.ReflTransGen.cases_head hto with rfl | ⟨f,hf,hrest⟩
      · obtain ⟨t',u,ht',hu,hback⟩ := hloop t ht
        obtain rfl := Option.some.inj (hstep.symm.trans hu)
        exact ⟨t',ht',hback⟩
      · obtain rfl := Option.some.inj (hstep.symm.trans hf)
        exact ⟨t,ht,hrest⟩
  obtain ⟨t,-,hto⟩ := hinv _ hrun
  rcases Relation.ReflTransGen.cases_head hto with heq | ⟨f,hf,-⟩
  · cases heq
  · cases hf

/-- A routine that has left is done. -/
theorem Runs.of_left {a : Addr} (h : p.Runs (.left a,s) d) : d = (.left a,s) := by
  rcases Relation.ReflTransGen.cases_head h with rfl | ⟨f,hf,-⟩
  · rfl
  · cases hf

section Call
variable {pre post : List (Instr ω)} {op : ω} {t u : Core σ}
  (hcode : p.code = pre++(.sys op :: (post++[.ret]))) (hpre : ∀ i ∈ pre, i.straight = true)
  (ht : execBlock p.outside pre s = some t)
include hcode hpre ht

theorem runs_to_call : p.Runs (.line 0,s) (.line pre.length,t) := by
  have h := @runs_block ω σ p 0 s t pre _ (by rw [List.drop_zero, hcode]) hpre ht
  rwa [Nat.zero_add] at h

/-- A routine that asks the outside once, and then returns. -/
theorem leaves_call (hpost : ∀ i ∈ post, i.straight = true) (hu : p.outside op t = some u)
    (hs' : execBlock p.outside post u = some s') : p.Leaves s (s'.get 30) s' := by
  have hk : p.code[pre.length]? = some (.sys op) := by
    rw [hcode, List.getElem?_append_right le_rfl, Nat.sub_self]
    rfl
  have hcall := Runs.single (step_straight hk rfl hu)
  have hrest : p.code.drop (pre.length+1) = post++[.ret] := by
    rw [hcode, List.drop_append, Nat.add_sub_cancel_left,
      List.drop_eq_nil_of_le (Nat.le_succ _), List.nil_append]
    rfl
  have hend : p.code[pre.length+1+post.length]? = some .ret := by
    rw [← List.head?_drop, ← List.drop_drop, hrest, List.drop_left]
    rfl
  have hto := (runs_to_call hcode hpre ht).trans (hcall.trans (runs_block hrest hpost hs'))
  exact hto.tail (step_transfer hend rfl)

/-- If the outside does not come back, neither does the routine. -/
theorem not_leaves_call (hu : p.outside op t = none) {a : Addr} : ¬p.Leaves s a s' := by
  intro hleaves
  have hk : p.code[pre.length]? = some (.sys op) := by
    rw [hcode, List.getElem?_append_right le_rfl, Nat.sub_self]
    rfl
  have hstuck : p.step (.line pre.length,t) = none := by
    simp only [step, hk, Option.bind_eq_bind, Option.bind_some, Instr.straight, ↓reduceIte,
      Instr.effect, hu, Option.map_none]
  rcases Runs.linear (runs_to_call hcode hpre ht) hleaves with h | h
  · rcases Relation.ReflTransGen.cases_head h with heq | ⟨d,hd,-⟩
    · cases heq
    · rw [hstuck] at hd
      cases hd
  · cases h.of_left

end Call

end Routine

end Rules

section Stack
variable {m m' : Mem} {a : Addr} {ws : List (BitVec 64)} {v w : BitVec 64}

/-- The words `ws` stand at `a`. -/
def Stacked (m : Mem) : Addr → List (BitVec 64) → Prop
  | _,[] => True
  | a,w :: ws => m.read64 a = w ∧ Stacked m (a+8) ws

theorem Stacked.congr (hl : 8*ws.length < 2^64)
    (he : ∀ x, (x-a).toNat < 8*ws.length → m' x = m x) (h : Stacked m a ws) : Stacked m' a ws := by
  induction ws generalizing a with
  | nil => trivial
  | cons w ws ih =>
    rw [List.length_cons] at hl he
    refine ⟨(Mem.read64_congr fun x hx => he x (by omega)).trans h.1,?_⟩
    exact ih (by omega) (fun x hx => he x (by bv_omega)) h.2

theorem Stacked.pop (h : Stacked m a (v :: w :: ws)) :
    m.read64 a = v ∧ m.read64 (a+8) = w ∧ Stacked m (a+0x10) ws := by
  obtain ⟨hv,hw,hrest⟩ := h
  have ha : a+8+8 = a+0x10 := by bv_omega
  rw [ha] at hrest
  exact ⟨hv,hw,hrest⟩

/-- `stp` to the top of the stack. -/
theorem Stacked.push (hl : 8*ws.length+16 < 2^64) (h : Stacked m a ws) (v w : BitVec 64) :
    Stacked ((m.write64 (a+-0x10) v).write64 (a+-0x10+8) w) (a+-0x10) (v :: w :: ws) := by
  have hsep : Sep (a+-0x10) 8 (a+-0x10+8) 8 := ⟨by bv_omega,by bv_omega⟩
  have ha : a+-0x10+8+8 = a := by bv_omega
  refine ⟨?_,Mem.read64_write64_self _ _ _,?_⟩
  · rw [Mem.read64_write64_of_sep _ _ hsep, Mem.read64_write64_self]
  · rw [ha]
    refine h.congr (by omega) fun x hx => ?_
    rw [Mem.write64_apply_of_le _ _ (by bv_omega), Mem.write64_apply_of_le _ _ (by bv_omega)]

theorem read128_of_words {x : BitVec 128} (hlo : m.read64 a = x.extractLsb' 0 64)
    (hhi : m.read64 (a+8) = x.extractLsb' 64 64) : read128 m a = x := by
  rw [read128, hlo, hhi]
  ext i hi
  rw [BitVec.getElem_append]
  split
  · rw [BitVec.getElem_extractLsb', Nat.zero_add, BitVec.getLsbD_eq_getElem]
  · rw [BitVec.getElem_extractLsb', Nat.add_sub_cancel' (by omega), BitVec.getLsbD_eq_getElem]

theorem Stacked.popQ {x y : BitVec 128} (h : Stacked m a (x.extractLsb' 0 64 ::
    x.extractLsb' 64 64 :: y.extractLsb' 0 64 :: y.extractLsb' 64 64 :: ws)) :
    read128 m a = x ∧ read128 m (a+16) = y ∧ Stacked m (a+0x20) ws := by
  obtain ⟨hx0,hx1,h⟩ := h.pop
  obtain ⟨hy0,hy1,h⟩ := h.pop
  have ha : a+0x10+0x10 = a+0x20 := by bv_omega
  rw [ha] at h
  exact ⟨read128_of_words hx0 hx1,read128_of_words hy0 hy1,h⟩

theorem Stacked.pushQ (hl : 8*ws.length+32 < 2^64) (h : Stacked m a ws) (x y : BitVec 128) :
    Stacked (write128 (write128 m (a+-0x20) x) (a+-0x20+16) y) (a+-0x20)
      (x.extractLsb' 0 64 :: x.extractLsb' 64 64 :: y.extractLsb' 0 64 ::
        y.extractLsb' 64 64 :: ws) := by
  have ha : a+-0x20+8+8 = a+-0x20+16 := by bv_omega
  have hend : a+-0x20+16+8+8 = a := by bv_omega
  have h1 : Sep (a+-0x20) 8 (a+-0x20+8) 8 := ⟨by bv_omega,by bv_omega⟩
  have h2 : Sep (a+-0x20) 8 (a+-0x20+16) 8 := ⟨by bv_omega,by bv_omega⟩
  have h3 : Sep (a+-0x20) 8 (a+-0x20+16+8) 8 := ⟨by bv_omega,by bv_omega⟩
  have h4 : Sep (a+-0x20+8) 8 (a+-0x20+16) 8 := ⟨by bv_omega,by bv_omega⟩
  have h5 : Sep (a+-0x20+8) 8 (a+-0x20+16+8) 8 := ⟨by bv_omega,by bv_omega⟩
  have h6 : Sep (a+-0x20+16) 8 (a+-0x20+16+8) 8 := ⟨by bv_omega,by bv_omega⟩
  rw [write128, write128]
  refine ⟨?_,?_,?_⟩
  · rw [Mem.read64_write64_of_sep _ _ h3, Mem.read64_write64_of_sep _ _ h2,
      Mem.read64_write64_of_sep _ _ h1, Mem.read64_write64_self]
  · rw [Mem.read64_write64_of_sep _ _ h5, Mem.read64_write64_of_sep _ _ h4,
      Mem.read64_write64_self]
  · rw [ha]
    refine ⟨?_,Mem.read64_write64_self _ _ _,?_⟩
    · rw [Mem.read64_write64_of_sep _ _ h6, Mem.read64_write64_self]
    · rw [hend]
      refine h.congr (by omega) fun x hx => ?_
      rw [Mem.write64_apply_of_le _ _ (by bv_omega), Mem.write64_apply_of_le _ _ (by bv_omega),
        Mem.write64_apply_of_le _ _ (by bv_omega), Mem.write64_apply_of_le _ _ (by bv_omega)]

variable {ω σ : Type} {outside : ω → Core σ → Option (Core σ)} {s t u : Core σ}

theorem execBlock_cons {i : Instr ω} {block : List (Instr ω)}
    (h : i.effect outside s = some t) :
    execBlock outside (i :: block) s = execBlock outside block t := by
  rw [execBlock, List.foldlM_cons, h]
  rfl

theorem execBlock_append {block rest : List (Instr ω)} (h : execBlock outside block s = some t) :
    execBlock outside (block++rest) s = execBlock outside rest t := by
  rw [execBlock, List.foldlM_append]
  change (execBlock outside block s >>= _) = _
  rw [h]
  rfl

/-- The core has pushed the `n` bytes `ws`, and done nothing else. -/
structure Pushed (s t : Core σ) (n : ℕ) (ws : List (BitVec 64)) : Prop where
  sp : t.sp = s.sp-BitVec.ofNat 64 n
  stacked : Stacked t.mem t.sp ws
  x : t.x = s.x
  q : t.q = s.q
  world : t.world = s.world
  mem : ∀ a, n ≤ (a-t.sp).toNat → t.mem a = s.mem a

section Push
variable (outside) {n : ℕ} (hn : n+32 < 2^63) (h : Pushed s t n ws) (hl : 8*ws.length+32 < 2^64)
include hn h hl

theorem Pushed.stp {rt rt2 : Reg} (hrt : rt ≠ 31) (hrt2 : rt2 ≠ 31) :
    ∃ u, (Instr.stp rt rt2 .sp (-0x10) .pre).effect outside t = some u ∧
      Pushed s u (n+16) (s.x rt :: s.x rt2 :: ws) := by
  rw [← h.x]
  refine ⟨{ t with
    sp := t.sp+-0x10
    mem := (t.mem.write64 (t.sp+-0x10) (t.x rt)).write64 (t.sp+-0x10+8) (t.x rt2) },?_,?_,
    h.stacked.push (by omega) _ _,h.x,h.q,h.world,?_⟩
  · rw [Instr.effect, Core.get_of_ne t hrt, Core.get_of_ne t hrt2, Core.address_sp_pre,
      Core.writeBack_sp_pre]
  · have hsp := h.sp
    change t.sp+-0x10 = _
    bv_omega
  · intro a ha
    change n+16 ≤ (a-(t.sp+-0x10)).toNat at ha
    change (t.mem.write64 (t.sp+-0x10) (t.x rt)).write64 (t.sp+-0x10+8) (t.x rt2) a = _
    rw [← h.mem a (by bv_omega), Mem.write64_apply_of_le _ _ (by bv_omega),
      Mem.write64_apply_of_le _ _ (by bv_omega)]

theorem Pushed.stpQ (rt rt2 : Reg) :
    ∃ u, (Instr.stpQ rt rt2 .sp (-0x20) .pre).effect outside t = some u ∧
      Pushed s u (n+32) ((s.q rt).extractLsb' 0 64 :: (s.q rt).extractLsb' 64 64 ::
        (s.q rt2).extractLsb' 0 64 :: (s.q rt2).extractLsb' 64 64 :: ws) := by
  rw [← h.q]
  refine ⟨{ t with
    sp := t.sp+-0x20
    mem := write128 (write128 t.mem (t.sp+-0x20) (t.q rt)) (t.sp+-0x20+16) (t.q rt2) },?_,?_,
    h.stacked.pushQ hl _ _,h.x,h.q,h.world,?_⟩
  · rw [Instr.effect, Core.address_sp_pre, Core.writeBack_sp_pre]
  · have hsp := h.sp
    change t.sp+-0x20 = _
    bv_omega
  · intro a ha
    change n+32 ≤ (a-(t.sp+-0x20)).toNat at ha
    change write128 (write128 t.mem (t.sp+-0x20) (t.q rt)) (t.sp+-0x20+16) (t.q rt2) a = _
    rw [← h.mem a (by bv_omega), write128, write128, Mem.write64_apply_of_le _ _ (by bv_omega),
      Mem.write64_apply_of_le _ _ (by bv_omega), Mem.write64_apply_of_le _ _ (by bv_omega),
      Mem.write64_apply_of_le _ _ (by bv_omega)]

end Push

/-- The core has popped `n` bytes into its registers, and `ws` are left. -/
structure Popped (s t : Core σ) (n : BitVec 64) (ws : List (BitVec 64)) (x : Reg → BitVec 64)
    (q : Reg → BitVec 128) : Prop where
  stacked : Stacked t.mem t.sp ws
  sp : t.sp = s.sp+n
  x : t.x = x
  q : t.q = q
  mem : t.mem = s.mem
  world : t.world = s.world

section Pop
variable (outside) (rt rt2 : Reg) {n : BitVec 64} {x : Reg → BitVec 64} {q : Reg → BitVec 128}

theorem Popped.ldp (h : Popped s t n (v :: w :: ws) x q) (hrt : rt ≠ 31) (hrt2 : rt2 ≠ 31) :
    ∃ u, (Instr.ldp rt rt2 .sp 0x10 .post).effect outside t = some u ∧
      Popped s u (n+0x10) ws (Function.update (Function.update x rt v) rt2 w) q := by
  obtain ⟨hv,hw,hrest⟩ := h.stacked.pop
  refine ⟨{ t with
    sp := t.sp+0x10
    x := Function.update (Function.update t.x rt v) rt2 w },?_,hrest,?_,?_,h.q,h.mem,h.world⟩
  · rw [Instr.effect, Core.address_sp_post, Core.writeBack_sp_post, hv, hw, Core.set_of_ne _ hrt,
      Core.set_of_ne _ hrt2]
  · change t.sp+0x10 = _
    rw [h.sp, BitVec.add_assoc]
  · rw [← h.x]

theorem Popped.ldpQ {y z : BitVec 128} (h : Popped s t n (y.extractLsb' 0 64 ::
    y.extractLsb' 64 64 :: z.extractLsb' 0 64 :: z.extractLsb' 64 64 :: ws) x q) :
    ∃ u, (Instr.ldpQ rt rt2 .sp 0x20 .post).effect outside t = some u ∧
      Popped s u (n+0x20) ws x (Function.update (Function.update q rt y) rt2 z) := by
  obtain ⟨hy,hz,hrest⟩ := h.stacked.popQ
  refine ⟨{ t with
    sp := t.sp+0x20
    q := Function.update (Function.update t.q rt y) rt2 z },?_,hrest,?_,h.x,?_,h.mem,h.world⟩
  · rw [Instr.effect, Core.address_sp_post, Core.writeBack_sp_post]
    simp only [hy, hz]
  · change t.sp+0x20 = _
    rw [h.sp, BitVec.add_assoc]
  · rw [← h.q]

end Pop

end Stack

end Zeldar.Asm
