import Zeldar.A64Literal

namespace Zeldar.A64

namespace Instr

/-- The instruction refers to its own address for anything but the next instruction. -/
def relative : Instr → Bool
  | .b _ _ | .bcond _ _ | .cbz _ _ _ _ | .tbz _ _ _ _ | .ldrLit _ _ _ | .adr _ _ | .adrp _ _ => true
  | _ => false

/-- The instruction goes where a register says. -/
def indirect : Instr → Bool
  | .br _ | .blr _ | .ret _ => true
  | _ => false

/-- The instruction leaves its return address in X30. -/
def call : Instr → Bool
  | .b link _ => link
  | .blr _ => true
  | _ => false

end Instr

/-- The address and the number of the bytes that an instruction stores. -/
def stores (i : Instr) (c : Cpu) : Addr × ℕ :=
  match i with
  | .stur imm rn _ => (c.getXsp rn+imm.signExtend 64,8)
  | .stp imm _ rn _ => (c.getXsp rn+(imm.signExtend 64 <<< 3),16)
  | _ => (0,0)

section Registers
variable (c : Cpu) (a : Addr)

theorem getX_goto (r : BitVec 5) : (c.goto a).getX r = c.getX r := rfl

theorem getXsp_goto (r : BitVec 5) : (c.goto a).getXsp r = c.getXsp r := rfl

theorem goto_setX (r : BitVec 5) (v : BitVec 64) : (c.goto a).setX r v = (c.setX r v).goto a := by
  unfold Cpu.setX
  split_ifs <;> rfl

theorem goto_setXsp (r : BitVec 5) (v : BitVec 64) :
    (c.goto a).setXsp r v = (c.setXsp r v).goto a := by
  unfold Cpu.setXsp
  split_ifs <;> rfl

theorem setXsp_mem (r : BitVec 5) (v : BitVec 64) : (c.setXsp r v).mem = c.mem := by
  unfold Cpu.setXsp
  split_ifs <;> rfl

theorem setXsp_pc (r : BitVec 5) (v : BitVec 64) : (c.setXsp r v).pc = c.pc := by
  unfold Cpu.setXsp
  split_ifs <;> rfl

end Registers

section Moved
variable {i : Instr} {c d : Cpu}

/-- An instruction without a reference that goes on with the next one. -/
theorem exec_moved (hr : i.relative = false) (hj : i.indirect = false) (he : exec i c = some d)
    (a : Addr) : d.pc = c.pc+4 ∧ exec i (c.goto a) = some (d.goto (a+4)) := by
  cases i with
  | nop =>
    cases he
    exact ⟨rfl,rfl⟩
  | stur imm rn rt | stp imm rt2 rn rt =>
    cases he
    exact ⟨rfl,rfl⟩
  | ldur imm rn rt | ldrImm imm rn rt =>
    cases he
    simp only [exec, getXsp_goto, goto_setX, Cpu.next]
    refine ⟨?_,rfl⟩
    exact congrArg (fun x => x+4) (setX_pc _ _ _)
  | ldp imm rt2 rn rt =>
    cases he
    simp only [exec, getXsp_goto, goto_setX, Cpu.next]
    refine ⟨?_,rfl⟩
    exact congrArg (fun x => x+4) ((setX_pc _ _ _).trans (setX_pc _ _ _))
  | addImm imm rn rd | subImm imm rn rd =>
    cases he
    simp only [exec, getXsp_goto, goto_setXsp, Cpu.next]
    refine ⟨?_,rfl⟩
    exact congrArg (fun x => x+4) (setXsp_pc _ _ _)
  | movReg rm rd =>
    cases he
    simp only [exec, getX_goto, goto_setX, Cpu.next]
    refine ⟨?_,rfl⟩
    exact congrArg (fun x => x+4) (setX_pc _ _ _)
  | other w => cases he
  | br rn | blr rn | ret rn => cases hj
  | _ => cases hr

/-- One that goes where a register says goes there from everywhere, with its own return address
if it is a call. -/
theorem exec_indirect (hj : i.indirect = true) (he : exec i c = some d) :
    ∃ t, d = (if i.call then c.setX 30 (c.pc+4) else c).goto t ∧ ∀ a,
      exec i (c.goto a) = some ((if i.call then c.setX 30 (a+4) else c).goto t) := by
  cases i with
  | br rn | ret rn =>
    cases he
    exact ⟨_,rfl,fun a => rfl⟩
  | blr rn =>
    cases he
    refine ⟨_,rfl,fun a => ?_⟩
    simp only [exec, getX_goto, goto_setX, Instr.call, ↓reduceIte]
    rfl
  | _ => cases hj

theorem write32_of_clear {P : Addr → Prop} {m : Mem} {a : Addr} (hc : Clear P a 4) (w : Word) :
    ∀ x, P x → m.write32 a w x = m x := by
  intro x hx
  simp only [Mem.write32]
  rw [if_neg]
  intro hlt
  exact hc x hlt hx

theorem write64_of_clear {P : Addr → Prop} {m : Mem} {a : Addr} (hc : Clear P a 8)
    (v : BitVec 64) : ∀ x, P x → m.write64 a v x = m x := by
  intro x hx
  have h1 := @write32_of_clear P (m.write32 a (v.extractLsb' 0 32)) (a+4) (hc.mono (by bv_omega))
    (v.extractLsb' 32 32) x hx
  exact h1.trans (write32_of_clear (hc.mono (by bv_omega)) _ x hx)

/-- An instruction leaves the bytes alone that it does not store. -/
theorem exec_stores {P : Addr → Prop} (hc : Clear P (stores i c).1 (stores i c).2)
    (he : exec i c = some d) : ∀ x, P x → d.mem x = c.mem x := by
  intro x hx
  cases i with
  | stur imm rn rt =>
    cases he
    exact write64_of_clear hc _ x hx
  | stp imm rt2 rn rt =>
    cases he
    have hlo : Clear P (c.getXsp rn+(imm.signExtend 64 <<< 3)) 8 := hc.mono (by simp [stores])
    have hhi : Clear P (c.getXsp rn+(imm.signExtend 64 <<< 3)+8) 8 := by
      apply hc.mono
      simp only [stores]
      generalize c.getXsp rn+(imm.signExtend 64 <<< 3) = a
      bv_omega
    exact (write64_of_clear hhi _ x hx).trans (write64_of_clear hlo _ x hx)
  | b link imm =>
    cases he
    cases link
    · rfl
    · exact congrFun (setX_mem c 30 (c.pc+4)) x
  | bcond cond imm =>
    cases he
    split_ifs <;> rfl
  | cbz sf nz imm rt =>
    cases he
    generalize (if sf = true then c.getX rt == 0 else (c.getX rt).setWidth 32 == 0#32) = zero
    split_ifs <;> rfl
  | tbz nz bit imm rt =>
    cases he
    split_ifs <;> rfl
  | ldrLit kind imm rt =>
    cases he
    exact congrFun (loadLit_mem c kind (c.pc+wordOffset imm) rt) x
  | addImm imm rn rd | subImm imm rn rd =>
    cases he
    exact congrFun (setXsp_mem _ _ _) x
  | ldp imm rt2 rn rt =>
    cases he
    exact congrFun ((setX_mem _ _ _).trans (setX_mem _ _ _)) x
  | blr rn =>
    cases he
    exact congrFun (setX_mem c 30 (c.pc+4)) x
  | adr imm rd | adrp imm rd | ldur imm rn rt | ldrImm imm rn rt | movReg rm rd =>
    cases he
    exact congrFun (setX_mem _ _ _) x
  | br rn | ret rn | nop =>
    cases he
    rfl
  | other w => cases he

end Moved

section Through
variable {start stop start' stop' : Addr} {c d e : Cpu}

theorem Through.mono (hi : ∀ a, Inside start stop a → Inside start' stop' a)
    (h : Through start stop c d) : Through start' stop' c d := by
  induction h with
  | last hin hs => exact Through.last (hi _ hin) hs
  | cons hin hs _ ih => exact Through.cons (hi _ hin) hs ih

theorem Through.trans (h : Through start stop c d) (h' : Through start stop d e) :
    Through start stop c e := by
  induction h with
  | last hin hs => exact Through.cons hin hs h'
  | cons hin hs _ ih => exact Through.cons hin hs (ih h')

theorem Through.inside (h : Through start stop c d) : Inside start stop c.pc := by
  cases h <;> assumption

/-- A run that leaves the code has a rest, after any step that stays in the code. -/
theorem Through.rest (h : Through start stop c e) (hs : step c = some d)
    (hd : Inside start stop d.pc) (he : ¬Inside start stop e.pc) : Through start stop d e := by
  rcases h.tail hs with rfl | ⟨-,hr⟩
  · exact absurd hd he
  · exact hr

end Through

end Zeldar.A64
