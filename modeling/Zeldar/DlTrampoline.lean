import Zeldar.Asm
import Zeldar.LazyBinding
import Mathlib.Tactic.IntervalCases

namespace Zeldar.Rtld
open Asm

/-- `bl __rtld_lazy_bind_symbol`. -/
inductive TrampolineOp
  | lazyBindSymbol
  deriving DecidableEq, Repr

/-- The lines before the call. -/
def trampolineSave : List (Instr TrampolineOp) :=
  [.ldr 17 .sp 0 .offset,.str 29 .sp 0 .offset,
    .stp 8 19 .sp (-0x10) .pre,.stp 6 7 .sp (-0x10) .pre,.stp 4 5 .sp (-0x10) .pre,
    .stp 2 3 .sp (-0x10) .pre,.stp 0 1 .sp (-0x10) .pre,
    .stpQ 6 7 .sp (-0x20) .pre,.stpQ 4 5 .sp (-0x20) .pre,.stpQ 2 3 .sp (-0x20) .pre,
    .stpQ 0 1 .sp (-0x20) .pre,
    .mov 29 .sp,.mov 19 (.reg 17),.alu .sub 1 17 (.reg 16),.alu .sub 1 1 (.imm 8),
    .alu .lsr 1 1 (.imm 3),.ldr 0 (.x 16) (-8) .offset]

/-- The lines after it, up to the branch. -/
def trampolineRestore : List (Instr TrampolineOp) :=
  [.str 0 (.x 19) 0 .offset,.mov 16 (.reg 0),
    .ldpQ 0 1 .sp 0x20 .post,.ldpQ 2 3 .sp 0x20 .post,.ldpQ 4 5 .sp 0x20 .post,
    .ldpQ 6 7 .sp 0x20 .post,
    .ldp 0 1 .sp 0x10 .post,.ldp 2 3 .sp 0x10 .post,.ldp 4 5 .sp 0x10 .post,
    .ldp 6 7 .sp 0x10 .post,.ldp 8 19 .sp 0x10 .post,.ldp 29 30 .sp 0x10 .post]

/-- `__rtld_runtime_resolve`. -/
def rtldRuntimeResolveAsm : List (Instr TrampolineOp) :=
  trampolineSave++[.sys .lazyBindSymbol]++trampolineRestore++[.br 16]

def trampolineRoutine (callee : Core Unit → Option (Core Unit)) (start : Addr) :
    Routine TrampolineOp Unit :=
  ⟨rtldRuntimeResolveAsm,start,fun _ => callee⟩

/-- How many bytes the routine pushes. -/
def pushed : ℕ := 0xd0

/-- The bytes of the stack that the routine and a callee that uses `stack` bytes may change. -/
def OnStack (stack : ℕ) (sp x : Addr) : Prop :=
  (x-(sp-BitVec.ofNat 64 (pushed+stack))).toNat < pushed+stack+8

/-- What a function that keeps to the calling convention keeps, if it uses `stack` bytes. -/
structure KeepsConvention (stack : ℕ) (s s' : Core Unit) : Prop where
  x : ∀ r : Reg, 19 ≤ r.val → r.val ≤ 29 → s'.x r = s.x r
  d : ∀ r : Reg, 8 ≤ r.val → r.val ≤ 15 →
    (s'.q r).extractLsb' 0 64 = (s.q r).extractLsb' 0 64
  sp : s'.sp = s.sp
  mem : ∀ a, stack ≤ (a-(s.sp-BitVec.ofNat 64 stack)).toNat → s'.mem a = s.mem a

section Save
variable (callee : Core Unit → Option (Core Unit)) (s : Core Unit)

/-- The registers that the routine pushes, from the top of the stack. -/
def savedRegs (s : Core Unit) : List (BitVec 64) :=
  [(s.q 0).extractLsb' 0 64,(s.q 0).extractLsb' 64 64,(s.q 1).extractLsb' 0 64,
    (s.q 1).extractLsb' 64 64,(s.q 2).extractLsb' 0 64,(s.q 2).extractLsb' 64 64,
    (s.q 3).extractLsb' 0 64,(s.q 3).extractLsb' 64 64,(s.q 4).extractLsb' 0 64,
    (s.q 4).extractLsb' 64 64,(s.q 5).extractLsb' 0 64,(s.q 5).extractLsb' 64 64,
    (s.q 6).extractLsb' 0 64,(s.q 6).extractLsb' 64 64,(s.q 7).extractLsb' 0 64,
    (s.q 7).extractLsb' 64 64,s.x 0,s.x 1,s.x 2,s.x 3,s.x 4,s.x 5,s.x 6,s.x 7,s.x 8,s.x 19]

/-- The lines that push. -/
def trampolinePush : List (Instr TrampolineOp) := (trampolineSave.drop 2).take 9

theorem push_runs {v w : BitVec 64} (hstack : Stacked s.mem s.sp [v,w]) :
    ∃ t, execBlock (fun _ => callee) trampolinePush s = some t ∧
      Pushed s t pushed (savedRegs s++[v,w]) := by
  have h₀ : Pushed s s 0 [v,w] := ⟨(BitVec.sub_zero _).symm,hstack,rfl,rfl,rfl,fun _ _ => rfl⟩
  obtain ⟨t₁,e₁,h₁⟩ := Pushed.stp (fun _ : TrampolineOp => callee) (by decide) h₀ (by simp)
    (show (8:Reg) ≠ 31 by decide) (show (19:Reg) ≠ 31 by decide)
  obtain ⟨t₂,e₂,h₂⟩ := Pushed.stp (fun _ : TrampolineOp => callee) (by decide) h₁ (by simp)
    (show (6:Reg) ≠ 31 by decide) (show (7:Reg) ≠ 31 by decide)
  obtain ⟨t₃,e₃,h₃⟩ := Pushed.stp (fun _ : TrampolineOp => callee) (by decide) h₂ (by simp)
    (show (4:Reg) ≠ 31 by decide) (show (5:Reg) ≠ 31 by decide)
  obtain ⟨t₄,e₄,h₄⟩ := Pushed.stp (fun _ : TrampolineOp => callee) (by decide) h₃ (by simp)
    (show (2:Reg) ≠ 31 by decide) (show (3:Reg) ≠ 31 by decide)
  obtain ⟨t₅,e₅,h₅⟩ := Pushed.stp (fun _ : TrampolineOp => callee) (by decide) h₄ (by simp)
    (show (0:Reg) ≠ 31 by decide) (show (1:Reg) ≠ 31 by decide)
  obtain ⟨t₆,e₆,h₆⟩ := h₅.stpQ (fun _ : TrampolineOp => callee) (by decide) (by simp) 6 7
  obtain ⟨t₇,e₇,h₇⟩ := h₆.stpQ (fun _ : TrampolineOp => callee) (by decide) (by simp) 4 5
  obtain ⟨t₈,e₈,h₈⟩ := h₇.stpQ (fun _ : TrampolineOp => callee) (by decide) (by simp) 2 3
  obtain ⟨t₉,e₉,h₉⟩ := h₈.stpQ (fun _ : TrampolineOp => callee) (by decide) (by simp) 0 1
  refine ⟨t₉,?_,h₉⟩
  change execBlock _ [_,_,_,_,_,_,_,_,_] s = _
  rw [execBlock_cons e₁, execBlock_cons e₂, execBlock_cons e₃, execBlock_cons e₄,
    execBlock_cons e₅, execBlock_cons e₆, execBlock_cons e₇, execBlock_cons e₈,
    execBlock_cons e₉]
  rfl

/-- The core when the function is called. -/
structure Saved (s t : Core Unit) : Prop where
  sp : t.sp = s.sp-BitVec.ofNat 64 pushed
  stacked : Stacked t.mem t.sp (savedRegs s++[s.x 29,s.mem.read64 (s.sp+8)])
  slot : t.x 19 = s.mem.read64 s.sp
  module : t.x 0 = t.mem.read64 (s.x 16-8)
  index : t.x 1 = (s.mem.read64 s.sp-s.x 16-8) >>> 3
  x : ∀ r : Reg, 20 ≤ r.val → r.val ≤ 28 → t.x r = s.x r
  q : t.q = s.q
  mem : ∀ a, pushed+8 ≤ (a-(s.sp-BitVec.ofNat 64 pushed)).toNat → t.mem a = s.mem a

theorem saved_stack :
    Stacked (s.mem.write64 s.sp (s.x 29)) s.sp [s.x 29,s.mem.read64 (s.sp+8)] := by
  have hsep : Sep (s.sp+8) 8 s.sp 8 := ⟨by bv_omega,by bv_omega⟩
  exact ⟨Mem.read64_write64_self _ _ _,Mem.read64_write64_of_sep _ _ hsep,trivial⟩

theorem save_runs :
    ∃ t, execBlock (fun _ => callee) trampolineSave s = some t ∧ Saved s t := by
  let s₁ : Core Unit := { s with
    x := Function.update s.x 17 (s.mem.read64 s.sp)
    mem := s.mem.write64 s.sp (s.x 29) }
  have hs₁ : execBlock (fun _ : TrampolineOp => callee)
      [.ldr 17 .sp 0 .offset,.str 29 .sp 0 .offset] s = some s₁ := by
    have hsp : s.sp+0 = s.sp := BitVec.add_zero _
    have h : execBlock (fun _ : TrampolineOp => callee)
        [.ldr 17 .sp 0 .offset,.str 29 .sp 0 .offset] s = some { s with
          x := Function.update s.x 17 (s.mem.read64 (s.sp+0))
          mem := s.mem.write64 (s.sp+0) (s.x 29) } := rfl
    rw [h, hsp]
  obtain ⟨t,ht,hpushed⟩ := push_runs callee s₁ (saved_stack s)
  have hregs : savedRegs s₁ = savedRegs s := rfl
  rw [hregs] at hpushed
  -- the pushes change no register, so the arithmetic on x16 and x17 is that of the caller's
  have hx : ∀ r : Reg, r ≠ 17 → t.x r = s.x r := by
    intro r hr
    rw [hpushed.x]
    exact Function.update_of_ne hr _ _
  have hx17 : t.x 17 = s.mem.read64 s.sp := by
    rw [hpushed.x]
    exact Function.update_self (17:Reg) _ s.x
  have hx16 := hx 16 (by decide)
  have hsub : s.x 16+-8 = s.x 16-8 := by bv_omega
  refine ⟨{ t with
    x := Function.update (Function.update (Function.update (Function.update (Function.update
      (Function.update t.x 29 t.sp) 19 (t.x 17)) 1 (t.x 17-t.x 16)) 1 (t.x 17-t.x 16-8)) 1
        ((t.x 17-t.x 16-8) >>> 3)) 0 (t.mem.read64 (t.x 16+-8)) },?_,?_⟩
  · change execBlock _ ([.ldr 17 .sp 0 .offset,.str 29 .sp 0 .offset]++(trampolinePush++_)) s = _
    rw [execBlock_append hs₁, execBlock_append ht]
    rfl
  · refine ⟨hpushed.sp,hpushed.stacked,hx17,?_,?_,fun r hlo hhi => ?_,hpushed.q,fun a ha => ?_⟩
    · rw [← hsub, ← hx16]
      rfl
    · rw [← hx17, ← hx16]
      rfl
    · have h0 : r ≠ 0 := by rintro rfl; simp at hlo
      have h1 : r ≠ 1 := by rintro rfl; simp at hlo
      have h17 : r ≠ 17 := by rintro rfl; simp at hlo
      have h19 : r ≠ 19 := by rintro rfl; simp at hlo
      have h29 : r ≠ 29 := by rintro rfl; simp at hhi
      rw [← hx r h17]
      simp only [Function.update_of_ne h0, Function.update_of_ne h1, Function.update_of_ne h19,
        Function.update_of_ne h29]
    · have hp : pushed = 0xd0 := rfl
      have hsp := hpushed.sp
      change t.mem a = _
      rw [hpushed.mem a (by rw [hsp]; exact (Nat.le_add_right _ _).trans ha)]
      apply Mem.write64_apply_of_le
      rw [hp] at ha
      bv_omega

end Save

section Restore
variable (callee : Core Unit → Option (Core Unit)) {s u : Core Unit}

/-- The core when the routine branches to the target. -/
structure Restored (s u t : Core Unit) : Prop where
  x : ∀ r : Reg, r.val ≤ 8 ∨ r = 19 ∨ r = 29 → t.x r = s.x r
  kept : ∀ r : Reg, 20 ≤ r.val → r.val ≤ 28 → t.x r = u.x r
  lr : t.x 30 = s.mem.read64 (s.sp+8)
  target : t.x 16 = u.x 0
  q : ∀ r : Reg, r.val ≤ 7 → t.q r = s.q r
  keptQ : ∀ r : Reg, 8 ≤ r.val → t.q r = u.q r
  sp : t.sp = u.sp+0xe0
  mem : t.mem = u.mem.write64 (u.x 19) (u.x 0)

theorem restore_runs
    (hstack : Stacked (u.mem.write64 (u.x 19) (u.x 0)) u.sp
      (savedRegs s++[s.x 29,s.mem.read64 (s.sp+8)])) :
    ∃ t, execBlock (fun _ => callee) trampolineRestore u = some t ∧ Restored s u t := by
  let u₁ : Core Unit := { u with
    x := Function.update u.x 16 (u.x 0)
    mem := u.mem.write64 (u.x 19) (u.x 0) }
  have hu₁ : execBlock (fun _ : TrampolineOp => callee)
      [.str 0 (.x 19) 0 .offset,.mov 16 (.reg 0)] u = some u₁ := by
    have haddr : u.x 19+0 = u.x 19 := BitVec.add_zero _
    have h : execBlock (fun _ : TrampolineOp => callee)
        [.str 0 (.x 19) 0 .offset,.mov 16 (.reg 0)] u = some { u with
          x := Function.update u.x 16 (u.x 0)
          mem := u.mem.write64 (u.x 19+0) (u.x 0) } := rfl
    rw [h, haddr]
  -- the pairs come back in the order in which they lie on the stack
  have h₀ : Popped u₁ u₁ 0 (savedRegs s++[s.x 29,s.mem.read64 (s.sp+8)]) u₁.x u₁.q :=
    ⟨hstack,(BitVec.add_zero _).symm,rfl,rfl,rfl,rfl⟩
  obtain ⟨t₁,e₁,h₁⟩ := h₀.ldpQ (fun _ : TrampolineOp => callee) 0 1
  obtain ⟨t₂,e₂,h₂⟩ := h₁.ldpQ (fun _ : TrampolineOp => callee) 2 3
  obtain ⟨t₃,e₃,h₃⟩ := h₂.ldpQ (fun _ : TrampolineOp => callee) 4 5
  obtain ⟨t₄,e₄,h₄⟩ := h₃.ldpQ (fun _ : TrampolineOp => callee) 6 7
  obtain ⟨t₅,e₅,h₅⟩ := h₄.ldp (fun _ : TrampolineOp => callee) 0 1 (by decide) (by decide)
  obtain ⟨t₆,e₆,h₆⟩ := h₅.ldp (fun _ : TrampolineOp => callee) 2 3 (by decide) (by decide)
  obtain ⟨t₇,e₇,h₇⟩ := h₆.ldp (fun _ : TrampolineOp => callee) 4 5 (by decide) (by decide)
  obtain ⟨t₈,e₈,h₈⟩ := h₇.ldp (fun _ : TrampolineOp => callee) 6 7 (by decide) (by decide)
  obtain ⟨t₉,e₉,h₉⟩ := h₈.ldp (fun _ : TrampolineOp => callee) 8 19 (by decide) (by decide)
  obtain ⟨t,e,h⟩ := h₉.ldp (fun _ : TrampolineOp => callee) 29 30 (by decide) (by decide)
  refine ⟨t,?_,?_⟩
  · change execBlock _ ([.str 0 (.x 19) 0 .offset,.mov 16 (.reg 0)]++[_,_,_,_,_,_,_,_,_,_]) u = _
    rw [execBlock_append hu₁, execBlock_cons e₁, execBlock_cons e₂, execBlock_cons e₃,
      execBlock_cons e₄, execBlock_cons e₅, execBlock_cons e₆, execBlock_cons e₇,
      execBlock_cons e₈, execBlock_cons e₉, execBlock_cons e]
    rfl
  · refine ⟨fun r hr => ?_,fun r hlo hhi => ?_,?_,?_,fun r hr => ?_,fun r hr => ?_,h.sp,h.mem⟩
    · rw [h.x]
      rcases hr with hr | rfl | rfl
      · obtain ⟨r,hlt⟩ := r
        change r ≤ 8 at hr
        interval_cases r <;> rfl
      · rfl
      · rfl
    · rw [h.x]
      obtain ⟨r,hlt⟩ := r
      change 20 ≤ r at hlo
      change r ≤ 28 at hhi
      interval_cases r <;> rfl
    · rw [h.x]
      rfl
    · rw [h.x]
      rfl
    · rw [h.q]
      obtain ⟨r,hlt⟩ := r
      change r ≤ 7 at hr
      interval_cases r <;> rfl
    · rw [h.q]
      obtain ⟨r,hlt⟩ := r
      change 8 ≤ r at hr
      interval_cases r <;> rfl

end Restore

/-- `callee` is `__rtld_lazy_bind_symbol`, compiled to the calling convention: the module is its
first argument, and the index its second. -/
def BindsLazily (callee : Core Unit → Option (Core Unit)) (resolve : ModuleObject → Resolver)
    (objectAt : Addr → ModuleObject) (stack : ℕ) : Prop :=
  ∀ s target, rtldLazyBindSymbol (resolve (objectAt (s.x 0))) (objectAt (s.x 0)) s.mem (s.x 1) =
      .ok target →
    ∃ s', callee s = some s' ∧ s'.x 0 = target ∧ KeepsConvention stack s s'

/-- The core where the call was meant to go: the arguments, and all that a function has to keep,
are those of the call. -/
structure GoesOn (stack : ℕ) (s t : Core Unit) (target : Addr) : Prop where
  arguments : ∀ r : Reg, r.val ≤ 8 → t.x r = s.x r
  vectors : ∀ r : Reg, r.val ≤ 7 → t.q r = s.q r
  savedVectors : ∀ r : Reg, 8 ≤ r.val → r.val ≤ 15 →
    (t.q r).extractLsb' 0 64 = (s.q r).extractLsb' 0 64
  saved : ∀ r : Reg, 19 ≤ r.val → r.val ≤ 29 → t.x r = s.x r
  lr : t.x 30 = s.mem.read64 (s.sp+8)
  sp : t.sp = s.sp+0x10
  mem : ∀ a, ¬OnStack stack s.sp a →
    t.mem a = s.mem.write64 (s.mem.read64 s.sp) target a

section Resolve
variable {callee : Core Unit → Option (Core Unit)} {resolve : ModuleObject → Resolver}
  {objectAt : Addr → ModuleObject} {stack : ℕ} {s : Core Unit} {target : Addr}

/-- The words on the stack are still there when the function has returned, and when the slot has
been stored. -/
theorem stacked_after {t u : Core Unit} (hroom : stack < 2^62) (hsaved : Saved s t)
    (hkeeps : KeepsConvention stack t u)
    (hslot : Sep (s.mem.read64 s.sp) 8 (s.sp-BitVec.ofNat 64 (pushed+stack)) (pushed+stack+16)) :
    Stacked (u.mem.write64 (u.x 19) (u.x 0)) u.sp
      (savedRegs s++[s.x 29,s.mem.read64 (s.sp+8)]) := by
  have hp : pushed = 0xd0 := rfl
  have hx19 : u.x 19 = s.mem.read64 s.sp :=
    (hkeeps.x 19 (by decide) (by decide)).trans hsaved.slot
  have hlen : 8*(savedRegs s++[s.x 29,s.mem.read64 (s.sp+8)]).length = 0xe0 := rfl
  have hsp := hsaved.sp
  rw [hkeeps.sp, hx19]
  refine hsaved.stacked.congr (by rw [hlen]; decide) fun x hx => ?_
  rw [hlen] at hx
  have hoff : (x-(s.sp-BitVec.ofNat 64 (pushed+stack))).toNat < pushed+stack+16 := by
    rw [hsp, hp] at hx
    rw [hp]
    bv_omega
  rw [Mem.write64_apply_of_le _ _ (hslot.offset hoff)]
  apply hkeeps.mem
  bv_omega

theorem mem_after {t u : Core Unit} (hroom : stack < 2^62) (hsaved : Saved s t)
    (hkeeps : KeepsConvention stack t u) {a : Addr} (ha : ¬OnStack stack s.sp a) :
    u.mem a = s.mem a := by
  have hp : pushed = 0xd0 := rfl
  have hsp := hsaved.sp
  rw [OnStack, not_lt] at ha
  rw [hkeeps.mem a, hsaved.mem a]
  · rw [hp] at ha ⊢
    bv_omega
  · rw [hsp, hp]
    rw [hp] at ha
    bv_omega

/-- `dl_trampoline.s` does what `rtldRuntimeResolve` says, and goes on to the target with the
registers and the stack as the call through the slot left them. -/
theorem runtime_resolve_goes_on (hcallee : BindsLazily callee resolve objectAt stack)
    (hroom : stack < 2^62)
    (hslot : Sep (s.mem.read64 s.sp) 8 (s.sp-BitVec.ofNat 64 (pushed+stack)) (pushed+stack+16))
    (hlookup : ∀ m', (∀ a, ¬OnStack stack s.sp a → m' a = s.mem a) →
      runtimeTarget resolve objectAt (s.x 16) (s.mem.read64 s.sp) m' = .ok target)
    (start : Addr) :
    rtldRuntimeResolve resolve objectAt (s.x 16) (s.mem.read64 s.sp) s.mem =
        .ok (s.mem.write64 (s.mem.read64 s.sp) target,target) ∧
      ∃ t, (trampolineRoutine callee start).Leaves s target t ∧ GoesOn stack s t target := by
  have hp : pushed = 0xd0 := rfl
  constructor
  · rw [rtldRuntimeResolve_split, hlookup s.mem fun _ _ => rfl]
    rfl
  obtain ⟨t,ht,hsaved⟩ := save_runs callee s
  -- the stack does not matter to the lookup
  have hbind : rtldLazyBindSymbol (resolve (objectAt (t.x 0))) (objectAt (t.x 0)) t.mem (t.x 1) =
      .ok target := by
    have h := hlookup t.mem fun a ha => hsaved.mem a (by
      rw [OnStack, not_lt, hp] at ha
      rw [hp]
      bv_omega)
    rw [hsaved.module, hsaved.index]
    exact h
  obtain ⟨u,hu,htarget,hkeeps⟩ := hcallee t target hbind
  obtain ⟨v,hv,hrestored⟩ := restore_runs callee (stacked_after hroom hsaved hkeeps hslot)
  have hx19 : u.x 19 = s.mem.read64 s.sp :=
    (hkeeps.x 19 (by decide) (by decide)).trans hsaved.slot
  refine ⟨v,?_,fun r hr => hrestored.x r (Or.inl hr),hrestored.q,fun r hlo hhi => ?_,
    fun r hlo hhi => ?_,hrestored.lr,?_,fun a ha => ?_⟩
  · have hsave : (trampolineRoutine callee start).Runs (.line 0,s) (.line 17,t) :=
      @Routine.runs_block _ _ (trampolineRoutine callee start) 0 s t trampolineSave
        ([.sys .lazyBindSymbol]++trampolineRestore++[.br 16]) rfl (by decide) ht
    have hcall : (trampolineRoutine callee start).step (.line 17,t) = some (.line 18,u) :=
      Routine.step_straight (i := .sys .lazyBindSymbol) rfl rfl hu
    have hrestore : (trampolineRoutine callee start).Runs (.line 18,u) (.line 30,v) :=
      @Routine.runs_block _ _ (trampolineRoutine callee start) 18 u v trampolineRestore [.br 16]
        rfl (by decide) hv
    have hbranch : (trampolineRoutine callee start).step (.line 30,v) =
        some (.left target,v) := by
      have h : (trampolineRoutine callee start).step (.line 30,v) = some (.left (v.x 16),v) := rfl
      rw [h, hrestored.target, htarget]
    exact ((hsave.tail hcall).trans hrestore).tail hbranch
  · rw [hrestored.keptQ r hlo, hkeeps.d r hlo hhi, hsaved.q]
  · by_cases h19 : r = 19
    · exact hrestored.x r (Or.inr (Or.inl h19))
    by_cases h29 : r = 29
    · exact hrestored.x r (Or.inr (Or.inr h29))
    have h20 : 20 ≤ r.val := by
      have hne : r.val ≠ 19 := fun h => h19 (Fin.ext h)
      omega
    have h28 : r.val ≤ 28 := by
      have hne : r.val ≠ 29 := fun h => h29 (Fin.ext h)
      omega
    rw [hrestored.kept r h20 h28, hkeeps.x r hlo hhi, hsaved.x r h20 h28]
  · have hsp := hsaved.sp
    rw [hrestored.sp, hkeeps.sp, hsp, hp]
    bv_omega
  · have hm := mem_after hroom hsaved hkeeps ha
    rw [hrestored.mem, hx19, htarget]
    exact write64_congr hm _ _

/-- A function that looks the symbol up and uses no stack. -/
def bindOnly (s : Core Unit) : Option (Core Unit) :=
  match rtldLazyBindSymbol (tryResolveSymbol oneAddress 2 relModule) relModule s.mem (s.x 1) with
  | .ok target => some { s with x := Function.update s.x 0 target }
  | .error _ => none

theorem bindOnly_binds :
    BindsLazily bindOnly (tryResolveSymbol oneAddress 2) (fun _ => relModule) 0 := by
  intro s target h
  refine ⟨{ s with x := Function.update s.x 0 target },?_,Function.update_self 0 target s.x,?_⟩
  · rw [bindOnly, h]
  · refine ⟨fun r hlo _ => ?_,fun _ _ _ => rfl,rfl,fun _ _ => rfl⟩
    have h0 : r ≠ 0 := by
      rintro rfl
      simp at hlo
    exact Function.update_of_ne h0 _ _

/-- A call through the slot of `relModule`: its address and the return address are on the stack. -/
def relCall : Core Unit where
  x r := if r = 16 then 0x2010 else r.val
  q r := r.val
  sp := 0x9000
  z := false
  c := false
  mem := overlay lazyRelMem 0x9000 [0x2018,0,0x4444,0]
  world := ()

theorem runtime_resolve_goes_on_rel : ∃ t,
    (trampolineRoutine bindOnly 0x7000).Leaves relCall 0x5000 t ∧
      GoesOn 0 relCall t 0x5000 := by
  have hslot : relCall.mem.read64 relCall.sp = 0x2018 := by decide
  refine (runtime_resolve_goes_on bindOnly_binds (by decide) ?_ ?_ 0x7000).2
  · rw [hslot]
    decide
  · rw [hslot]
    intro m' hm'
    -- the tables lie far below the stack, so the pushes have not changed them
    have hoff : ∀ x : Addr, x.toNat < 0x8000 → m' x = relCall.mem x := by
      intro x hx
      refine hm' x ?_
      have hp : pushed = 0xd0 := rfl
      have hsp : relCall.sp = 0x9000 := rfl
      rw [OnStack, hp, hsp]
      bv_omega
    have hinfo : m'.read64 0x1008 = 1026 := by
      have hsame : m'.read64 0x1008 = relCall.mem.read64 0x1008 :=
        Mem.read64_congr fun x hx => hoff x (by bv_omega)
      exact hsame.trans (by decide)
    have hother : stOther m' 0x1100 = 0 := (hoff 0x1105 (by decide)).trans (by decide)
    have hsymbol : entrySymbol relModule m' 0x1000 = 0x1100 := by
      rw [entrySymbol]
      change entryAt 0x1100 sizeofSym (elfRSym (m'.read64 0x1008)) = 0x1100
      rw [hinfo]
      decide
    have hfound : tryResolveSymbol oneAddress 2 relModule m' 0x1100 = .ok (some 0x5000) := by
      rw [tryResolveSymbol, hother]
      rfl
    change rtldLazyBindSymbol (tryResolveSymbol oneAddress 2 relModule) relModule m' 0 = .ok 0x5000
    rw [rtldLazyBindSymbol, if_neg (by decide)]
    change (tryResolveSymbol oneAddress 2 relModule m' (entrySymbol relModule m' 0x1000) >>= _) = _
    rw [hsymbol, hfound]
    rfl

end Resolve

end Zeldar.Rtld
