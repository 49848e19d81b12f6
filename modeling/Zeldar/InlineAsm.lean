import Zeldar.InlineImpl

namespace Zeldar
open A64

/-- `stp` of the `k`-th pair of registers to its place in the frame. -/
def stpPair (k : ℕ) : Instr :=
  .stp (BitVec.ofNat 7 (2*k)) (BitVec.ofNat 5 (2*k+1)) 31 (BitVec.ofNat 5 (2*k))

def ldpPair (k : ℕ) : Instr :=
  .ldp (BitVec.ofNat 7 (2*k)) (BitVec.ofNat 5 (2*k+1)) 31 (BitVec.ofNat 5 (2*k))

def armBackupRegisters : List Instr := .subImm 0x100 31 31 :: (List.range 15).map stpPair

def armRecoverRegisters : List Instr := (List.range 15).map ldpPair++[.addImm 0x100 31 31]

/-- `mov x0, sp` assembles to an addition of zero. -/
def exlInlineHookImpl : List Instr :=
  armBackupRegisters++
    [.movReg 30 19,.addImm 0 31 0,.ldrImm 1 19 20,.blr 20,.movReg 19 30]++
    armRecoverRegisters++[.ret 30]

def implSize : ℕ := 4*38

/-- The instructions `code` stand at `a`. -/
def CodeAt (m : Mem) (a : Addr) (code : List Instr) : Prop :=
  ∀ k i, code[k]? = some i → decode (m.read32 (wordAt a k)) = i

/-- Where an `InlineCtx` keeps the register `r`; the last one is `m_Lr`. -/
def gpSlot (ctx : Addr) (r : ℕ) : Addr := ctx+BitVec.ofNat 64 (8*r)

/-- Memory with the first `n` registers stored in a context. -/
def storeRegs (m : Mem) (ctx : Addr) (x : BitVec 5 → BitVec 64) : ℕ → Mem
  | 0 => m
  | n+1 => (storeRegs m ctx x n).write64 (gpSlot ctx n) (x (BitVec.ofNat 5 n))

/-- The registers with the first `n` of them loaded from a context. -/
def loadRegs (m : Mem) (ctx : Addr) (x : BitVec 5 → BitVec 64) (n : ℕ) : BitVec 5 → BitVec 64 :=
  fun r => if r.toNat < n then m.read64 (gpSlot ctx r.toNat) else x r

section Frame
variable {m : Mem} {ctx : Addr} {x : BitVec 5 → BitVec 64} {n : ℕ}

theorem gpSlot_sep {r s : ℕ} (hr : r < 32) (hs : s < 32) (h : r ≠ s) :
    Sep (gpSlot ctx r) 8 (gpSlot ctx s) 8 := by
  unfold gpSlot
  refine ⟨?_,?_⟩ <;> bv_omega

theorem storeRegs_apply (hn : n ≤ 32) {a : Addr} (ha : 8*n ≤ (a-ctx).toNat) :
    storeRegs m ctx x n a = m a := by
  induction n with
  | zero => rfl
  | succ n ih =>
    rw [storeRegs, Mem.write64_apply_of_le, ih (by omega) (by omega)]
    unfold gpSlot
    bv_omega

/-- Reads outside the frame are not affected. -/
theorem read64_storeRegs_of_sep (hn : n ≤ 32) {a : Addr} (hs : Sep ctx (8*n) a 8) :
    (storeRegs m ctx x n).read64 a = m.read64 a :=
  Mem.read64_congr fun _ hx => storeRegs_apply hn (hs.offset hx)

theorem loadRegs_update_lr (v : BitVec 64) :
    loadRegs m ctx (Function.update x 30 v) 30 = Function.update (loadRegs m ctx x 30) 30 v := by
  funext r
  by_cases h : r = 30
  · subst h
    rfl
  · simp only [loadRegs, Function.update_of_ne h]

theorem read64_storeRegs {r : ℕ} (hn : n ≤ 32) (hr : r < n) :
    (storeRegs m ctx x n).read64 (gpSlot ctx r) = x (BitVec.ofNat 5 r) := by
  induction n with
  | zero => omega
  | succ n ih =>
    rw [storeRegs]
    by_cases h : r = n
    · rw [h, Mem.read64_write64_self]
    · rw [Mem.read64_write64_of_sep _ _ (gpSlot_sep (by omega) (by omega) h),
        ih (by omega) (by omega)]

theorem read64_storeRegs_of_le {r : ℕ} (hn : n ≤ 32) (hr : r < 32) (h : n ≤ r) :
    (storeRegs m ctx x n).read64 (gpSlot ctx r) = m.read64 (gpSlot ctx r) := by
  induction n with
  | zero => rfl
  | succ n ih =>
    rw [storeRegs, Mem.read64_write64_of_sep _ _ (gpSlot_sep (by omega) (by omega) (by omega)),
      ih (by omega) (by omega)]

theorem loadRegs_succ (hn : n < 32) :
    loadRegs m ctx x (n+1) =
      Function.update (loadRegs m ctx x n) (BitVec.ofNat 5 n) (m.read64 (gpSlot ctx n)) := by
  funext r
  unfold loadRegs
  by_cases h : r = BitVec.ofNat 5 n
  · subst h
    have hr : (BitVec.ofNat 5 n).toNat = n := by bv_omega
    rw [Function.update_self, hr, if_pos (Nat.lt_succ_self n)]
  · have hr : r.toNat ≠ n := by bv_omega
    rw [Function.update_of_ne h]
    by_cases hl : r.toNat < n
    · rw [if_pos hl, if_pos (by omega)]
    · rw [if_neg hl, if_neg (by omega)]

end Frame

section Code
variable {c : Cpu} {a : Addr} {code : List Instr}

theorem CodeAt.congr {m m' : Mem} (h : CodeAt m a code) (hl : code.length < 2^60)
    (he : ∀ x, (x-a).toNat < 4*code.length → m' x = m x) : CodeAt m' a code := by
  intro k i hk
  have hlt := (List.getElem?_eq_some_iff.mp hk).1
  rw [← h k i hk]
  congr 1
  apply Mem.read32_congr
  intro j hj
  apply he
  unfold wordAt
  bv_omega

theorem CodeAt.step (h : CodeAt c.mem a code) {k : ℕ} {i : Instr} (hk : code[k]? = some i)
    (hpc : c.pc = wordAt a k) : step c = exec i c := by
  apply step_of_read rfl
  rw [hpc]
  exact h k i hk

theorem pair_offset : ∀ k < 15,
    (BitVec.ofNat 7 (2*k)).signExtend 64 <<< 3 = BitVec.ofNat 64 (8*(2*k)) := by decide

theorem pair_ne : ∀ k < 15, BitVec.ofNat 5 (2*k) ≠ 31 ∧ BitVec.ofNat 5 (2*k+1) ≠ 31 := by decide

theorem gpSlot_next (ctx : Addr) (r : ℕ) : gpSlot ctx r+8 = gpSlot ctx (r+1) := by
  unfold gpSlot
  bv_omega

theorem exec_stpPair {k : ℕ} (hk : k < 15) :
    exec (stpPair k) c = some { c with
      pc := c.pc+4
      mem := (c.mem.write64 (gpSlot c.sp (2*k)) (c.x (BitVec.ofNat 5 (2*k)))).write64
        (gpSlot c.sp (2*k+1)) (c.x (BitVec.ofNat 5 (2*k+1))) } := by
  obtain ⟨h1,h2⟩ := pair_ne k hk
  simp only [stpPair, exec, Cpu.getXsp, Cpu.getX, h1, h2, ↓reduceIte, pair_offset k hk, Cpu.next,
    Cpu.goto]
  rw [← gpSlot, gpSlot_next]

theorem exec_ldpPair {k : ℕ} (hk : k < 15) :
    exec (ldpPair k) c = some { c with
      pc := c.pc+4
      x := Function.update (Function.update c.x (BitVec.ofNat 5 (2*k))
        (c.mem.read64 (gpSlot c.sp (2*k)))) (BitVec.ofNat 5 (2*k+1))
        (c.mem.read64 (gpSlot c.sp (2*k+1))) } := by
  obtain ⟨h1,h2⟩ := pair_ne k hk
  simp only [ldpPair, exec, Cpu.getXsp, Cpu.setX, h1, h2, ↓reduceIte, pair_offset k hk, Cpu.next,
    Cpu.goto]
  rw [← gpSlot, gpSlot_next]

/-- A run of `stp` fills the frame from its start, in front of code that it leaves alone. -/
theorem reaches_storeRegs (hcode : CodeAt c.mem a code) (hl : code.length < 2^60)
    (hs : Sep c.sp 0x100 a (4*code.length)) {start : ℕ} (hpc : c.pc = wordAt a start) (k : ℕ)
    (hk : k ≤ 15) (hstp : ∀ j < k, code[start+j]? = some (stpPair j)) :
    Reaches c { c with pc := wordAt a (start+k), mem := storeRegs c.mem c.sp c.x (2*k) } := by
  induction k with
  | zero =>
    rw [Nat.add_zero, ← hpc]
    exact Reaches.refl c
  | succ k ih =>
    apply (ih (by omega) fun j hj => hstp j (by omega)).trans
    apply Reaches.single
    have hkeep : CodeAt (storeRegs c.mem c.sp c.x (2*k)) a code := by
      apply hcode.congr hl
      intro x hx
      have hx' : 0x100 ≤ (x-c.sp).toNat := hs.offset hx
      exact storeRegs_apply (by omega) (by omega)
    rw [@CodeAt.step { c with
      pc := wordAt a (start+k), mem := storeRegs c.mem c.sp c.x (2*k) } a code hkeep _ _
      (hstp k (by omega)) rfl, exec_stpPair (by omega)]
    rw [show wordAt a (start+k)+4 = wordAt a (start+(k+1)) from wordAt_four _ _]
    rfl

/-- A run of `ldp` reloads the registers from the frame. -/
theorem reaches_loadRegs (hcode : CodeAt c.mem a code) {start : ℕ} (hpc : c.pc = wordAt a start)
    (k : ℕ) (hk : k ≤ 15) (hldp : ∀ j < k, code[start+j]? = some (ldpPair j)) :
    Reaches c { c with pc := wordAt a (start+k), x := loadRegs c.mem c.sp c.x (2*k) } := by
  induction k with
  | zero =>
    have h0 : loadRegs c.mem c.sp c.x (2*0) = c.x := rfl
    rw [Nat.add_zero, ← hpc, h0]
    exact Reaches.refl c
  | succ k ih =>
    apply (ih (by omega) fun j hj => hldp j (by omega)).trans
    apply Reaches.single
    rw [@CodeAt.step { c with
      pc := wordAt a (start+k), x := loadRegs c.mem c.sp c.x (2*k) } a code hcode _ _
      (hldp k (by omega)) rfl, exec_ldpPair (by omega)]
    rw [show wordAt a (start+k)+4 = wordAt a (start+(k+1)) from wordAt_four _ _,
      show 2*(k+1) = 2*k+1+1 by omega, loadRegs_succ (by omega), loadRegs_succ (by omega)]

theorem exec_subSp (imm : BitVec 12) :
    exec (.subImm imm 31 31) c = some { c with pc := c.pc+4, sp := c.sp-imm.setWidth 64 } := rfl

theorem exec_addSp (imm : BitVec 12) :
    exec (.addImm imm 31 31) c = some { c with pc := c.pc+4, sp := c.sp+imm.setWidth 64 } := rfl

theorem exec_movReg {rm rd : BitVec 5} (hm : rm ≠ 31) (hd : rd ≠ 31) :
    exec (.movReg rm rd) c = some { c with
      pc := c.pc+4, x := Function.update c.x rd (c.x rm) } := by
  simp only [exec, Cpu.getX, Cpu.setX, hm, hd, ↓reduceIte, Cpu.next, Cpu.goto]

theorem exec_movFromSp {rd : BitVec 5} (hd : rd ≠ 31) :
    exec (.addImm 0 31 rd) c = some { c with
      pc := c.pc+4, x := Function.update c.x rd c.sp } := by
  have h0 : c.sp+(0:BitVec 12).setWidth 64 = c.sp := by simp
  simp only [exec, Cpu.getXsp, Cpu.setXsp, hd, ↓reduceIte, Cpu.next, Cpu.goto, h0]

theorem exec_ldrImm {imm : BitVec 12} {rn rt : BitVec 5} (hn : rn ≠ 31) (ht : rt ≠ 31) :
    exec (.ldrImm imm rn rt) c = some { c with
      pc := c.pc+4
      x := Function.update c.x rt (c.mem.read64 (c.x rn+(imm.setWidth 64 <<< 3))) } := by
  simp only [exec, Cpu.getXsp, Cpu.setX, hn, ht, ↓reduceIte, Cpu.next, Cpu.goto]

theorem exec_blr {rn : BitVec 5} (hn : rn ≠ 31) :
    exec (.blr rn) c = some { c with
      pc := c.x rn, x := Function.update c.x 30 (c.pc+4) } := by
  simp only [exec, Cpu.getX, Cpu.setX, hn, ↓reduceIte, Cpu.goto, show ¬(30:BitVec 5) = 31 by decide]

theorem exec_ret {rn : BitVec 5} (hn : rn ≠ 31) :
    exec (.ret rn) c = some { c with pc := c.x rn } := by
  simp only [exec, Cpu.getX, hn, ↓reduceIte, Cpu.goto]

end Code

section Impl
variable {c : Cpu} {impl : Addr}

/-- The routine up to its call: the registers are in the frame, X19 holds the return address. -/
theorem impl_enters (hcode : CodeAt c.mem impl exlInlineHookImpl) (hpc : c.pc = impl)
    (hs : Sep (c.sp-0x100) 0x100 impl implSize) (hcb : Sep (c.sp-0x100) 0x100 (c.x 30+8) 8) :
    ∃ c', Reaches c c' ∧ c'.pc = c.mem.read64 (c.x 30+8) ∧ c'.sp = c.sp-0x100 ∧
      c'.x 0 = c.sp-0x100 ∧ c'.x 19 = c.x 30 ∧ c'.x 30 = wordAt impl 20 ∧
      c'.mem = storeRegs c.mem (c.sp-0x100) c.x 30 := by
  have hsub := @CodeAt.step c impl _ hcode 0 _ rfl (hpc.trans (wordAt_zero _).symm)
  rw [exec_subSp, hpc] at hsub
  have hstp := @reaches_storeRegs { c with pc := impl+4, sp := c.sp-0x100 } impl _ hcode
    (by decide) hs 1 rfl 15 le_rfl (by decide)
  -- the frame is apart from the routine, whose code survives the stores
  have hcode' : CodeAt (storeRegs c.mem (c.sp-0x100) c.x 30) impl exlInlineHookImpl := by
    apply hcode.congr (by decide)
    intro x hx
    have hx' : 0x100 ≤ (x-(c.sp-0x100)).toNat := hs.offset hx
    exact storeRegs_apply (by omega) (by omega)
  have hread : (storeRegs c.mem (c.sp-0x100) c.x 30).read64 (c.x 30+8) =
      c.mem.read64 (c.x 30+8) := read64_storeRegs_of_sep (by decide) (hcb.mono (by decide) le_rfl)
  have h8 : (1:BitVec 12).setWidth 64 <<< 3 = (8:Addr) := by decide
  have hnext (k : ℕ) : wordAt impl k+4 = wordAt impl (k+1) := wordAt_four impl k
  -- after the stores: MOV X19, LR; MOV X0, SP; LDR X20, [LR, #8]; BLR X20
  have hmov := @CodeAt.step { c with
    pc := wordAt impl 16
    sp := c.sp-0x100
    mem := storeRegs c.mem (c.sp-0x100) c.x 30 } impl _ hcode' 16 _ rfl rfl
  rw [exec_movReg (by decide) (by decide)] at hmov
  dsimp only at hmov
  rw [hnext] at hmov
  have hctx := @CodeAt.step { c with
    pc := wordAt impl 17
    sp := c.sp-0x100
    x := Function.update c.x 19 (c.x 30)
    mem := storeRegs c.mem (c.sp-0x100) c.x 30 } impl _ hcode' 17 _ rfl rfl
  rw [exec_movFromSp (by decide)] at hctx
  dsimp only at hctx
  rw [hnext] at hctx
  have hldr := @CodeAt.step { c with
    pc := wordAt impl 18
    sp := c.sp-0x100
    x := Function.update (Function.update c.x 19 (c.x 30)) 0 (c.sp-0x100)
    mem := storeRegs c.mem (c.sp-0x100) c.x 30 } impl _ hcode' 18 _ rfl rfl
  rw [exec_ldrImm (by decide) (by decide)] at hldr
  dsimp only at hldr
  rw [hnext, h8, Function.update_of_ne (by decide), Function.update_self, hread] at hldr
  have hblr := @CodeAt.step { c with
    pc := wordAt impl 19
    sp := c.sp-0x100
    x := Function.update (Function.update (Function.update c.x 19 (c.x 30)) 0 (c.sp-0x100)) 20
      (c.mem.read64 (c.x 30+8))
    mem := storeRegs c.mem (c.sp-0x100) c.x 30 } impl _ hcode' 19 _ rfl rfl
  rw [exec_blr (by decide)] at hblr
  dsimp only at hblr
  rw [hnext, Function.update_self] at hblr
  exact ⟨_,Reaches.head hsub (hstp.trans (Reaches.head hmov (Reaches.head hctx
    (Reaches.head hldr (Reaches.single hblr))))),rfl,rfl,rfl,rfl,rfl,rfl⟩

/-- The routine after its call: the registers are those in the frame, but for LR. -/
theorem impl_returns (hcode : CodeAt c.mem impl exlInlineHookImpl) (hpc : c.pc = wordAt impl 20) :
    Reaches c { c with
      pc := c.x 19
      sp := c.sp+0x100
      x := Function.update (loadRegs c.mem c.sp c.x 30) 30 (c.x 19) } := by
  have hnext (k : ℕ) : wordAt impl k+4 = wordAt impl (k+1) := wordAt_four impl k
  have hmov := @CodeAt.step c impl _ hcode 20 _ rfl hpc
  rw [exec_movReg (by decide) (by decide), hpc, hnext] at hmov
  -- LR is restored from X19, and the loads of the frame do not reach it
  have hldp := @reaches_loadRegs
    { c with pc := wordAt impl 21, x := Function.update c.x 30 (c.x 19) } impl _ hcode 21 rfl 15
    le_rfl (by decide)
  rw [loadRegs_update_lr] at hldp
  have hadd := @CodeAt.step { c with
    pc := wordAt impl 36
    x := Function.update (loadRegs c.mem c.sp c.x 30) 30 (c.x 19) } impl _ hcode 36 _ rfl rfl
  rw [exec_addSp] at hadd
  dsimp only at hadd
  rw [hnext] at hadd
  have hret := @CodeAt.step { c with
    pc := wordAt impl 37
    sp := c.sp+0x100
    x := Function.update (loadRegs c.mem c.sp c.x 30) 30 (c.x 19) } impl _ hcode 37 _ rfl rfl
  rw [exec_ret (by decide)] at hret
  dsimp only at hret
  rw [Function.update_self] at hret
  exact Reaches.head hmov (hldp.trans (Reaches.head hadd (Reaches.single hret)))

end Impl

/-- What the AAPCS64 asks of a callback that is entered at `c` and returns at `c'`; the code of
the stub and of the routine is not written to. -/
structure CallbackReturns (impl entryCb : Addr) (c c' : Cpu) : Prop where
  pc : c'.pc = c.x 30
  sp : c'.sp = c.sp
  saved : ∀ r : BitVec 5, 19 ≤ r.toNat → r.toNat ≤ 29 → c'.x r = c.x r
  code : ∀ a, (a-impl).toNat < implSize ∨ (a-entryCb).toNat < entrySize → c'.mem a = c.mem a

/-- What an inline hook does with the registers of `c`, which is about to execute the stub. -/
def Transparent (impl entryCb callback : Addr) (c : Cpu) : Prop :=
  ∃ c1, Reaches c c1 ∧ c1.pc = callback ∧
    (∀ r < 31, c1.mem.read64 (gpSlot (c1.x 0) r) = c.x (BitVec.ofNat 5 r)) ∧
    (∀ a, 0x100 ≤ (a-(c.sp-0x100)).toNat → c1.mem a = c.mem a) ∧
    ∀ c2, CallbackReturns impl entryCb c1 c2 →
      ∃ c3, Reaches c2 c3 ∧ c3.pc = entryCb+12 ∧ c3.sp = c.sp ∧ c3.mem = c2.mem ∧
        ∀ r < 31, c3.x (BitVec.ofNat 5 r) = c2.mem.read64 (gpSlot (c1.x 0) r)

section Transparent
variable {c : Cpu} {entryCb impl trampoline callback : Addr}

/-- The LR that the stub saves is in the slot of LR. -/
theorem gpSlot_lr (sp : Addr) : gpSlot (sp-0x100) 30 = sp-0x10 := by
  unfold gpSlot
  bv_omega

/-- In the frame of the routine the callback finds the registers of the hooked function. -/
theorem frame_registers (m : Mem) (x : BitVec 5 → BitVec 64) (sp ret : Addr) {r : ℕ} (hr : r < 31) :
    (storeRegs (m.write64 (sp-0x10) (x 30)) (sp-0x100) (Function.update x 30 ret) 30).read64
      (gpSlot (sp-0x100) r) = x (BitVec.ofNat 5 r) := by
  by_cases h : r = 30
  · subst h
    rw [read64_storeRegs_of_le (by decide) (by decide) le_rfl, gpSlot_lr, Mem.read64_write64_self]
    rfl
  · have hne : BitVec.ofNat 5 r ≠ 30 := by bv_omega
    rw [read64_storeRegs (by decide) (by omega), Function.update_of_ne hne]

/-- With the frame reloaded and LR taken from its slot, all the registers are those of the
context. -/
theorem context_registers (m : Mem) (x : BitVec 5 → BitVec 64) (sp ret : Addr) {r : ℕ}
    (hr : r < 31) :
    Function.update (Function.update (loadRegs m (sp-0x100) x 30) 30 ret) 30
      (m.read64 (sp-0x10)) (BitVec.ofNat 5 r) = m.read64 (gpSlot (sp-0x100) r) := by
  rw [Function.update_idem]
  by_cases h : r = 30
  · subst h
    rw [gpSlot_lr]
    exact Function.update_self _ _ _
  · have hne : BitVec.ofNat 5 r ≠ 30 := by bv_omega
    have hn : (BitVec.ofNat 5 r).toNat = r := by bv_omega
    rw [Function.update_of_ne hne, loadRegs, hn, if_pos (by omega)]

theorem frame_lr {sp b : Addr} {n : ℕ} (h : Sep (sp-0x100) 0x100 b n) : Sep (sp-0x10) 8 b n := by
  obtain ⟨h1,h2⟩ := h
  refine ⟨?_,?_⟩ <;> bv_omega

theorem entry_transparent (hw : WordsAt c.mem entryCb (entryWords impl entryCb trampoline callback))
    (hreach : InReach (impl-(entryCb+4))) (himpl : CodeAt c.mem impl exlInlineHookImpl)
    (hpc : c.pc = entryCb) (hs1 : Sep (c.sp-0x100) 0x100 entryCb entrySize)
    (hs2 : Sep (c.sp-0x100) 0x100 impl implSize) : Transparent impl entryCb callback c := by
  have hret : entryCb+8+8 = entryCb+16 := by
    rw [add_assoc]
    rfl
  have hpc0 : entryCb+4+wordOffset (((impl-(entryCb+4)).sshiftRight 2).setWidth 26) = impl := by
    rw [hreach.wordOffset]
    ring
  -- the way in: the stub, and the implementation up to its call
  have hstub := stub_calls hw hpc (frame_lr hs1)
  rw [hpc0] at hstub
  have hframe (a : Addr) (ha : 0x100 ≤ (a-(c.sp-0x100)).toNat) :
      (c.mem.write64 (c.sp-0x10) (c.x 30)) a = c.mem a :=
    Mem.write64_apply_of_le _ _ (by bv_omega)
  have hcode := himpl.congr (by decide) fun a ha => hframe a (hs2.offset ha)
  have hwords := hw.congr (by rw [entryWords_length]; decide) fun a ha => hframe a (hs1.offset ha)
  have hcb : Sep (c.sp-0x100) 0x100 (entryCb+8+8) 8 := by
    obtain ⟨h1,h2⟩ := hs1
    unfold entrySize at h1
    rw [hret]
    refine ⟨?_,?_⟩ <;> bv_omega
  obtain ⟨c1,hreach1,hpc1,hsp1,hx0,hx19,hx30,hmem1⟩ := @impl_enters { c with
    pc := impl
    x := Function.update c.x 30 (entryCb+8)
    mem := c.mem.write64 (c.sp-0x10) (c.x 30) } impl hcode rfl hs2 hcb
  dsimp only at hpc1 hsp1 hx0 hx19 hx30 hmem1
  rw [Function.update_self, hret, read64_of_entry hwords] at hpc1
  rw [Function.update_self] at hx19
  have hmem (a : Addr) (ha : 0x100 ≤ (a-(c.sp-0x100)).toNat) : c1.mem a = c.mem a := by
    rw [hmem1, storeRegs_apply (by decide) (by omega)]
    exact hframe a ha
  refine ⟨c1,Reaches.trans ⟨2,hstub⟩ hreach1,hpc1,?_,hmem,?_⟩
  · intro r hr
    rw [hx0, hmem1]
    exact frame_registers c.mem c.x c.sp _ hr
  · -- the way back: the rest of the implementation, and the third word of the stub
    intro c2 hc2
    have hcode2 : CodeAt c2.mem impl exlInlineHookImpl := by
      apply himpl.congr (by decide)
      intro a ha
      rw [hc2.code a (Or.inl ha), hmem a (hs2.offset ha)]
    have hwords2 : WordsAt c2.mem entryCb (entryWords impl entryCb trampoline callback) := by
      apply hw.congr (by rw [entryWords_length]; decide)
      intro a ha
      rw [hc2.code a (Or.inr ha), hmem a (hs1.offset ha)]
    have hsp2 : c2.sp+0x100 = c.sp := by
      rw [hc2.sp, hsp1]
      ring
    have hback := impl_returns hcode2 (hc2.pc.trans hx30)
    rw [hc2.saved 19 (by decide) (by decide), hx19, hsp2, hc2.sp, hsp1] at hback
    have hlast := @step_restore { c2 with
      pc := entryCb+8
      sp := c.sp
      x := Function.update (loadRegs c2.mem (c.sp-0x100) c2.x 30) 30 (entryCb+8) }
      _ _ _ _ hwords2 rfl
    refine ⟨_,hback.trans (Reaches.single hlast),rfl,rfl,rfl,?_⟩
    intro r hr
    rw [hx0]
    exact context_registers c2.mem c2.x c.sp _ hr

end Transparent

/-- An inline hook is transparent but for what the callback edits. -/
theorem inline_hook_transparent {env : InlineEnv} {st st' : InlineState} {hook callback : Addr}
    (halias : env.Aliases st.entryIndex) (h : hookInline env st hook callback = .ok st')
    (hreach : InReach (env.impl-(entryAt env.jit.ro st.entryIndex+4))) {c : Cpu}
    (hpc : c.pc = entryAt env.jit.ro st.entryIndex)
    (hentry : ∀ a, (a-c.pc).toNat < entrySize → c.mem a = st'.hook.m.mem a)
    (himpl : CodeAt c.mem env.impl exlInlineHookImpl)
    (hs1 : Sep (c.sp-0x100) 0x100 c.pc entrySize)
    (hs2 : Sep (c.sp-0x100) 0x100 env.impl implSize) :
    Transparent env.impl c.pc callback c := by
  obtain ⟨trampoline,-,-,hw⟩ := hookInline_entry halias h
  rw [← hpc] at hw hreach
  exact entry_transparent (hw.congr (by rw [entryWords_length]; decide) hentry) hreach himpl rfl hs1
    hs2

section Mirror

/-- The routine as assembled. -/
def inlineHookImplWords : List Word :=
  let pair (k : ℕ) := BitVec.ofNat 32 (2*k) <<< 15 ||| BitVec.ofNat 32 (2*k+1) <<< 10 |||
    BitVec.ofNat 32 (2*k)
  0xd10403ff :: (List.range 15).map (fun k => 0xa90003e0 ||| pair k)++
    [0xaa1e03f3,0x910003e0,0xf9400674,0xd63f0280,0xaa1303fe]++
    (List.range 15).map (fun k => 0xa94003e0 ||| pair k)++[0x910403ff,0xd65f03c0]

theorem inlineHookImplWords_decode : inlineHookImplWords.map decode = exlInlineHookImpl := by
  decide

theorem codeAt_overlay (m : Mem) (a : Addr) :
    CodeAt (overlay m a inlineHookImplWords) a exlInlineHookImpl := by
  intro k i hk
  rw [← inlineHookImplWords_decode, List.getElem?_map, Option.map_eq_some_iff] at hk
  obtain ⟨w,hw,hi⟩ := hk
  rw [@wordsAt_overlay m a inlineHookImplWords (by decide) k w hw, hi]

/-- A core that has just been sent to the first entry. -/
def mirrorCore (m : Mem) : Cpu where
  x r := r.setWidth 64
  v _ := 0
  sp := 0x60000
  pc := 0x30000
  flags := ⟨false,false,false,false⟩
  mem := overlay m 0x4000 inlineHookImplWords

theorem inline_hook_transparent_mirror :
    ∃ st', hookInline mirrorInlineEnv mirrorInlineState 0x1000 0x5000 = .ok st' ∧
      Transparent 0x4000 0x30000 0x5000 (mirrorCore st'.hook.m.mem) := by
  obtain ⟨st',h⟩ := mirrorInline_returns
  have hpool : entryAt mirrorInlineEnv.jit.ro mirrorInlineState.entryIndex = 0x30000 := by decide
  have hs1 : Sep (0x60000-0x100) 0x100 0x30000 entrySize := by decide
  have hs2 : Sep (0x60000-0x100) 0x100 0x4000 implSize := by decide
  refine ⟨st',h,@inline_hook_transparent mirrorInlineEnv mirrorInlineState st' 0x1000 0x5000
    mirrorInline_aliases h (by unfold InReach; decide) (mirrorCore st'.hook.m.mem) hpool.symm ?_
    (codeAt_overlay _ _) hs1 hs2⟩
  intro a ha
  have hl : 4*inlineHookImplWords.length = 152 := by decide
  have hpc : (mirrorCore st'.hook.m.mem).pc = 0x30000 := rfl
  apply overlay_apply_of_le
  rw [hl]
  rw [hpc, entrySize] at ha
  bv_omega

end Mirror

end Zeldar
