import Zeldar.A64

namespace Zeldar.A64

/-- The two cores are the same, but for the bytes of `P`. -/
def AgreeOff (P : Addr → Prop) (c c' : Cpu) : Prop :=
  c' = { c with mem := c'.mem } ∧ ∀ a, ¬P a → c'.mem a = c.mem a

def LitKind.size : LitKind → ℕ
  | .w | .sw | .s => 4
  | .x | .d => 8
  | .prfm => 0
  | .q => 16

/-- The address and the number of the bytes that an instruction loads. -/
def loads (i : Instr) (c : Cpu) : Addr × ℕ :=
  match i with
  | .ldrLit kind imm _ => (c.pc+wordOffset imm,kind.size)
  | .ldur imm rn _ => (c.getXsp rn+imm.signExtend 64,8)
  | .ldp imm _ rn _ => (c.getXsp rn+(imm.signExtend 64 <<< 3),16)
  | .ldrImm imm rn _ => (c.getXsp rn+(imm.setWidth 64 <<< 3),8)
  | _ => (0,0)

/-- None of the `n` bytes at `a` is one of `P`. -/
def Clear (P : Addr → Prop) (a : Addr) (n : ℕ) : Prop := ∀ x, (x-a).toNat < n → ¬P x

/-- A run of `n` instructions that neither fetches nor loads a byte of `P`. -/
def Avoids (P : Addr → Prop) : ℕ → Cpu → Prop
  | 0, _ => True
  | n+1, c =>
    let i := decode (c.mem.read32 c.pc)
    Clear P c.pc 4 ∧ Clear P (loads i c).1 (loads i c).2 ∧ ∀ c', step c = some c' → Avoids P n c'

section Frame
variable {P : Addr → Prop} {m m' : Mem} {a : Addr}

theorem Clear.mono {b : Addr} {n k : ℕ} (h : Clear P a n) (hb : (b-a).toNat+k ≤ n) :
    Clear P b k := by
  intro x hx
  apply h
  bv_omega

theorem read32_off (h : ∀ a, ¬P a → m' a = m a) (hc : Clear P a 4) : m'.read32 a = m.read32 a := by
  apply Mem.read32_congr
  intro i hi
  exact h _ (hc _ (by bv_omega))

theorem read64_off (h : ∀ a, ¬P a → m' a = m a) (hc : Clear P a 8) : m'.read64 a = m.read64 a := by
  rw [Mem.read64, Mem.read64, read32_off h (hc.mono (by bv_omega)),
    read32_off h (hc.mono (by bv_omega))]

theorem write32_off (h : ∀ a, ¬P a → m' a = m a) (w : Word) (b : Addr) :
    ∀ a, ¬P a → m'.write32 b w a = m.write32 b w a := by
  intro a ha
  simp only [Mem.write32, h a ha]

theorem write64_off (h : ∀ a, ¬P a → m' a = m a) (v : BitVec 64) (b : Addr) :
    ∀ a, ¬P a → m'.write64 b v a = m.write64 b v a :=
  write32_off (write32_off h _ _) _ _

end Frame

section Agree
variable {P : Addr → Prop} {c c' d : Cpu}

theorem AgreeOff.goto (h : AgreeOff P c c') (a : Addr) : AgreeOff P (c.goto a) (c'.goto a) := by
  obtain ⟨he,hm⟩ := h
  rw [he]
  exact ⟨rfl,hm⟩

theorem AgreeOff.next (h : AgreeOff P c c') : AgreeOff P c.next c'.next := by
  have hpc : c'.pc = c.pc := by rw [h.1]
  rw [Cpu.next, Cpu.next, hpc]
  exact h.goto _

theorem AgreeOff.setX (h : AgreeOff P c c') (r : BitVec 5) (v : BitVec 64) :
    AgreeOff P (c.setX r v) (c'.setX r v) := by
  unfold Cpu.setX
  obtain ⟨he,hm⟩ := h
  split_ifs
  · exact ⟨he,hm⟩
  · rw [he]
    exact ⟨rfl,hm⟩

theorem AgreeOff.setXsp (h : AgreeOff P c c') (r : BitVec 5) (v : BitVec 64) :
    AgreeOff P (c.setXsp r v) (c'.setXsp r v) := by
  unfold Cpu.setXsp
  obtain ⟨he,hm⟩ := h
  rw [he]
  split_ifs
  · exact ⟨rfl,hm⟩
  · exact ⟨rfl,hm⟩

theorem AgreeOff.setV (h : AgreeOff P c c') (r : BitVec 5) (v : BitVec 128) :
    AgreeOff P (c.setV r v) (c'.setV r v) := by
  obtain ⟨he,hm⟩ := h
  rw [he]
  exact ⟨rfl,hm⟩

theorem AgreeOff.setMem (h : AgreeOff P c c') {m m' : Mem} (hm : ∀ a, ¬P a → m' a = m a) :
    AgreeOff P { c with mem := m } { c' with mem := m' } := by
  rw [h.1]
  exact ⟨rfl,hm⟩

theorem loadLit_off (h : AgreeOff P c c') (kind : LitKind) {a : Addr} (hc : Clear P a kind.size)
    (rt : BitVec 5) : AgreeOff P (loadLit kind a rt c) (loadLit kind a rt c') := by
  cases kind with
  | w | sw =>
    simp only [loadLit, read32_off h.2 hc]
    exact h.setX _ _
  | x =>
    simp only [loadLit, read64_off h.2 hc]
    exact h.setX _ _
  | prfm => exact h
  | s =>
    simp only [loadLit, read32_off h.2 hc]
    exact h.setV _ _
  | d =>
    simp only [loadLit, read64_off h.2 hc]
    exact h.setV _ _
  | q =>
    have hlo : Clear P a 8 := hc.mono (by simp [LitKind.size])
    have hhi : Clear P (a+8) 8 := by
      apply hc.mono
      simp only [LitKind.size]
      bv_omega
    simp only [loadLit, read64_off h.2 hlo, read64_off h.2 hhi]
    exact h.setV _ _

/-- One instruction whose loads avoid `P`. -/
theorem exec_off {i : Instr} (h : AgreeOff P c c') (hc : Clear P (loads i c).1 (loads i c).2)
    (he : exec i c = some d) : ∃ d', exec i c' = some d' ∧ AgreeOff P d d' := by
  have hpc : c'.pc = c.pc := by rw [h.1]
  have hx (r : BitVec 5) : c'.getX r = c.getX r := by rw [h.1]; rfl
  have hxsp (r : BitVec 5) : c'.getXsp r = c.getXsp r := by rw [h.1]; rfl
  have hflags : c'.flags = c.flags := by rw [h.1]
  -- registers and flags agree, so only what `i` loads and stores is left to compare
  cases i with
  | b link imm =>
    cases he
    simp only [exec, hpc]
    cases link
    · exact ⟨_,rfl,h.goto _⟩
    · exact ⟨_,rfl,(h.setX 30 (c.pc+4)).goto _⟩
  | bcond cond imm =>
    cases he
    simp only [exec, hpc, hflags]
    split_ifs
    · exact ⟨_,rfl,h.goto _⟩
    · exact ⟨_,rfl,h.next⟩
  | cbz sf nz imm rt =>
    cases he
    simp only [exec, hpc, hx]
    generalize (if sf = true then c.getX rt == 0 else (c.getX rt).setWidth 32 == 0#32) = zero
    split_ifs
    · exact ⟨_,rfl,h.goto _⟩
    · exact ⟨_,rfl,h.next⟩
  | tbz nz bit imm rt =>
    cases he
    simp only [exec, hpc, hx]
    split_ifs
    · exact ⟨_,rfl,h.goto _⟩
    · exact ⟨_,rfl,h.next⟩
  | ldrLit kind imm rt =>
    cases he
    simp only [exec, hpc]
    exact ⟨_,rfl,(loadLit_off h kind hc rt).next⟩
  | adr imm rd | adrp imm rd =>
    cases he
    simp only [exec, hpc]
    exact ⟨_,rfl,(h.setX _ _).next⟩
  | br rn | ret rn =>
    cases he
    simp only [exec, hx]
    exact ⟨_,rfl,h.goto _⟩
  | blr rn =>
    cases he
    simp only [exec, hx, hpc]
    exact ⟨_,rfl,(h.setX _ _).goto _⟩
  | nop =>
    cases he
    exact ⟨_,rfl,h.next⟩
  | stur imm rn rt =>
    cases he
    simp only [exec, hx, hxsp]
    exact ⟨_,rfl,h.next.setMem (write64_off h.2 _ _)⟩
  | ldur imm rn rt =>
    cases he
    have hr := @read64_off P _ _ (c.getXsp rn+imm.signExtend 64) h.2 hc
    simp only [exec, hxsp, hr]
    exact ⟨_,rfl,(h.setX _ _).next⟩
  | stp imm rt2 rn rt =>
    cases he
    simp only [exec, hx, hxsp]
    exact ⟨_,rfl,h.next.setMem (write64_off (write64_off h.2 _ _) _ _)⟩
  | ldp imm rt2 rn rt =>
    -- both words lie in the range that `loads` names
    cases he
    have hlo : Clear P (c.getXsp rn+(imm.signExtend 64 <<< 3)) 8 := hc.mono (by simp [loads])
    have hhi : Clear P (c.getXsp rn+(imm.signExtend 64 <<< 3)+8) 8 := by
      apply hc.mono
      simp only [loads]
      generalize c.getXsp rn+(imm.signExtend 64 <<< 3) = a
      bv_omega
    simp only [exec, hxsp, read64_off h.2 hlo, read64_off h.2 hhi]
    exact ⟨_,rfl,((h.setX _ _).setX _ _).next⟩
  | ldrImm imm rn rt =>
    cases he
    have hr := @read64_off P _ _ (c.getXsp rn+(imm.setWidth 64 <<< 3)) h.2 hc
    simp only [exec, hxsp, hr]
    exact ⟨_,rfl,(h.setX _ _).next⟩
  | addImm imm rn rd | subImm imm rn rd =>
    cases he
    simp only [exec, hxsp]
    exact ⟨_,rfl,(h.setXsp _ _).next⟩
  | movReg rm rd =>
    cases he
    simp only [exec, hx]
    exact ⟨_,rfl,(h.setX _ _).next⟩
  | other w => cases he

theorem run_off {n : ℕ} (h : AgreeOff P c c') (ha : Avoids P n c) (hr : run n c = some d) :
    ∃ d', run n c' = some d' ∧ AgreeOff P d d' := by
  induction n generalizing c c' with
  | zero =>
    cases hr
    exact ⟨c',rfl,h⟩
  | succ n ih =>
    obtain ⟨hf,hl,hnext⟩ := ha
    cases hs : step c with
    | none => simp [run, hs] at hr
    | some e =>
      simp only [run, hs, Option.bind_some] at hr
      obtain ⟨e',he',hag⟩ := exec_off h hl hs
      obtain ⟨d',hd',hag'⟩ := ih hag (hnext e hs) hr
      have hpc : c'.pc = c.pc := by rw [h.1]
      have hs' : step c' = some e' := by
        rw [step, hpc, read32_off h.2 hf]
        exact he'
      refine ⟨d',?_,hag'⟩
      simp only [run, hs', Option.bind_some, hd']

end Agree

end Zeldar.A64
