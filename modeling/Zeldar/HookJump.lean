import Zeldar.A64
import Zeldar.HookLoop

namespace Zeldar
open A64

/-- The words `ws` stand at `a`. -/
def WordsAt (m : Mem) (a : Addr) (ws : List Word) : Prop :=
  ∀ k w, ws[k]? = some w → m.read32 (wordAt a k) = w

/-- From `a` every core with memory `m` reaches `b`, with at most X17 changed. -/
def Transfers (m : Mem) (a b : Addr) : Prop :=
  ∀ c : Cpu, c.mem = m → c.pc = a →
    ∃ v, Reaches c { c with pc := b, x := Function.update c.x 17 v }

section WordsAt
variable {m : Mem} {a : Addr}

theorem wordsAt_cons {w : Word} {ws : List Word} :
    WordsAt m a (w :: ws) ↔ m.read32 a = w ∧ WordsAt m (wordAt a 1) ws := by
  constructor
  · intro h
    refine ⟨?_,fun k v hv => ?_⟩
    · have h0 := h 0 w rfl
      rwa [wordAt_zero] at h0
    · rw [wordAt_add, Nat.add_comm]
      exact h (k+1) v hv
  · intro h k v hv
    cases k with
    | zero =>
      cases hv
      rw [wordAt_zero]
      exact h.1
    | succ k =>
      have hk := h.2 k v hv
      rwa [wordAt_add, Nat.add_comm] at hk

theorem wordsAt_append {ws vs : List Word} :
    WordsAt m a (ws++vs) ↔ WordsAt m a ws ∧ WordsAt m (wordAt a ws.length) vs := by
  induction ws generalizing a with
  | nil => simp [WordsAt]
  | cons w ws ih =>
    rw [List.cons_append, wordsAt_cons, ih, wordsAt_cons, wordAt_add, List.length_cons,
      Nat.add_comm 1, and_assoc]

theorem wordsAt_overlay (ws : List Word) (hl : ws.length < 2^60) :
    WordsAt (overlay m a ws) a ws := by
  intro k w hk
  have hlt := (List.getElem?_eq_some_iff.mp hk).1
  exact read32_overlay m a ws (by omega) hk

/-- A double word is read from its two words. -/
theorem read64_of_words {lo hi : Word} (h : WordsAt m a [lo,hi]) : m.read64 a = hi++lo := by
  obtain ⟨hlo,h⟩ := wordsAt_cons.mp h
  obtain ⟨hhi,-⟩ := wordsAt_cons.mp h
  rw [Mem.read64, hlo, ← hhi]
  rfl

/-- Memory that agrees on a range holds the same words there. -/
theorem WordsAt.congr {m' : Mem} {ws : List Word} (h : WordsAt m a ws) (hl : ws.length < 2^60)
    (he : ∀ x, (x-a).toNat < 4*ws.length → m' x = m x) : WordsAt m' a ws := by
  intro k w hk
  have hlt := (List.getElem?_eq_some_iff.mp hk).1
  rw [← h k w hk]
  apply Mem.read32_congr
  intro i hi
  apply he
  unfold wordAt
  bv_omega

end WordsAt

theorem Transfers.trans {m : Mem} {a b d : Addr} (h : Transfers m a b) (h' : Transfers m b d) :
    Transfers m a d := by
  intro c hm hp
  obtain ⟨v,hv⟩ := h c hm hp
  obtain ⟨u,hu⟩ := h' { c with pc := b, x := Function.update c.x 17 v } hm rfl
  rw [Function.update_idem] at hu
  exact ⟨u,hv.trans hu⟩

/-- Code that ends somewhere else does not lead to a place where a core stops. -/
theorem not_transfers {m : Mem} {a b : Addr} {c d : Cpu} (hm : c.mem = m) (hp : c.pc = a)
    (hr : Reaches c d) (hend : step d = none ∨ step d = some d) (hd : d.pc ≠ b)
    (hb : ∀ e : Cpu, e.mem = m → e.pc = b → step e = none) : ¬Transfers m a b := by
  intro h
  obtain ⟨v,hv⟩ := h c hm hp
  rcases hr.linear hv with h | h
  · exact hd (congrArg Cpu.pc (h.of_end hend)).symm
  · exact hd (congrArg Cpu.pc (h.of_end (Or.inl (hb _ hm rfl))))

section Step
variable {c : Cpu}

/-- A core stops at a word that is no instruction. -/
theorem step_zero (hw : c.mem.read32 c.pc = 0) : step c = none := by
  rw [step_of_read hw (by decide : _ = Instr.other 0)]
  rfl

theorem step_nop (hw : c.mem.read32 c.pc = aarch64Nop) : step c = some { c with pc := c.pc+4 } := by
  rw [step_of_read hw (by decide : _ = Instr.nop)]
  rfl

theorem step_ldr17 {imm : BitVec 19} (hd : decode (c.mem.read32 c.pc) = .ldrLit .x imm 17) :
    step c = some { c with
      pc := c.pc+4, x := Function.update c.x 17 (c.mem.read64 (c.pc+wordOffset imm)) } := by
  rw [step_of_read rfl hd]
  simp only [exec, loadLit, Cpu.setX, Cpu.next, Cpu.goto, show ¬(17:BitVec 5) = 31 by decide,
    ↓reduceIte]

theorem step_br17 (hw : c.mem.read32 c.pc = 0xd61f0220) : step c = some { c with pc := c.x 17 } := by
  rw [step_of_read hw (by decide : _ = Instr.br 17)]
  simp only [exec, Cpu.getX, Cpu.goto, show ¬(17:BitVec 5) = 31 by decide, ↓reduceIte]

theorem reaches_nops (n : ℕ) (hw : WordsAt c.mem c.pc (nops n)) :
    Reaches c { c with pc := wordAt c.pc n } := by
  induction n generalizing c with
  | zero =>
    rw [wordAt_zero]
    exact Reaches.refl c
  | succ n ih =>
    obtain ⟨h0,hs⟩ := wordsAt_cons.mp hw
    have h := @ih { c with pc := c.pc+4 } hs
    have ha : wordAt (c.pc+4) n = wordAt c.pc (n+1) := by
      rw [Nat.add_comm n 1, ← wordAt_add]
      rfl
    rw [ha] at h
    exact Reaches.head (step_nop h0) h

end Step

theorem transfers_nops {m : Mem} {a b : Addr} (n : ℕ) (hw : WordsAt m a (nops n))
    (h : Transfers m (wordAt a n) b) : Transfers m a b := by
  rintro c rfl rfl
  obtain ⟨v,hv⟩ := h { c with pc := wordAt c.pc n } rfl rfl
  exact ⟨v,(reaches_nops n hw).trans hv⟩

theorem read64_literal {m : Mem} {a v : Addr}
    (h : WordsAt m a [v.extractLsb' 0 32,v.extractLsb' 32 32]) : m.read64 a = v := by
  rw [read64_of_words h, BitVec.extractLsb'_append_extractLsb'_eq_extractLsb' (by rfl)]
  exact BitVec.extractLsb'_eq_self

/-- `LDR X17, #8; BR X17` over an address leaves the address in X17. -/
theorem reaches_absoluteJump {c : Cpu} {target : Addr}
    (hw : WordsAt c.mem c.pc (absoluteJump target)) :
    Reaches c { c with pc := target, x := Function.update c.x 17 target } := by
  obtain ⟨h0,hw⟩ := wordsAt_cons.mp hw
  obtain ⟨h1,hw⟩ := wordsAt_cons.mp hw
  rw [wordAt_add] at hw
  have hlit : c.mem.read64 (c.pc+wordOffset (2:BitVec 19)) = target := read64_literal hw
  have hldr := @step_ldr17 c 2 (by rw [h0]; decide)
  have hbr := @step_br17 { c with pc := c.pc+4, x := Function.update c.x 17 target } h1
  dsimp only at hbr
  rw [Function.update_self] at hbr
  rw [hlit] at hldr
  exact Reaches.head hldr (Reaches.single hbr)

theorem transfers_absoluteJump {m : Mem} {a target : Addr}
    (hw : WordsAt m a (absoluteJump target)) : Transfers m a target := by
  rintro c rfl rfl
  exact ⟨target,reaches_absoluteJump hw⟩

theorem branchWord_eq {opc : Word} (d : Addr) :
    branchWord opc d = opc ||| ((d.sshiftRight 2).setWidth 32 <<< 0 &&& fieldMask 0 26) := by
  have hm : (~~~(0xfc000000:Word)) = fieldMask 0 26 := by decide
  simp only [branchWord, hm, BitVec.setWidth_or, BitVec.setWidth_and]
  simp

theorem branchWord_opcode {opc : Word} (d : Addr) (h : opc &&& fieldMask 0 26 = 0) :
    branchWord opc d &&& 0xfc000000 = opc := by
  have hm : (0xfc000000:Word) = ~~~fieldMask 0 26 := by decide
  rw [branchWord_eq, hm, merge_keep]
  have hs := and_not_add_and opc (fieldMask 0 26)
  rw [h] at hs
  simpa using hs

theorem branchWord_imm {opc : Word} (d : Addr) (h : opc &&& fieldMask 0 26 = 0) :
    (branchWord opc d).extractLsb' 0 26 = (d.sshiftRight 2).setWidth 26 := by
  rw [branchWord_eq, extract_merge _ _ (by decide) h, BitVec.setWidth_setWidth_of_le _ (by decide)]

/-- Below the limit of the range test a displacement fits the field of `B`. -/
theorem branchOffset_of_near {d : Addr} (hd : d.toNat%4 = 0)
    (hn : (0x1ffffff:BitVec 64).ule (llabs (d.sshiftRight 2)) = false) :
    wordOffset ((d.sshiftRight 2).setWidth 26) = d := by
  have hl : (llabs (d.sshiftRight 2)).toNat < 0x1ffffff := by
    simpa [BitVec.ule] using hn
  obtain ⟨h1,h2⟩ := (llabs_lt_iff _ _).mp hl
  rw [toInt_sshiftRight_two] at h1 h2
  exact displacement_of_range d (by decide) (by decide) hd (by omega) (by omega)

/-- `B`, with a displacement that its field holds. -/
theorem reaches_branch {c : Cpu} {target : Addr}
    (hw : c.mem.read32 c.pc = branchWord 0x14000000 (target-c.pc))
    (ho : wordOffset (((target-c.pc).sshiftRight 2).setWidth 26) = target-c.pc) :
    Reaches c { c with pc := target } := by
  have hopc : (0x14000000:Word) &&& fieldMask 0 26 = 0 := by decide
  have ht : c.pc+(target-c.pc) = target := by bv_omega
  apply Reaches.single
  rw [step_of_read hw (decode_b (branchWord_opcode _ hopc))]
  simp only [exec, Bool.false_eq_true, ↓reduceIte, branchWord_imm _ hopc, ho, Cpu.goto, ht]

theorem transfers_branch {m : Mem} {a target : Addr}
    (hw : m.read32 a = branchWord 0x14000000 (target-a))
    (ho : wordOffset (((target-a).sshiftRight 2).setWidth 26) = target-a) :
    Transfers m a target := by
  rintro c rfl rfl
  refine ⟨c.x 17,?_⟩
  rw [Function.update_eq_self]
  exact reaches_branch hw ho

/-- Whatever their form, the words of a jump transfer to its target. -/
theorem transfers_jumpWords {m : Mem} {a target : Addr} (ha : a.toNat%4 = 0)
    (ht : target.toNat%4 = 0) (hw : WordsAt m a (jumpWords target a)) : Transfers m a target := by
  unfold jumpWords at hw
  by_cases hf : (0x1ffffff:BitVec 64).ule (llabs ((target-a).sshiftRight 2)) = true
  · rw [if_pos hf] at hw
    obtain ⟨hn,hj⟩ := wordsAt_append.mp hw
    rw [nops_length] at hj
    exact transfers_nops _ hn (transfers_absoluteJump hj)
  · rw [if_neg hf] at hw
    have hd : (target-a).toNat%4 = 0 := by bv_omega
    exact transfers_branch (wordsAt_cons.mp hw).1
      (branchOffset_of_near hd (Bool.eq_false_of_not_eq_true hf))

end Zeldar
