import Zeldar.HookCond

namespace Zeldar
open A64

/-- The link register as a branch leaves it, when the code after it is at `ret`. -/
def linked (link : Bool) (ret : Addr) (c : Cpu) : Cpu := if link then c.setX 30 ret else c

/-- The code from `start` to `stop` branches to `t`, with the return address `stop` for a branch
with link. No register but X17 is changed otherwise. -/
def BranchesTo (m : Mem) (start stop t : Addr) (link : Bool) : Prop :=
  ∀ c : Cpu, c.mem = m → c.pc = start →
    ∃ v, Through start stop c (((linked link stop c).setX 17 v).goto t)

section Through
variable {c e : Cpu} {start stop : Addr}

/-- The code after NOPs is reached with nothing changed. -/
theorem through_after_nops {n : ℕ} (hw : WordsAt c.mem c.pc (nops n))
    (hin : ∀ k < n, Inside start stop (wordAt c.pc k))
    (h : Through start stop { c with pc := wordAt c.pc n } e) : Through start stop c e := by
  induction n generalizing c with
  | zero => rwa [wordAt_zero] at h
  | succ n ih =>
    obtain ⟨h0,hs⟩ := wordsAt_cons.mp hw
    have hshift (k : ℕ) : wordAt (c.pc+4) k = wordAt c.pc (k+1) := by
      rw [Nat.add_comm k 1, ← wordAt_add]
      rfl
    have hin0 := hin 0 (Nat.succ_pos n)
    rw [wordAt_zero] at hin0
    apply Through.cons hin0 (step_nop h0)
    apply @ih { c with pc := c.pc+4 } hs
    · intro k hk
      rw [hshift]
      exact hin (k+1) (by omega)
    · rw [hshift]
      exact h

theorem setX17_self (c : Cpu) : c.setX 17 (c.x 17) = c := by
  simp only [Cpu.setX, show ¬(17:BitVec 5) = 31 by decide, ↓reduceIte, Function.update_eq_self]

theorem linked_x17 (link : Bool) (ret : Addr) (c : Cpu) : (linked link ret c).x 17 = c.x 17 := by
  cases link with
  | false => rfl
  | true =>
    have hne : (17:BitVec 5) ≠ 30 := by decide
    exact Function.update_of_ne hne ret c.x

end Through

section Forms
variable {m : Mem} {a start stop t : Addr}

/-- One word: the branch itself, with the distance from its new address. -/
theorem branchesTo_near {link : Bool} {opc : Word}
    (hopc : opc = if link then 0x94000000 else 0x14000000)
    (hw : m.read32 a = branchWord opc (t-a))
    (ho : wordOffset (((t-a).sshiftRight 2).setWidth 26) = t-a) :
    BranchesTo m a (wordAt a 1) t link := by
  rintro c rfl rfl
  refine ⟨c.x 17,?_⟩
  have hz : opc &&& fieldMask 0 26 = 0 := by
    rw [hopc]
    cases link <;> decide
  have hd : decode (c.mem.read32 c.pc) = .b link (((t-c.pc).sshiftRight 2).setWidth 26) := by
    have hopcode := branchWord_opcode (t-c.pc) hz
    rw [hw, ← branchWord_imm _ hz]
    cases link with
    | false =>
      subst hopc
      exact decode_b hopcode
    | true =>
      subst hopc
      exact decode_bl hopcode
  have hin : Inside c.pc (wordAt c.pc 1) c.pc := by
    have h := inside_wordAt c.pc (by decide : 0 < 1) (by decide)
    rwa [wordAt_zero] at h
  have ht : c.pc+(t-c.pc) = t := by bv_omega
  rw [← linked_x17 link (wordAt c.pc 1) c, setX17_self]
  apply Through.last hin
  rw [step_of_read rfl hd]
  simp only [exec, ho, ht]
  rfl

/-- `LDR X17, #12; ADR X30, #16; BR X17` and the target: the return address is the word after
them. -/
theorem through_absoluteCall {c : Cpu} (hw : WordsAt c.mem c.pc
      [0x58000071,0x1000009e,0xd61f0220,t.extractLsb' 0 32,t.extractLsb' 32 32])
    (hin : ∀ k < 3, Inside start stop (wordAt c.pc k)) :
    Through start stop c (((c.setX 30 (wordAt c.pc 5)).setX 17 t).goto t) := by
  obtain ⟨h0,hw⟩ := wordsAt_cons.mp hw
  obtain ⟨h1,hw⟩ := wordsAt_cons.mp hw
  obtain ⟨h2,hw⟩ := wordsAt_cons.mp hw
  simp only [wordAt_add] at h1 h2 hw
  have hin0 := hin 0 (by decide)
  rw [wordAt_zero] at hin0
  have hlit : c.mem.read64 (c.pc+wordOffset (3:BitVec 19)) = t := read64_literal hw
  have hldr := @step_ldr17 c 3 (by rw [h0]; decide)
  rw [hlit] at hldr
  -- the ADR is the second word, so 16 bytes from it is the end of the five
  have hadr : step { c with pc := wordAt c.pc 1, x := Function.update c.x 17 t } =
      some { c with
        pc := wordAt c.pc 2
        x := Function.update (Function.update c.x 17 t) 30 (wordAt c.pc 5) } := by
    have hd : decode (0x1000009e:Word) = .adr 16 30 := by decide
    rw [@step_of_read { c with pc := wordAt c.pc 1, x := Function.update c.x 17 t } _ _ h1 hd]
    have hret : wordAt c.pc 1+(16:BitVec 21).signExtend 64 = wordAt c.pc 5 := by
      have h16 : (16:BitVec 21).signExtend 64 = 16#64 := rfl
      rw [h16]
      unfold wordAt
      bv_omega
    have hnext : wordAt c.pc 1+4 = wordAt c.pc 2 := wordAt_four c.pc 1
    simp only [exec, Cpu.setX, Cpu.next, Cpu.goto, hret, hnext,
      show ¬(30:BitVec 5) = 31 by decide, ↓reduceIte]
  have hbr := @step_br17 { c with
    pc := wordAt c.pc 2
    x := Function.update (Function.update c.x 17 t) 30 (wordAt c.pc 5) } h2
  dsimp only at hbr
  have hne : (17:BitVec 5) ≠ 30 := by decide
  rw [Function.update_of_ne hne, Function.update_self] at hbr
  have hswap : Function.update (Function.update c.x 17 t) 30 (wordAt c.pc 5) =
      Function.update (Function.update c.x 30 (wordAt c.pc 5)) 17 t :=
    Function.update_comm hne t (wordAt c.pc 5) c.x
  rw [hswap] at hbr hadr
  exact Through.cons hin0 hldr (Through.cons (hin 1 (by decide)) hadr
    (Through.last (hin 2 (by decide)) hbr))

/-- The absolute jump branches to its literal, whether or not a NOP stands before it. -/
theorem branchesTo_absoluteJump {m : Mem} {a : Addr} {pad : ℕ} (hpad : pad ≤ 1)
    (hm : WordsAt m a (nops pad++absoluteJump t)) :
    BranchesTo m a (wordAt a (nops pad++absoluteJump t).length) t false := by
  rintro c rfl hc
  rw [← hc] at hm ⊢
  obtain ⟨hn,hj⟩ := wordsAt_append.mp hm
  rw [nops_length] at hj
  have hlen : (nops pad++absoluteJump t).length = pad+4 := by
    rw [List.length_append, nops_length]
    rfl
  have hin (k : ℕ) (hk : k < pad+4) :
      Inside c.pc (wordAt c.pc (nops pad++absoluteJump t).length) (wordAt c.pc k) :=
    inside_wordAt _ (by rwa [hlen]) (by omega)
  refine ⟨t,through_after_nops hn (fun k hk => hin k (by omega)) ?_⟩
  apply @through_absoluteJump _ _ t { c with pc := wordAt c.pc pad } hj
  intro k hk
  rw [wordAt_add]
  exact hin _ (by omega)

/-- So does the absolute call, and it returns to the end of its five words. -/
theorem branchesTo_absoluteCall {m : Mem} {a : Addr} {pad : ℕ} (hpad : pad ≤ 1)
    (hm : WordsAt m a (nops pad++
      [0x58000071,0x1000009e,0xd61f0220,t.extractLsb' 0 32,t.extractLsb' 32 32])) :
    BranchesTo m a (wordAt a (nops pad++
      [(0x58000071:Word),0x1000009e,0xd61f0220,t.extractLsb' 0 32,t.extractLsb' 32 32]).length)
      t true := by
  rintro c rfl hc
  rw [← hc] at hm ⊢
  obtain ⟨hn,hj⟩ := wordsAt_append.mp hm
  rw [nops_length] at hj
  have hlen : (nops pad++[(0x58000071:Word),0x1000009e,0xd61f0220,t.extractLsb' 0 32,
      t.extractLsb' 32 32]).length = pad+5 := by
    rw [List.length_append, nops_length]
    rfl
  rw [hlen]
  have hin (k : ℕ) (hk : k < pad+5) :
      Inside c.pc (wordAt c.pc (pad+5)) (wordAt c.pc k) := inside_wordAt _ hk (by omega)
  refine ⟨t,through_after_nops hn (fun k hk => hin k (by omega)) ?_⟩
  have hcall := @through_absoluteCall c.pc (wordAt c.pc (pad+5)) t
    { c with pc := wordAt c.pc pad } hj (fun k hk => by
      rw [wordAt_add]
      exact hin _ (by omega))
  dsimp only at hcall
  rw [wordAt_add] at hcall
  exact hcall

end Forms

section Plans
variable {s : FixState} {idx : Fin maxInstructions} {w opc : Word} {link : Bool}

/-- A branch to a target outside the range branches to the same target. -/
theorem branchPlan_branchesTo (hopc : opc = if link then 0x94000000 else 0x14000000)
    (hr : ¬s.ctx.isInFixingRange (branchTarget s.inprx w) = true)
    (hd : (branchTarget s.inprx w-s.outprx).toNat%4 = 0) {p : Plan}
    (hp : branchPlan s idx opc w = .ok p) :
    p.forward = none ∧ ∀ m, WordsAt m s.outprx p.words →
      BranchesTo m s.outprx (wordAt s.outprx p.words.length) (branchTarget s.inprx w) link := by
  simp only [branchPlan, pure, Except.pure] at hp
  rw [if_neg hr] at hp
  generalize branchTarget s.inprx w = t at hp hd ⊢
  generalize hpad : (if wordAt s.outprx 2 &&& 7 = 0 then 0 else 1) = pad at hp
  have hpad1 : pad ≤ 1 := by
    rw [← hpad]
    split_ifs <;> decide
  by_cases hfar : (0x1ffffff:BitVec 64).sle (llabs ((t-s.outprx).sshiftRight 2)) = true
  · rw [if_pos hfar] at hp
    cases link with
    | false =>
      have hb : opc = 0x14000000 := hopc
      rw [if_pos hb] at hp
      cases hp
      exact ⟨rfl,fun m hm => branchesTo_absoluteJump hpad1 hm⟩
    | true =>
      have hne : opc ≠ 0x14000000 := by
        rw [hopc]
        decide
      rw [if_neg hne] at hp
      cases hp
      exact ⟨rfl,fun m hm => branchesTo_absoluteCall (by omega) hm⟩
  · rw [if_neg hfar] at hp
    cases hp
    refine ⟨rfl,fun m hm => ?_⟩
    -- within reach the field holds the whole distance
    have ho := @near_offset 0 .branch (t-s.outprx) _ hfar (by decide) hd
    have h0 : refLow .branch (0:Word) = 0#64 := rfl
    rw [h0, BitVec.add_zero] at ho
    exact branchesTo_near hopc (wordsAt_cons.mp hm).1 ho

end Plans

section Final
variable {tr : Addr → Addr} {slot : Slot tr} {n i : ℕ} {src : Source tr n slot} {mach : Machine}

theorem opcode_of_decode {w : Word} {link : Bool} {imm : BitVec 26}
    (hd : decode w = .b link imm) :
    w &&& 0xfc000000 = if link then 0x94000000 else 0x14000000 := by
  have href : reference (decode w) = some (.branch,wordOffset imm) := by
    rw [hd]
    rfl
  have hk := (@handlerTarget_eq _ 0 _ _ href (Or.inl rfl)).2
  have hb : w &&& 0xfc000000 = 0x14000000 ∨ w &&& 0xfc000000 = 0x94000000 := refKind_cases hk
  rcases hb with hb | hb
  · have h := (decode_b hb).symm.trans hd
    rw [Instr.b.injEq] at h
    rw [hb, ← h.1]
    rfl
  · have h := (decode_bl hb).symm.trans hd
    rw [Instr.b.injEq] at h
    rw [hb, ← h.1]
    rfl

/-- The handler returns, and its plan is the one the loop performs. -/
theorem fixBranch_returns (hi : i < n) (him : i < maxInstructions) {w : Word}
    (hw : mach.mem.read32 (wordAt src.rx i) = w) (hk : refKind w = some .branch) :
    branchPlan (loopState tr (src.start mach) i) ⟨i,him⟩ (w &&& 0xfc000000) w =
        .ok (loopPlan tr (src.start mach) ⟨i,him⟩) ∧
      fixBranchImm tr (loopState tr (src.start mach) i) =
        .ok (some (loopState tr (src.start mach) (i+1))) := by
  obtain ⟨-,h⟩ := @loop_represents tr slot n src mach i hi.le
  have hload := (h.load_source hi).trans hw
  have hb : w &&& 0xfc000000 = 0x14000000 ∨ w &&& 0xfc000000 = 0x94000000 := refKind_cases hk
  have hplan : instructionPlan tr (loopState tr (src.start mach) i) ⟨i,him⟩ =
      some (branchPlan (loopState tr (src.start mach) i) ⟨i,him⟩ (w &&& 0xfc000000) w) := by
    unfold instructionPlan
    dsimp only
    rw [hload, if_pos hb]
  obtain ⟨hp,hnext⟩ := loopState_perform mach hi him hplan
  refine ⟨hp,?_⟩
  rw [fixBranchImm_eq _ (h.index him), hload]
  dsimp only
  rw [if_pos hb, hp, hnext]
  rfl

/-- In the finished trampoline the code of a branch branches to its target. -/
theorem branchesTo_code (hi : i < n) {link : Bool} {imm : BitVec 26}
    (hd : decode (mach.mem.read32 (wordAt src.rx i)) = .b link imm)
    (hout : 4*n ≤ (wordAt src.rx i+wordOffset imm-src.rx).toNat) {mach' : Machine}
    (hrun : fixInstructions tr mach src.rw src.rx n slot.rw slot.rx = .ok mach') :
    BranchesTo mach'.mem (src.code mach i) (src.code mach (i+1)) (wordAt src.rx i+wordOffset imm)
      link := by
  have hc := src.count
  have him : i < maxInstructions := by omega
  obtain ⟨-,h⟩ := @loop_represents tr slot n src mach i hi.le
  generalize hw : mach.mem.read32 (wordAt src.rx i) = w at hd
  have href : reference (decode w) = some (.branch,wordOffset imm) := by
    rw [hd]
    rfl
  obtain ⟨ht,hk⟩ := @handlerTarget_eq _ (wordAt src.rx i) _ _ href (Or.inl rfl)
  have ht' : branchTarget (loopState tr (src.start mach) i).inprx w =
      wordAt src.rx i+wordOffset imm := by
    rw [h.inprx]
    exact ht
  -- outside the patched words is outside the range of the handler
  have hr : ¬(loopState tr (src.start mach) i).ctx.isInFixingRange
      (branchTarget (loopState tr (src.start mach) i).inprx w) = true := by
    intro hr
    have hlt := h.range hr
    rw [ht'] at hlt
    omega
  have hd4 : (branchTarget (loopState tr (src.start mach) i).inprx w-
      (loopState tr (src.start mach) i).outprx).toNat%4 = 0 := by
    have hout4 := h.outprx_aligned
    have hin4 := wordAt_aligned src.aligned i
    have hx : (wordOffset imm).toNat%4 = 0 := reference_low href
    rw [ht']
    generalize wordOffset imm = x at hx ⊢
    bv_omega
  have hp := (fixBranch_returns hi him hw hk).1
  obtain ⟨hf,hgoes⟩ := branchPlan_branchesTo (opcode_of_decode hd) hr hd4 hp
  have hto := hgoes _ (wordsAt_code hi him hf hrun)
  rw [ht'] at hto
  rw [code_succ src mach hi him]
  exact hto

end Final

/-- A relocated B or BL with a target outside the range goes to that target, and a BL returns to
the code of the next instruction. -/
theorem branch_keeps_target {tr : Addr → Addr} {slot : Slot tr} {n i : ℕ}
    (src : Source tr n slot) (mach : Machine) (hi : i < n) {link : Bool} {imm : BitVec 26}
    (hd : decode (mach.mem.read32 (wordAt src.rx i)) = .b link imm)
    (hout : 4*n ≤ (wordAt src.rx i+wordOffset imm-src.rx).toNat) :
    ∃ mach', fixInstructions tr mach src.rw src.rx n slot.rw slot.rx = .ok mach' ∧
      (∀ k ≤ n, fixLoop tr k (src.start mach) = .ok (loopState tr (src.start mach) k)) ∧
      fixBranchImm tr (loopState tr (src.start mach) i) =
        .ok (some (loopState tr (src.start mach) (i+1))) ∧
      BranchesTo mach'.mem (src.code mach i) (src.code mach (i+1))
        (wordAt src.rx i+wordOffset imm) link := by
  obtain ⟨mach',hrun,-⟩ := fixInstructions_overlay src mach
  have hc := src.count
  have href : reference (decode (mach.mem.read32 (wordAt src.rx i))) =
      some (.branch,wordOffset imm) := by
    rw [hd]
    rfl
  have hk := (@handlerTarget_eq _ 0 _ _ href (Or.inl rfl)).2
  have hret := (@fixBranch_returns tr slot n i src mach hi (by omega) _ rfl hk).2
  exact ⟨mach',hrun,fun k hk => (loop_represents mach hk).1,hret,branchesTo_code hi hd hout hrun⟩

/-- `BL #-0x2000000`, which is relocated to a call through a literal. -/
theorem branch_keeps_target_link :
    ∃ mach', fixInstructions nearViews (twoWords 0x97800000 0xd503201f) 0x01001000 0x1000 2
        0x01020000 0x20000 = .ok mach' ∧
      BranchesTo mach'.mem (nearViewsSource.code (twoWords 0x97800000 0xd503201f) 0)
        (nearViewsSource.code (twoWords 0x97800000 0xd503201f) 1) (0x1000-0x2000000) true := by
  obtain ⟨h0,-⟩ := twoWords_read 0x97800000 0xd503201f
  obtain ⟨mach',hrun,-,-,hto⟩ := @branch_keeps_target nearViews nearViewsSlot 2 0 nearViewsSource
    (twoWords 0x97800000 0xd503201f) (by decide) true 0x3800000
    ((congrArg decode h0).trans (by decide)) (by decide)
  exact ⟨mach',hrun,hto⟩

end Zeldar
