import Zeldar.A64Literal
import Zeldar.HookTransfer

namespace Zeldar
open A64

section Code
variable {m : Mem} {a stop : Addr} {f : Cpu → Cpu}

/-- NOPs in front of the code change nothing, for a function that does not look at the `pc`. -/
theorem computes_after_nops {n : ℕ} (hw : WordsAt m a (nops n))
    (hin : ∀ k < n, Inside a stop (wordAt a k))
    (hf : ∀ c b, (f (c.goto b)).goto stop = (f c).goto stop)
    (h : ∀ c : Cpu, c.mem = m → c.pc = wordAt a n → Through a stop c ((f c).goto stop)) :
    Computes m a stop f := by
  rintro c rfl rfl
  apply through_after_nops hw hin
  have hgo := h (c.goto (wordAt c.pc n)) rfl rfl
  rwa [hf] at hgo

/-- A load of the literal behind it, and a branch over the literal. -/
theorem through_literal {start : Addr} {c : Cpu} {kind : LitKind} {rt : BitVec 5} {ns : ℕ}
    (hns : ns ≤ 4) (h0 : decode (c.mem.read32 c.pc) = .ldrLit kind 2 rt)
    (h1 : c.mem.read32 (wordAt c.pc 1) = 0x14000001+BitVec.ofNat 32 ns)
    (hin : ∀ k < 2, Inside start stop (wordAt c.pc k)) :
    Through start stop c ((loadLit kind (wordAt c.pc 2) rt c).goto (wordAt c.pc (2+ns))) := by
  have hin0 := hin 0 (by decide)
  rw [wordAt_zero] at hin0
  have h8 : wordOffset (2:BitVec 19) = 8#64 := rfl
  have hlit : c.pc+wordOffset (2:BitVec 19) = wordAt c.pc 2 := by
    rw [h8]
    rfl
  have hnext : (loadLit kind (wordAt c.pc 2) rt c).next =
      (loadLit kind (wordAt c.pc 2) rt c).goto (wordAt c.pc 1) := by
    rw [Cpu.next, loadLit_pc]
    rfl
  have hload : step c = some ((loadLit kind (wordAt c.pc 2) rt c).goto (wordAt c.pc 1)) := by
    rw [step_of_read rfl h0, exec, hlit, hnext]
  have hb : decode (0x14000001+BitVec.ofNat 32 ns) = .b false (BitVec.ofNat 26 (1+ns)) := by
    interval_cases ns <;> decide
  have hover : wordAt c.pc 1+wordOffset (BitVec.ofNat 26 (1+ns)) = wordAt c.pc (2+ns) := by
    have ho : wordOffset (BitVec.ofNat 26 (1+ns)) = BitVec.ofNat 64 (4*(1+ns)) := by
      interval_cases ns <;> rfl
    rw [ho]
    unfold wordAt
    bv_omega
  -- the load changes no memory, so the branch behind it is still there
  have hread : ((loadLit kind (wordAt c.pc 2) rt c).goto (wordAt c.pc 1)).mem.read32
      ((loadLit kind (wordAt c.pc 2) rt c).goto (wordAt c.pc 1)).pc =
        0x14000001+BitVec.ofNat 32 ns := by
    rw [← h1]
    simp only [Cpu.goto, loadLit_mem]
  have hbranch : step ((loadLit kind (wordAt c.pc 2) rt c).goto (wordAt c.pc 1)) =
      some ((loadLit kind (wordAt c.pc 2) rt c).goto (wordAt c.pc (2+ns))) := by
    rw [step_of_read hread hb]
    simp only [exec, Bool.false_eq_true, ↓reduceIte, Cpu.goto, hover]
  have hin1 : Inside start stop ((loadLit kind (wordAt c.pc 2) rt c).goto (wordAt c.pc 1)).pc :=
    hin 1 (by decide)
  exact Through.cons hin0 hload (Through.last hin1 hbranch)

end Code

section AddressLoad
variable {w : Word}

theorem addressLoad_and {t : Word} (h : 0x1f &&& t = 0) :
    (0x58000040 ||| (w &&& 0x1f)) &&& t = 0x58000040 &&& t := by
  rw [BitVec.and_comm, BitVec.and_or_distrib_left, BitVec.and_comm t (w &&& 0x1f),
    BitVec.and_assoc, h]
  simp [BitVec.and_comm]

theorem decode_addressLoad :
    decode (0x58000040 ||| (w &&& 0x1f)) = .ldrLit .x 2 (w.extractLsb' 0 5) := by
  have hv : (0x58000040 ||| (w &&& 0x1f)).getLsbD 26 = false := by simp
  have ho : (0x58000040 ||| (w &&& 0x1f)).extractLsb' 30 2 = 1 := by
    rw [BitVec.extractLsb'_or, BitVec.extractLsb'_and]
    simp
  have himm : (0x58000040 ||| (w &&& 0x1f)).extractLsb' 5 19 = 2 := by
    rw [BitVec.extractLsb'_or, BitVec.extractLsb'_and]
    simp
  have hrt : (0x58000040 ||| (w &&& 0x1f)).extractLsb' 0 5 = w.extractLsb' 0 5 := by
    rw [BitVec.extractLsb'_or, BitVec.extractLsb'_and]
    have h1 : (0x1f:Word).extractLsb' 0 5 = BitVec.allOnes 5 := by decide
    have h2 : (0x58000040:Word).extractLsb' 0 5 = 0 := by decide
    rw [h1, h2, BitVec.and_allOnes]
    simp
  have hmask : (0x58000040 ||| (w &&& 0x1f)) &&& 0x3b000000 = 0x18000000 :=
    addressLoad_and (by decide)
  have hd := @decode_ldrLit (0x58000040 ||| (w &&& 0x1f)) .x hmask (by rw [hv, ho]; rfl)
  rwa [himm, hrt] at hd

/-- The load of the address, behind at most one alignment NOP. -/
theorem computes_addressLoad {m : Mem} {a t : Addr} {pad : ℕ} (hpad : pad ≤ 1)
    (hw : WordsAt m a (nops pad++addressLoad (w &&& 0x1f) t)) :
    Computes m a (wordAt a (pad+4)) fun c => c.setX (w.extractLsb' 0 5) t := by
  obtain ⟨hn,hl⟩ := wordsAt_append.mp hw
  rw [nops_length] at hl
  obtain ⟨h0,hl⟩ := wordsAt_cons.mp hl
  obtain ⟨h1,hl⟩ := wordsAt_cons.mp hl
  rw [wordAt_add] at hl
  have hin (k : ℕ) (hk : k < pad+4) : Inside a (wordAt a (pad+4)) (wordAt a k) :=
    inside_wordAt a hk (by omega)
  have hgo (c : Cpu) (b : Addr) : ((c.goto b).setX (w.extractLsb' 0 5) t).goto
      (wordAt a (pad+4)) = (c.setX (w.extractLsb' 0 5) t).goto (wordAt a (pad+4)) := by
    rw [setX_goto, setX_goto]
    rfl
  apply computes_after_nops hn (fun k hk => hin k (by omega)) hgo
  rintro c rfl hc
  rw [← hc] at h0 h1 hl
  have hload := @through_literal (wordAt a (pad+4)) a c .x (w.extractLsb' 0 5) 2 (by decide)
    (by rw [h0]; exact decode_addressLoad) h1 (fun k hk => by
      rw [hc, wordAt_add]
      exact hin _ (by omega))
  have hstop : wordAt c.pc (2+2) = wordAt a (pad+4) := by rw [hc, wordAt_add]
  have hv : c.mem.read64 (wordAt c.pc 2) = t := read64_literal hl
  rw [hstop, loadLit, hv] at hload
  exact hload

end AddressLoad

section Targets
variable {pc : Addr} {w : Word} {imm : BitVec 21} {rd : BitVec 5}

/-- The two shifts leave the field times four, with its sign up to bit 31. -/
theorem fieldOffset (w : Word) :
    (w <<< 8).sshiftRight (8+5-2) &&& ~~~(3:Word) = (w.extractLsb' 5 19++0#2).signExtend 32 := by
  have h3 (i : ℕ) (hi : i < 32) : (~~~(3:Word)).getLsbD i = decide (2 ≤ i) := by
    interval_cases i <;> rfl
  apply BitVec.eq_of_getLsbD_eq
  intro i hi
  rw [BitVec.getLsbD_and, h3 i hi, BitVec.getLsbD_sshiftRight, BitVec.getLsbD_signExtend]
  simp only [BitVec.msb_eq_getLsbD_last, BitVec.getLsbD_shiftLeft, BitVec.getLsbD_append,
    BitVec.getLsbD_extractLsb', BitVec.getLsbD_zero]
  grind

/-- With the two low bits of an address word it is the whole displacement. -/
theorem fieldOffset_low (w : Word) :
    ((w <<< 8).sshiftRight (8+5-2) &&& ~~~(3:Word)) ||| ((w <<< 1) >>> 30) =
      (w.extractLsb' 5 19++w.extractLsb' 29 2).signExtend 32 := by
  apply BitVec.eq_of_getLsbD_eq
  intro i hi
  rw [fieldOffset, BitVec.getLsbD_or, BitVec.getLsbD_signExtend, BitVec.getLsbD_signExtend]
  simp only [BitVec.msb_eq_getLsbD_last, BitVec.getLsbD_shiftLeft, BitVec.getLsbD_append,
    BitVec.getLsbD_extractLsb', BitVec.getLsbD_zero, BitVec.getLsbD_ushiftRight]
  grind

theorem fields_of_adr (hd : decode w = .adr imm rd) :
    w.extractLsb' 5 19++w.extractLsb' 29 2 = imm ∧ w.extractLsb' 0 5 = rd := by
  have h := (decode_adr (opcode_of_adr hd)).symm.trans hd
  rwa [Instr.adr.injEq] at h

theorem fields_of_adrp (hd : decode w = .adrp imm rd) :
    w.extractLsb' 5 19++w.extractLsb' 29 2 = imm ∧ w.extractLsb' 0 5 = rd := by
  have h := (decode_adrp (opcode_of_adrp hd)).symm.trans hd
  rwa [Instr.adrp.injEq] at h

/-- A backward ADR is taken for one four gibibytes ahead. -/
theorem adrTarget_carry (hd : decode w = .adr imm rd) :
    adrTarget pc w = pc+(imm.signExtend 64+if imm.msb then 0x100000000#64 else 0#64) := by
  rw [← signExtend_half imm (by decide), ← (fields_of_adr hd).1, ← fieldOffset_low,
    BitVec.setWidth_or]
  rfl

/-- So is a backward ADRP, whose pages are shifted out of 32 bits. -/
theorem adrpTarget_carry (hd : decode w = .adrp imm rd) :
    adrpTarget pc w = (pc &&& ~~~0xfff)+
      ((imm++0#12).signExtend 64+if imm.msb then 0x100000000#64 else 0#64) := by
  have hpage : (imm.signExtend 32 <<< 12).setWidth 64 =
      (imm++0#12).signExtend 64+if imm.msb then 0x100000000#64 else 0#64 := by
    have hx := imm.isLt
    have hm := BitVec.msb_eq_decide imm
    have happ : (imm++0#12).toNat = imm.toNat*4096 := by
      rw [BitVec.toNat_append, Nat.shiftLeft_eq]
      simp
    have hmsb : (imm++0#12).msb = imm.msb := by
      rw [BitVec.msb_append]
      simp
    apply BitVec.eq_of_toNat_eq
    rw [BitVec.toNat_add, BitVec.toNat_setWidth_of_le (by decide), BitVec.toNat_shiftLeft,
      Nat.shiftLeft_eq, BitVec.toNat_signExtend, BitVec.toNat_signExtend, hmsb,
      BitVec.toNat_setWidth_of_le (by decide), BitVec.toNat_setWidth_of_le (by decide), happ]
    cases hs : imm.msb
    · rw [hs] at hm
      simp at hm ⊢
      omega
    · rw [hs] at hm
      simp at hm ⊢
      omega
  rw [← hpage, ← (fields_of_adrp hd).1, ← fieldOffset_low]
  rfl

end Targets

section Plans
variable {s : FixState} {idx : Fin maxInstructions} {w : Word} {imm : BitVec 21} {rd : BitVec 5}
  {m : Mem} {a : Addr}

theorem computes_single {i : Instr} {f : Cpu → Cpu} (hd : decode (m.read32 a) = i)
    (hf : ∀ c : Cpu, c.pc = a → exec i c = some ((f c).goto (wordAt a 1))) :
    Computes m a (wordAt a 1) f := by
  rintro c rfl rfl
  have hin : Inside c.pc (wordAt c.pc 1) c.pc := by
    have h := inside_wordAt c.pc (by decide : 0 < 1) (by decide)
    rwa [wordAt_zero] at h
  apply Through.last hin
  rw [step_of_read rfl hd]
  exact hf c rfl

theorem next_setX {c : Cpu} (hc : c.pc = a) (r : BitVec 5) (v : BitVec 64) :
    (c.setX r v).next = (c.setX r v).goto (wordAt a 1) := by
  rw [Cpu.next, setX_pc, hc]
  rfl

/-- A relocated ADRP computes the page of the handler, or, where it is copied, the page at the
same distance from the page of the copy. -/
theorem adrpPlan_computes (hd : decode w = .adrp imm rd)
    (hw : WordsAt m s.outprx (adrpPlan s w).words) :
    Computes m s.outprx (wordAt s.outprx (adrpPlan s w).words.length) fun c => c.setX rd
      (if s.ctx.isInFixingRange (adrpTarget s.inprx w) = true then
        (s.outprx &&& ~~~0xfff)+(imm++0#12).signExtend 64 else adrpTarget s.inprx w) := by
  have hrd := (fields_of_adrp hd).2
  unfold adrpPlan at hw ⊢
  dsimp only at hw ⊢
  by_cases hr : s.ctx.isInFixingRange (adrpTarget s.inprx w) = true
  · simp only [if_pos hr] at hw ⊢
    apply computes_single (i := .adrp imm rd)
    · rw [(wordsAt_cons.mp hw).1]
      exact hd
    · intro c hc
      rw [exec, next_setX hc, hc]
  · simp only [if_neg hr] at hw ⊢
    by_cases hp : wordAt s.outprx 2 &&& 7 = 0
    · rw [if_pos hp] at hw ⊢
      rw [← hrd]
      exact @computes_addressLoad w m s.outprx (adrpTarget s.inprx w) 0 (by decide) hw
    · rw [if_neg hp] at hw ⊢
      rw [← hrd]
      exact computes_addressLoad le_rfl hw

/-- The register field of the new word is the old one with the two low bits of the distance
or-ed into its upper bits. -/
theorem decode_adrWord (hd : decode w = .adr imm rd) (d : Addr) : decode (adrWord w d) =
    .adr ((d.sshiftRight 2).setWidth 19++w.extractLsb' 29 2) (rd ||| (d.setWidth 2++0#3)) := by
  have hkeep (t : Word) (ht : 0x00ffffff &&& t = 0) (ht' : 0xff00001f &&& t = t) :
      adrWord w d &&& t = w &&& t := by
    simp only [adrWord]
    rw [BitVec.and_comm, BitVec.and_or_distrib_left, BitVec.and_comm t, BitVec.and_assoc, ht,
      BitVec.and_comm t, BitVec.and_assoc, ht']
    simp
  have hop : adrWord w d &&& 0x9f000000 = 0x10000000 := by
    rw [hkeep _ (by decide) (by decide)]
    exact opcode_of_adr hd
  have hlow : (adrWord w d).extractLsb' 29 2 = w.extractLsb' 29 2 := by
    have h := congrArg (fun v => v.extractLsb' 29 2) (hkeep 0x60000000 (by decide) (by decide))
    have hones : (0x60000000:Word).extractLsb' 29 2 = BitVec.allOnes 2 := by decide
    simpa only [BitVec.extractLsb'_and, hones, BitVec.and_allOnes] using h
  have hreg : (adrWord w d).extractLsb' 0 5 = rd ||| (d.setWidth 2++0#3) := by
    rw [← (fields_of_adr hd).2]
    apply BitVec.eq_of_getLsbD_eq
    intro i hi
    have hf : (0x00ffffff:Word).getLsbD i = true := by interval_cases i <;> rfl
    have hl : (0xff00001f:Word).getLsbD i = true := by interval_cases i <;> rfl
    simp only [adrWord, BitVec.getLsbD_extractLsb', BitVec.getLsbD_or, BitVec.getLsbD_and,
      BitVec.getLsbD_setWidth, BitVec.getLsbD_shiftLeft, BitVec.getLsbD_append,
      BitVec.getLsbD_zero, Nat.zero_add, hi, decide_true, Bool.true_and, hf, hl, Bool.and_true]
    grind
  rw [decode_adr hop, adrWord_field, hlow, hreg]

theorem adrWord_computes (hd : decode w = .adr imm rd) {d : Addr} (hw : m.read32 a = adrWord w d) :
    Computes m a (wordAt a 1) fun c => c.setX (rd ||| (d.setWidth 2++0#3))
      (a+(wordOffset ((d.sshiftRight 2).setWidth 19)+refLow .address w)) := by
  apply computes_single ((congrArg decode hw).trans (decode_adrWord hd d))
  intro c hc
  rw [exec, next_setX hc, signExtend_append_two, hc]
  rfl

/-- Within reach, the new word has the whole distance, except for one that is the least 64-bit
number. -/
theorem adr_near_eq_iff {d : Addr} (hnear : ¬(0xfffff:Addr).sle (llabs d) = true)
    (hd : d.toNat%4 = (refLow .address w).toNat) :
    wordOffset ((d.sshiftRight 2).setWidth 19)+refLow .address w = d ↔ d ≠ BitVec.intMin 64 := by
  have hlow := refLow_lt .address w
  have hle := BitVec.le_toInt d
  by_cases hmin : -2^63 < d.toInt
  · obtain ⟨h1,h2⟩ := toInt_of_near hnear (by decide) hmin
    have hb : (0xfffff:Addr).toNat = 0xfffff := rfl
    rw [hb] at h1 h2
    have hne : d ≠ BitVec.intMin 64 := by
      rintro rfl
      rw [BitVec.toInt_intMin] at hmin
      norm_num at hmin
    exact iff_of_true (wordOffset_near (by decide) (by decide) hlow hd (by norm_num; omega)
      (by norm_num; omega)) hne
  · have he : d = BitVec.intMin 64 := by
      apply BitVec.eq_of_toInt_eq
      rw [BitVec.toInt_intMin]
      norm_num at hle hmin ⊢
      omega
    subst he
    have h0 : wordOffset (((BitVec.intMin 64).sshiftRight 2).setWidth 19) = 0#64 := by decide
    have hm : (BitVec.intMin 64) = 0x8000000000000000#64 := by decide
    rw [h0]
    generalize refLow .address w = low at hlow ⊢
    simp only [hm, ne_eq, not_true_eq_false, iff_false]
    bv_omega

end Plans

section Final
variable {tr : Addr → Addr} {slot : Slot tr} {n i : ℕ} {src : Source tr n slot} {mach : Machine}
  {w : Word} {imm : BitVec 21} {rd : BitVec 5}

/-- The handler returns, and its plan is the one the loop performs. -/
theorem fixPcreladdr_returns (hi : i < n) (him : i < maxInstructions)
    (hw : mach.mem.read32 (wordAt src.rx i) = w) (h : w &&& 0x1f000000 = 0x10000000)
    {plan : Except Fault Plan}
    (hplan : pcreladdrPlan (loopState tr (src.start mach) i) ⟨i,him⟩ w = some plan) :
    plan = .ok (loopPlan tr (src.start mach) ⟨i,him⟩) ∧
      fixPcreladdr tr (loopState tr (src.start mach) i) =
        .ok (some (loopState tr (src.start mach) (i+1))) := by
  obtain ⟨-,hrep⟩ := @loop_represents tr slot n src mach i hi.le
  have hload := (hrep.load_source hi).trans hw
  have hins : instructionPlan tr (loopState tr (src.start mach) i) ⟨i,him⟩ = some plan := by
    rw [instructionPlan_address hload h, hplan]
  obtain ⟨hp,hnext⟩ := loopState_perform mach hi him hins
  refine ⟨hp,?_⟩
  rw [fixPcreladdr_eq _ (hrep.index him), hload, hplan, hp, hnext]
  rfl

theorem adrp_returns (hi : i < n) (him : i < maxInstructions)
    (hw : mach.mem.read32 (wordAt src.rx i) = w) (hd : decode w = .adrp imm rd) :
    adrpPlan (loopState tr (src.start mach) i) w = loopPlan tr (src.start mach) ⟨i,him⟩ ∧
      fixPcreladdr tr (loopState tr (src.start mach) i) =
        .ok (some (loopState tr (src.start mach) (i+1))) := by
  have hop := opcode_of_adrp hd
  have hne : ¬w &&& 0x9f000000 = 0x10000000 := by
    rw [hop]
    decide
  obtain ⟨hp,hret⟩ := fixPcreladdr_returns hi him hw
    (and_of_and hop (by decide : _ &&& (0x1f000000:Word) = _)) (by
      rw [pcreladdrPlan, if_neg hne, if_pos hop])
  exact ⟨Except.ok.inj hp,hret⟩

theorem adr_returns (hi : i < n) (him : i < maxInstructions)
    (hw : mach.mem.read32 (wordAt src.rx i) = w) (hd : decode w = .adr imm rd) :
    adrPlan (loopState tr (src.start mach) i) ⟨i,him⟩ w =
        .ok (loopPlan tr (src.start mach) ⟨i,him⟩) ∧
      fixPcreladdr tr (loopState tr (src.start mach) i) =
        .ok (some (loopState tr (src.start mach) (i+1))) := by
  have hop := opcode_of_adr hd
  exact fixPcreladdr_returns hi him hw
    (and_of_and hop (by decide : _ &&& (0x1f000000:Word) = _)) (by rw [pcreladdrPlan, if_pos hop])

/-- The page of an ADRP at `pc` with its displacement taken modulo four gibibytes. -/
def pageModulo (pc : Addr) (imm : BitVec 21) : Addr :=
  (pc &&& ~~~0xfff)+(imm.setWidth 20++0#12).setWidth 64

theorem adrpTarget_modulo (hd : decode w = .adrp imm rd) (pc : Addr) :
    adrpTarget pc w = pageModulo pc imm := by
  rw [adrpTarget_carry hd, pageModulo, BitVec.add_right_inj]
  have hx := imm.isLt
  have hm := BitVec.msb_eq_decide imm
  have happ : (imm++0#12).toNat = imm.toNat*4096 := by
    rw [BitVec.toNat_append, Nat.shiftLeft_eq]
    simp
  have hlow : (imm.setWidth 20++0#12).toNat = imm.toNat%2^20*4096 := by
    rw [BitVec.toNat_append, Nat.shiftLeft_eq, BitVec.toNat_setWidth]
    simp
  have hmsb : (imm++0#12).msb = imm.msb := by
    rw [BitVec.msb_append]
    simp
  apply BitVec.eq_of_toNat_eq
  rw [BitVec.toNat_add, BitVec.toNat_signExtend, hmsb, BitVec.toNat_setWidth_of_le (by decide),
    happ, BitVec.toNat_setWidth_of_le (by decide), hlow]
  cases hs : imm.msb
  · rw [hs] at hm
    simp at hm ⊢
    omega
  · rw [hs] at hm
    simp at hm ⊢
    omega

theorem computes_adrp_iff (hi : i < n) (hw : mach.mem.read32 (wordAt src.rx i) = w)
    (hd : decode w = .adrp imm rd) {mach' : Machine}
    (hrun : fixInstructions tr mach src.rw src.rx n slot.rw slot.rx = .ok mach') :
    (Computes mach'.mem (src.code mach i) (src.code mach (i+1)) fun c =>
        c.setX rd ((wordAt src.rx i &&& ~~~0xfff)+(imm++0#12).signExtend 64)) ↔
      rd = 31 ∨ if (src.start mach).ctx.isInFixingRange (pageModulo (wordAt src.rx i) imm) = true
        then src.code mach i &&& ~~~0xfff = wordAt src.rx i &&& ~~~0xfff else 0 ≤ imm.toInt := by
  have hc := src.count
  have him : i < maxInstructions := by omega
  obtain ⟨-,h⟩ := @loop_represents tr slot n src mach i hi.le
  have hp := (adrp_returns hi him hw hd).1
  have hforward : (loopPlan tr (src.start mach) ⟨i,him⟩).forward = none := by
    rw [← hp]
    unfold adrpPlan
    dsimp only
    split_ifs <;> rfl
  have hwords := wordsAt_code hi him hforward hrun
  rw [code_succ src mach hi him]
  rw [← hp] at hwords ⊢
  have hcode := adrpPlan_computes hd hwords
  rw [h.inprx, loopState_range hi.le, adrpTarget_modulo hd] at hcode
  apply hcode.setX_iff.trans
  -- either value is the right one for a reason of its own
  have hval : (if (src.start mach).ctx.isInFixingRange (pageModulo (wordAt src.rx i) imm) = true
      then (src.code mach i &&& ~~~0xfff)+(imm++0#12).signExtend 64
      else pageModulo (wordAt src.rx i) imm) =
        (wordAt src.rx i &&& ~~~0xfff)+(imm++0#12).signExtend 64 ↔
      if (src.start mach).ctx.isInFixingRange (pageModulo (wordAt src.rx i) imm) = true
        then src.code mach i &&& ~~~0xfff = wordAt src.rx i &&& ~~~0xfff else 0 ≤ imm.toInt := by
    split_ifs with hr
    · exact BitVec.add_left_inj _
    · have hm := BitVec.msb_eq_toInt (x := imm)
      rw [← adrpTarget_modulo hd, adrpTarget_carry hd, add_carry_eq_iff, hm]
      simp
  rw [← hval]
  simp only [and_self, true_and]
  rfl

/-- A backward displacement leads four gibibytes ahead, outside the range as well. -/
theorem adrTarget_outside (hd : decode w = .adr imm rd) {rx : Addr} (hi : i < n)
    (hn : n ≤ maxInstructions)
    (hout : 4*n ≤ (wordAt rx i+imm.signExtend 64-rx).toNat) :
    4*n ≤ (adrTarget (wordAt rx i) w-rx).toNat := by
  rw [adrTarget_carry hd]
  have hx := imm.isLt
  have hm := BitVec.msb_eq_decide imm
  have hs := @BitVec.toNat_signExtend 21 imm 64
  rw [BitVec.toNat_setWidth_of_le (by decide)] at hs
  unfold maxInstructions at hn
  cases hneg : imm.msb
  · simpa using hout
  · rw [hneg] at hm hs
    simp only [true_eq_decide_iff, ↓reduceIte] at hm hs ⊢
    generalize imm.signExtend 64 = e at hs hout ⊢
    unfold wordAt at hout ⊢
    bv_omega

theorem adrTarget_eq_iff (hd : decode w = .adr imm rd) (pc : Addr) :
    adrTarget pc w = pc+imm.signExtend 64 ↔ 0 ≤ imm.toInt := by
  rw [adrTarget_carry hd, add_carry_eq_iff, BitVec.msb_eq_toInt]
  simp

theorem refLow_adr (hd : decode w = .adr imm rd) :
    refLow .address w = (imm.setWidth 2).setWidth 64 := by
  rw [← (fields_of_adr hd).1, refLow]
  congr 1
  apply BitVec.eq_of_getLsbD_eq
  intro k hk
  simp only [BitVec.getLsbD_setWidth, BitVec.getLsbD_append, hk, ↓reduceIte, decide_true,
    Bool.true_and]

/-- Both ends of the new distance are at words, up to the low bits of the displacement. -/
theorem adrTarget_low (hd : decode w = .adr imm rd) {pc out : Addr} (hpc : pc.toNat%4 = 0)
    (hout : out.toNat%4 = 0) : (adrTarget pc w-out).toNat%4 = imm.toNat%4 := by
  have hs := @BitVec.toNat_signExtend 21 imm 64
  rw [BitVec.toNat_setWidth_of_le (by decide)] at hs
  have he : (imm.signExtend 64).toNat%4 = imm.toNat%4 := by
    rw [hs]
    split_ifs <;> omega
  rw [adrTarget_carry hd]
  generalize imm.signExtend 64 = e at he ⊢
  generalize imm.toNat = k at he ⊢
  have hcarry : (if imm.msb then 0x100000000#64 else 0#64).toNat%4 = 0 := by
    split_ifs <;> rfl
  generalize (if imm.msb then 0x100000000#64 else 0#64) = z at hcarry ⊢
  bv_omega

section Forms
variable {s : FixState} {idx : Fin maxInstructions} {t : Addr} {m : Mem} {p : Plan}
  (hd : decode w = .adr imm rd) (hp : adrPlan s idx w = .ok p)
  (hr : ¬s.ctx.isInFixingRange (adrTarget s.inprx w) = true) (hw : WordsAt m s.outprx p.words)
include hd hp hr hw

/-- Out of reach the address is loaded, from behind at most one NOP. -/
theorem adrPlan_far
    (hreach : (0xfffff:BitVec 64).sle (llabs (adrTarget s.inprx w-s.outprx)) = true) :
    Computes m s.outprx (wordAt s.outprx p.words.length) fun c =>
      c.setX rd (adrTarget s.inprx w) := by
  simp only [adrPlan, pure, Except.pure] at hp
  rw [if_neg hr, if_pos hreach, Except.ok.injEq] at hp
  generalize hpad : (if wordAt s.outprx 2 &&& 7 = 0 then 0 else 1) = pad at hp
  have hpad1 : pad ≤ 1 := by
    rw [← hpad]
    split_ifs <;> decide
  subst hp
  have hload := computes_addressLoad hpad1 hw
  have hlen : (nops pad++addressLoad (w &&& 0x1f) (adrTarget s.inprx w)).length = pad+4 := by
    rw [List.length_append, nops_length]
    rfl
  dsimp only
  rw [hlen, ← (fields_of_adr hd).2]
  exact hload

/-- Within reach it is computed from the new distance. -/
theorem adrPlan_near (hreach : ¬(0xfffff:BitVec 64).sle
      (llabs (adrTarget s.inprx w-s.outprx)) = true)
    (hin : s.inprx.toNat%4 = 0) (hout : s.outprx.toNat%4 = 0) :
    ∃ v, Computes m s.outprx (wordAt s.outprx p.words.length)
        (fun c => c.setX (rd ||| (imm.setWidth 2++0#3)) v) ∧
      (v = adrTarget s.inprx w ↔ adrTarget s.inprx w-s.outprx ≠ BitVec.intMin 64) ∧
      (v = adrTarget s.inprx w ∨ v-s.outprx = refLow .address w) := by
  simp only [adrPlan, pure, Except.pure] at hp
  rw [if_neg hr, if_neg hreach, Except.ok.injEq] at hp
  subst hp
  have hdist := adrTarget_low hd hin hout
  have hlow : (adrTarget s.inprx w-s.outprx).toNat%4 = (refLow .address w).toNat := by
    rw [hdist, refLow_adr hd, BitVec.toNat_setWidth_of_le (by decide), BitVec.toNat_setWidth]
  -- both addresses are multiples of 4, so the low bits are those of the old distance
  have hset : (adrTarget s.inprx w-s.outprx).setWidth 2 = imm.setWidth 2 := by
    apply BitVec.eq_of_toNat_eq
    rw [BitVec.toNat_setWidth, BitVec.toNat_setWidth]
    exact hdist
  have hword := adrWord_computes hd (wordsAt_cons.mp hw).1
  have hnear := adr_near_eq_iff hreach hlow
  rw [hset] at hword
  refine ⟨_,hword,?_,?_⟩
  · rw [← hnear]
    generalize adrTarget s.inprx w = t
    generalize wordOffset (((t-s.outprx).sshiftRight 2).setWidth 19)+refLow .address w = x
    constructor <;> intro h <;> bv_omega
  · by_cases hmin : adrTarget s.inprx w-s.outprx = BitVec.intMin 64
    · have h0 : wordOffset (((BitVec.intMin 64).sshiftRight 2).setWidth 19) = 0#64 := by decide
      rw [hmin, h0]
      refine Or.inr ?_
      generalize refLow .address w = x
      bv_omega
    · rw [hnear.mpr hmin]
      refine Or.inl ?_
      bv_omega

end Forms

/-- A target that is four gibibytes off is out of reach of an ADR near the right one. -/
theorem far_of_carry {a b d x low : Addr} (hlow : low.toNat < 4) (hv : a+d-b = low)
    (ht : x = a+(d+0x100000000#64)) : (0xfffff:BitVec 64).sle (llabs (x-b)) = true := by
  have hx : x-b = low+0x100000000#64 := by bv_omega
  have hpos : (x-b).toInt = low.toNat+0x100000000 := by
    have h := BitVec.toInt_eq_toNat_cond (x-b)
    rw [hx] at h ⊢
    split_ifs at h <;> bv_omega
  by_contra hnear
  obtain ⟨-,hlt⟩ := toInt_of_near hnear (by decide) (by rw [hpos]; omega)
  rw [hpos] at hlt
  have hb : (0xfffff:Addr).toNat = 0xfffff := rfl
  omega

/-- A value near the code is not the address of a backward ADR: if it is not the target that the
handler computes, the target is too far away. -/
theorem nonneg_of_near_value {s : FixState} {w : Word} {imm : BitVec 21} {rd : BitVec 5} {v : Addr}
    (hd : decode w = .adr imm rd)
    (hreach : ¬(0xfffff:BitVec 64).sle (llabs (adrTarget s.inprx w-s.outprx)) = true)
    (hlow : v = adrTarget s.inprx w ∨ v-s.outprx = refLow .address w)
    (hv : v = s.inprx+imm.signExtend 64) : 0 ≤ imm.toInt := by
  subst hv
  rcases hlow with hlow | hlow
  · exact (adrTarget_eq_iff hd s.inprx).mp hlow.symm
  · by_contra hneg
    have hm : imm.msb = true := by
      rw [BitVec.msb_eq_toInt]
      simpa using hneg
    have ht := @adrTarget_carry s.inprx w imm rd hd
    rw [hm, if_pos rfl] at ht
    exact hreach (far_of_carry (refLow_lt .address w) hlow ht)

/-- The three ways in which a relocated ADR can end up right: nothing to compute, the load of
the address, and a new word whose low distance bits are in the register number already. -/
theorem computes_adr_iff (hi : i < n) (hw : mach.mem.read32 (wordAt src.rx i) = w)
    (hd : decode w = .adr imm rd)
    (hout : 4*n ≤ (wordAt src.rx i+imm.signExtend 64-src.rx).toNat) {mach' : Machine}
    (hrun : fixInstructions tr mach src.rw src.rx n slot.rw slot.rx = .ok mach') :
    (Computes mach'.mem (src.code mach i) (src.code mach (i+1)) fun c =>
        c.setX rd (wordAt src.rx i+imm.signExtend 64)) ↔
      rd = 31 ∨ 0 ≤ imm.toInt ∧
        ((0xfffff:BitVec 64).sle
            (llabs (wordAt src.rx i+imm.signExtend 64-src.code mach i)) = true ∨
          wordAt src.rx i+imm.signExtend 64-src.code mach i ≠ BitVec.intMin 64 ∧
            rd ||| (imm.setWidth 2++0#3) = rd) := by
  have hc := src.count
  have him : i < maxInstructions := by omega
  obtain ⟨-,h⟩ := @loop_represents tr slot n src mach i hi.le
  have hp := (adr_returns hi him hw hd).1
  have hfar := @adrTarget_outside n i w imm rd hd src.rx hi hc hout
  have hr : ¬(loopState tr (src.start mach) i).ctx.isInFixingRange
      (adrTarget (loopState tr (src.start mach) i).inprx w) = true := by
    intro hr
    have hlt := h.range hr
    rw [h.inprx] at hlt
    omega
  -- the target is outside the range, so nothing has to be filled in later
  have hforward : (loopPlan tr (src.start mach) ⟨i,him⟩).forward = none := by
    have hp' := hp
    simp only [adrPlan, pure, Except.pure] at hp'
    rw [if_neg hr] at hp'
    split_ifs at hp' <;> rw [← Except.ok.inj hp']
  have hwords := wordsAt_code hi him hforward hrun
  have hsign := adrTarget_eq_iff hd (wordAt src.rx i)
  rw [code_succ src mach hi him]
  rw [← h.inprx] at hsign ⊢
  change (Computes mach'.mem (loopState tr (src.start mach) i).outprx _ _) ↔ _
  have hcode : src.code mach i = (loopState tr (src.start mach) i).outprx := rfl
  rw [hcode] at hwords ⊢
  -- from here on the state matters only by its cursors and its range
  have hin4 : (loopState tr (src.start mach) i).inprx.toNat%4 = 0 := by
    rw [h.inprx]
    exact wordAt_aligned src.aligned i
  have hout4 := h.outprx_aligned
  generalize loopState tr (src.start mach) i = s at hp hr hwords hsign hin4 hout4 ⊢
  by_cases hreach : (0xfffff:BitVec 64).sle (llabs (adrTarget s.inprx w-s.outprx)) = true
  · -- the target the handler computes is far: it is loaded, so it has to be the right one
    apply (adrPlan_far hd hp hr hwords hreach).setX_iff.trans
    simp only [and_self, true_and, hsign]
    constructor
    · rintro (h31 | h0)
      · exact Or.inl h31
      · exact Or.inr ⟨h0,Or.inl (by rwa [hsign.mpr h0] at hreach)⟩
    · rintro (h31 | h0)
      · exact Or.inl h31
      · exact Or.inr h0.1
  · -- near: the new word computes it, into a register that may be another
    obtain ⟨v,hv,hmin,hlow⟩ := adrPlan_near hd hp hr hwords hreach hin4 hout4
    apply hv.setX_iff.trans
    constructor
    · rintro (⟨-,h31⟩ | ⟨hrd,rfl⟩)
      · exact Or.inl h31
      · have h0 := nonneg_of_near_value hd hreach hlow rfl
        rw [hsign.mpr h0] at hmin
        exact Or.inr ⟨h0,Or.inr ⟨hmin.mp rfl,hrd⟩⟩
    · rintro (h31 | ⟨h0,hcond⟩)
      · subst h31
        exact Or.inl ⟨BitVec.allOnes_or,rfl⟩
      · rw [hsign.mpr h0] at hreach hmin
        obtain ⟨hne,hrd⟩ := hcond.resolve_left hreach
        exact Or.inr ⟨hrd,hmin.mpr hne⟩

end Final

/-- A relocated ADRP leaves the right page, and nothing else, exactly when it has no register to
leave it in, or the page is not taken to be in the range and its displacement is not negative,
or it is and the copy stands in the page of the original. -/
theorem adrp_keeps_page_iff {tr : Addr → Addr} {slot : Slot tr} {n i : ℕ} (src : Source tr n slot)
    (mach : Machine) (hi : i < n) {imm : BitVec 21} {rd : BitVec 5}
    (hd : decode (mach.mem.read32 (wordAt src.rx i)) = .adrp imm rd) :
    ∃ mach', fixInstructions tr mach src.rw src.rx n slot.rw slot.rx = .ok mach' ∧
      (∀ k ≤ n, fixLoop tr k (src.start mach) = .ok (loopState tr (src.start mach) k)) ∧
      fixPcreladdr tr (loopState tr (src.start mach) i) =
        .ok (some (loopState tr (src.start mach) (i+1))) ∧
      ((Computes mach'.mem (src.code mach i) (src.code mach (i+1)) fun c =>
          c.setX rd ((wordAt src.rx i &&& ~~~0xfff)+(imm++0#12).signExtend 64)) ↔
        rd = 31 ∨ if (src.start mach).ctx.isInFixingRange (pageModulo (wordAt src.rx i) imm) = true
          then src.code mach i &&& ~~~0xfff = wordAt src.rx i &&& ~~~0xfff
          else 0 ≤ imm.toInt) := by
  obtain ⟨mach',hrun,-⟩ := fixInstructions_overlay src mach
  have hc := src.count
  have hret := (adrp_returns hi (by omega) rfl hd).2
  exact ⟨mach',hrun,fun k hk => (loop_represents mach hk).1,hret,computes_adrp_iff hi rfl hd hrun⟩

/-- `ADRP X0, #0x5000` keeps its page. -/
theorem adrp_keeps_page_forward :
    ∃ mach', fixInstructions nearViews (twoWords 0xb0000020 0xd503201f) 0x01001000 0x1000 2
        0x01020000 0x20000 = .ok mach' ∧
      Computes mach'.mem (nearViewsSource.code (twoWords 0xb0000020 0xd503201f) 0)
        (nearViewsSource.code (twoWords 0xb0000020 0xd503201f) 1) fun c => c.setX 0 0x6000 := by
  obtain ⟨h0,-⟩ := twoWords_read 0xb0000020 0xd503201f
  obtain ⟨mach',hrun,-,-,hiff⟩ := @adrp_keeps_page_iff nearViews nearViewsSlot 2 0 nearViewsSource
    (twoWords 0xb0000020 0xd503201f) (by decide) 5 0 ((congrArg decode h0).trans (by decide))
  exact ⟨mach',hrun,hiff.mpr (Or.inr (by decide))⟩

/-- `ADRP X0, #-0x1000` leads four gibibytes past its page. -/
theorem adrp_backward_lost :
    ∃ mach', fixInstructions nearViews (twoWords 0xf0ffffe0 0xd503201f) 0x01001000 0x1000 2
        0x01020000 0x20000 = .ok mach' ∧ decode 0xf0ffffe0 = .adrp (-1) 0 ∧
      ¬Computes mach'.mem (nearViewsSource.code (twoWords 0xf0ffffe0 0xd503201f) 0)
        (nearViewsSource.code (twoWords 0xf0ffffe0 0xd503201f) 1) fun c =>
          c.setX 0 (0x1000-0x1000) := by
  obtain ⟨h0,-⟩ := twoWords_read 0xf0ffffe0 0xd503201f
  obtain ⟨mach',hrun,-⟩ := fixInstructions_overlay nearViewsSource (twoWords 0xf0ffffe0 0xd503201f)
  refine ⟨mach',hrun,by decide,?_⟩
  intro hcomp
  have hiff := @computes_adrp_iff nearViews nearViewsSlot 2 0 nearViewsSource
    (twoWords 0xf0ffffe0 0xd503201f) _ (-1) 0 (by decide) h0 (by decide) mach' hrun
  rcases hiff.mp hcomp with h31 | hcond
  · exact absurd h31 (by decide)
  · exact absurd hcond (by decide)

/-- A relocated ADR with a target outside the range leaves that target in its register, and
nothing else, exactly when it has no register to leave it in, or its displacement is not
negative and either the target is loaded or the register number absorbs the low bits of the
displacement. -/
theorem adr_keeps_address_iff {tr : Addr → Addr} {slot : Slot tr} {n i : ℕ}
    (src : Source tr n slot) (mach : Machine) (hi : i < n) {imm : BitVec 21} {rd : BitVec 5}
    (hd : decode (mach.mem.read32 (wordAt src.rx i)) = .adr imm rd)
    (hout : 4*n ≤ (wordAt src.rx i+imm.signExtend 64-src.rx).toNat) :
    ∃ mach', fixInstructions tr mach src.rw src.rx n slot.rw slot.rx = .ok mach' ∧
      (∀ k ≤ n, fixLoop tr k (src.start mach) = .ok (loopState tr (src.start mach) k)) ∧
      fixPcreladdr tr (loopState tr (src.start mach) i) =
        .ok (some (loopState tr (src.start mach) (i+1))) ∧
      ((Computes mach'.mem (src.code mach i) (src.code mach (i+1)) fun c =>
          c.setX rd (wordAt src.rx i+imm.signExtend 64)) ↔
        rd = 31 ∨ 0 ≤ imm.toInt ∧
          ((0xfffff:BitVec 64).sle
              (llabs (wordAt src.rx i+imm.signExtend 64-src.code mach i)) = true ∨
            wordAt src.rx i+imm.signExtend 64-src.code mach i ≠ BitVec.intMin 64 ∧
              rd ||| (imm.setWidth 2++0#3) = rd)) := by
  obtain ⟨mach',hrun,-⟩ := fixInstructions_overlay src mach
  have hc := src.count
  have hret := (adr_returns hi (by omega) rfl hd).2
  exact ⟨mach',hrun,fun k hk => (loop_represents mach hk).1,hret,
    computes_adr_iff hi rfl hd hout hrun⟩

/-- `ADR X8, #0x101` keeps its address: its low bits set only the bit that makes eight. -/
theorem adr_keeps_address_absorbed :
    ∃ mach', fixInstructions nearViews (twoWords 0x30000808 0xd503201f) 0x01001000 0x1000 2
        0x01020000 0x20000 = .ok mach' ∧
      Computes mach'.mem (nearViewsSource.code (twoWords 0x30000808 0xd503201f) 0)
        (nearViewsSource.code (twoWords 0x30000808 0xd503201f) 1) fun c => c.setX 8 0x1101 := by
  obtain ⟨h0,-⟩ := twoWords_read 0x30000808 0xd503201f
  obtain ⟨mach',hrun,-,-,hiff⟩ := @adr_keeps_address_iff nearViews nearViewsSlot 2 0
    nearViewsSource (twoWords 0x30000808 0xd503201f) (by decide) 0x101 8
    ((congrArg decode h0).trans (by decide)) (by decide)
  have hcode : nearViewsSource.code (twoWords 0x30000808 0xd503201f) 0 = 0x20000 := rfl
  rw [hcode] at hiff
  exact ⟨mach',hrun,hiff.mpr (Or.inr ⟨by decide,Or.inr ⟨by decide,by decide⟩⟩)⟩

/-- `ADR X0, #0x101` writes X8. -/
theorem adr_register_lost :
    ∃ mach', fixInstructions nearViews (twoWords 0x30000800 0xd503201f) 0x01001000 0x1000 2
        0x01020000 0x20000 = .ok mach' ∧ decode 0x30000800 = .adr 0x101 0 ∧
      ¬Computes mach'.mem (nearViewsSource.code (twoWords 0x30000800 0xd503201f) 0)
        (nearViewsSource.code (twoWords 0x30000800 0xd503201f) 1) fun c => c.setX 0 0x1101 := by
  obtain ⟨h0,-⟩ := twoWords_read 0x30000800 0xd503201f
  obtain ⟨mach',hrun,-⟩ := fixInstructions_overlay nearViewsSource (twoWords 0x30000800 0xd503201f)
  refine ⟨mach',hrun,by decide,?_⟩
  intro hcomp
  have hiff := @computes_adr_iff nearViews nearViewsSlot 2 0 nearViewsSource
    (twoWords 0x30000800 0xd503201f) _ 0x101 0 (by decide) h0 (by decide) (by decide) mach' hrun
  have hcode : nearViewsSource.code (twoWords 0x30000800 0xd503201f) 0 = 0x20000 := rfl
  rw [hcode] at hiff
  rcases hiff.mp hcomp with h31 | ⟨-,hfar | ⟨-,hrd⟩⟩
  · exact absurd h31 (by decide)
  · exact absurd hfar (by decide)
  · exact absurd hrd (by decide)

end Zeldar
