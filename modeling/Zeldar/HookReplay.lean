import Zeldar.HookReferences

namespace Zeldar
open A64

/-- From `a` every core with memory `m` reaches `b`, with `v` in X17 and nothing else changed. -/
def Loads17 (m : Mem) (a b : Addr) (v : BitVec 64) : Prop :=
  ∀ c : Cpu, c.mem = m → c.pc = a → Reaches c { c with pc := b, x := Function.update c.x 17 v }

section Loads
variable {m : Mem} {a b t v : Addr}

theorem loads17_nops (n : ℕ) (hw : WordsAt m a (nops n)) (h : Loads17 m (wordAt a n) b v) :
    Loads17 m a b v := by
  rintro c rfl rfl
  exact (reaches_nops n hw).trans (h { c with pc := wordAt c.pc n } rfl rfl)

theorem loads17_ldr {imm : BitVec 19} (hd : decode (m.read32 a) = .ldrLit .x imm 17)
    (hv : m.read64 (a+wordOffset imm) = v) : Loads17 m a (wordAt a 1) v := by
  rintro c rfl rfl
  rw [← hv]
  exact Reaches.single (step_ldr17 hd)

theorem Loads17.branch (h : Loads17 m a b v) (hw : m.read32 b = branchWord 0x14000000 (t-b))
    (ho : wordOffset (((t-b).sshiftRight 2).setWidth 26) = t-b) : Loads17 m a t v := by
  rintro c rfl rfl
  exact (h c rfl rfl).trans
    (@reaches_branch { c with pc := b, x := Function.update c.x 17 v } t hw ho)

theorem Loads17.br (h : Loads17 m a b v) (hw : m.read32 b = 0xd61f0220) : Transfers m a v := by
  rintro c rfl rfl
  refine ⟨v,(h c rfl rfl).trans (Reaches.single ?_)⟩
  have hbr := @step_br17 { c with pc := b, x := Function.update c.x 17 v } hw
  dsimp only at hbr
  rwa [Function.update_self] at hbr

end Loads

/-- A word without an operand relative to its own address. -/
def Plain (w : Word) : Prop :=
  ¬(w &&& 0xfc000000 = 0x14000000 ∨ w &&& 0xfc000000 = 0x94000000) ∧ condLmask w = none ∧
    ¬w &&& 0xff000000 = 0xd8000000 ∧ litMask w = none ∧ ¬w &&& 0x9f000000 = 0x10000000 ∧
    ¬w &&& 0x9f000000 = 0x90000000

instance (w : Word) : Decidable (Plain w) :=
  inferInstanceAs (Decidable (_ ∧ _ ∧ _ ∧ _ ∧ _ ∧ _))

section Plans
variable {tr : Addr → Addr} {s : FixState} {idx : Fin maxInstructions} {w : Word}

theorem stepPlan_plain (hw : s.m.load32 tr s.inprw = w) (h : Plain w) :
    stepPlan tr s idx = .ok ⟨[w],s.outprx,none⟩ := by
  obtain ⟨h1,h2,h3,h4,h5,h6⟩ := h
  subst hw
  unfold stepPlan instructionPlan
  simp only [h1, h2, ↓reduceIte, loadlitPlan, h3, h4, Option.map_none, pcreladdrPlan, h5, h6,
    Option.none_or]

theorem stepPlan_ldr17 (hw : s.m.load32 tr s.inprw = 0x58000051) :
    stepPlan tr s idx = litPlan tr s 0xbf000000 7 0x58000051 := by
  have h1 : ¬((0x58000051:Word) &&& 0xfc000000 = 0x14000000 ∨
      (0x58000051:Word) &&& 0xfc000000 = 0x94000000) := by decide
  have h2 : condLmask 0x58000051 = none := by decide
  have h3 : ¬(0x58000051:Word) &&& 0xff000000 = 0xd8000000 := by decide
  have h4 : litMask 0x58000051 = some (0xbf000000,7) := by decide
  unfold stepPlan instructionPlan loadlitPlan
  simp only [hw, h1, h2, h3, h4, ↓reduceIte, Option.map_some, Option.some_or]

/-- A branch to a target outside the range branches, or jumps, to the same target. -/
theorem branchPlan_transfers (hr : ¬s.ctx.isInFixingRange (branchTarget s.inprx w) = true)
    (hd : (branchTarget s.inprx w-s.outprx).toNat%4 = 0) {p : Plan}
    (hp : branchPlan s idx 0x14000000 w = .ok p) :
    p.forward = none ∧ ∀ m, WordsAt m s.outprx p.words →
      Transfers m s.outprx (branchTarget s.inprx w) := by
  simp only [branchPlan, pure, Except.pure] at hp
  rw [if_neg hr] at hp
  simp only [↓reduceIte] at hp
  generalize branchTarget s.inprx w = t at hp hd
  by_cases hfar : (0x1ffffff:BitVec 64).sle (llabs ((t-s.outprx).sshiftRight 2)) = true
  · rw [if_pos hfar] at hp
    cases hp
    refine ⟨rfl,fun m hm => ?_⟩
    obtain ⟨hn,hj⟩ := wordsAt_append.mp hm
    rw [nops_length] at hj
    exact transfers_nops _ hn (transfers_absoluteJump hj)
  · rw [if_neg hfar] at hp
    cases hp
    refine ⟨rfl,fun m hm => ?_⟩
    have ho := @near_offset 0 .branch (t-s.outprx) _ hfar (by decide) hd
    have h0 : refLow .branch (0:Word) = 0#64 := rfl
    rw [h0, BitVec.add_zero] at ho
    exact transfers_branch (wordsAt_cons.mp hm).1 ho

theorem padCount_le {more : Addr → Bool} {n pad : ℕ} {a : Addr} (h : padCount more n a = .ok pad) :
    pad ≤ n := by
  induction n generalizing a pad with
  | zero =>
    unfold padCount at h
    split_ifs at h
    cases h
    exact le_rfl
  | succ n ih =>
    unfold padCount at h
    split_ifs at h
    · cases hc : padCount more n (wordAt a 1) with
      | error e => simp [hc, Except.map] at h
      | ok k =>
        simp only [hc, Except.map, Except.ok.injEq] at h
        have hk := ih hc
        omega
    · cases h
      exact Nat.zero_le _

/-- The load of X17 with its offset rewritten: bit 30 is in the opcode already. -/
theorem litWord_ldr17 (d : Addr) : litWord 0xbf000000 0x58000051 d =
    (0x58000011:Word) ||| ((d.sshiftRight 2).setWidth 32 <<< 5 &&& fieldMask 5 19) := by
  have hm : ~~~(0xbf000000:Word) = fieldMask 0 24 ||| fieldMask 30 1 := by decide
  have ho : (0x58000051:Word) &&& 0xff00001f = 0x58000011 := by decide
  have h30 : (0x58000011:Word).getLsbD 30 = true := by decide
  simp only [litWord, hm, ho]
  generalize (0x58000011:Word) = opc at h30 ⊢
  apply BitVec.eq_of_getLsbD_eq
  intro i hi
  simp only [BitVec.getLsbD_or, BitVec.getLsbD_and, BitVec.getLsbD_setWidth,
    BitVec.getLsbD_shiftLeft, getLsbD_fieldMask, hi, decide_true, Bool.true_and]
  by_cases h5 : i < 5
  · simp only [h5, show ¬5 ≤ i by omega, show ¬30 ≤ i by omega, decide_true, decide_false,
      Bool.not_true, Bool.and_false, Bool.false_and, Bool.false_or, Bool.or_false]
  by_cases h24 : i < 24
  · simp only [h5, h24, show 5 ≤ i by omega, show i < 64 by omega, show i-5 < 32 by omega,
      Nat.zero_le, decide_true, decide_false, Bool.not_false, Bool.and_true, Bool.true_and,
      Bool.true_or]
    exact Bool.or_comm _ _
  by_cases he : i = 30
  · subst he
    simp only [h30, Bool.or_true, Bool.true_or]
  · have hn : (decide (30 ≤ i) && decide (i < 30+1)) = false := by
      simp only [Bool.and_eq_false_iff, decide_eq_false_iff_not]
      omega
    simp only [hn, show ¬i < 0+24 by omega, decide_false, Bool.and_false, Bool.or_false,
      Bool.false_or]

theorem decode_ldr17 (d : Addr) : decode (litWord 0xbf000000 0x58000051 d) =
    .ldrLit .x ((d.sshiftRight 2).setWidth 19) 17 := by
  rw [litWord_ldr17]
  have hz : (0x58000011:Word) &&& fieldMask 5 19 = 0 := by decide
  have himm := extract_merge ((d.sshiftRight 2).setWidth 32) 0x58000011 (by decide) hz
  have hkeep := merge_keep ((d.sshiftRight 2).setWidth 32 <<< 5) 0x58000011 5 19
  rw [BitVec.setWidth_setWidth_of_le _ (by decide)] at himm
  generalize (0x58000011:Word) ||| _ = w at himm hkeep
  have hk (m : Word) (hm : ~~~fieldMask 5 19 &&& m = m) : w &&& m = 0x58000011 &&& m :=
    and_of_keep hkeep hm
  have hv : w.getLsbD 26 = false := by
    have h := congrArg (fun x => x.getLsbD 26) (hk 0x04000000 (by decide))
    simpa using h
  have hrt : w.extractLsb' 0 5 = 17 := by
    have h := congrArg (fun x => x.extractLsb' 0 5) (hk 0x1f (by decide))
    simp only [BitVec.extractLsb'_and] at h
    exact (BitVec.and_allOnes).symm.trans h
  have hopc : w.extractLsb' 30 2 = 1 := by
    have h := congrArg (fun x => x.extractLsb' 30 2) (hk 0xc0000000 (by decide))
    simp only [BitVec.extractLsb'_and] at h
    exact (BitVec.and_allOnes).symm.trans h
  simp only [decode, decodeRelative, hk 0xfc000000 (by decide), hk 0xff000010 (by decide),
    hk 0x7e000000 (by decide), hk 0x3b000000 (by decide), hv, hrt, hopc, himm, litKind]
  rfl

/-- The load with its literal copied behind it, and a branch over the copy. -/
theorem loads17_copy {m : Mem} {a v : Addr}
    (hw : WordsAt m a [0x58000051,0x14000003,v.extractLsb' 0 32,v.extractLsb' 32 32]) :
    Loads17 m a (wordAt a 4) v := by
  obtain ⟨h0,hw⟩ := wordsAt_cons.mp hw
  obtain ⟨h1,hw⟩ := wordsAt_cons.mp hw
  rw [wordAt_add] at hw
  have hd : wordAt a 4-wordAt a 1 = 12 := by
    rw [wordAt_sub]
    decide
  have hldr := @loads17_ldr m a v 2 (by rw [h0]; decide) (read64_literal hw)
  apply hldr.branch
  · rw [hd, h1]
    decide
  · rw [hd]
    decide

/-- A distance that is near enough to reload it from its place leaves room for the padding. -/
theorem wordOffset_literal {d : Addr} (hd : d.toNat%4 = 0) {pad : ℕ} (hpad : pad ≤ 3)
    (hn : ¬(0x3ffff:BitVec 64).ule (llabs (d.sshiftRight 2)+(7+1-4)/4) = true) :
    wordOffset (((d-BitVec.ofNat 64 (4*pad)).sshiftRight 2).setWidth 19) =
      d-BitVec.ofNat 64 (4*pad) := by
  have h1 : ((7+1-4)/4:BitVec 64) = 1 := by decide
  rw [h1] at hn
  have hs := toInt_sshiftRight_two d
  have hl : (llabs (d.sshiftRight 2)).toNat < 0x3fffe := by
    have hlt := BitVec.le_toInt d
    have hlt' := BitVec.toInt_lt (x := d)
    have hsmall := (llabs_lt_iff (d.sshiftRight 2) (2^62)).mpr (by
      rw [hs]
      norm_num at hlt hlt' ⊢
      omega)
    simp only [BitVec.ule, decide_eq_true_eq, not_le] at hn
    generalize llabs (d.sshiftRight 2) = q at hn hsmall
    bv_omega
  obtain ⟨hlo,hhi⟩ := (llabs_lt_iff _ _).mp hl
  rw [hs] at hlo hhi
  have hi : (d-BitVec.ofNat 64 (4*pad)).toInt = d.toInt-4*pad := by
    have hc := BitVec.toInt_eq_toNat_cond d
    have hc' := BitVec.toInt_eq_toNat_cond (d-BitVec.ofNat 64 (4*pad))
    have hn : (d-BitVec.ofNat 64 (4*pad)).toNat = (d.toNat+2^64-4*pad)%2^64 := by bv_omega
    rw [hn] at hc'
    split_ifs at hc hc' <;> omega
  exact displacement_of_range _ (by decide) (by decide) (by bv_omega) (by rw [hi]; omega)
    (by rw [hi]; omega)

/-- A literal that is near enough, and not relocated itself, is loaded from where it is. -/
theorem litPlan_reloads17 (hin : s.inprx.toNat%4 = 0) (hout : s.outprx.toNat%4 = 0)
    (hfar : ¬(s.ctx.isInFixingRange (wordAt s.inprx 2) = true ∨ (0x3ffff:BitVec 64).ule
      (llabs ((wordAt s.inprx 2-s.outprx).sshiftRight 2)+(7+1-4)/4) = true)) {p : Plan}
    (hp : litPlan tr s 0xbf000000 7 0x58000051 = .ok p) :
    p.forward = none ∧ ∀ m, WordsAt m s.outprx p.words →
      Loads17 m s.outprx (wordAt s.outprx p.words.length) (m.read64 (wordAt s.inprx 2)) := by
  have ht : litTarget s.inprx 0x58000051 = wordAt s.inprx 2 := rfl
  simp only [litPlan, ht, bind, Except.bind, pure, Except.pure] at hp
  rw [if_neg hfar] at hp
  generalize hc : padCount _ 3 s.outprx = r at hp
  cases r with
  | error e => cases hp
  | ok pad =>
    cases hp
    have hpad := padCount_le hc
    refine ⟨rfl,fun m hm => ?_⟩
    obtain ⟨hn,hw⟩ := wordsAt_append.mp hm
    rw [nops_length] at hw
    have hd : wordAt s.inprx 2-wordAt s.outprx pad =
        wordAt s.inprx 2-s.outprx-BitVec.ofNat 64 (4*pad) := by
      unfold wordAt
      ring
    have ho := @wordOffset_literal (wordAt s.inprx 2-s.outprx) (by unfold wordAt; bv_omega)
      pad hpad (fun h => hfar (Or.inr h))
    rw [← hd] at ho
    have hl := @loads17_ldr m (wordAt s.outprx pad) (m.read64 (wordAt s.inprx 2)) _
      (by rw [(wordsAt_cons.mp hw).1]; exact decode_ldr17 _) (by
        rw [ho]
        congr 1
        ring)
    have hl' := loads17_nops _ hn hl
    rw [wordAt_add] at hl'
    simpa [nops] using hl'

/-- The load of X17 from a literal at `+8` is replayed: the literal is copied along, or the load
goes back for it. -/
theorem litPlan_loads17 {v : Addr} (hin : s.inprx.toNat%4 = 0) (hout : s.outprx.toNat%4 = 0)
    (hcopy : ∀ head : List Word, head.length ≤ 5 → ∀ i < 2, (s.emitWords tr head).m.load32 tr
      (wordAt (wordAt s.inprx 2) i) = v.extractLsb' (32*i) 32) {p : Plan}
    (hp : litPlan tr s 0xbf000000 7 0x58000051 = .ok p) :
    p.forward = none ∧ ∀ m, WordsAt m s.outprx p.words →
      (¬s.ctx.isInFixingRange (wordAt s.inprx 2) = true → m.read64 (wordAt s.inprx 2) = v) →
      Loads17 m s.outprx (wordAt s.outprx p.words.length) v := by
  by_cases hfar : s.ctx.isInFixingRange (wordAt s.inprx 2) = true ∨ (0x3ffff:BitVec 64).ule
      (llabs ((wordAt s.inprx 2-s.outprx).sshiftRight 2)+(7+1-4)/4) = true
  · -- the literal is copied behind the load and the branch over it
    have ht : litTarget s.inprx 0x58000051 = wordAt s.inprx 2 := rfl
    have hns : ((7:BitVec 64).toNat+1)/4 = 2 := by decide
    have hhead : ((0x40:Word) &&& ~~~0xbf000000) ||| (0x58000051 &&& 0xff00001f) =
        0x58000051 := by decide
    have hb : (0x14000001:Word)+BitVec.ofNat 32 2 = 0x14000003 := by decide
    simp only [litPlan, ht, hns, hhead, hb, bind, Except.bind, pure, Except.pure] at hp
    rw [if_pos hfar] at hp
    generalize hc : padCount _ 3 s.outprx = r at hp
    cases r with
    | error e => cases hp
    | ok pad =>
      cases hp
      have hpad := padCount_le hc
      refine ⟨rfl,fun m hm _ => ?_⟩
      -- the copied words are read after the head has been stored
      have hlit (i : ℕ) (hi : i < 2) := hcopy (nops pad++[0x58000051,0x14000003])
        (by simp only [nops, List.length_append, List.length_replicate, List.length_cons,
          List.length_nil]; omega) i hi
      have hr : List.range 2 = [0,1] := rfl
      simp only [hr, List.map_cons, List.map_nil, List.append_assoc, List.cons_append,
        List.nil_append] at hm hlit ⊢
      rw [hlit 0 (by decide), hlit 1 (by decide)] at hm ⊢
      obtain ⟨hn,hc⟩ := wordsAt_append.mp hm
      rw [nops_length] at hc
      have hl := loads17_nops _ hn (loads17_copy hc)
      rw [wordAt_add] at hl
      simpa [nops] using hl
  · obtain ⟨hf,hl⟩ := litPlan_reloads17 hin hout hfar hp
    refine ⟨hf,fun m hm hv => ?_⟩
    rw [← hv fun h => hfar (Or.inl h)]
    exact hl m hm

end Plans

end Zeldar
