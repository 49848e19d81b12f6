import Zeldar.A64Code
import Zeldar.HookReferences

namespace Zeldar
open A64

/-- The condition of a conditional branch, on the flags, a register or one of its bits. -/
def taken (i : Instr) (c : Cpu) : Bool :=
  match i with
  | .bcond cond _ => c.flags.holds cond
  | .cbz sf nz _ rt => (if sf then c.getX rt == 0 else (c.getX rt).setWidth 32 == 0#32) != nz
  | .tbz nz bit _ rt => (c.getX rt).getLsbD bit.toNat == nz
  | _ => false

/-- CBNZ and TBNZ of the zero register. -/
def NeverTaken (i : Instr) : Prop :=
  match i with
  | .cbz _ nz _ rt => nz = true ∧ rt = 31
  | .tbz nz _ _ rt => nz = true ∧ rt = 31
  | _ => False

/-- The code from `code` to `stop` does what the conditional branch `i` with target `t` does
that is followed by what stands at `stop`. -/
structure KeepsOutcomes (i : Instr) (m : Mem) (code stop t : Addr) : Prop where
  jumps : ∀ c : Cpu, c.mem = m → c.pc = code → taken i c = true → LeavesFor code stop t c
  falls : ∀ c : Cpu, c.mem = m → c.pc = code → taken i c = false → LeavesFor code stop stop c

section Conditional
variable {i : Instr} {κ : RefKind} {d : Addr} (hκ : κ = .cond ∨ κ = .test)
  (href : reference i = some (κ,d))
include hκ href

theorem exec_conditional (c : Cpu) :
    exec i c = some (if taken i c then c.goto (c.pc+d) else c.next) := by
  cases i with
  | bcond cond imm =>
    cases href
    rfl
  | cbz sf nz imm rt =>
    cases href
    rfl
  | tbz nz bit imm rt =>
    cases href
    rfl
  | b link imm =>
    cases href
    simp at hκ
  | adr imm rd =>
    cases href
    simp at hκ
  | _ => cases href

theorem step_taken {c : Cpu} (hd : decode (c.mem.read32 c.pc) = i) (ht : taken i c = true) :
    step c = some { c with pc := c.pc+d } := by
  rw [step_of_read rfl hd, exec_conditional hκ href, if_pos ht]
  rfl

theorem step_not_taken {c : Cpu} (hd : decode (c.mem.read32 c.pc) = i)
    (ht : taken i c = false) : step c = some { c with pc := wordAt c.pc 1 } := by
  rw [step_of_read rfl hd, exec_conditional hκ href, ht]
  rfl

/-- Every other conditional branch is taken by some core. -/
theorem exists_taken (hn : ¬NeverTaken i) (m : Mem) (a : Addr) :
    ∃ c : Cpu, c.mem = m ∧ c.pc = a ∧ taken i c = true := by
  -- flags or a register value are chosen for each kind
  cases i with
  | bcond cond imm =>
    have hall : ∀ cond : BitVec 4, ∃ n z c v : Bool, (Flags.mk n z c v).holds cond = true := by
      decide
    obtain ⟨n,z,f,v,hf⟩ := hall cond
    exact ⟨⟨fun _ => 0,fun _ => 0,0,a,⟨n,z,f,v⟩,m⟩,rfl,rfl,hf⟩
  | cbz sf nz imm rt =>
    refine ⟨⟨fun _ => if nz then 1 else 0,fun _ => 0,0,a,⟨false,false,false,false⟩,m⟩,rfl,rfl,?_⟩
    cases nz with
    | false => simp [taken, Cpu.getX]
    | true =>
      -- the register is not the zero register, so it can hold a one
      have hrt : rt ≠ 31 := fun h => hn ⟨rfl,h⟩
      simp only [taken, Cpu.getX, if_neg hrt]
      cases sf <;> rfl
  | tbz nz bit imm rt =>
    refine ⟨⟨fun _ => if nz then BitVec.allOnes 64 else 0,fun _ => 0,0,a,
      ⟨false,false,false,false⟩,m⟩,rfl,rfl,?_⟩
    cases nz with
    | false => simp [taken, Cpu.getX]
    | true =>
      have hrt : rt ≠ 31 := fun h => hn ⟨rfl,h⟩
      have hones : (BitVec.allOnes 64).getLsbD bit.toNat = true := by
        rw [BitVec.getLsbD_allOnes, decide_eq_true_eq]
        exact bit.isLt
      simp only [taken, Cpu.getX, if_neg hrt, ↓reduceIte, hones]
      rfl
  | b link imm =>
    cases href
    simp at hκ
  | adr imm rd =>
    cases href
    simp at hκ
  | _ => cases href

omit hκ href in
theorem not_taken_of_never (hn : NeverTaken i) (c : Cpu) : taken i c = false := by
  cases i with
  | cbz sf nz imm rt =>
    obtain ⟨rfl,rfl⟩ := hn
    cases sf <;> simp [taken, Cpu.getX]
  | tbz nz bit imm rt =>
    obtain ⟨rfl,rfl⟩ := hn
    simp [taken, Cpu.getX]
  | _ => cases hn

end Conditional

section Keep
variable {κ : RefKind} {w w' : Word} (hkeep : w' &&& ~~~κ.mask = w &&& ~~~κ.mask)
include hkeep

theorem getLsbD_of_keep {k : ℕ} (hk : k < κ.lo ∨ κ.lo+κ.width ≤ k) :
    w'.getLsbD k = w.getLsbD k := by
  have h := congrArg (fun v => v.getLsbD k) hkeep
  by_cases h32 : k < 32
  · have hout : κ.mask.getLsbD k = false := by
      rw [RefKind.mask, getLsbD_fieldMask]
      simp only [Bool.and_eq_false_iff, decide_eq_false_iff_not]
      omega
    simpa only [BitVec.getLsbD_and, BitVec.getLsbD_not, h32, decide_true, hout, Bool.not_false,
      Bool.and_true] using h
  · rw [BitVec.getLsbD_of_ge _ _ (by omega), BitVec.getLsbD_of_ge _ _ (by omega)]

theorem extract_of_keep {lo n : ℕ} (h : lo+n ≤ κ.lo ∨ κ.lo+κ.width ≤ lo) :
    w'.extractLsb' lo n = w.extractLsb' lo n := by
  apply BitVec.eq_of_getLsbD_eq
  intro k hk
  rw [BitVec.getLsbD_extractLsb', BitVec.getLsbD_extractLsb', getLsbD_of_keep hkeep (by omega)]

/-- The condition, the register and the bit lie outside the field of the displacement. -/
theorem taken_of_keep (hκ : κ = .cond ∨ κ = .test) (hw : refKind w = some κ) (c : Cpu) :
    taken (decode w') c = taken (decode w) c := by
  have hmask (t : Word) (ht : ~~~κ.mask &&& t = t) : w' &&& t = w &&& t := and_of_keep hkeep ht
  -- what `decode` tests and extracts is not in the field
  have hfc := hmask 0xfc000000 (by rcases hκ with rfl | rfl <;> decide)
  have hff := hmask 0xff000010 (by rcases hκ with rfl | rfl <;> decide)
  have h7e := hmask 0x7e000000 (by rcases hκ with rfl | rfl <;> decide)
  have hcases := refKind_cases hw
  have hlo : κ.lo = 5 := by rcases hκ with rfl | rfl <;> rfl
  have hrt := @extract_of_keep κ w w' hkeep 0 5 (by omega)
  have hcond := @extract_of_keep κ w w' hkeep 0 4 (by omega)
  simp only [decode, decodeRelative, hfc, hff, h7e, hrt, hcond]
  rcases hκ with rfl | rfl
  · obtain ⟨hb,hc⟩ := hcases
    rw [not_or] at hb
    rw [if_neg hb.1, if_neg hb.2, if_neg hb.1, if_neg hb.2]
    by_cases hbc : w &&& 0xff000010 = 0x54000000
    · rw [if_pos hbc, if_pos hbc]
      rfl
    · rw [if_neg hbc, if_neg hbc, if_pos (hc.resolve_left hbc), if_pos (hc.resolve_left hbc),
        getLsbD_of_keep hkeep (by decide), getLsbD_of_keep hkeep (by decide)]
      rfl
  · obtain ⟨hb,hc,ht⟩ := hcases
    rw [not_or] at hb hc
    rw [if_neg hb.1, if_neg hb.2, if_neg hb.1, if_neg hb.2, if_neg hc.1, if_neg hc.2, if_neg hc.1,
      if_neg hc.2, if_pos ht, if_pos ht, getLsbD_of_keep hkeep (by decide),
      extract_of_keep hkeep (by decide), extract_of_keep hkeep (by decide)]
    rfl

end Keep

section Forms
variable {m : Mem} {a start stop t : Addr} {κ : RefKind} {w : Word}

theorem inside_wordAt (a : Addr) {k n : ℕ} (hk : k < n) (hn : n < 2^60) :
    Inside a (wordAt a n) (wordAt a k) := by
  unfold Inside wordAt
  bv_omega

theorem not_inside_stop : ¬Inside start stop stop := Nat.lt_irrefl _

/-- One word: the branch itself, with the distance from its new address. -/
theorem short_form {v : Word} {T : Addr} (hκ : κ = .cond ∨ κ = .test) (hw : refKind w = some κ)
    (hread : m.read32 a = v) (henc : Encodes κ w v (T-a))
    (hreach : wordOffset (((T-a).sshiftRight 2).setWidth κ.width)+refLow κ w = T-a)
    (hT : (T-a).toNat%4 = 0) {c : Cpu} (hm : c.mem = m) (hc : c.pc = a) :
    (taken (decode w) c = true → (LeavesFor a (wordAt a 1) t c ↔ t = T)) ∧
      (taken (decode w) c = false → LeavesFor a (wordAt a 1) (wordAt a 1) c) := by
  subst hm hc
  have href := henc.reference hw
  rw [hreach] at href
  have hkeep := taken_of_keep henc.keep hκ hw c
  have hin : Inside c.pc (wordAt c.pc 1) c.pc := by
    have h := inside_wordAt c.pc (by decide : 0 < 1) (by decide)
    rwa [wordAt_zero] at h
  have hadd : c.pc+(T-c.pc) = T := by bv_omega
  -- no form of the words writes X17 here
  have hsame {b : Addr} (h : Through c.pc (wordAt c.pc 1) c { c with pc := b }) :
      Through c.pc (wordAt c.pc 1) c { c with
        pc := b, x := Function.update c.x 17 (c.x 17) } := by
    rwa [Function.update_eq_self]
  constructor
  · intro ht
    have hs := step_taken hκ href (congrArg decode hread) (hkeep.trans ht)
    rw [hadd] at hs
    by_cases hloop : T = c.pc
    · -- a branch to itself
      subst hloop
      exact leavesFor_iff_of_loop hin hs
    · have hout : ¬Inside c.pc (wordAt c.pc 1) T := by
        unfold Inside wordAt
        bv_omega
      apply Through.leavesFor_iff hout
      exact hsame (Through.last hin hs)
  · intro ht
    have hs := step_not_taken hκ href (congrArg decode hread) (hkeep.trans ht)
    exact (Through.leavesFor_iff not_inside_stop (hsame (Through.last hin hs))).mpr rfl

/-- `LDR X17, #8; BR X17` and the target. -/
theorem through_absoluteJump {t : Addr} {c : Cpu} (hw : WordsAt c.mem c.pc (absoluteJump t))
    (hin : ∀ k < 2, Inside start stop (wordAt c.pc k)) :
    Through start stop c ((c.setX 17 t).goto t) := by
  obtain ⟨h0,hw⟩ := wordsAt_cons.mp hw
  obtain ⟨h1,hw⟩ := wordsAt_cons.mp hw
  rw [wordAt_add] at hw
  have hin0 := hin 0 (by decide)
  rw [wordAt_zero] at hin0
  have hlit : c.mem.read64 (c.pc+wordOffset (2:BitVec 19)) = t := read64_literal hw
  have hldr := @step_ldr17 c 2 (by rw [h0]; decide)
  rw [hlit] at hldr
  have hbr := @step_br17 { c with pc := c.pc+4, x := Function.update c.x 17 t } h1
  dsimp only at hbr
  rw [Function.update_self] at hbr
  exact Through.cons hin0 hldr (Through.last (hin 1 (by decide)) hbr)

/-- Six words: the branch skips over the next one to a jump through the literal. The word it
skips leads past the literal. -/
theorem long_form {v : Word} {T : Addr} (hκ : κ = .cond ∨ κ = .test) (hw : refKind w = some κ)
    (henc : Encodes κ w v 8) (hwords : WordsAt m a (v :: 0x14000005 :: absoluteJump T))
    (hin : ∀ k < 6, Inside start stop (wordAt a k)) {c : Cpu} (hm : c.mem = m) (hc : c.pc = a) :
    (taken (decode w) c = true →
        Through start stop c { c with pc := T, x := Function.update c.x 17 T }) ∧
      (taken (decode w) c = false →
        Through start stop c { c with pc := wordAt a 6, x := Function.update c.x 17 (c.x 17) }) := by
  subst hm hc
  have href := henc.reference hw
  have hskip : wordOffset (((8:Addr).sshiftRight 2).setWidth κ.width)+refLow κ w = 8 := by
    rcases hκ with rfl | rfl <;> rfl
  rw [hskip] at href
  have hkeep := taken_of_keep henc.keep hκ hw c
  obtain ⟨h0,hwords⟩ := wordsAt_cons.mp hwords
  obtain ⟨h1,hwords⟩ := wordsAt_cons.mp hwords
  rw [wordAt_add] at hwords
  have hin0 : Inside start stop c.pc := by
    have h := hin 0 (by decide)
    rwa [wordAt_zero] at h
  constructor
  · intro ht
    have hs := step_taken hκ href (congrArg decode h0) (hkeep.trans ht)
    -- taken: over the second word, and on by the jump through the literal
    have hjump := @through_absoluteJump start stop T { c with pc := wordAt c.pc 2 } hwords
      (fun k hk => by
        rw [wordAt_add]
        exact hin (2+k) (by omega))
    exact Through.cons hin0 hs hjump
  · intro ht
    have hs := step_not_taken hκ href (congrArg decode h0) (hkeep.trans ht)
    -- not taken: the second word branches over the jump
    have hb : step { c with pc := wordAt c.pc 1 } = some { c with pc := wordAt c.pc 6 } := by
      have hd : decode (0x14000005:Word) = .b false 5 := by decide
      have ho : wordAt c.pc 1+wordOffset (5:BitVec 26) = wordAt c.pc 6 := by
        have h20 : wordOffset (5:BitVec 26) = 20#64 := rfl
        rw [h20]
        unfold wordAt
        bv_omega
      rw [@step_of_read { c with pc := wordAt c.pc 1 } _ _ h1 hd]
      simp only [exec, Bool.false_eq_true, ↓reduceIte, Cpu.goto, ho]
    rw [Function.update_eq_self]
    exact Through.cons hin0 hs (Through.last (hin 1 (by decide)) hb)

/-- The alignment NOP before the long form is part of the code. -/
theorem Through.nops {pad : ℕ} (hpad : pad ≤ 1) {c : Cpu} {b : Addr} {x : BitVec 5 → BitVec 64}
    (hwords : WordsAt c.mem c.pc (nops pad)) (hin : Inside start stop c.pc)
    (h : Through start stop { c with pc := wordAt c.pc pad } { c with pc := b, x := x }) :
    Through start stop c { c with pc := b, x := x } := by
  interval_cases pad
  · rwa [wordAt_zero] at h
  · exact Through.cons hin (step_nop (wordsAt_cons.mp hwords).1) h

/-- The first word of the long form is the branch with displacement 8. -/
theorem encodes_skip (hκ : κ = .cond ∨ κ = .test) (w : Word) :
    Encodes κ w ((0x40 &&& ~~~(~~~κ.mask)) ||| (w &&& ~~~κ.mask)) 8 := by
  have h := @encodes_merge κ w 2 8 (by rcases hκ with rfl | rfl <;> rfl)
  have hlo : (2:Word) <<< κ.lo = 0x40 := by rcases hκ with rfl | rfl <;> decide
  rw [hlo, BitVec.or_comm] at h
  rwa [BitVec.not_not]

/-- The long form is for targets that are further away than its own length. -/
theorem far_not_inside (hκ : κ = .cond ∨ κ = .test) {T : Addr} {n : ℕ} (hn : n ≤ 7)
    (hfar : ((~~~(~~~κ.mask) >>> 6).setWidth 64).sle (llabs ((T-a).sshiftRight 2)) = true) :
    ¬Inside a (wordAt a n) T := by
  intro hin
  have hlt : (T-a).toNat < 28 := by
    unfold Inside wordAt at hin
    bv_omega
  have hs := toInt_sshiftRight_two (T-a)
  have hi := BitVec.toInt_eq_toNat_cond (T-a)
  rw [if_pos (by omega)] at hi
  have habs := (llabs_lt_iff ((T-a).sshiftRight 2) 7).mpr (by omega)
  rw [BitVec.sle_eq_decide, decide_eq_true_eq] at hfar
  have hpos := BitVec.toInt_eq_toNat_cond (llabs ((T-a).sshiftRight 2))
  rw [if_pos (by omega)] at hpos
  have hreach : 7 ≤ ((~~~(~~~κ.mask) >>> 6).setWidth 64:BitVec 64).toInt := by
    rcases hκ with rfl | rfl <;> decide
  omega

end Forms

section Plans
variable {s : FixState} {idx : Fin maxInstructions} {κ : RefKind} {w : Word} {m : Mem} {t : Addr}

/-- Whatever form it takes, the code sends the two outcomes to the target that the handler
computed and to the word after the code. -/
theorem condPlan_outcomes (hκ : κ = .cond ∨ κ = .test) (hw : refKind w = some κ)
    (hT : (condTarget s.inprx (~~~κ.mask) w-s.outprx).toNat%4 = 0)
    (hr : ¬s.ctx.isInFixingRange (condTarget s.inprx (~~~κ.mask) w) = true) {p : Plan}
    (hp : condPlan s idx (~~~κ.mask) w = .ok p) (hwords : WordsAt m s.outprx p.words)
    {c : Cpu} (hm : c.mem = m) (hc : c.pc = s.outprx) :
    (taken (decode w) c = true → (LeavesFor s.outprx (wordAt s.outprx p.words.length) t c ↔
        t = condTarget s.inprx (~~~κ.mask) w)) ∧
      (taken (decode w) c = false → LeavesFor s.outprx (wordAt s.outprx p.words.length)
        (wordAt s.outprx p.words.length) c) := by
  simp only [condPlan, pure, Except.pure] at hp
  rw [if_neg hr] at hp
  generalize condTarget s.inprx (~~~κ.mask) w = T at hT hp ⊢
  by_cases hfar : ((~~~(~~~κ.mask) >>> 6).setWidth 64).sle
      (llabs ((T-s.outprx).sshiftRight 2)) = true
  · -- out of reach: the branch skips over a jump to the end, into a jump to the target
    rw [if_pos hfar, Except.ok.injEq] at hp
    generalize hpad : (if wordAt s.outprx 4 &&& 7 = 0 then 0 else 1) = pad at hp
    have hpad1 : pad ≤ 1 := by
      rw [← hpad]
      split_ifs <;> decide
    subst hp
    have hlen : (nops pad++((0x40 &&& ~~~(~~~κ.mask)) ||| (w &&& ~~~κ.mask)) :: 0x14000005 ::
        absoluteJump T).length = pad+6 := by
      simp [nops, absoluteJump]
    simp only at hwords ⊢
    rw [hlen]
    obtain ⟨hnops,hwords⟩ := wordsAt_append.mp hwords
    rw [nops_length] at hwords
    have hout := @far_not_inside s.outprx κ hκ T (pad+6) (by omega) hfar
    have hin (k : ℕ) (hk : k < pad+6) :
        Inside s.outprx (wordAt s.outprx (pad+6)) (wordAt s.outprx k) :=
      inside_wordAt _ hk (by omega)
    have hin0 : Inside s.outprx (wordAt s.outprx (pad+6)) c.pc := by
      have h := hin 0 (by omega)
      rw [wordAt_zero] at h
      rwa [hc]
    have hform := @long_form m (wordAt s.outprx pad) s.outprx (wordAt s.outprx (pad+6)) κ w _ T hκ
      hw (encodes_skip hκ w) hwords (fun k hk => by
        rw [wordAt_add]
        exact hin _ (by omega)) { c with pc := wordAt c.pc pad } hm (by rw [hc])
    subst hm
    rw [← hc] at hnops
    have hstop : wordAt (wordAt s.outprx pad) 6 = wordAt s.outprx (pad+6) := wordAt_add _ _ _
    rw [hstop] at hform
    -- taken or not, the padding is passed first
    constructor
    · intro ht
      exact (Through.nops hpad1 hnops hin0 (hform.1 ht)).leavesFor_iff hout
    · intro ht
      exact (Through.nops hpad1 hnops hin0 (hform.2 ht)).leavesFor_iff not_inside_stop |>.mpr rfl
  · -- within reach: the branch alone
    rw [if_neg hfar, Except.ok.injEq] at hp
    subst hp
    have hlow : refLow κ w = 0#64 := by rcases hκ with rfl | rfl <;> rfl
    have hread := (wordsAt_cons.mp hwords).1
    exact short_form hκ hw hread (encodes_condWord hκ w _)
      (near_offset hfar (by rcases hκ with rfl | rfl <;> decide) (by rw [hlow]; exact hT)) hT hm hc

end Plans

section Target
variable {κ : RefKind} (hκ : κ = .cond ∨ κ = .test) {w : Word} {d : Addr}
  (href : reference (decode w) = some (κ,d))
include hκ href

theorem refKind_of_reference : refKind w = some κ ∧ d = wordOffset (w.extractLsb' κ.lo κ.width) := by
  rw [reference_decode] at href
  obtain ⟨κ',hk,he⟩ := Option.map_eq_some_iff.mp href
  rw [Prod.mk.injEq] at he
  obtain ⟨rfl,rfl⟩ := he
  have hlow : refLow κ' w = 0#64 := by rcases hκ with rfl | rfl <;> rfl
  rw [hlow, BitVec.add_zero]
  exact ⟨hk,rfl⟩

omit hκ href in
theorem unsigned_toNat {n : ℕ} (imm : BitVec n) (hn : n+2 ≤ 64) :
    ((imm++0#2).setWidth 64).toNat = 4*imm.toNat := by
  rw [BitVec.toNat_setWidth_of_le hn, BitVec.toNat_append, Nat.shiftLeft_eq]
  simp only [BitVec.toNat_zero, Nat.or_zero]
  omega

/-- The target is right when there is no sign to lose. -/
theorem condTarget_eq_iff (pc : Addr) : condTarget pc (~~~κ.mask) w = pc+d ↔ 0 ≤ d.toInt := by
  obtain ⟨-,rfl⟩ := refKind_of_reference hκ href
  have hwidth : κ.width+2 ≤ 62 := by cases κ <;> decide
  have hi := BitVec.toInt_eq_toNat_cond (wordOffset (w.extractLsb' κ.lo κ.width))
  -- the handler adds the field unsigned; equal to the signed one means that the sign is clear
  constructor
  · intro h
    rw [condTarget_unsigned hκ, BitVec.add_right_inj] at h
    have hx := unsigned_toNat (w.extractLsb' κ.lo κ.width) (by omega)
    have hlt := (w.extractLsb' κ.lo κ.width).isLt
    have hp : 2^κ.width ≤ 2^60 := Nat.pow_le_pow_right (by decide) (by omega)
    rw [h] at hx
    split_ifs at hi <;> omega
  · intro h
    exact condTarget_eq hκ pc w (by split_ifs at hi <;> omega)

/-- No target outside the range is mistaken for one inside it. -/
theorem condTarget_outside {rx : Addr} {i n : ℕ} (hi : i < n) (hn : n ≤ maxInstructions)
    (hout : 4*n ≤ (wordAt rx i+d-rx).toNat) :
    4*n ≤ (condTarget (wordAt rx i) (~~~κ.mask) w-rx).toNat := by
  have hwidth : 14 ≤ κ.width ∧ κ.width ≤ 19 := by rcases hκ with rfl | rfl <;> decide
  by_cases hd : 0 ≤ d.toInt
  · rwa [(condTarget_eq_iff hκ href _).mpr hd]
  · -- the sign bit of the field leads thousands of words ahead
    obtain ⟨-,rfl⟩ := refKind_of_reference hκ href
    rw [condTarget_unsigned hκ]
    have hx := unsigned_toNat (w.extractLsb' κ.lo κ.width) (by omega)
    have hneg := BitVec.toInt_eq_toNat_cond (w.extractLsb' κ.lo κ.width)
    have hlt := (w.extractLsb' κ.lo κ.width).isLt
    have hp : 2^14 ≤ 2^κ.width := Nat.pow_le_pow_right (by decide) hwidth.1
    have hp' : 2^κ.width ≤ 2^19 := Nat.pow_le_pow_right (by decide) hwidth.2
    rw [wordOffset_toInt _ (by omega)] at hd
    generalize ((w.extractLsb' κ.lo κ.width)++0#2).setWidth 64 = x at hx ⊢
    unfold maxInstructions at hn
    generalize (w.extractLsb' κ.lo κ.width).toInt = z at hd hneg
    generalize (w.extractLsb' κ.lo κ.width).toNat = v at hx hneg hlt
    generalize 2^κ.width = q at hneg hlt hp hp'
    have hhalf : q ≤ 2*v := by
      by_contra h
      rw [if_pos (not_le.mp h)] at hneg
      omega
    have hbig : 2^14 ≤ x.toNat ∧ x.toNat < 2^22 := by omega
    rw [wordAt, add_assoc, add_sub_cancel_left, BitVec.toNat_add, BitVec.toNat_ofNat]
    clear hneg hd hx hlt hhalf hout
    omega

end Target

section Final
variable {tr : Addr → Addr} {slot : Slot tr} {n i : ℕ} {src : Source tr n slot} {mach : Machine}
  {κ : RefKind} {d : Addr}

/-- The code of an instruction whose plan has no forward reference stands in the finished
trampoline as it was emitted. -/
theorem wordsAt_code (hi : i < n) (him : i < maxInstructions)
    (hf : (loopPlan tr (src.start mach) ⟨i,him⟩).forward = none) {mach' : Machine}
    (hrun : fixInstructions tr mach src.rw src.rx n slot.rw slot.rx = .ok mach') :
    WordsAt mach'.mem (src.code mach i) (loopPlan tr (src.start mach) ⟨i,him⟩).words := by
  intro k v hk
  have hset := (@loop_represents tr slot n src mach i hi.le).2.settled ⟨i,him⟩ hf hk
  rw [← loopReloc_succ him] at hset
  have hread := read_settled (by omega) hset hrun
  rw [code_eq src mach hi.le, wordAt_add]
  exact hread

/-- The handler returns, and its plan is the one the loop performs. -/
theorem fixCond_returns (hi : i < n) (him : i < maxInstructions) (hκ : κ = .cond ∨ κ = .test)
    {w : Word} (hw : mach.mem.read32 (wordAt src.rx i) = w) (hk : refKind w = some κ) :
    condPlan (loopState tr (src.start mach) i) ⟨i,him⟩ (~~~κ.mask) w =
        .ok (loopPlan tr (src.start mach) ⟨i,him⟩) ∧
      fixCondCompTestBranch tr (loopState tr (src.start mach) i) =
        .ok (some (loopState tr (src.start mach) (i+1))) := by
  obtain ⟨-,h⟩ := @loop_represents tr slot n src mach i hi.le
  have hload := (h.load_source hi).trans hw
  have hp := (@loopPlan_ok tr slot n src mach i hi him).1
  rw [stepPlan_cond hκ hload hk] at hp
  have hmask : condLmask w = some (~~~κ.mask) := by
    have hc := refKind_cases hk
    rw [condLmask_eq]
    rcases hκ with rfl | rfl
    · rw [if_pos hc.2]
    · rw [if_neg hc.2.1, if_pos hc.2.2]
  -- the branch handler passes the word on, and the conditional one takes it
  have hnb : ¬(w &&& 0xfc000000 = 0x14000000 ∨ w &&& 0xfc000000 = 0x94000000) := by
    have hc := refKind_cases hk
    rcases hκ with rfl | rfl <;> exact hc.1
  have hplan : instructionPlan tr (loopState tr (src.start mach) i) ⟨i,him⟩ =
      some (.ok (loopPlan tr (src.start mach) ⟨i,him⟩)) := by
    unfold instructionPlan
    dsimp only
    rw [hload, if_neg hnb, hmask, ← hp]
  refine ⟨hp,?_⟩
  rw [fixCondCompTestBranch_eq _ (h.index him), hload]
  dsimp only
  rw [hmask]
  dsimp only
  rw [hp, (loopState_perform mach hi him hplan).2]
  rfl

/-- In the finished trampoline the code keeps both outcomes exactly when the handler computed
the right target, or when no core tells. -/
theorem keepsOutcomes_iff (hi : i < n) (hκ : κ = .cond ∨ κ = .test)
    {w : Word} (hw : mach.mem.read32 (wordAt src.rx i) = w)
    (href : reference (decode w) = some (κ,d)) (hout : 4*n ≤ (wordAt src.rx i+d-src.rx).toNat)
    {mach' : Machine}
    (hrun : fixInstructions tr mach src.rw src.rx n slot.rw slot.rx = .ok mach') :
    KeepsOutcomes (decode w) mach'.mem (src.code mach i) (src.code mach (i+1))
        (wordAt src.rx i+d) ↔ 0 ≤ d.toInt ∨ NeverTaken (decode w) := by
  have hc := src.count
  have him : i < maxInstructions := by omega
  obtain ⟨-,h⟩ := @loop_represents tr slot n src mach i hi.le
  have hk := (refKind_of_reference hκ href).1
  obtain ⟨hp,-⟩ := fixCond_returns hi him hκ hw hk
  have hfar := condTarget_outside hκ href hi hc hout
  have hr : ¬(loopState tr (src.start mach) i).ctx.isInFixingRange
      (condTarget (loopState tr (src.start mach) i).inprx (~~~κ.mask) w) = true := by
    intro hr
    have hlt := h.range hr
    rw [h.inprx] at hlt
    omega
  -- both the target that the handler computes and the cursor are at words
  have hout4 := h.outprx_aligned
  have hT : (condTarget (loopState tr (src.start mach) i).inprx (~~~κ.mask) w-
      (loopState tr (src.start mach) i).outprx).toNat%4 = 0 := by
    have hin4 := wordAt_aligned src.aligned i
    have hx := unsigned_toNat (w.extractLsb' κ.lo κ.width) (by cases κ <;> decide)
    rw [h.inprx, condTarget_unsigned hκ]
    generalize ((w.extractLsb' κ.lo κ.width)++0#2).setWidth 64 = x at hx ⊢
    bv_omega
  have hforward : (loopPlan tr (src.start mach) ⟨i,him⟩).forward = none := by
    have hd0 : refLow κ w = 0#64 := by rcases hκ with rfl | rfl <;> rfl
    exact (condPlan_outside hκ (by rw [hd0]; exact hT) hr hp).1
  have hwords := wordsAt_code hi him hforward hrun
  have houtcomes {t : Addr} {c : Cpu} (hm : c.mem = mach'.mem) (hpc : c.pc = src.code mach i) :=
    @condPlan_outcomes _ _ κ w mach'.mem t hκ hk hT hr _ hp hwords c hm hpc
  have heq := condTarget_eq_iff hκ href (wordAt src.rx i)
  rw [code_succ src mach hi him]
  rw [← h.inprx] at heq ⊢
  constructor
  · intro hkeeps
    by_cases hn : NeverTaken (decode w)
    · exact Or.inr hn
    · -- a core that takes the branch tells the two targets apart
      obtain ⟨c,hm,hpc,ht⟩ := exists_taken hκ href hn mach'.mem (src.code mach i)
      have htarget := ((houtcomes hm hpc).1 ht).mp (hkeeps.jumps c hm hpc ht)
      exact Or.inl (heq.mp htarget.symm)
  · intro hcond
    refine ⟨?_,fun c hm hpc ht => (@houtcomes 0 c hm hpc).2 ht⟩
    intro c hm hpc ht
    rcases hcond with hd | hn
    · exact ((houtcomes hm hpc).1 ht).mpr (heq.mpr hd).symm
    · rw [not_taken_of_never hn] at ht
      cases ht

end Final

/-- A relocated conditional branch with a target outside the range keeps both of its outcomes
exactly when its displacement is not negative, or it is a branch that no core takes. -/
theorem cond_branch_keeps_outcomes_iff {tr : Addr → Addr} {slot : Slot tr} {n i : ℕ}
    (src : Source tr n slot) (mach : Machine) (hi : i < n) {κ : RefKind}
    (hκ : κ = .cond ∨ κ = .test) {d : Addr}
    (href : reference (decode (mach.mem.read32 (wordAt src.rx i))) = some (κ,d))
    (hout : 4*n ≤ (wordAt src.rx i+d-src.rx).toNat) :
    ∃ mach', fixInstructions tr mach src.rw src.rx n slot.rw slot.rx = .ok mach' ∧
      (∀ k ≤ n, fixLoop tr k (src.start mach) = .ok (loopState tr (src.start mach) k)) ∧
      fixCondCompTestBranch tr (loopState tr (src.start mach) i) =
        .ok (some (loopState tr (src.start mach) (i+1))) ∧
      (KeepsOutcomes (decode (mach.mem.read32 (wordAt src.rx i))) mach'.mem (src.code mach i)
          (src.code mach (i+1)) (wordAt src.rx i+d) ↔
        0 ≤ d.toInt ∨ NeverTaken (decode (mach.mem.read32 (wordAt src.rx i)))) := by
  obtain ⟨mach',hrun,-⟩ := fixInstructions_overlay src mach
  have hc := src.count
  have hret := (@fixCond_returns tr slot n i src mach κ hi (by omega) hκ _ rfl
    (refKind_of_reference hκ href).1).2
  exact ⟨mach',hrun,fun k hk => (loop_represents mach hk).1,hret,
    keepsOutcomes_iff hi hκ rfl href hout hrun⟩

/-- `B.EQ #0x40` keeps both outcomes. -/
theorem cond_branch_keeps_outcomes_forward :
    ∃ mach', fixInstructions nearViews (twoWords 0x54000200 0xd503201f) 0x01001000 0x1000 2
        0x01020000 0x20000 = .ok mach' ∧
      KeepsOutcomes (.bcond 0 16) mach'.mem
        (nearViewsSource.code (twoWords 0x54000200 0xd503201f) 0)
        (nearViewsSource.code (twoWords 0x54000200 0xd503201f) 1) 0x1040 := by
  obtain ⟨h0,-⟩ := twoWords_read 0x54000200 0xd503201f
  have h := @cond_branch_keeps_outcomes_iff nearViews nearViewsSlot 2 0 nearViewsSource
    (twoWords 0x54000200 0xd503201f) (by decide) .cond (Or.inl rfl) 0x40
    (by rw [h0]; decide) (by decide)
  rw [h0] at h
  obtain ⟨mach',hrun,-,-,hiff⟩ := h
  exact ⟨mach',hrun,hiff.mpr (Or.inl (by decide))⟩

/-- `CBZ X0, #-0x100` leads two mebibytes past its target. -/
theorem cond_branch_backward_lost :
    ∃ mach', fixInstructions nearViews (twoWords 0xb4fff800 0xd503201f) 0x01001000 0x1000 2
        0x01020000 0x20000 = .ok mach' ∧ decode 0xb4fff800 = .cbz true false (-64) 0 ∧
      ¬KeepsOutcomes (.cbz true false (-64) 0) mach'.mem
        (nearViewsSource.code (twoWords 0xb4fff800 0xd503201f) 0)
        (nearViewsSource.code (twoWords 0xb4fff800 0xd503201f) 1) (0x1000-0x100) := by
  obtain ⟨h0,-⟩ := twoWords_read 0xb4fff800 0xd503201f
  obtain ⟨mach',hrun,-⟩ := fixInstructions_overlay nearViewsSource (twoWords 0xb4fff800 0xd503201f)
  refine ⟨mach',hrun,by decide,?_⟩
  intro hkeeps
  have hiff := @keepsOutcomes_iff nearViews nearViewsSlot 2 0 nearViewsSource
    (twoWords 0xb4fff800 0xd503201f) .cond (-0x100) (by decide) (Or.inl rfl) _ h0 (by decide)
    (by decide) mach' hrun
  rcases hiff.mp hkeeps with hd | hn
  · exact absurd hd (by decide)
  · exact absurd hn.1 (by decide)

end Zeldar
