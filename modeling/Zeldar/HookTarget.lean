import Zeldar.HookJump

namespace Zeldar
open A64

/-- The instructions whose references `__fix_instructions` can retarget. -/
inductive RefKind
  | branch | cond | test | address
  deriving DecidableEq, Repr

namespace RefKind

/-- The lowest bit of the field that holds the reference. -/
def lo : RefKind → ℕ
  | branch => 0
  | _ => 5

def width : RefKind → ℕ
  | branch => 26
  | test => 14
  | _ => 19

def mask (κ : RefKind) : Word := fieldMask κ.lo κ.width

end RefKind

/-- The reference an instruction holds: its kind, and its distance from the instruction. -/
def reference : Instr → Option (RefKind × BitVec 64)
  | .b _ imm => some (.branch,wordOffset imm)
  | .bcond _ imm => some (.cond,wordOffset imm)
  | .cbz _ _ imm _ => some (.cond,wordOffset imm)
  | .tbz _ _ imm _ => some (.test,wordOffset imm)
  | .adr imm _ => some (.address,imm.signExtend 64)
  | _ => none

/-- The two low bits of an address reference; branches have none. -/
def refLow (κ : RefKind) (w : Word) : Addr :=
  match κ with
  | .address => (w.extractLsb' 29 2).setWidth 64
  | _ => 0#64

theorem refLow_lt (κ : RefKind) (w : Word) : (refLow κ w).toNat < 4 := by
  cases κ with
  | address =>
    simp only [refLow, BitVec.toNat_setWidth]
    omega
  | _ =>
    change (0#64).toNat < 4
    decide

/-- The kind of a word, by the masks that the handlers test. -/
def refKind (w : Word) : Option RefKind :=
  if w &&& 0xfc000000 = 0x14000000 ∨ w &&& 0xfc000000 = 0x94000000 then some .branch
  else if w &&& 0xff000010 = 0x54000000 ∨ w &&& 0x7e000000 = 0x34000000 then some .cond
  else if w &&& 0x7e000000 = 0x36000000 then some .test
  else if w &&& 0x3b000000 = 0x18000000 then none
  else if w &&& 0x9f000000 = 0x10000000 then some .address
  else none

theorem reference_decodeOther (w : Word) : reference (decodeOther w) = none := by
  simp only [decodeOther, apply_ite reference]
  simp only [reference, ite_self]

theorem signExtend_append_two (imm : BitVec 19) (low : BitVec 2) :
    (imm++low).signExtend 64 = wordOffset imm+low.setWidth 64 := by
  have hl := low.isLt
  have hi := BitVec.toInt_eq_toNat_cond imm
  have hlow : (low.setWidth 64).toInt = low.toNat := by
    rw [BitVec.toInt_eq_toNat_cond]
    simp only [BitVec.toNat_setWidth]
    split_ifs <;> omega
  have happ : (imm++low).toInt = 4*imm.toInt+low.toNat := by
    rw [BitVec.toInt_append]
    norm_num
  apply BitVec.eq_of_toInt_eq
  rw [BitVec.toInt_add, wordOffset, BitVec.toInt_signExtend_of_le (by decide),
    BitVec.toInt_signExtend_of_le (by decide), happ, BitVec.toInt_append_zero, hlow]
  have hlt := imm.isLt
  split_ifs at hi <;> rw [Int.bmod_eq_of_le] <;> omega

/-- Every kind has its distance in the field of the kind. -/
theorem reference_decode (w : Word) :
    reference (decode w) = (refKind w).map fun κ =>
      (κ,wordOffset (w.extractLsb' κ.lo κ.width)+refLow κ w) := by
  unfold refKind decode decodeRelative
  dsimp only
  -- the masks are tested in the order of `decode`, and each kind reads its own field
  by_cases h1 : w &&& 0xfc000000 = 0x14000000
  · rw [if_pos h1, if_pos (Or.inl h1)]
    simp only [Option.getD_some, reference, Option.map_some, refLow, BitVec.add_zero]
    rfl
  by_cases h2 : w &&& 0xfc000000 = 0x94000000
  · rw [if_neg h1, if_pos h2, if_pos (Or.inr h2)]
    simp only [Option.getD_some, reference, Option.map_some, refLow, BitVec.add_zero]
    rfl
  rw [if_neg h1, if_neg h2, if_neg (not_or_intro h1 h2)]
  by_cases h3 : w &&& 0xff000010 = 0x54000000
  · rw [if_pos h3, if_pos (Or.inl h3)]
    simp only [Option.getD_some, reference, Option.map_some, refLow, BitVec.add_zero]
    rfl
  by_cases h4 : w &&& 0x7e000000 = 0x34000000
  · rw [if_neg h3, if_pos h4, if_pos (Or.inr h4)]
    simp only [Option.getD_some, reference, Option.map_some, refLow, BitVec.add_zero]
    rfl
  rw [if_neg h3, if_neg h4, if_neg (not_or_intro h3 h4)]
  by_cases h5 : w &&& 0x7e000000 = 0x36000000
  · rw [if_pos h5, if_pos h5]
    simp only [Option.getD_some, reference, Option.map_some, refLow, BitVec.add_zero]
    rfl
  rw [if_neg h5, if_neg h5]
  by_cases h6 : w &&& 0x3b000000 = 0x18000000
  · rw [if_pos h6, if_pos h6]
    -- a literal of a reserved size is no load
    cases litKind (w.getLsbD 26) (w.extractLsb' 30 2) with
    | none => exact reference_decodeOther w
    | some k => rfl
  rw [if_neg h6, if_neg h6]
  by_cases h7 : w &&& 0x9f000000 = 0x10000000
  · rw [if_pos h7, if_pos h7]
    simp only [Option.getD_some, reference, Option.map_some, signExtend_append_two]
    rfl
  rw [if_neg h7, if_neg h7]
  by_cases h8 : w &&& 0x9f000000 = 0x90000000
  · rw [if_pos h8]
    rfl
  · rw [if_neg h8]
    exact reference_decodeOther w

/-- The word `w'` is `w` with the distance `d` in its reference field. -/
structure Encodes (κ : RefKind) (w w' : Word) (d : Addr) : Prop where
  keep : w' &&& ~~~κ.mask = w &&& ~~~κ.mask
  field : w'.extractLsb' κ.lo κ.width = (d.sshiftRight 2).setWidth κ.width

theorem and_of_keep {m w w' t : Word} (hk : w' &&& ~~~m = w &&& ~~~m) (ht : ~~~m &&& t = t) :
    w' &&& t = w &&& t := by
  rw [← ht, ← BitVec.and_assoc, hk, BitVec.and_assoc]

theorem and_of_and {w m n c : Word} (h : w &&& m = c) (hn : m &&& n = n) : w &&& n = c &&& n := by
  rw [← h, BitVec.and_assoc, hn]

theorem extract_low_eq (w : Word) :
    w.extractLsb' 29 2 = (w &&& 0x60000000).extractLsb' 29 2 := by
  apply BitVec.eq_of_getLsbD_eq
  intro i hi
  interval_cases i <;> simp

/-- The field does not overlap what tells the kinds apart. -/
theorem refKind_of_keep {κ : RefKind} {w w' : Word} (hk : w' &&& ~~~κ.mask = w &&& ~~~κ.mask)
    (h : refKind w = some κ) : refKind w' = some κ := by
  have hb : w' &&& 0xfc000000 = w &&& 0xfc000000 := and_of_keep hk (by cases κ <;> decide)
  cases κ with
  | branch =>
    unfold refKind at h ⊢
    rw [hb]
    by_cases h1 : w &&& 0xfc000000 = 0x14000000 ∨ w &&& 0xfc000000 = 0x94000000
    · rw [if_pos h1]
    · rw [if_neg h1] at h
      split_ifs at h <;> cases h
  | _ =>
    unfold refKind at h ⊢
    rw [hb, and_of_keep hk (by decide : _ &&& (0xff000010:Word) = 0xff000010),
      and_of_keep hk (by decide : _ &&& (0x7e000000:Word) = 0x7e000000),
      and_of_keep hk (by decide : _ &&& (0x3b000000:Word) = 0x3b000000),
      and_of_keep hk (by decide : _ &&& (0x9f000000:Word) = 0x9f000000)]
    exact h

theorem refLow_of_keep {κ : RefKind} {w w' : Word} (hk : w' &&& ~~~κ.mask = w &&& ~~~κ.mask) :
    refLow κ w' = refLow κ w := by
  cases κ with
  | address =>
    simp only [refLow]
    rw [extract_low_eq, extract_low_eq w, and_of_keep hk (by decide)]
  | _ => rfl

/-- An encoded distance is the reference of the new word, up to the reach of the field. -/
theorem Encodes.reference {κ : RefKind} {w w' : Word} {d : Addr} (h : Encodes κ w w' d)
    (hw : refKind w = some κ) :
    reference (decode w') =
      some (κ,wordOffset ((d.sshiftRight 2).setWidth κ.width)+refLow κ w) := by
  rw [reference_decode, refKind_of_keep h.keep hw, Option.map_some, h.field,
    refLow_of_keep h.keep]

theorem encodes_merge {κ : RefKind} {w v : Word} {d : Addr}
    (hv : v.setWidth κ.width = (d.sshiftRight 2).setWidth κ.width) :
    Encodes κ w ((w &&& ~~~κ.mask) ||| (v <<< κ.lo &&& κ.mask)) d := by
  refine ⟨?_,?_⟩
  · unfold RefKind.mask
    rw [merge_keep, BitVec.and_assoc, BitVec.and_self]
  · rw [← hv]
    apply extract_merge
    · cases κ <;> decide
    · change _ &&& κ.mask = 0
      rw [BitVec.and_assoc, BitVec.and_comm (~~~κ.mask)]
      simp

theorem setWidth_setWidth_width (κ : RefKind) (x : Addr) :
    (x.setWidth 32).setWidth κ.width = x.setWidth κ.width := by
  cases κ <;> exact BitVec.setWidth_setWidth_of_le _ (by decide)

theorem encodes_branchWord (w : Word) (d : Addr) :
    Encodes .branch w (branchWord (w &&& 0xfc000000) d) d := by
  rw [branchWord_eq]
  exact encodes_merge (setWidth_setWidth_width .branch _)

theorem encodes_condWord {κ : RefKind} (hκ : κ = .cond ∨ κ = .test) (w : Word) (d : Addr) :
    Encodes κ w (condWord (~~~κ.mask) w d) d := by
  have hlo : κ.lo = 5 := by rcases hκ with rfl | rfl <;> rfl
  have h := @encodes_merge κ w _ d (setWidth_setWidth_width κ (d.sshiftRight 2))
  have he : condWord (~~~κ.mask) w d =
      (w &&& ~~~κ.mask) ||| ((d.sshiftRight 2).setWidth 32 <<< κ.lo &&& κ.mask) := by
    simp only [condWord, BitVec.not_not, hlo]
    rw [BitVec.or_comm, BitVec.setWidth_shiftLeft_of_le (by decide)]
  rwa [he]

/-- The fix-up completes a word that was left without a distance. -/
theorem encodes_fixedWord {κ : RefKind} (w : Word) (ins : Addr) (f : FixInfo) (hls : f.ls = κ.lo)
    (had : ∀ v : Word, v <<< κ.lo &&& f.ad = v <<< κ.lo &&& κ.mask) :
    Encodes κ w (fixedWord (w &&& ~~~κ.mask) ins f) (ins-f.bprx) := by
  have hv : (((ins-f.bprx).setWidth 32).sshiftRight 2).setWidth κ.width =
      ((ins-f.bprx).sshiftRight 2).setWidth κ.width := by
    have hw : κ.width ≤ 26 := by cases κ <;> decide
    apply BitVec.eq_of_getLsbD_eq
    intro i hi
    simp only [BitVec.getLsbD_setWidth, BitVec.getLsbD_sshiftRight, show ¬32 ≤ i by omega,
      show ¬64 ≤ i by omega, show 2+i < 32 by omega, show 2+i < 64 by omega, ↓reduceIte,
      decide_true, Bool.true_and]
  have h := @encodes_merge κ w _ _ hv
  rwa [← had, ← hls] at h

theorem wordOffset_toInt {n : ℕ} (imm : BitVec n) (hn : n+2 ≤ 64) :
    (wordOffset imm).toInt = 4*imm.toInt := by
  rw [wordOffset, BitVec.toInt_signExtend_of_le hn, BitVec.toInt_append_zero]
  omega

/-- The low bits of a distance are those of the word. -/
theorem reference_low {κ : RefKind} {w : Word} {d : Addr}
    (h : reference (decode w) = some (κ,d)) : d.toNat%4 = (refLow κ w).toNat := by
  rw [reference_decode] at h
  cases hk : refKind w with
  | none =>
    rw [hk] at h
    cases h
  | some κ' =>
    rw [hk, Option.map_some, Option.some.injEq, Prod.mk.injEq] at h
    obtain ⟨rfl,rfl⟩ := h
    have hw := wordOffset_toInt (w.extractLsb' κ'.lo κ'.width) (by cases κ' <;> decide)
    have hc := BitVec.toInt_eq_toNat_cond (wordOffset (w.extractLsb' κ'.lo κ'.width))
    have hl := refLow_lt κ' w
    have h4 : (wordOffset (w.extractLsb' κ'.lo κ'.width)).toNat%4 = 0 := by
      split_ifs at hc <;> omega
    generalize wordOffset (w.extractLsb' κ'.lo κ'.width) = x at h4 ⊢
    bv_omega

theorem branchTarget_eq (pc : Addr) (w : Word) :
    branchTarget pc w = pc+wordOffset (w.extractLsb' 0 26) := by
  -- the left shift brings the sign bit of the field to the top of the word
  have h : ((w <<< 6).sshiftRight (6-2)).signExtend 64 = wordOffset (w.extractLsb' 0 26) := by
    apply BitVec.eq_of_toInt_eq
    rw [BitVec.toInt_signExtend_of_le (by decide), BitVec.toInt_sshiftRight,
      Int.shiftRight_eq_div_pow, wordOffset_toInt _ (by decide)]
    have h1 := BitVec.toInt_eq_toNat_cond (w <<< 6)
    have h2 := BitVec.toInt_eq_toNat_cond (w.extractLsb' 0 26)
    rw [BitVec.toNat_shiftLeft, Nat.shiftLeft_eq] at h1
    rw [BitVec.extractLsb'_toNat] at h2
    norm_num at h1 h2 ⊢
    split_ifs at h1 h2 <;> omega
  simp only [branchTarget, h]

theorem msb_of_forward {n : ℕ} (imm : BitVec n) (hn : n+2 ≤ 62)
    (h : (wordOffset imm).toNat < 2^63) : (imm++0#2).msb = false := by
  have hi : (wordOffset imm).toInt = (imm++0#2).toInt := by
    rw [wordOffset, BitVec.toInt_signExtend_of_le (by omega)]
  have hp := BitVec.toInt_eq_toNat_cond (wordOffset imm)
  rw [BitVec.msb_eq_toInt, ← hi, decide_eq_false_iff_not]
  split_ifs at hp <;> omega

/-- A forward offset has no sign to extend. -/
theorem wordOffset_forward {n : ℕ} (imm : BitVec n) (hn : n+2 ≤ 62)
    (h : (wordOffset imm).toNat < 2^63) : wordOffset imm = (imm++0#2).setWidth 64 :=
  BitVec.signExtend_eq_setWidth_of_msb_false (msb_of_forward imm hn h)

theorem and_fieldMask_shift (w : Word) (n : ℕ) (hn : n ≤ 27) :
    ((w &&& fieldMask 5 n) >>> 3).setWidth 64 = (w.extractLsb' 5 n++0#2).setWidth 64 := by
  apply BitVec.eq_of_getLsbD_eq
  intro i hi
  simp only [BitVec.getLsbD_setWidth, hi, decide_true, Bool.true_and, BitVec.getLsbD_ushiftRight,
    BitVec.getLsbD_and, getLsbD_fieldMask, BitVec.getLsbD_append, BitVec.getLsbD_zero,
    BitVec.getLsbD_extractLsb']
  by_cases h2 : i < 2
  · simp only [h2, ↓reduceIte, show ¬5 ≤ 3+i by omega, decide_false, Bool.and_false,
      Bool.false_and]
  · by_cases hlt : 3+i < 5+n
    · simp only [h2, ↓reduceIte, hlt, show 3+i < 32 by omega, show 5 ≤ 3+i by omega,
        show i-2 < n by omega, decide_true, Bool.and_self, Bool.and_true, Bool.true_and,
        show 5+(i-2) = 3+i by omega]
    · simp only [h2, ↓reduceIte, hlt, show ¬i-2 < n by omega, decide_false, Bool.and_false,
        Bool.false_and]

/-- Conditional branches lose the sign of their offset. -/
theorem condTarget_unsigned {κ : RefKind} (hκ : κ = .cond ∨ κ = .test) (pc : Addr) (w : Word) :
    condTarget pc (~~~κ.mask) w = pc+(w.extractLsb' κ.lo κ.width++0#2).setWidth 64 := by
  simp only [condTarget, BitVec.not_not]
  congr 1
  rcases hκ with rfl | rfl
  · exact and_fieldMask_shift w 19 (by decide)
  · exact and_fieldMask_shift w 14 (by decide)

/-- Forward ones have none. -/
theorem condTarget_eq {κ : RefKind} (hκ : κ = .cond ∨ κ = .test) (pc : Addr) (w : Word)
    (h : (wordOffset (w.extractLsb' κ.lo κ.width)).toNat < 2^63) :
    condTarget pc (~~~κ.mask) w = pc+wordOffset (w.extractLsb' κ.lo κ.width) := by
  rw [wordOffset_forward _ (by cases κ <;> decide) h]
  exact condTarget_unsigned hκ pc w

/-- So do address references, which also keep their two low bits apart. -/
theorem adrTarget_eq (pc : Addr) (w : Word)
    (h : (wordOffset (w.extractLsb' 5 19)).toNat < 2^63) :
    adrTarget pc w = pc+(wordOffset (w.extractLsb' 5 19)+refLow .address w) := by
  -- forwards the top bit of the field is clear, so both shifts agree on every bit
  have hsign : (w <<< 8).msb = false := by
    have hm := msb_of_forward _ (by decide) h
    rw [BitVec.msb_eq_getLsbD_last] at hm ⊢
    rw [BitVec.getLsbD_append, BitVec.getLsbD_extractLsb'] at hm
    rw [BitVec.getLsbD_shiftLeft]
    exact hm
  have himm : ((w <<< 8).sshiftRight (8+5-2) &&& ~~~3).setWidth 64 =
      (w.extractLsb' 5 19++0#2).setWidth 64 := by
    have h3 (i : ℕ) (hi : i < 32) : (~~~(3:Word)).getLsbD i = decide (2 ≤ i) := by
      interval_cases i <;> rfl
    apply BitVec.eq_of_getLsbD_eq
    intro i hi
    simp only [BitVec.getLsbD_setWidth, hi, decide_true, Bool.true_and, BitVec.getLsbD_and,
      BitVec.getLsbD_sshiftRight, hsign, BitVec.getLsbD_shiftLeft, BitVec.getLsbD_append,
      BitVec.getLsbD_zero, BitVec.getLsbD_extractLsb']
    by_cases h32 : i < 32
    · rw [h3 i h32]
      by_cases h2 : i < 2
      · simp only [h2, show ¬2 ≤ i by omega, ↓reduceIte, decide_false, Bool.and_false]
      · by_cases hlt : i-2 < 19
        · simp only [h2, hlt, show ¬32 ≤ i by omega, show 11+i < 32 by omega, ↓reduceIte,
            show 2 ≤ i by omega, show ¬11+i < 8 by omega, show 11+i-8 = 5+(i-2) by omega,
            decide_true, decide_false, Bool.not_false, Bool.true_and, Bool.and_true]
        · simp only [h2, hlt, show ¬32 ≤ i by omega, show ¬11+i < 32 by omega, ↓reduceIte,
            decide_false, Bool.not_false, Bool.and_false, Bool.false_and]
    · simp only [show 32 ≤ i by omega, show ¬i-2 < 19 by omega, show ¬i < 2 by omega,
        decide_true, decide_false, Bool.not_true, Bool.false_and, ↓reduceIte]
  have hlow : ((w <<< 1) >>> 30).setWidth 64 = (w.extractLsb' 29 2).setWidth 64 := by
    apply BitVec.eq_of_getLsbD_eq
    intro i hi
    simp only [BitVec.getLsbD_setWidth, hi, decide_true, Bool.true_and, BitVec.getLsbD_ushiftRight,
      BitVec.getLsbD_shiftLeft, BitVec.getLsbD_extractLsb']
    by_cases h2 : i < 2
    · simp only [h2, show 30+i < 32 by omega, show ¬30+i < 1 by omega,
        show 30+i-1 = 29+i by omega, decide_true, decide_false, Bool.not_false, Bool.true_and]
    · simp only [h2, show ¬30+i < 32 by omega, decide_false, Bool.false_and]
  -- the two low bits are free, so adding them is or-ing them
  have hdisjoint : (w.extractLsb' 5 19++0#2).setWidth 64 &&& (w.extractLsb' 29 2).setWidth 64 =
      0#64 := by
    apply BitVec.eq_of_getLsbD_eq
    intro i hi
    simp only [BitVec.getLsbD_and, BitVec.getLsbD_setWidth, BitVec.getLsbD_append,
      BitVec.getLsbD_extractLsb', BitVec.getLsbD_zero]
    by_cases h2 : i < 2
    · simp only [h2, ↓reduceIte, Bool.and_false, Bool.false_and]
    · simp only [h2, decide_false, Bool.false_and, Bool.and_false]
  rw [wordOffset_forward _ (by decide) h]
  simp only [adrTarget, refLow, himm, hlow]
  rw [BitVec.add_eq_or_of_and_eq_zero _ _ hdisjoint]

end Zeldar
