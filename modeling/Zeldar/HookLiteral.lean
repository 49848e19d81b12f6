import Zeldar.HookAddress
import Zeldar.HookReplay

namespace Zeldar
open A64

section Kinds
variable {w : Word} {kind : LitKind} {imm : BitVec 19} {rt : BitVec 5}

/-- The opcode mask that the handler has for each kind. -/
def litKindMask : LitKind → Word
  | .w | .x => 0xbf000000
  | .s | .d | .q => 0x3f000000
  | .sw | .prfm => 0xff000000

/-- The access size minus one; a sign-extending load of a word is treated as one of a double
word. -/
def litAlign : LitKind → BitVec 64
  | .w | .s => 3
  | .x | .sw | .d => 7
  | .q => 15
  | .prfm => 0

theorem litMask_eq (hd : decode w = .ldrLit kind imm rt) (hk : kind ≠ .prfm) :
    ¬w &&& 0xff000000 = 0xd8000000 ∧ litMask w = some (litKindMask kind,litAlign kind) := by
  have hand {t : Word} (ht : t &&& 0x00ffffff = 0) : w &&& t = (kind.opcode++0#24) &&& t := by
    rw [and_top ht, opcode_byte hd]
  have h1 := @hand 0xff000000 (by decide)
  have h2 := @hand 0x40000000 (by decide)
  have h3 := @hand 0xbf000000 (by decide)
  have h4 := @hand 0x80000000 (by decide)
  have h5 := @hand 0x3f000000 (by decide)
  unfold litMask
  rw [h1, h2, h3, h4, h5]
  cases kind with
  | prfm => contradiction
  | _ => decide

theorem fields_of_ldrLit (hd : decode w = .ldrLit kind imm rt) :
    w.extractLsb' 5 19 = imm ∧ w.extractLsb' 0 5 = rt := by
  have h := (decode_of_byte (opcode_byte hd)).symm.trans hd
  rw [Instr.ldrLit.injEq] at h
  exact h.2

/-- The address of the literal with a sign up to bit 31 only. -/
def literalModulo (pc : Addr) (imm : BitVec 19) : Addr :=
  pc+((imm++0#2).signExtend 32).setWidth 64

theorem litTarget_modulo (hd : decode w = .ldrLit kind imm rt) (pc : Addr) :
    litTarget pc w = literalModulo pc imm := by
  rw [literalModulo, ← (fields_of_ldrLit hd).1, ← fieldOffset]
  rfl

/-- It is right for a displacement that has no sign. -/
theorem literalModulo_eq_iff (pc : Addr) (imm : BitVec 19) :
    literalModulo pc imm = pc+wordOffset imm ↔ 0 ≤ imm.toInt := by
  have hm : (imm++0#2).msb = imm.msb := by
    rw [BitVec.msb_append]
    simp
  rw [literalModulo, signExtend_half _ (by decide), hm, wordOffset, add_carry_eq_iff,
    BitVec.msb_eq_toInt]
  simp

/-- The load as it is emitted with its literal behind it. -/
theorem decode_copiedLoad (hd : decode w = .ldrLit kind imm rt) :
    decode ((0x40 &&& ~~~litKindMask kind) ||| (w &&& 0xff00001f)) = .ldrLit kind 2 rt := by
  have h40 : (0x40:Word) &&& ~~~litKindMask kind = 0x40 := by cases kind <;> decide
  have hbyte : ((0x40:Word) ||| (w &&& 0xff00001f)).extractLsb' 24 8 = kind.opcode := by
    have h1 : (0x40:Word).extractLsb' 24 8 = 0 := by decide
    have h2 : (0xff00001f:Word).extractLsb' 24 8 = BitVec.allOnes 8 := by decide
    rw [BitVec.extractLsb'_or, BitVec.extractLsb'_and, h1, h2, BitVec.and_allOnes, opcode_byte hd]
    exact BitVec.zero_or
  have himm : ((0x40:Word) ||| (w &&& 0xff00001f)).extractLsb' 5 19 = 2 := by
    have h1 : (0x40:Word).extractLsb' 5 19 = 2 := by decide
    have h2 : (0xff00001f:Word).extractLsb' 5 19 = 0 := by decide
    rw [BitVec.extractLsb'_or, BitVec.extractLsb'_and, h1, h2]
    simp
  have hrt : ((0x40:Word) ||| (w &&& 0xff00001f)).extractLsb' 0 5 = rt := by
    have h1 : (0x40:Word).extractLsb' 0 5 = 0 := by decide
    have h2 : (0xff00001f:Word).extractLsb' 0 5 = BitVec.allOnes 5 := by decide
    rw [BitVec.extractLsb'_or, BitVec.extractLsb'_and, h1, h2, BitVec.and_allOnes,
      (fields_of_ldrLit hd).2]
    exact BitVec.zero_or
  rw [h40, decode_of_byte hbyte, himm, hrt]

/-- What a load turns into when all bits above its displacement are set that the mask leaves
open. -/
def negativeKind : LitKind → Option LitKind
  | .w => some .x
  | .x => some .x
  | .sw => some .sw
  | .prfm => some .prfm
  | .s | .d | .q => none

/-- Above the reach of the load all bits of the distance are its sign. -/
theorem distance_top {d : Addr} (hlo : -2^20 ≤ d.toInt) (hhi : d.toInt < 2^20) :
    ((d.sshiftRight 2 <<< 5).setWidth 32).extractLsb' 24 8 =
      if 0 ≤ d.toInt then 0 else BitVec.allOnes 8 := by
  have hi := toInt_setWidth_of_range d (by decide : 0 < 21) (by decide) hlo hhi
  have hd : d = (d.setWidth 21).signExtend 64 := by
    apply BitVec.eq_of_toInt_eq
    rw [BitVec.toInt_signExtend_of_le (by decide), hi]
  have hm : (d.setWidth 21).msb = decide (d.toInt < 0) := by
    rw [BitVec.msb_eq_toInt, hi]
  apply BitVec.eq_of_getLsbD_eq
  intro i hi8
  have hbit : d.getLsbD (21+i) = decide (d.toInt < 0) := by
    rw [← hm, hd, BitVec.getLsbD_signExtend]
    simp [show 21+i < 64 by omega, ← hd]
  have hshift : (((d.sshiftRight 2 <<< 5).setWidth 32).extractLsb' 24 8).getLsbD i =
      d.getLsbD (21+i) := by
    simp only [BitVec.getLsbD_extractLsb', BitVec.getLsbD_setWidth, BitVec.getLsbD_shiftLeft,
      BitVec.getLsbD_sshiftRight]
    grind
  rw [hshift, hbit]
  by_cases hneg : d.toInt < 0
  · rw [if_neg (by omega), BitVec.getLsbD_allOnes, decide_eq_true hneg, decide_eq_true hi8]
  · rw [if_pos (by omega), decide_eq_false hneg]
    simp

section LitWord
variable (hd : decode w = .ldrLit kind imm rt) {d : Addr}
include hd

theorem litWord_byte (hlo : -2^20 ≤ d.toInt) (hhi : d.toInt < 2^20) :
    (litWord (litKindMask kind) w d).extractLsb' 24 8 =
      ((if 0 ≤ d.toInt then 0 else BitVec.allOnes 8) &&&
        (~~~litKindMask kind).extractLsb' 24 8) ||| kind.opcode := by
  have hones : (0xff00001f:Word).extractLsb' 24 8 = BitVec.allOnes 8 := by decide
  simp only [litWord]
  rw [BitVec.extractLsb'_or, BitVec.extractLsb'_and, BitVec.extractLsb'_and, hones,
    BitVec.and_allOnes, distance_top hlo hhi, opcode_byte hd]

theorem litWord_imm :
    (litWord (litKindMask kind) w d).extractLsb' 5 19 = (d.sshiftRight 2).setWidth 19 := by
  have h1 : (~~~litKindMask kind).extractLsb' 5 19 = BitVec.allOnes 19 := by
    cases kind <;> decide
  have h2 : (0xff00001f:Word).extractLsb' 5 19 = 0 := by decide
  have h3 : ((d.sshiftRight 2 <<< 5).setWidth 32).extractLsb' 5 19 =
      (d.sshiftRight 2).setWidth 19 := by
    apply BitVec.eq_of_getLsbD_eq
    intro i hi
    simp only [BitVec.getLsbD_extractLsb', BitVec.getLsbD_setWidth, BitVec.getLsbD_shiftLeft]
    grind
  simp only [litWord]
  rw [BitVec.extractLsb'_or, BitVec.extractLsb'_and, BitVec.extractLsb'_and, h1, h2,
    BitVec.and_allOnes, h3]
  simp

theorem litWord_rt : (litWord (litKindMask kind) w d).extractLsb' 0 5 = rt := by
  have h1 : ((d.sshiftRight 2 <<< 5).setWidth 32).extractLsb' 0 5 = 0 := by
    apply BitVec.eq_of_getLsbD_eq
    intro i hi
    simp only [BitVec.getLsbD_extractLsb', BitVec.getLsbD_setWidth, BitVec.getLsbD_shiftLeft]
    grind
  have h2 : (0xff00001f:Word).extractLsb' 0 5 = BitVec.allOnes 5 := by decide
  simp only [litWord]
  rw [BitVec.extractLsb'_or, BitVec.extractLsb'_and, BitVec.extractLsb'_and, h1, h2,
    BitVec.and_allOnes, (fields_of_ldrLit hd).2]
  simp

/-- The load with a new distance within reach: a negative one gets into its top byte. -/
theorem decode_litWord (hk : kind ≠ .prfm) (hlo : -2^20 ≤ d.toInt) (hhi : d.toInt < 2^20) :
    decode (litWord (litKindMask kind) w d) =
      match if 0 ≤ d.toInt then some kind else negativeKind kind with
      | some kind' => .ldrLit kind' ((d.sshiftRight 2).setWidth 19) rt
      | none => .other (litWord (litKindMask kind) w d) := by
  have hbyte := litWord_byte hd hlo hhi
  have hload (kind' : LitKind) (h : (litWord (litKindMask kind) w d).extractLsb' 24 8 =
      kind'.opcode) : decode (litWord (litKindMask kind) w d) =
        .ldrLit kind' ((d.sshiftRight 2).setWidth 19) rt := by
    rw [decode_of_byte h, litWord_imm hd, litWord_rt hd]
  by_cases hneg : 0 ≤ d.toInt
  · simp only [if_pos hneg] at hbyte ⊢
    apply hload
    rw [hbyte]
    cases kind <;> decide
  · simp only [if_neg hneg] at hbyte ⊢
    -- the masks of the W and X loads leave bit 30 open, those of the vector loads bit 31 too
    cases kind with
    | prfm => contradiction
    | w => exact hload .x (hbyte.trans (by decide))
    | x => exact hload .x (hbyte.trans (by decide))
    | sw => exact hload .sw (hbyte.trans (by decide))
    | s => exact decode_unallocated (hbyte.trans (by decide))
    | d => exact decode_unallocated (hbyte.trans (by decide))
    | q => exact decode_unallocated (hbyte.trans (by decide))

end LitWord

end Kinds

section Padding
variable {more : Addr → Bool} {n pad q : ℕ} {a t : Addr} {m : BitVec 64}

/-- The padding stops at the first cursor that needs none. -/
theorem padCount_le_of (h : padCount more n a = .ok pad) (hq : more (wordAt a q) = false) :
    pad ≤ q := by
  induction n generalizing a pad q with
  | zero =>
    have hle := padCount_le h
    omega
  | succ n ih =>
    unfold padCount at h
    by_cases hm : more a = true
    · rw [if_pos hm] at h
      cases q with
      | zero =>
        rw [wordAt_zero, hm] at hq
        cases hq
      | succ q =>
        rw [Nat.add_comm q 1, ← wordAt_add] at hq
        cases hc : padCount more n (wordAt a 1) with
        | error e => simp [hc, Except.map] at h
        | ok k =>
          simp only [hc, Except.map, Except.ok.injEq] at h
          have hk := ih hc hq
          omega
    · rw [if_neg hm, Except.ok.injEq] at h
      omega

/-- Padding for a distance never passes the target. -/
theorem padCount_distance_le {b : ℕ} (hb : b ≤ 2) (hm : m.toNat < 2^b)
    (h : padCount (fun a => (t-a).sshiftRight 2 &&& m != 0) 3 a = .ok pad) :
    pad ≤ (t-a).toNat/4%2^b := by
  apply padCount_le_of h
  have hmod : ((t-wordAt a ((t-a).toNat/4%2^b)).sshiftRight 2).toNat%2^b = 0 := by
    have hs := sshiftRight_two_mod (t-wordAt a ((t-a).toNat/4%2^b))
    have hle : (t-a).toNat/4%2^b ≤ (t-a).toNat/4 := Nat.mod_le _ _
    have hsub : (t-wordAt a ((t-a).toNat/4%2^b)).toNat =
        (t-a).toNat-4*((t-a).toNat/4%2^b) := by
      generalize (t-a).toNat/4%2^b = k at hle
      unfold wordAt
      bv_omega
    rw [hsub] at hs
    interval_cases b <;> omega
  simp only [and_eq_zero_of_mod hmod hm, bne_self_eq_false]

end Padding

section Forms
variable {tr : Addr → Addr} {s : FixState} {w : Word} {kind : LitKind} {imm : BitVec 19}
  {rt : BitVec 5} {p : Plan}

/-- The handler copies a literal of the range, and one that might be out of reach. -/
def CopiesLiteral (c : Context) (kind : LitKind) (t out : Addr) : Prop :=
  c.isInFixingRange t = true ∨
    (0x3ffff:BitVec 64).ule (llabs ((t-out).sshiftRight 2)+(litAlign kind+1-4)/4) = true

instance (c : Context) (kind : LitKind) (t out : Addr) : Decidable (CopiesLiteral c kind t out) :=
  inferInstanceAs (Decidable (_ ∨ _))

theorem litAlign_bits (hk : kind ≠ .prfm) : ∃ b ≤ 2, (litAlign kind).toNat = 4*2^b-1 ∧
    ((litAlign kind) >>> 2).toNat < 2^b ∧ (litAlign kind+1-4)/4 = BitVec.ofNat 64 (2^b-1) := by
  cases kind with
  | prfm => contradiction
  | w | s => exact ⟨0,by decide,by decide,by decide,by decide⟩
  | x | sw | d => exact ⟨1,by decide,by decide,by decide,by decide⟩
  | q => exact ⟨2,by decide,by decide,by decide,by decide⟩

/-- A distance that passes the range test leaves room for the padding. -/
theorem words_of_room {x : Addr} {b : ℕ} (hb : b ≤ 2)
    (hnear : ¬(0x3ffff:BitVec 64).ule (llabs (x.sshiftRight 2)+BitVec.ofNat 64 (2^b-1)) = true) :
    (llabs (x.sshiftRight 2)).toNat < 0x3ffff-(2^b-1) := by
  have hpow : 2^b ≤ 4 := by interval_cases b <;> decide
  have hlt := BitVec.le_toInt x
  have hlt' := BitVec.toInt_lt (x := x)
  have hsmall := (llabs_lt_iff (x.sshiftRight 2) (2^62)).mpr (by
    rw [toInt_sshiftRight_two]
    norm_num at hlt hlt' ⊢
    omega)
  simp only [BitVec.ule, decide_eq_true_eq, not_le] at hnear
  generalize llabs (x.sshiftRight 2) = q at hnear hsmall
  bv_omega

/-- Padding brings a small distance nearer without wrapping it. -/
theorem toInt_sub_padding {x : Addr} {pad : ℕ} (hpad : pad ≤ 3) (hle : pad ≤ x.toNat/4)
    (hlo : -2^62 ≤ x.toInt) : (x-BitVec.ofNat 64 (4*pad)).toInt = x.toInt-4*pad := by
  have hx := BitVec.toInt_eq_toNat_cond x
  have hx' := BitVec.toInt_eq_toNat_cond (x-BitVec.ofNat 64 (4*pad))
  have hn : (x-BitVec.ofNat 64 (4*pad)).toNat = (x.toNat+2^64-4*pad)%2^64 := by bv_omega
  rw [hn] at hx'
  split_ifs at hx hx' <;> omega

/-- A literal in reach is loaded from where it is, with a distance that the load can hold and
that keeps its sign over the padding. -/
theorem litPlan_near (hk : kind ≠ .prfm)
    (hnear : ¬CopiesLiteral s.ctx kind (litTarget s.inprx w) s.outprx)
    (h4 : (litTarget s.inprx w-s.outprx).toNat%4 = 0)
    (hp : litPlan tr s (litKindMask kind) (litAlign kind) w = .ok p) :
    p.forward = none ∧ ∃ pad d, pad ≤ 3 ∧ p.words = nops pad++[litWord (litKindMask kind) w d] ∧
      wordAt s.outprx pad+d = litTarget s.inprx w ∧
      wordOffset ((d.sshiftRight 2).setWidth 19) = d ∧
      (-2^20 ≤ d.toInt ∧ d.toInt < 2^20) ∧
      (0 ≤ d.toInt ↔ 0 ≤ (litTarget s.inprx w-s.outprx).toInt) := by
  obtain ⟨b,hb,-,hmask,hroom⟩ := litAlign_bits hk
  simp only [litPlan, pure, Except.pure] at hp
  unfold CopiesLiteral at hnear
  rw [if_neg hnear] at hp
  rw [not_or, hroom] at hnear
  generalize litTarget s.inprx w = t at hp hnear h4 ⊢
  cases hc : padCount (fun a => (t-a).sshiftRight 2 &&& (litAlign kind >>> 2) != 0) 3 s.outprx with
  | error e =>
    simp only [hc, bind, Except.bind] at hp
    cases hp
  | ok pad =>
    simp only [hc, bind, Except.bind] at hp
    cases hp
    have hpad := padCount_distance_le hb hmask hc
    have hpad3 : pad ≤ 2^b-1 := by
      have hlt := Nat.mod_lt ((t-s.outprx).toNat/4) (Nat.two_pow_pos b)
      omega
    have hpow : 2^b ≤ 4 := by interval_cases b <;> decide
    -- the room left by the range test is what the padding takes
    obtain ⟨hlo,hhi⟩ := (llabs_lt_iff _ _).mp (words_of_room hb hnear.2)
    rw [toInt_sshiftRight_two] at hlo hhi
    have hle : pad ≤ (t-s.outprx).toNat/4 := hpad.trans (Nat.mod_le _ _)
    have hd : t-wordAt s.outprx pad = t-s.outprx-BitVec.ofNat 64 (4*pad) := by
      unfold wordAt
      bv_omega
    have hi : (t-wordAt s.outprx pad).toInt = (t-s.outprx).toInt-4*pad := by
      rw [hd]
      exact toInt_sub_padding (by omega) hle (by omega)
    have hmod : (t-wordAt s.outprx pad).toNat%4 = 0 := by
      rw [hd]
      generalize t-s.outprx = x at h4 ⊢
      bv_omega
    refine ⟨rfl,pad,t-wordAt s.outprx pad,by omega,rfl,by bv_omega,?_,?_,?_⟩
    · exact displacement_of_range _ (by decide) (by decide) hmod (by rw [hi]; omega)
        (by rw [hi]; omega)
    · rw [hi]
      omega
    · rw [hi]
      have hx := BitVec.toInt_eq_toNat_cond (t-s.outprx)
      split_ifs at hx <;> omega

/-- Any other one is copied behind the load and a branch over it. -/
theorem litPlan_copy (hfar : CopiesLiteral s.ctx kind (litTarget s.inprx w) s.outprx)
    (hp : litPlan tr s (litKindMask kind) (litAlign kind) w = .ok p) :
    p.forward = none ∧ ∃ head, head.length ≤ 5 ∧ ∃ pad,
      head = nops pad++[(0x40 &&& ~~~litKindMask kind) ||| (w &&& 0xff00001f),
        0x14000001+BitVec.ofNat 32 (((litAlign kind).toNat+1)/4)] ∧
      p.words = head++(List.range (((litAlign kind).toNat+1)/4)).map fun i =>
        (s.emitWords tr head).m.load32 tr (wordAt (litTarget s.inprx w) i) := by
  simp only [litPlan, pure, Except.pure] at hp
  unfold CopiesLiteral at hfar
  rw [if_pos hfar] at hp
  cases hc : padCount (fun a => wordAt a 2 &&& litAlign kind != 0) 3 s.outprx with
  | error e =>
    simp only [hc, bind, Except.bind] at hp
    cases hp
  | ok pad =>
    simp only [hc, bind, Except.bind] at hp
    cases hp
    have hpad := padCount_le hc
    refine ⟨rfl,_,?_,pad,rfl,rfl⟩
    rw [List.length_append, nops_length]
    simp only [List.length_cons, List.length_nil]
    omega

end Forms

section Run
variable {m : Mem} {a stop t : Addr} {w : Word} {kind kind' : LitKind} {imm : BitVec 19}
  {rt : BitVec 5}

/-- After at most some NOPs the code loads a literal of the kind into the register. -/
def FirstLoad (m : Mem) (start stop : Addr) (kind : LitKind) (rt : BitVec 5) : Prop :=
  ∃ pad imm, Inside start stop (wordAt start pad) ∧
    (∀ k < pad, m.read32 (wordAt start k) = aarch64Nop) ∧
    decode (m.read32 (wordAt start pad)) = .ldrLit kind imm rt

theorem FirstLoad.unique {rt' : BitVec 5} (h : FirstLoad m a stop kind rt)
    (h' : FirstLoad m a stop kind' rt') : kind = kind' := by
  obtain ⟨p,imm,-,hn,hd⟩ := h
  obtain ⟨p',imm',-,hn',hd'⟩ := h'
  have hnop : decode aarch64Nop = .nop := by decide
  rcases Nat.lt_trichotomy p p' with hlt | rfl | hlt
  · rw [hn' p hlt, hnop] at hd
    cases hd
  · rw [hd, Instr.ldrLit.injEq] at hd'
    exact hd'.1
  · rw [hn p' hlt, hnop] at hd'
    cases hd'

theorem firstLoad_of_words {v : Word} {vs : List Word} {pad : ℕ} {imm' : BitVec 19}
    (hpad : pad ≤ 3) (hs : vs.length ≤ 5) (hd : decode v = .ldrLit kind imm' rt)
    (hw : WordsAt m a (nops pad++v :: vs)) :
    FirstLoad m a (wordAt a (nops pad++v :: vs).length) kind rt := by
  obtain ⟨hn,hl⟩ := wordsAt_append.mp hw
  rw [nops_length] at hl
  have hlen : (nops pad++v :: vs).length = pad+(vs.length+1) := by
    rw [List.length_append, nops_length, List.length_cons]
  refine ⟨pad,imm',?_,?_,?_⟩
  · rw [hlen]
    exact inside_wordAt a (by omega) (by omega)
  · intro k hk
    apply hn
    rw [nops, List.getElem?_replicate_of_lt hk]
  · rw [(wordsAt_cons.mp hl).1]
    exact hd

/-- The copy of the literal is loaded, wherever the literal came from. -/
theorem computes_copiedLoad (hd : decode w = .ldrLit kind imm rt) (hk : kind ≠ .prfm) {pad : ℕ}
    {m' : Mem} (hpad : pad ≤ 3)
    (hw : WordsAt m a (nops pad++[(0x40 &&& ~~~litKindMask kind) ||| (w &&& 0xff00001f),
        0x14000001+BitVec.ofNat 32 (((litAlign kind).toNat+1)/4)]++
      (List.range (((litAlign kind).toNat+1)/4)).map fun i => m'.read32 (wordAt t i))) :
    Computes m a (wordAt a (pad+2+((litAlign kind).toNat+1)/4))
      (place kind.vector rt (kind.value m' t)) := by
  have hns : kind.size/4 ≤ ((litAlign kind).toNat+1)/4 ∧ ((litAlign kind).toNat+1)/4 ≤ 4 := by
    cases kind <;> decide
  generalize ((litAlign kind).toNat+1)/4 = ns at hns hw ⊢
  obtain ⟨hw,hlit⟩ := wordsAt_append.mp hw
  obtain ⟨hn,hl⟩ := wordsAt_append.mp hw
  rw [nops_length] at hl
  rw [List.length_append, nops_length] at hlit
  obtain ⟨h0,hl⟩ := wordsAt_cons.mp hl
  obtain ⟨h1,-⟩ := wordsAt_cons.mp hl
  rw [wordAt_add] at h1
  have hin (k : ℕ) (hk : k < pad+2+ns) : Inside a (wordAt a (pad+2+ns)) (wordAt a k) :=
    inside_wordAt a hk (by omega)
  -- the words behind the branch are those of the literal
  have hvalue : kind.value m (wordAt a (pad+2)) = kind.value m' t := by
    apply value_of_words
    intro k hk
    apply hlit
    rw [List.getElem?_map, List.getElem?_range (by omega)]
    rfl
  apply computes_after_nops hn (fun k hk => hin k (by omega)) fun c b => place_goto b _
  rintro c rfl hc
  have hload := @through_literal (wordAt a (pad+2+ns)) a c kind rt ns hns.2 (by
      rw [hc, h0]
      exact decode_copiedLoad hd) (by
      rw [hc, wordAt_add]
      exact h1) (fun k hk => by
      rw [hc, wordAt_add]
      exact hin _ (by omega))
  rw [loadLit_eq hk, hc, wordAt_add, wordAt_add, hvalue, ← Nat.add_assoc] at hload
  exact hload

/-- The load goes back for its literal, as a load of the kind that the distance makes it. -/
theorem computes_nearLoad {v : Word} {pad : ℕ} {d : Addr} (hk : kind' ≠ .prfm) (hpad : pad ≤ 3)
    (hv : decode v = .ldrLit kind' ((d.sshiftRight 2).setWidth 19) rt)
    (hoff : wordOffset ((d.sshiftRight 2).setWidth 19) = d) (hw : WordsAt m a (nops pad++[v])) :
    Computes m a (wordAt a (pad+1))
      (place kind'.vector rt (kind'.value m (wordAt a pad+d))) := by
  obtain ⟨hn,hl⟩ := wordsAt_append.mp hw
  rw [nops_length] at hl
  have h0 := (wordsAt_cons.mp hl).1
  have hin (k : ℕ) (hk : k < pad+1) : Inside a (wordAt a (pad+1)) (wordAt a k) :=
    inside_wordAt a hk (by omega)
  apply computes_after_nops hn (fun k hk => hin k (by omega)) fun c b => place_goto b _
  rintro c rfl hc
  have hinp : Inside a (wordAt a (pad+1)) c.pc := by
    rw [hc]
    exact hin pad (by omega)
  apply Through.last hinp
  have hdec : decode (c.mem.read32 c.pc) = .ldrLit kind' ((d.sshiftRight 2).setWidth 19) rt := by
    rw [hc, h0]
    exact hv
  rw [step_of_read rfl hdec, exec, hoff, Cpu.next, loadLit_pc, loadLit_eq hk, hc]
  have hnext : wordAt a pad+4 = wordAt a (pad+1) := wordAt_four a pad
  rw [hnext]

/-- No core gets past a word that is not allocated. -/
theorem not_computes_unallocated {v : Word} {pad : ℕ} {f : Cpu → Cpu} (hpad : pad ≤ 3)
    (hv : decode v = .other v) (hw : WordsAt m a (nops pad++[v])) :
    ¬Computes m a (wordAt a (pad+1)) f := by
  intro hcomp
  have hrun := hcomp ⟨fun _ => 0,fun _ => 0,0,a,⟨false,false,false,false⟩,m⟩ rfl rfl
  obtain ⟨hn,hl⟩ := wordsAt_append.mp hw
  rw [nops_length] at hl
  have h0 := (wordsAt_cons.mp hl).1
  -- induction on the NOPs: each one is passed, and the end is not among them
  have hstuck (k : ℕ) (c e : Cpu) (hc : c.mem = m) (hpc : c.pc = wordAt a (pad-k))
      (hk : k ≤ pad) (he : e.pc = wordAt a (pad+1)) : ¬Through a (wordAt a (pad+1)) c e := by
    induction k generalizing c with
    | zero =>
      intro h
      have hs : step c = none := by
        rw [step_of_read (i := .other v) (w := v) (by rw [hc, hpc]; exact h0) hv]
        rfl
      cases h with
      | last _ hs' => rw [hs] at hs'; cases hs'
      | cons _ hs' _ => rw [hs] at hs'; cases hs'
    | succ k ih =>
      intro h
      have hnop : c.mem.read32 c.pc = aarch64Nop := by
        rw [hc, hpc]
        apply hn
        rw [nops, List.getElem?_replicate_of_lt (by omega)]
      have hnext : c.pc+4 = wordAt a (pad-k) := by
        have h4 := wordAt_four a (pad-(k+1))
        rw [← hpc] at h4
        rw [show pad-k = pad-(k+1)+1 by omega, ← h4]
        rfl
      rcases h.tail (step_nop hnop) with rfl | ⟨-,h⟩
      · have hend := hnext.symm.trans he
        have hinj := wordAt_injective a (by omega) (by omega) hend
        omega
      · exact ih { c with pc := c.pc+4 } hc hnext (by omega) h
  exact hstuck pad _ _ rfl (by simp) le_rfl rfl hrun

end Run

section Final
variable {tr : Addr → Addr} {slot : Slot tr} {n i : ℕ} {src : Source tr n slot} {mach : Machine}
  {w : Word} {kind : LitKind} {imm : BitVec 19} {rt : BitVec 5}

/-- The bytes of a literal, with the word after a single one. -/
def litSpan (kind : LitKind) : ℕ := max 8 kind.size

/-- The literal at `a` is read from its own address, and none of it is in the slot. -/
structure LiteralAt (slot : Slot tr) (kind : LitKind) (a : Addr) : Prop where
  plain : ∀ k < litSpan kind/4, tr (wordAt a k) = wordAt a k
  apart : Sep a (litSpan kind) slot.rx (4*trampolineSize)

/-- What lies outside the slot is the same before and after. -/
theorem LiteralAt.value_overlay {a : Addr} (h : LiteralAt slot kind a) {kind' : LitKind}
    (hs : kind'.size ≤ litSpan kind) {m : Mem} {ws : List Word}
    (hl : ws.length ≤ trampolineSize) :
    kind'.value (overlay m slot.rx ws) a = kind'.value m a := by
  apply value_of_words
  intro k hk
  apply read32_overlay_of_sep
  have hsep := h.apart.mono (by omega : 4*(kind'.size/4) ≤ _)
    (by omega : 4*ws.length ≤ 4*trampolineSize)
  exact hsep.word hk

/-- The handler returns, and its plan is the one the loop performs. -/
theorem fixLoadlit_returns (hi : i < n) (him : i < maxInstructions)
    (hw : mach.mem.read32 (wordAt src.rx i) = w) (hd : decode w = .ldrLit kind imm rt)
    (hk : kind ≠ .prfm) :
    litPlan tr (loopState tr (src.start mach) i) (litKindMask kind) (litAlign kind) w =
        .ok (loopPlan tr (src.start mach) ⟨i,him⟩) ∧
      fixLoadlit tr (loopState tr (src.start mach) i) =
        .ok (some (loopState tr (src.start mach) (i+1))) := by
  obtain ⟨-,h⟩ := @loop_represents tr slot n src mach i hi.le
  have hload := (h.load_source hi).trans hw
  obtain ⟨hprfm,hmask⟩ := litMask_eq hd hk
  have hlit : loadlitPlan tr (loopState tr (src.start mach) i) w =
      some (litPlan tr (loopState tr (src.start mach) i) (litKindMask kind) (litAlign kind) w) := by
    rw [loadlitPlan, if_neg hprfm, hmask]
    rfl
  -- the opcode bits of a literal load exclude the masks of the two branch handlers
  have hop := (opcode_of_ldrLit hd).1
  have h1 : ¬(w &&& 0xfc000000 = 0x14000000 ∨ w &&& 0xfc000000 = 0x94000000) :=
    not_or_intro (and_ne_of_and hop 0x38000000 (by decide) (by decide) (by decide))
      (and_ne_of_and hop 0x38000000 (by decide) (by decide) (by decide))
  have h2 : ¬(w &&& 0xff000010 = 0x54000000 ∨ w &&& 0x7e000000 = 0x34000000) :=
    not_or_intro (and_ne_of_and hop 0x3b000000 (by decide) (by decide) (by decide))
      (and_ne_of_and hop 0x3a000000 (by decide) (by decide) (by decide))
  have h3 : ¬w &&& 0x7e000000 = 0x36000000 :=
    and_ne_of_and hop 0x3a000000 (by decide) (by decide) (by decide)
  have hplan : instructionPlan tr (loopState tr (src.start mach) i) ⟨i,him⟩ =
      some (litPlan tr (loopState tr (src.start mach) i) (litKindMask kind) (litAlign kind) w) := by
    unfold instructionPlan
    dsimp only
    rw [hload, if_neg h1, condLmask_eq, if_neg h2, if_neg h3]
    dsimp only
    rw [hlit]
    rfl
  obtain ⟨hp,hnext⟩ := loopState_perform mach hi him hplan
  refine ⟨hp,?_⟩
  rw [fixLoadlit_eq _ (h.index him), hload, hlit]
  dsimp only
  rw [hp, hnext]
  rfl

/-- The load that is emitted for one of the kind: only a load that goes back for its literal over
a negative distance can be another one. -/
def emittedKind (c : Context) (kind : LitKind) (t out : Addr) : Option LitKind :=
  if CopiesLiteral c kind t out ∨ 0 ≤ (t-out).toInt then some kind else negativeKind kind

theorem emittedKind_spec {c : Context} {t out : Addr} {kind' : LitKind} (hk : kind ≠ .prfm)
    (h : emittedKind c kind t out = some kind') :
    kind' ≠ .prfm ∧ kind'.vector = kind.vector ∧ kind'.size ≤ litSpan kind := by
  unfold emittedKind at h
  split_ifs at h with hc
  · cases h
    exact ⟨hk,rfl,le_max_right _ _⟩
  · cases kind <;> cases h <;> first | contradiction | exact ⟨by decide,rfl,by decide⟩

theorem literalModulo_aligned {pc : Addr} (hpc : pc.toNat%4 = 0) (imm : BitVec 19) :
    (literalModulo pc imm).toNat%4 = 0 := by
  have happ : (imm++0#2).toNat = imm.toNat*4 := by
    rw [BitVec.toNat_append, Nat.shiftLeft_eq]
    simp
  have hx : (((imm++0#2).signExtend 32).setWidth 64).toNat%4 = 0 := by
    rw [BitVec.toNat_setWidth_of_le (by decide), BitVec.toNat_signExtend,
      BitVec.toNat_setWidth_of_le (by decide), happ]
    split_ifs <;> omega
  unfold literalModulo
  generalize ((imm++0#2).signExtend 32).setWidth 64 = x at hx ⊢
  bv_omega

/-- The words of the literal that the handler copies are those it has at hooking time. -/
theorem copied_literal (hi : i < n) {t : Addr} (hlit : LiteralAt slot kind t) {head : List Word}
    (hhead : head.length ≤ 5) {k : ℕ} (hk : k < litSpan kind/4) :
    ((loopState tr (src.start mach) i).emitWords tr head).m.load32 tr (wordAt t k) =
      mach.mem.read32 (wordAt t k) := by
  obtain ⟨-,h⟩ := @loop_represents tr slot n src mach i hi.le
  have hc := src.count
  have hsmall := h.small
  have hroom : (loopReloc slot (src.start mach) i).out.length+head.length ≤ trampolineSize := by
    unfold trampolineSize maxInstructions at *
    omega
  rw [Machine.load32, hlit.plain k hk, emitWords_overlay head _ _ h.mem h.outprw hroom]
  apply read32_overlay_of_sep
  rw [List.length_append]
  have hsep := hlit.apart.mono (by omega : 4*(litSpan kind/4) ≤ _)
    (by omega : 4*((loopReloc slot (src.start mach) i).out.length+head.length) ≤ 4*trampolineSize)
  exact hsep.word hk

/-- The relocation leaves the value of a literal outside the slot as it is. -/
theorem LiteralAt.value_relocated {a : Addr} (h : LiteralAt slot kind a) {kind' : LitKind}
    (hs : kind'.size ≤ litSpan kind) {mach' : Machine}
    (hrun : fixInstructions tr mach src.rw src.rx n slot.rw slot.rx = .ok mach') :
    kind'.value mach'.mem a = kind'.value mach.mem a := by
  obtain ⟨mach₂,hrun₂,hmem⟩ := fixInstructions_overlay src mach
  rw [hrun, Except.ok.injEq] at hrun₂
  subst hrun₂
  rw [hmem]
  apply h.value_overlay hs
  have hc := src.count
  have hsmall := (@loop_represents tr slot n src mach n le_rfl).2.small
  have hj := jumpWords_length (wordAt src.rx n)
    (wordAt slot.rx (loopReloc slot (src.start mach) n).out.length)
  rw [List.length_append]
  unfold trampolineSize maxInstructions at *
  omega

theorem litTarget_loopState (hi : i < n) (hd : decode w = .ldrLit kind imm rt) :
    litTarget (loopState tr (src.start mach) i).inprx w =
      literalModulo (wordAt src.rx i) imm := by
  obtain ⟨-,h⟩ := @loop_represents tr slot n src mach i hi.le
  rw [h.inprx]
  exact litTarget_modulo hd _

theorem copiesLiteral_loopState (hi : i < n) (t : Addr) :
    CopiesLiteral (loopState tr (src.start mach) i).ctx kind t
        (loopState tr (src.start mach) i).outprx ↔
      CopiesLiteral (src.start mach).ctx kind t (src.code mach i) := by
  rw [CopiesLiteral, loopState_range hi.le]
  rfl

section Emitted
variable (hi : i < n) (hw : mach.mem.read32 (wordAt src.rx i) = w)
  (hd : decode w = .ldrLit kind imm rt) (hk : kind ≠ .prfm)
  (hlit : LiteralAt slot kind (literalModulo (wordAt src.rx i) imm)) {mach' : Machine}
  (hrun : fixInstructions tr mach src.rw src.rx n slot.rw slot.rx = .ok mach')
include hi hw hd hk hlit hrun

/-- A load that takes its literal along is a load of its kind, with its value. -/
theorem emitted_copy
    (hfar : CopiesLiteral (src.start mach).ctx kind (literalModulo (wordAt src.rx i) imm)
      (src.code mach i)) :
    FirstLoad mach'.mem (src.code mach i) (src.code mach (i+1)) kind rt ∧
      Computes mach'.mem (src.code mach i) (src.code mach (i+1))
        (place kind.vector rt (kind.value mach.mem (literalModulo (wordAt src.rx i) imm))) := by
  have hc := src.count
  have him : i < maxInstructions := by omega
  have hp := (fixLoadlit_returns hi him hw hd hk).1
  have ht := @litTarget_loopState tr slot n i src mach w kind imm rt hi hd
  rw [← ht] at hfar
  obtain ⟨hforward,head,hhead,pad,hwords,hlist⟩ :=
    litPlan_copy ((copiesLiteral_loopState hi _).mpr hfar) hp
  have hat := wordsAt_code hi him hforward hrun
  have hpad : pad ≤ 3 := by
    have hl := congrArg List.length hwords
    rw [List.length_append, nops_length] at hl
    simp only [List.length_cons, List.length_nil] at hl
    omega
  have hspan : ((litAlign kind).toNat+1)/4 ≤ litSpan kind/4 := by cases kind <;> decide
  -- the words behind the load are those of the literal
  have hcopy : (List.range (((litAlign kind).toNat+1)/4)).map (fun k =>
      ((loopState tr (src.start mach) i).emitWords tr head).m.load32 tr
        (wordAt (litTarget (loopState tr (src.start mach) i).inprx w) k)) =
      (List.range (((litAlign kind).toNat+1)/4)).map fun k =>
        mach.mem.read32 (wordAt (literalModulo (wordAt src.rx i) imm) k) := by
    apply List.map_congr_left
    intro k hk
    rw [List.mem_range] at hk
    rw [ht]
    exact copied_literal hi hlit hhead (by omega)
  rw [hcopy, hwords] at hlist
  rw [code_succ src mach hi him]
  rw [hlist] at hat ⊢
  have hcode := computes_copiedLoad hd hk hpad hat
  have hlen : (nops pad++[(0x40 &&& ~~~litKindMask kind) ||| (w &&& 0xff00001f),
      0x14000001+BitVec.ofNat 32 (((litAlign kind).toNat+1)/4)]++
      (List.range (((litAlign kind).toNat+1)/4)).map fun k =>
        mach.mem.read32 (wordAt (literalModulo (wordAt src.rx i) imm) k)).length =
      pad+2+((litAlign kind).toNat+1)/4 := by
    rw [List.length_append, List.length_append, nops_length, List.length_map, List.length_range]
    rfl
  refine ⟨?_,by rwa [hlen]⟩
  rw [List.append_assoc, List.cons_append, List.cons_append, List.nil_append] at hat ⊢
  apply firstLoad_of_words hpad _ (decode_copiedLoad hd) hat
  rw [List.length_cons, List.length_map, List.length_range]
  have hns : ((litAlign kind).toNat+1)/4 ≤ 4 := by cases kind <;> decide
  omega

/-- A load that goes back for its literal is a load of the kind that its distance leaves it. -/
theorem emitted_near
    (hnear : ¬CopiesLiteral (src.start mach).ctx kind (literalModulo (wordAt src.rx i) imm)
      (src.code mach i)) :
    match emittedKind (src.start mach).ctx kind (literalModulo (wordAt src.rx i) imm)
      (src.code mach i) with
    | some kind' => FirstLoad mach'.mem (src.code mach i) (src.code mach (i+1)) kind' rt ∧
        Computes mach'.mem (src.code mach i) (src.code mach (i+1))
          (place kind'.vector rt (kind'.value mach.mem (literalModulo (wordAt src.rx i) imm)))
    | none => ∀ f, ¬Computes mach'.mem (src.code mach i) (src.code mach (i+1)) f := by
  have hc := src.count
  have him : i < maxInstructions := by omega
  obtain ⟨-,h⟩ := @loop_represents tr slot n src mach i hi.le
  have hp := (fixLoadlit_returns hi him hw hd hk).1
  have ht := @litTarget_loopState tr slot n i src mach w kind imm rt hi hd
  have h4 : (litTarget (loopState tr (src.start mach) i).inprx w-
      (loopState tr (src.start mach) i).outprx).toNat%4 = 0 := by
    have hout4 := h.outprx_aligned
    have hlit4 := literalModulo_aligned (wordAt_aligned src.aligned i) imm
    rw [ht]
    generalize literalModulo (wordAt src.rx i) imm = t at hlit4 ⊢
    bv_omega
  have hstay : ¬CopiesLiteral (loopState tr (src.start mach) i).ctx kind
      (litTarget (loopState tr (src.start mach) i).inprx w)
      (loopState tr (src.start mach) i).outprx := by
    rw [copiesLiteral_loopState hi, ht]
    exact hnear
  obtain ⟨hforward,pad,d,hpad,hwords,htarget,hoff,⟨hlo,hhi⟩,hsign⟩ := litPlan_near hk hstay h4 hp
  have hat := wordsAt_code hi him hforward hrun
  have hdec := decode_litWord hd hk hlo hhi
  have hlen : (nops pad++[litWord (litKindMask kind) w d]).length = pad+1 := by
    rw [List.length_append, nops_length]
    rfl
  rw [code_succ src mach hi him]
  rw [hwords] at hat ⊢
  -- the distance keeps its sign over the padding
  have hkind : emittedKind (src.start mach).ctx kind (literalModulo (wordAt src.rx i) imm)
      (src.code mach i) = if 0 ≤ d.toInt then some kind else negativeKind kind := by
    rw [ht] at hsign
    simp only [emittedKind, hnear, false_or]
    exact if_congr hsign.symm rfl rfl
  rw [hkind]
  cases hemit : (if 0 ≤ d.toInt then some kind else negativeKind kind) with
  | none =>
    rw [hemit] at hdec
    rw [hlen]
    exact fun f => not_computes_unallocated hpad hdec hat
  | some kind' =>
    rw [hemit] at hdec hkind
    obtain ⟨hk',-,hsize⟩ := emittedKind_spec hk hkind
    have hcode := computes_nearLoad hk' hpad hdec hoff hat
    change wordAt (src.code mach i) pad+d = _ at htarget
    rw [htarget, ht, hlit.value_relocated hsize hrun] at hcode
    refine ⟨firstLoad_of_words hpad (by decide) hdec hat,?_⟩
    rw [hlen]
    exact hcode

/-- The emitted code is a load that leaves one value in the register, or gets stuck. -/
theorem emitted_loads :
    match emittedKind (src.start mach).ctx kind (literalModulo (wordAt src.rx i) imm)
      (src.code mach i) with
    | some kind' => FirstLoad mach'.mem (src.code mach i) (src.code mach (i+1)) kind' rt ∧
        Computes mach'.mem (src.code mach i) (src.code mach (i+1))
          (place kind'.vector rt (kind'.value mach.mem (literalModulo (wordAt src.rx i) imm)))
    | none => ∀ f, ¬Computes mach'.mem (src.code mach i) (src.code mach (i+1)) f := by
  by_cases hfar : CopiesLiteral (src.start mach).ctx kind (literalModulo (wordAt src.rx i) imm)
      (src.code mach i)
  · have hcopy := emitted_copy hi hw hd hk hlit hrun hfar
    simp only [emittedKind, hfar, true_or, ↓reduceIte]
    exact hcopy
  · exact emitted_near hi hw hd hk hlit hrun hfar

end Emitted

/-- The code from `start` to `stop` is a load of the same kind into the same register, and it does
what the load of the literal `a` of `m₀` does. -/
structure KeepsLoad (m : Mem) (start stop : Addr) (m₀ : Mem) (kind : LitKind) (a : Addr)
    (rt : BitVec 5) : Prop where
  load : FirstLoad m start stop kind rt
  value : Computes m start stop (loadLitFrom m₀ kind a rt)

theorem keepsLoad_iff (hi : i < n) (hw : mach.mem.read32 (wordAt src.rx i) = w)
    (hd : decode w = .ldrLit kind imm rt) (hk : kind ≠ .prfm)
    (hlit : LiteralAt slot kind (literalModulo (wordAt src.rx i) imm)) {mach' : Machine}
    (hrun : fixInstructions tr mach src.rw src.rx n slot.rw slot.rx = .ok mach') :
    KeepsLoad mach'.mem (src.code mach i) (src.code mach (i+1)) mach.mem kind
        (wordAt src.rx i+wordOffset imm) rt ↔
      emittedKind (src.start mach).ctx kind (literalModulo (wordAt src.rx i) imm)
          (src.code mach i) = some kind ∧
        (kind.vector = false ∧ rt = 31 ∨
          kind.value mach.mem (literalModulo (wordAt src.rx i) imm) =
            kind.value mach.mem (wordAt src.rx i+wordOffset imm)) := by
  have hloads := emitted_loads hi hw hd hk hlit hrun
  have hfun : loadLitFrom mach.mem kind (wordAt src.rx i+wordOffset imm) rt =
      place kind.vector rt (kind.value mach.mem (wordAt src.rx i+wordOffset imm)) := by
    funext c
    exact loadLitFrom_eq hk
  -- a value for a general register is as wide as the register
  have hvalues (x y : Addr) : (if kind.vector = true then
      kind.value mach.mem x = kind.value mach.mem y else
      (kind.value mach.mem x).setWidth 64 = (kind.value mach.mem y).setWidth 64) ↔
        kind.value mach.mem x = kind.value mach.mem y := by
    cases hv : kind.vector with
    | true => simp
    | false =>
      simp only [Bool.false_eq_true, ↓reduceIte]
      constructor
      · intro h
        rw [← value_setWidth hv, h, value_setWidth hv]
      · intro h
        rw [h]
  cases hemit : emittedKind (src.start mach).ctx kind (literalModulo (wordAt src.rx i) imm)
      (src.code mach i) with
  | none =>
    rw [hemit] at hloads
    simp only [reduceCtorEq, false_and, iff_false]
    exact fun h => hloads _ h.value
  | some kind' =>
    rw [hemit] at hloads
    obtain ⟨hfirst,hcode⟩ := hloads
    constructor
    · rintro ⟨hload,hvalue⟩
      obtain rfl := hfirst.unique hload
      rw [hfun] at hvalue
      refine ⟨rfl,?_⟩
      rw [← hvalues]
      exact hcode.place_iff.mp hvalue
    · rintro ⟨hsame,hcond⟩
      cases hsame
      refine ⟨hfirst,?_⟩
      rw [hfun]
      apply hcode.place_iff.mpr
      rwa [hvalues]

end Final

/-- A relocated literal load keeps its kind, its register and its value exactly when its size
bits are safe (the literal is copied, or not behind the code, or the load is one that a negative
distance leaves alone) and the handler finds the literal (what is at the address without the
sign is the same, or there is no register to load). -/
theorem literal_load_kept_iff {tr : Addr → Addr} {slot : Slot tr} {n i : ℕ}
    (src : Source tr n slot) (mach : Machine) (hi : i < n) {kind : LitKind} {imm : BitVec 19}
    {rt : BitVec 5} (hd : decode (mach.mem.read32 (wordAt src.rx i)) = .ldrLit kind imm rt)
    (hk : kind ≠ .prfm) (hlit : LiteralAt slot kind (literalModulo (wordAt src.rx i) imm)) :
    ∃ mach', fixInstructions tr mach src.rw src.rx n slot.rw slot.rx = .ok mach' ∧
      (∀ k ≤ n, fixLoop tr k (src.start mach) = .ok (loopState tr (src.start mach) k)) ∧
      fixLoadlit tr (loopState tr (src.start mach) i) =
        .ok (some (loopState tr (src.start mach) (i+1))) ∧
      (KeepsLoad mach'.mem (src.code mach i) (src.code mach (i+1)) mach.mem kind
          (wordAt src.rx i+wordOffset imm) rt ↔
        emittedKind (src.start mach).ctx kind (literalModulo (wordAt src.rx i) imm)
            (src.code mach i) = some kind ∧
          (kind.vector = false ∧ rt = 31 ∨
            kind.value mach.mem (literalModulo (wordAt src.rx i) imm) =
              kind.value mach.mem (wordAt src.rx i+wordOffset imm))) := by
  obtain ⟨mach',hrun,-⟩ := fixInstructions_overlay src mach
  have hc := src.count
  have hret := (@fixLoadlit_returns tr slot n i src mach _ kind imm rt hi (by omega) rfl hd hk).2
  exact ⟨mach',hrun,fun k hk => (loop_represents mach hk).1,hret,
    keepsLoad_iff hi rfl hd hk hlit hrun⟩

theorem nearViews_literal (kind : LitKind) :
    LiteralAt nearViewsSlot kind (literalModulo 0x1000 0x100) := by
  constructor <;> cases kind <;> decide

/-- `LDR X0, #0x400` keeps its value. -/
theorem literal_load_kept_x :
    ∃ mach', fixInstructions nearViews (twoWords 0x58002000 0xd503201f) 0x01001000 0x1000 2
        0x01020000 0x20000 = .ok mach' ∧
      KeepsLoad mach'.mem (nearViewsSource.code (twoWords 0x58002000 0xd503201f) 0)
        (nearViewsSource.code (twoWords 0x58002000 0xd503201f) 1)
        (twoWords 0x58002000 0xd503201f).mem .x 0x1400 0 := by
  obtain ⟨h0,-⟩ := twoWords_read 0x58002000 0xd503201f
  obtain ⟨mach',hrun,-,-,hiff⟩ := @literal_load_kept_iff nearViews nearViewsSlot 2 0
    nearViewsSource (twoWords 0x58002000 0xd503201f) (by decide) .x 0x100 0
    ((congrArg decode h0).trans (by decide)) (by decide) (nearViews_literal .x)
  refine ⟨mach',hrun,hiff.mpr ⟨?_,Or.inr rfl⟩⟩
  have hcode : nearViewsSource.code (twoWords 0x58002000 0xd503201f) 0 = 0x20000 := rfl
  rw [hcode]
  decide

/-- `LDR W0, #0x400` becomes a load of X0. -/
theorem literal_load_widened :
    ∃ mach', fixInstructions nearViews (twoWords 0x18002000 0xd503201f) 0x01001000 0x1000 2
        0x01020000 0x20000 = .ok mach' ∧ decode 0x18002000 = .ldrLit .w 0x100 0 ∧
      ¬KeepsLoad mach'.mem (nearViewsSource.code (twoWords 0x18002000 0xd503201f) 0)
        (nearViewsSource.code (twoWords 0x18002000 0xd503201f) 1)
        (twoWords 0x18002000 0xd503201f).mem .w 0x1400 0 := by
  obtain ⟨h0,-⟩ := twoWords_read 0x18002000 0xd503201f
  obtain ⟨mach',hrun,-⟩ := fixInstructions_overlay nearViewsSource (twoWords 0x18002000 0xd503201f)
  refine ⟨mach',hrun,by decide,?_⟩
  intro hkept
  have hiff := @keepsLoad_iff nearViews nearViewsSlot 2 0 nearViewsSource
    (twoWords 0x18002000 0xd503201f) _ .w 0x100 0 (by decide) h0 (by decide) (by decide)
    (nearViews_literal .w) mach' hrun
  have hcode : nearViewsSource.code (twoWords 0x18002000 0xd503201f) 0 = 0x20000 := rfl
  have hemit := (hiff.mp hkept).1
  rw [hcode] at hemit
  exact absurd hemit (by decide)

end Zeldar
