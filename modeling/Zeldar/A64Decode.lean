import Zeldar.A64

namespace Zeldar.A64

section Masks
variable {w m c m' c' : Word}

/-- Two opcode tests exclude each other on the bits `t` they both look at. -/
theorem and_ne_of_and (h : w &&& m = c) (t : Word) (hm : m &&& t = t) (hm' : m' &&& t = t)
    (hne : c &&& t ≠ c' &&& t) : ¬w &&& m' = c' := by
  intro h'
  apply hne
  rw [← h, ← h', BitVec.and_assoc, BitVec.and_assoc, hm, hm']

end Masks

theorem decodeRelative_of_decode {w : Word} {i : Instr} (hd : decode w = i)
    (ho : decodeOther w ≠ i) : decodeRelative w = some i := by
  unfold decode at hd
  cases hr : decodeRelative w with
  | none =>
    rw [hr] at hd
    exact absurd hd ho
  | some j =>
    rw [hr] at hd
    exact congrArg some hd

section Address
variable {w : Word}

theorem decode_adr (h : w &&& 0x9f000000 = 0x10000000) :
    decode w = .adr (w.extractLsb' 5 19++w.extractLsb' 29 2) (w.extractLsb' 0 5) := by
  have h1 : ¬w &&& 0xfc000000 = 0x14000000 :=
    and_ne_of_and h 0x1c000000 (by decide) (by decide) (by decide)
  have h2 : ¬w &&& 0xfc000000 = 0x94000000 :=
    and_ne_of_and h 0x1c000000 (by decide) (by decide) (by decide)
  have h3 : ¬w &&& 0xff000010 = 0x54000000 :=
    and_ne_of_and h 0x1f000000 (by decide) (by decide) (by decide)
  have h4 : ¬w &&& 0x7e000000 = 0x34000000 :=
    and_ne_of_and h 0x1e000000 (by decide) (by decide) (by decide)
  have h5 : ¬w &&& 0x7e000000 = 0x36000000 :=
    and_ne_of_and h 0x1e000000 (by decide) (by decide) (by decide)
  have h6 : ¬w &&& 0x3b000000 = 0x18000000 :=
    and_ne_of_and h 0x1b000000 (by decide) (by decide) (by decide)
  simp only [decode, decodeRelative, h1, h2, h3, h4, h5, h6, h, ↓reduceIte, Option.getD_some]

theorem decode_adrp (h : w &&& 0x9f000000 = 0x90000000) :
    decode w = .adrp (w.extractLsb' 5 19++w.extractLsb' 29 2) (w.extractLsb' 0 5) := by
  have h1 : ¬w &&& 0xfc000000 = 0x14000000 :=
    and_ne_of_and h 0x1c000000 (by decide) (by decide) (by decide)
  have h2 : ¬w &&& 0xfc000000 = 0x94000000 :=
    and_ne_of_and h 0x1c000000 (by decide) (by decide) (by decide)
  have h3 : ¬w &&& 0xff000010 = 0x54000000 :=
    and_ne_of_and h 0x1f000000 (by decide) (by decide) (by decide)
  have h4 : ¬w &&& 0x7e000000 = 0x34000000 :=
    and_ne_of_and h 0x1e000000 (by decide) (by decide) (by decide)
  have h5 : ¬w &&& 0x7e000000 = 0x36000000 :=
    and_ne_of_and h 0x1e000000 (by decide) (by decide) (by decide)
  have h6 : ¬w &&& 0x3b000000 = 0x18000000 :=
    and_ne_of_and h 0x1b000000 (by decide) (by decide) (by decide)
  have h7 : ¬(0x90000000:Word) = 0x10000000 := by decide
  simp only [decode, decodeRelative, h1, h2, h3, h4, h5, h6, h, h7, ↓reduceIte, Option.getD_some]

/-- The instruction neither computes an address nor loads a literal. -/
def absolute (i : Instr) : Bool :=
  match i with
  | .adr _ _ => false
  | .adrp _ _ => false
  | .ldrLit _ _ _ => false
  | _ => true

theorem decodeOther_absolute (w : Word) : absolute (decodeOther w) = true := by
  simp only [decodeOther, apply_ite absolute]
  simp only [absolute, ite_self]

theorem decodeOther_ne {i : Instr} (h : absolute i = false) : decodeOther w ≠ i := by
  rintro rfl
  rw [decodeOther_absolute] at h
  cases h

theorem opcode_of_adr {imm : BitVec 21} {rd : BitVec 5} (hd : decode w = .adr imm rd) :
    w &&& 0x9f000000 = 0x10000000 := by
  have hr := decodeRelative_of_decode hd (decodeOther_ne rfl)
  unfold decodeRelative at hr
  dsimp only at hr
  split_ifs at hr with h1 h2 h3 h4 h5 h6 h7 h8
  all_goals try simp at hr
  exact h7

theorem opcode_of_adrp {imm : BitVec 21} {rd : BitVec 5} (hd : decode w = .adrp imm rd) :
    w &&& 0x9f000000 = 0x90000000 := by
  have hr := decodeRelative_of_decode hd (decodeOther_ne rfl)
  unfold decodeRelative at hr
  dsimp only at hr
  split_ifs at hr with h1 h2 h3 h4 h5 h6 h7 h8
  all_goals try simp at hr
  exact h8

end Address

section Literal
variable {w : Word} {kind : LitKind}

theorem decode_ldrLit (h : w &&& 0x3b000000 = 0x18000000)
    (hk : litKind (w.getLsbD 26) (w.extractLsb' 30 2) = some kind) :
    decode w = .ldrLit kind (w.extractLsb' 5 19) (w.extractLsb' 0 5) := by
  have h1 : ¬w &&& 0xfc000000 = 0x14000000 :=
    and_ne_of_and h 0x38000000 (by decide) (by decide) (by decide)
  have h2 : ¬w &&& 0xfc000000 = 0x94000000 :=
    and_ne_of_and h 0x38000000 (by decide) (by decide) (by decide)
  have h3 : ¬w &&& 0xff000010 = 0x54000000 :=
    and_ne_of_and h 0x3b000000 (by decide) (by decide) (by decide)
  have h4 : ¬w &&& 0x7e000000 = 0x34000000 :=
    and_ne_of_and h 0x3a000000 (by decide) (by decide) (by decide)
  have h5 : ¬w &&& 0x7e000000 = 0x36000000 :=
    and_ne_of_and h 0x3a000000 (by decide) (by decide) (by decide)
  simp only [decode, decodeRelative, h1, h2, h3, h4, h5, h, hk, ↓reduceIte, Option.map_some,
    Option.getD_some]

theorem opcode_of_ldrLit {imm : BitVec 19} {rt : BitVec 5} (hd : decode w = .ldrLit kind imm rt) :
    w &&& 0x3b000000 = 0x18000000 ∧ litKind (w.getLsbD 26) (w.extractLsb' 30 2) = some kind := by
  have hr := decodeRelative_of_decode hd (decodeOther_ne rfl)
  unfold decodeRelative at hr
  dsimp only at hr
  split_ifs at hr with h1 h2 h3 h4 h5 h6 h7 h8
  all_goals try simp at hr
  exact ⟨h6,hr.1⟩

end Literal

section TopByte
variable {w : Word}

/-- The top byte of a literal load. -/
def LitKind.opcode : LitKind → BitVec 8
  | .w => 0x18
  | .x => 0x58
  | .sw => 0x98
  | .prfm => 0xd8
  | .s => 0x1c
  | .d => 0x5c
  | .q => 0x9c

/-- A test of the top byte does not look at the other ones. -/
theorem and_top {t : Word} (ht : t &&& 0x00ffffff = 0) :
    w &&& t = (w.extractLsb' 24 8++0#24) &&& t := by
  apply BitVec.eq_of_getLsbD_eq
  intro i hi
  have hb := congrArg (fun v => v.getLsbD i) ht
  have hm : (0x00ffffff:Word).getLsbD i = decide (i < 24) := by interval_cases i <;> rfl
  simp only [BitVec.getLsbD_and, BitVec.getLsbD_append, BitVec.getLsbD_extractLsb',
    BitVec.getLsbD_zero, BitVec.ofNat_eq_ofNat] at hb ⊢
  grind

/-- The size and register bits of a literal load are in its top byte. -/
theorem byte_size (w : Word) : w.extractLsb' 30 2 = (w.extractLsb' 24 8).extractLsb' 6 2 := by
  apply BitVec.eq_of_getLsbD_eq
  intro i hi
  simp only [BitVec.getLsbD_extractLsb', hi, show 6+i < 8 by omega, decide_true, Bool.true_and,
    ← Nat.add_assoc]

theorem byte_vector (w : Word) : w.getLsbD 26 = (w.extractLsb' 24 8).getLsbD 2 := by
  rw [BitVec.getLsbD_extractLsb']
  rfl

theorem opcode_byte {kind : LitKind} {imm : BitVec 19} {rt : BitVec 5}
    (hd : decode w = .ldrLit kind imm rt) : w.extractLsb' 24 8 = kind.opcode := by
  have hall : ∀ b : BitVec 8, b &&& 0x3b = 0x18 →
      (litKind (b.getLsbD 2) (b.extractLsb' 6 2)).all fun k => b == k.opcode := by decide
  obtain ⟨hop,hk⟩ := opcode_of_ldrLit hd
  have hbyte : w.extractLsb' 24 8 &&& 0x3b = 0x18 := by
    have h := congrArg (fun v => v.extractLsb' 24 8) hop
    rw [BitVec.extractLsb'_and] at h
    exact h
  have h := hall _ hbyte
  rw [← byte_vector, ← byte_size, hk] at h
  simpa using h

theorem decode_of_byte {kind : LitKind} (h : w.extractLsb' 24 8 = kind.opcode) :
    decode w = .ldrLit kind (w.extractLsb' 5 19) (w.extractLsb' 0 5) := by
  apply decode_ldrLit
  · rw [and_top (by decide), h]
    cases kind <;> decide
  · rw [byte_vector, byte_size, h]
    cases kind <;> rfl

/-- The top byte of vector loads with both size bits set is not allocated. -/
theorem decode_unallocated (h : w.extractLsb' 24 8 = 0xdc) : decode w = .other w := by
  have hand {t : Word} (ht : t &&& 0x00ffffff = 0) : w &&& t = 0xdc000000 &&& t := by
    rw [and_top ht, h]
    rfl
  -- every class of the decoder looks at the top byte, and none takes this one
  have hff : w &&& 0xff000000 = 0xdc000000 := hand (by decide)
  have hno (t v : Word) (ht : t &&& 0xff000000 = 0xff000000) (hv : v &&& 0xff000000 ≠ 0xdc000000) :
      ¬w &&& t = v := by
    intro he
    apply hv
    rw [← he, BitVec.and_assoc, ht, hff]
  have hrel : decodeRelative w = none := by
    have hbcond : ¬w &&& 0xff000010 = 0x54000000 := hno _ _ (by decide) (by decide)
    have hfc : w &&& 0xfc000000 = 0xdc000000 := hand (by decide)
    have h7e : w &&& 0x7e000000 = 0x5c000000 := hand (by decide)
    have h3b : w &&& 0x3b000000 = 0x18000000 := hand (by decide)
    simp only [decodeRelative, hfc, hbcond, h7e, h3b, byte_vector, byte_size, h]
    rfl
  have hother : decodeOther w = .other w := by
    have hnop : ¬w = 0xd503201f := by
      rintro rfl
      exact absurd hff (by decide)
    have hbr := hno 0xfffffc1f 0xd61f0000 (by decide) (by decide)
    have hblr := hno 0xfffffc1f 0xd63f0000 (by decide) (by decide)
    have hret := hno 0xfffffc1f 0xd65f0000 (by decide) (by decide)
    have hstur := hno 0xffe00c00 0xf8000000 (by decide) (by decide)
    have hldur := hno 0xffe00c00 0xf8400000 (by decide) (by decide)
    have hstp := hno 0xffc00000 0xa9000000 (by decide) (by decide)
    have hldp := hno 0xffc00000 0xa9400000 (by decide) (by decide)
    have hldr := hno 0xffc00000 0xf9400000 (by decide) (by decide)
    have hadd := hno 0xffc00000 0x91000000 (by decide) (by decide)
    have hsub := hno 0xffc00000 0xd1000000 (by decide) (by decide)
    have hmov := hno 0xffe0ffe0 0xaa0003e0 (by decide) (by decide)
    simp only [decodeOther, hnop, hbr, hblr, hret, hstur, hldur, hstp, hldp, hldr, hadd, hsub,
      hmov, ↓reduceIte]
  rw [decode, hrel]
  exact hother

end TopByte

end Zeldar.A64
