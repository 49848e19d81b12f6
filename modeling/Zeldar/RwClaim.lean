import Zeldar.ByteMem
import Zeldar.Tiling

namespace Zeldar

def pageSize : BitVec 64 := 0x1000

def alignDown (x a : BitVec 64) : BitVec 64 := x &&& ~~~(a-1)

def alignUp (x a : BitVec 64) : BitVec 64 := (x+(a-1)) &&& ~~~(a-1)

structure Claim where
  ro : Addr
  rw : Addr
  size : BitVec 64
  rwReserve : Addr
  deriving DecidableEq, Repr

namespace Claim

/-- A value-initialised claim. -/
def empty : Claim := ⟨0,0,0,0⟩

def getAlignedRo (c : Claim) : Addr := alignDown c.ro pageSize

def getAlignedRw (c : Claim) : Addr := alignDown c.rw pageSize

def getAlignedSize (c : Claim) : BitVec 64 := alignUp c.size pageSize

end Claim

theorem alignDown_toNat (x : BitVec 64) :
    (alignDown x pageSize).toNat = x.toNat-x.toNat%4096 :=
  roundDown_toNat x 0xfff 12 rfl

theorem alignDown_aligned (x : BitVec 64) : (alignDown x pageSize).toNat%4096 = 0 := by
  rw [alignDown_toNat]
  omega

theorem alignUp_toNat (x : BitVec 64) :
    (alignUp x pageSize).toNat = (x.toNat+4095)%2^64-(x.toNat+4095)%2^64%4096 := by
  have h := alignDown_toNat (x+0xfff)
  have hx : (x+0xfff).toNat = (x.toNat+4095)%2^64 := by bv_omega
  rw [hx] at h
  exact h

theorem alignUp_aligned (x : BitVec 64) : (alignUp x pageSize).toNat%4096 = 0 := by
  rw [alignUp_toNat]
  omega

theorem alignUp_alignUp (x : BitVec 64) :
    alignUp (alignUp x pageSize) pageSize = alignUp x pageSize := by
  have ha := alignUp_aligned x
  have hlt := (alignUp x pageSize).isLt
  apply BitVec.eq_of_toNat_eq
  rw [alignUp_toNat (alignUp x pageSize)]
  generalize (alignUp x pageSize).toNat = n at ha hlt
  omega

namespace Claim

/-- The two tests of an offset that `InRo` and `InRw` make; it is signed in the
first and unsigned in the second. -/
def within (c : Claim) (offset : BitVec 64) : Bool :=
  if offset.slt 0 then false
  else if c.size ≤ offset then false
  else true

section Source
variable (c : Claim) (address : Addr)

def roToOffset : BitVec 64 := c.ro-address

def rwToOffset : BitVec 64 := c.rw-address

def roToRw : Addr := c.rw+c.roToOffset address

def rwToRo : Addr := c.rwToOffset address+c.ro

def inRo : Bool := c.within (c.roToOffset address)

def inRw : Bool := c.within (c.rwToOffset address)

end Source

def roSpan (c : Claim) : Span ℕ := ⟨c.ro.toNat,c.ro.toNat+c.size.toNat⟩

def rwSpan (c : Claim) : Span ℕ := ⟨c.rw.toNat,c.rw.toNat+c.size.toNat⟩

/-- A size that is no negative number, and ranges that do not wrap. -/
structure Proper (c : Claim) : Prop where
  size_lt : c.size.toNat < 2^63
  ro_le : c.ro.toNat+c.size.toNat ≤ 2^64
  rw_le : c.rw.toNat+c.size.toNat ≤ 2^64

/-- The helpers are right about one address. -/
structure AliasAt (c : Claim) (a : Addr) : Prop where
  inRo : c.inRo a = true ↔ c.roSpan.Mem a.toNat
  inRw : c.inRw a = true ↔ c.rwSpan.Mem a.toNat
  roToRw : c.roSpan.Mem a.toNat →
    c.roToRw a = c.rw+(a-c.ro) ∧ c.rwSpan.Mem (c.roToRw a).toNat
  rwToRo : c.rwSpan.Mem a.toNat → c.rwToRo a = c.ro+(a-c.rw)

/-- The translations are the order isomorphism of the two ranges. -/
structure AliasBijection (c : Claim) : Prop where
  every : ∀ a, c.AliasAt a
  ro_inverse : ∀ a, c.roSpan.Mem a.toNat → c.rwToRo (c.roToRw a) = a
  rw_inverse : ∀ a, c.rwSpan.Mem a.toNat → c.roToRw (c.rwToRo a) = a
  ro_order : ∀ a b, c.roSpan.Mem a.toNat → c.roSpan.Mem b.toNat →
    (c.roToRw a ≤ c.roToRw b ↔ a ≤ b)
  rw_order : ∀ a b, c.rwSpan.Mem a.toNat → c.rwSpan.Mem b.toNat →
    (c.rwToRo a ≤ c.rwToRo b ↔ a ≤ b)

/-- An address other than the base, at less than the size before or after it. -/
def Near (c : Claim) (base a : Addr) : Prop :=
  a ≠ base ∧ ((a-base).toNat < c.size.toNat ∨ (base-a).toNat < c.size.toNat)

section Alias
variable {c : Claim}

theorem eq_base_of_not_near {base a : Addr}
    (ha : (Span.mk base.toNat (base.toNat+c.size.toNat)).Mem a.toNat) (hn : ¬c.Near base a) :
    a = base := by
  have hlo : base.toNat ≤ a.toNat := ha.1
  have hhi : a.toNat < base.toNat+c.size.toNat := ha.2
  by_contra hne
  exact hn ⟨hne,Or.inl (by bv_omega)⟩

/-- A range of two bytes or more has an address next to its base. -/
theorem near_succ (h : 2 ≤ c.size.toNat) (base : Addr) : c.Near base (base+1) := by
  refine ⟨by bv_omega,Or.inl ?_⟩
  bv_omega

theorem not_near_of_size_le_one (h : c.size.toNat ≤ 1) (base a : Addr) : ¬c.Near base a := by
  rintro ⟨hne,hlt | hlt⟩ <;> exact hne (by bv_omega)

variable (hc : c.Proper)
include hc

theorem within_iff (offset : BitVec 64) :
    c.within offset = true ↔ offset.toNat < c.size.toNat := by
  have hlt := hc.size_lt
  have hneg : offset.slt 0 = true ↔ 2^63 ≤ offset.toNat := by
    change offset.slt 0#64 = true ↔ 2^63 ≤ offset.toNat
    rw [BitVec.slt_zero_iff_msb_cond, BitVec.msb_eq_decide, decide_eq_true_eq]
  rw [within]
  by_cases hs : offset.slt 0 = true
  · rw [if_pos hs]
    rw [hneg] at hs
    exact ⟨fun h => absurd h Bool.false_ne_true,fun h => absurd h (by omega)⟩
  · rw [if_neg hs]
    by_cases hle : c.size ≤ offset
    · rw [if_pos hle]
      rw [BitVec.le_def] at hle
      exact ⟨fun h => absurd h Bool.false_ne_true,fun h => absurd h (by omega)⟩
    · rw [if_neg hle]
      rw [BitVec.le_def] at hle
      exact ⟨fun _ => by omega,fun _ => rfl⟩

/-- The reversed offset finds the right range only away from its base, or at it. -/
theorem within_sub_iff {base : Addr} (hb : base.toNat+c.size.toNat ≤ 2^64) (a : Addr) :
    (c.within (base-a) = true ↔
      (Span.mk base.toNat (base.toNat+c.size.toNat)).Mem a.toNat) ↔ ¬c.Near base a := by
  have hlt := hc.size_lt
  rw [within_iff hc, Near, Span.Mem, BitVec.toNat_sub, BitVec.toNat_sub, ne_eq,
    ← BitVec.toNat_inj]
  have ha := a.isLt
  dsimp only
  omega

theorem aliasAt_iff (a : Addr) : c.AliasAt a ↔ ¬c.Near c.ro a ∧ ¬c.Near c.rw a := by
  constructor
  · intro h
    exact ⟨(within_sub_iff hc hc.ro_le a).mp h.inRo,(within_sub_iff hc hc.rw_le a).mp h.inRw⟩
  · intro ⟨hro,hrw⟩
    refine ⟨(within_sub_iff hc hc.ro_le a).mpr hro,(within_sub_iff hc hc.rw_le a).mpr hrw,
      fun ha => ?_,fun ha => ?_⟩
    · have he := eq_base_of_not_near ha hro
      have hpos : c.ro.toNat ≤ a.toNat ∧ a.toNat < c.ro.toNat+c.size.toNat := ha
      have hval : c.roToRw a = c.rw := by
        rw [roToRw, roToOffset, he, BitVec.sub_self, BitVec.add_zero]
      rw [hval, he, BitVec.sub_self, BitVec.add_zero]
      refine ⟨rfl,le_rfl,?_⟩
      rw [he] at hpos
      exact Nat.lt_add_of_pos_right (by omega)
    · have he := eq_base_of_not_near ha hrw
      rw [rwToRo, rwToOffset, he, BitVec.sub_self, BitVec.add_zero, BitVec.zero_add]

theorem aliasBijection_iff : c.AliasBijection ↔ c.size.toNat ≤ 1 := by
  constructor
  · intro h
    by_contra hsize
    exact ((aliasAt_iff hc _).mp (h.every (c.ro+1))).1 (near_succ (by omega) c.ro)
  · intro hsize
    -- a range holds its base at most
    have hnear := not_near_of_size_le_one hsize
    have hro : ∀ a, c.roSpan.Mem a.toNat → a = c.ro := fun a ha =>
      eq_base_of_not_near ha (hnear c.ro a)
    have hrw : ∀ a, c.rwSpan.Mem a.toNat → a = c.rw := fun a ha =>
      eq_base_of_not_near ha (hnear c.rw a)
    have hroToRw : c.roToRw c.ro = c.rw := by
      rw [roToRw, roToOffset, BitVec.sub_self, BitVec.add_zero]
    have hrwToRo : c.rwToRo c.rw = c.ro := by
      rw [rwToRo, rwToOffset, BitVec.sub_self, BitVec.zero_add]
    refine ⟨fun a => (aliasAt_iff hc a).mpr ⟨hnear c.ro a,hnear c.rw a⟩,fun a ha => ?_,
      fun a ha => ?_,fun a b ha hb => ?_,fun a b ha hb => ?_⟩
    · rw [hro a ha, hroToRw, hrwToRo]
    · rw [hrw a ha, hrwToRo, hroToRw]
    · rw [hro a ha, hro b hb]
      exact ⟨fun _ => BitVec.le_refl _,fun _ => BitVec.le_refl _⟩
    · rw [hrw a ha, hrw b hb]
      exact ⟨fun _ => BitVec.le_refl _,fun _ => BitVec.le_refl _⟩

end Alias

/-- The translations are the bijection of the two ranges for no claim of more
than one byte; of the addresses, they are right about those that do not lie
next to a base. -/
theorem alias_iff {c : Claim} (hc : c.Proper) :
    (c.AliasBijection ↔ c.size.toNat ≤ 1) ∧
    ∀ a, c.AliasAt a ↔ ¬c.Near c.ro a ∧ ¬c.Near c.rw a :=
  ⟨aliasBijection_iff hc,aliasAt_iff hc⟩

theorem alias_iff_page :
    (AliasBijection ⟨0x8000,0x20000,0x1000,0⟩ ↔ (0x1000#64).toNat ≤ 1) ∧
    ∀ a, AliasAt ⟨0x8000,0x20000,0x1000,0⟩ a ↔
      ¬Near ⟨0x8000,0x20000,0x1000,0⟩ 0x8000 a ∧ ¬Near ⟨0x8000,0x20000,0x1000,0⟩ 0x20000 a :=
  @alias_iff ⟨0x8000,0x20000,0x1000,0⟩ ⟨by decide,by decide,by decide⟩

/-- The second byte of a page is said not to be in it, the byte before the page
is, and the translations return the byte before the alias and before the page. -/
theorem not_aliasBijection_page :
    let c : Claim := ⟨0x8000,0x20000,0x1000,0⟩
    c.Proper ∧ ¬c.AliasBijection ∧ c.roSpan.Mem (0x8001#64).toNat ∧ c.inRo 0x8001 = false ∧
      ¬c.roSpan.Mem (0x7fff#64).toNat ∧ c.inRo 0x7fff = true ∧
      c.roToRw 0x8001 = 0x1ffff ∧ c.rwToRo 0x20001 = 0x7fff := by
  refine ⟨⟨by decide,by decide,by decide⟩,fun h => ?_,⟨by decide,by decide⟩,rfl,?_,rfl,rfl,rfl⟩
  · have hin : inRo ⟨0x8000,0x20000,0x1000,0⟩ 0x8001 = true :=
      (h.every 0x8001).inRo.mpr ⟨by decide,by decide⟩
    exact Bool.false_ne_true hin
  · exact fun h => absurd h.1 (by decide)

end Claim

end Zeldar
