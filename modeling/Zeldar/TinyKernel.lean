import Zeldar.RwPages

namespace Zeldar

def tinyTop : ℕ := 0x100000
def tinyCode : ℕ := 0x10000

def Piece.windowSpan (q : Piece) : Span ℕ := windowAt q.rw q.size

def Piece.holds (q : Piece) (a : Addr) : Bool :=
  q.windowSpan.lo ≤ a.toNat ∧ a.toNat < q.windowSpan.hi ∧ q.windowSpan.hi ≤ tinyTop

/-- The end of the last alias at or before an address. -/
def tinyFloor (pieces : List Piece) (a : ℕ) : ℕ :=
  pieces.foldl (fun m q => if q.windowSpan.hi ≤ a then max m q.windowSpan.hi else m) tinyCode

/-- The start of the first alias after an address. -/
def tinyCeil (pieces : List Piece) (a : ℕ) : ℕ :=
  pieces.foldl (fun m q => if a < q.windowSpan.lo then min m q.windowSpan.lo else m) tinyTop

def tinyQuery (pieces : List Piece) (a : Addr) : Except Result MemoryInfo :=
  if a.toNat < tinyCode then .ok ⟨0,BitVec.ofNat 64 tinyCode,3⟩
  else if tinyTop ≤ a.toNat then .error kernelInvalidMemoryRange
  else match pieces.find? (fun q => q.holds a) with
    | some q => .ok ⟨q.rw,q.size,0xF⟩
    | none =>
      let lo := tinyFloor pieces a.toNat
      .ok ⟨BitVec.ofNat 64 lo,BitVec.ofNat 64 (tinyCeil pieces a.toNat-lo),memTypeUnmapped⟩

/-- An alias is made of code only, and in one unmapped region. -/
def tinyMap (pieces : List Piece) (rw ro : Addr) (size : BitVec 64) :
    Except Result (List Piece) :=
  match tinyQuery pieces rw with
  | .error r => .error r
  | .ok r =>
    if r.type = memTypeUnmapped ∧ 0 < size.toNat ∧ ro.toNat+size.toNat ≤ tinyCode ∧
        rw.toNat+size.toNat ≤ r.addr.toNat+r.size.toNat then
      .ok (pieces++[⟨rw,ro,size⟩])
    else .error kernelInvalidMemoryState

def tinyUnmap (pieces : List Piece) (rw ro : Addr) (size : BitVec 64) :
    Except Result (List Piece) :=
  if ⟨rw,ro,size⟩ ∈ pieces then .ok (pieces.erase ⟨rw,ro,size⟩)
  else .error kernelInvalidMemoryState

def tinyGetInfo : InfoType → BitVec 64
  | .aliasRegionAddress => 0x80000
  | .aliasRegionSize => 0x10000
  | .heapRegionAddress => 0x90000
  | .heapRegionSize => 0x10000
  | .aslrRegionAddress => 0x10000
  | .aslrRegionSize => 0xF0000
  | .stackRegionAddress => 0x10000
  | .stackRegionSize => 0x20000

/-- Two reservation objects, random numbers in sequence, and memory that reads as zero. -/
def tinyPlatform : Platform (List Piece) where
  svcQueryMemory := tinyQuery
  svcMapProcessMemory := tinyMap
  svcUnmapProcessMemory := tinyUnmap
  svcGetInfo := fun _ t => .ok (tinyGetInfo t)
  svcUnmapMemory := fun _ _ _ _ => kernelInvalidMemoryRange
  exlRandom := fun n => BitVec.ofNat 64 (5+n)
  malloc := fun _ nodes =>
    if nodes 0x2000 = none then some 0x2000
    else if nodes 0x2040 = none then some 0x2040
    else none
  load := fun pieces a =>
    if a.toNat < tinyCode ∨ pieces.any (fun q => q.holds a) then some 0 else none

def tinyLayout : Layout where
  regions := [⟨0,BitVec.ofNat 64 tinyCode,3⟩,⟨BitVec.ofNat 64 tinyCode,0xF0000,memTypeUnmapped⟩]
  top := tinyTop
  top_lt := by decide
  tiles := by decide
  aligned := by decide

/-- The globals as `virtmemSetup` leaves them. -/
def tinyVirtmem : Virtmem :=
  { Virtmem.zero with aliasRegion := ⟨0x80000,0x90000⟩, heapRegion := ⟨0x90000,0xA0000⟩,
                      aslrRegion := ⟨0x10000,0x100000⟩, stackRegion := ⟨0x10000,0x30000⟩ }

theorem tinyVirtmem_eq : virtmemSetup tinyPlatform.toKernel [] = .ok tinyVirtmem := rfl

theorem tinyPlatform_fresh : tinyPlatform.Fresh := by
  intro s nodes a h
  simp only [tinyPlatform] at h
  split at h
  · rename_i hfree
    injection h with h
    subst h
    exact ⟨by decide,hfree⟩
  split at h
  · rename_i hfree
    injection h with h
    subst h
    exact ⟨by decide,hfree⟩
  · cases h

theorem tinyFloor_le (pieces : List Piece) {a : ℕ} (h : tinyCode ≤ a) :
    tinyFloor pieces a ≤ a := by
  unfold tinyFloor
  generalize tinyCode = m at h
  induction pieces generalizing m with
  | nil => exact h
  | cons q qs ih =>
    rw [List.foldl_cons]
    refine ih _ ?_
    split
    · rename_i hq
      exact max_le h hq
    · exact h

theorem lt_tinyCeil (pieces : List Piece) {a : ℕ} (h : a < tinyTop) :
    a < tinyCeil pieces a ∧ tinyCeil pieces a ≤ tinyTop := by
  unfold tinyCeil
  suffices hgen : ∀ m, a < m → m ≤ tinyTop →
      a < pieces.foldl (fun m q => if a < q.windowSpan.lo then min m q.windowSpan.lo else m) m ∧
        pieces.foldl (fun m q => if a < q.windowSpan.lo then min m q.windowSpan.lo else m) m ≤
          tinyTop from hgen tinyTop h (le_refl _)
  induction pieces with
  | nil => exact fun m h1 h2 => ⟨h1,h2⟩
  | cons q qs ih =>
    intro m h1 h2
    rw [List.foldl_cons]
    refine ih _ ?_ ?_
    · split
      · rename_i hq
        exact lt_min h1 hq
      · exact h1
    · split
      · exact le_trans (min_le_left _ _) h2
      · exact h2

theorem tinyPlatform_query : tinyPlatform.QuerySound := by
  intro pieces a r h
  change tinyQuery pieces a = .ok r at h
  unfold tinyQuery at h
  split at h
  · rename_i hcode
    injection h with h
    subst h
    exact ⟨⟨Nat.zero_le _,hcode⟩,by decide⟩
  split at h
  · cases h
  rename_i hcode htop
  split at h
  · rename_i q hfind
    injection h with h
    subst h
    have hholds : q.holds a = true := @List.find?_some Piece (fun q => q.holds a) q pieces hfind
    have hq := of_decide_eq_true hholds
    refine ⟨⟨hq.1,hq.2.1⟩,le_trans hq.2.2 (by decide)⟩
  · injection h with h
    subst h
    -- between the pieces the answer is the gap around the address
    have hlo := tinyFloor_le pieces (not_lt.mp hcode)
    obtain ⟨hhi,hle⟩ := lt_tinyCeil pieces (not_le.mp htop)
    have htop : tinyTop < 2^64 := by decide
    have h1 : (BitVec.ofNat 64 (tinyFloor pieces a.toNat)).toNat = tinyFloor pieces a.toNat := by
      rw [BitVec.toNat_ofNat]
      omega
    have h2 : (BitVec.ofNat 64 (tinyCeil pieces a.toNat-tinyFloor pieces a.toNat)).toNat =
        tinyCeil pieces a.toNat-tinyFloor pieces a.toNat := by
      rw [BitVec.toNat_ofNat]
      omega
    simp only [MemoryInfo.span, Span.Mem, h1, h2]
    omega

/-- Whatever has been mapped, the code is reported as in the layout. -/
theorem tinyLayout_answers (pieces : List Piece) {lo hi : ℕ} (h : hi ≤ tinyCode) :
    tinyLayout.Answers lo hi (tinyPlatform.svcQueryMemory pieces) := by
  intro a _ ha
  have hcode : a.toNat < tinyCode := lt_of_lt_of_le ha h
  refine ⟨⟨0,BitVec.ofNat 64 tinyCode,3⟩,List.mem_cons_self,?_,Nat.zero_le _,hcode⟩
  exact if_pos hcode

/-- As long as nothing is mapped, all of the layout is reported. -/
theorem tinyLayout_answers_unmapped {lo hi : ℕ} (h : hi ≤ tinyTop) :
    tinyLayout.Answers lo hi (tinyPlatform.svcQueryMemory []) := by
  intro a _ ha
  by_cases hcode : a.toNat < tinyCode
  · exact tinyLayout_answers [] (le_refl tinyCode) a (Nat.zero_le _) hcode
  have htop : a.toNat < tinyTop := lt_of_lt_of_le ha h
  have hspan : (⟨BitVec.ofNat 64 tinyCode,0xF0000,memTypeUnmapped⟩ : MemoryInfo).span =
      ⟨tinyCode,tinyTop⟩ := by decide
  refine ⟨⟨BitVec.ofNat 64 tinyCode,0xF0000,memTypeUnmapped⟩,
    List.mem_cons_of_mem _ List.mem_cons_self,?_,?_⟩
  · have hgap : (⟨BitVec.ofNat 64 (tinyFloor [] a.toNat),
        BitVec.ofNat 64 (tinyCeil [] a.toNat-tinyFloor [] a.toNat),memTypeUnmapped⟩ :
          MemoryInfo) = ⟨BitVec.ofNat 64 tinyCode,0xF0000,memTypeUnmapped⟩ := by
      change (⟨BitVec.ofNat 64 tinyCode,BitVec.ofNat 64 (tinyTop-tinyCode),memTypeUnmapped⟩ :
        MemoryInfo) = _
      decide
    rw [← hgap]
    exact (if_neg hcode).trans (if_neg (not_le.mpr htop))
  · rw [hspan]
    exact ⟨not_lt.mp hcode,htop⟩

theorem tinyPlatform_aslr : tinyPlatform.AslrSound [] := by
  intro base size hbase hsize
  injection hbase with hbase
  injection hsize with hsize
  subst hbase
  subst hsize
  decide

theorem tinyVirtmem_ok : tinyVirtmem.AslrOk ∧ tinyVirtmem.Holds [] ∧
    ∀ a, tinyVirtmem.nodes a = none :=
  virtmemSetup_ok tinyPlatform_aslr tinyVirtmem_eq

theorem tinyPlatform_keeps (call : List Piece → Addr → Addr → BitVec 64 →
    Except Result (List Piece)) {start : Addr} {length : BitVec 64} {alignedRw : Addr}
    (h : start.toNat+length.toNat ≤ tinyCode) :
    tinyPlatform.KeepsRange call tinyLayout start length alignedRw :=
  fun _ _ _ s' _ _ => tinyLayout_answers s' h

end Zeldar
