import Zeldar.MemRange
import Zeldar.VirtmemSpec

namespace Zeldar

/-- One call that maps or unmaps: `size` bytes of `ro` at `rw`. -/
structure Piece where
  rw : Addr
  ro : Addr
  size : BitVec 64
  deriving DecidableEq, Repr

/-- What the constructors and destructors have done: the search, with the state
of the kernel it saw, the reservations, the pieces of a window mapped or
unmapped, and cache maintenance. -/
inductive Act (σ : Type)
  | findAslr (s : σ) (a : Addr) (size : BitVec 64)
  | addReservation (rv : Addr)
  | mapWindow (c : Claim) (pieces : List Piece)
  | dCacheFlush (a : Addr) (size : BitVec 64)
  | iCacheInvalidate (a : Addr) (size : BitVec 64)
  | unmapWindow (c : Claim) (pieces : List Piece)
  | removeReservation (rv : Addr)

structure World (σ : Type) where
  kernel : σ
  vm : Virtmem
  log : List (Act σ)

structure RwPages where
  claim : Claim
  owner : Bool
  deriving DecidableEq, Repr

/-- The bytes are equal; a byte that is not mapped faults. -/
def memcmpEq (load : Addr → Option (BitVec 8)) : Addr → Addr → ℕ → Except Halt Bool
  | _,_,0 => .ok true
  | a,b,n+1 =>
    match load a,load b with
    | some x,some y => if x = y then memcmpEq load (a+1) (b+1) n else .ok false
    | _,_ => .error .fault

/-- A callback that makes one call per segment, with the window at `alignedRw`. -/
def pieceCall {σ : Type} (call : σ → Addr → Addr → BitVec 64 → Except Result σ)
    (alignedRw : Addr) (g : Segment) (s : σ × List Piece) : Except Halt (σ × List Piece) := do
  let rw := alignedRw+g.offset
  let ro := g.address
  let kernel ← abortUnless (call s.1 rw ro g.length)
  return (kernel,s.2++[⟨rw,ro,g.length⟩])

section RwPages

variable {σ : Type} (p : Platform σ) (fuel : ℕ)

/-- `ForEachMemRange` over a range, with one call per segment. -/
def forEachPiece (call : σ → Addr → Addr → BitVec 64 → Except Result σ) (alignedRw : Addr)
    (start : Addr) (length : BitVec 64) (s : σ) : Except Halt (σ × List Piece) :=
  forEachMemRange (fun s => p.svcQueryMemory s.1) (pieceCall call alignedRw) fuel start length
    (s,[])

/-- The constructor up to its last assertion. -/
def rwPagesMap (ro : Addr) (size : BitVec 64) (w : World σ) :
    Except Halt (RwPages × World σ) := do
  let claim : Claim := { Claim.empty with ro := ro, size := size }
  let (alignedRw,vm) ← virtmemFindAslr p w.kernel w.vm fuel claim.getAlignedSize 0
  exlAssert (alignedRw ≠ 0)
  let (reserve,vm) ← virtmemAddReservation p w.kernel vm alignedRw claim.getAlignedSize
  exlAssert (reserve ≠ 0)
  let claim := { claim with rwReserve := reserve }
  let (kernel,pieces) ← forEachPiece p fuel p.svcMapProcessMemory alignedRw claim.getAlignedRo
    claim.getAlignedSize w.kernel
  let claim := { claim with rw := alignedRw+(ro-claim.getAlignedRo) }
  return (⟨claim,true⟩,⟨kernel,vm,w.log++[.findAslr w.kernel alignedRw claim.getAlignedSize,
    .addReservation reserve,.mapWindow claim pieces]⟩)

/-- `RwPages(ro,size)`. -/
def rwPages (ro : Addr) (size : BitVec 64) (w : World σ) : Except Halt (RwPages × World σ) := do
  let (obj,w) ← rwPagesMap p fuel ro size w
  exlAssert (← memcmpEq (p.load w.kernel) obj.claim.ro obj.claim.rw size.toNat)
  return (obj,w)

/-- `~RwPages`. -/
def rwPagesDestroy (obj : RwPages) (w : World σ) : Except Halt (World σ) :=
  if !obj.owner then .ok w
  else do
    let claim := obj.claim
    -- the memory map is asked again, now for what is to be unmapped
    let (kernel,pieces) ← forEachPiece p fuel p.svcUnmapProcessMemory claim.getAlignedRw
      claim.getAlignedRo claim.getAlignedSize w.kernel
    let vm ← virtmemRemoveReservation w.vm claim.rwReserve
    return ⟨kernel,vm,w.log++[.dCacheFlush claim.rw claim.size,.iCacheInvalidate claim.ro claim.size,
      .unmapWindow claim pieces,.removeReservation claim.rwReserve]⟩

end RwPages

/-- The piece of a segment. -/
def pieceOf (alignedRw : Addr) (g : Segment) : Piece := ⟨alignedRw+g.offset,g.address,g.length⟩

/-- The calls on the pieces, one after another. -/
def callPieces {σ : Type} (call : σ → Addr → Addr → BitVec 64 → Except Result σ)
    (pieces : List Piece) (s : σ) : Except Result σ :=
  pieces.foldlM (fun s q => call s q.rw q.ro q.size) s

/-- Calls on the segments of a range, with the window at `alignedRw`, leave the
regions that are reported for the range as they are. -/
def Platform.KeepsRange {σ : Type} (p : Platform σ)
    (call : σ → Addr → Addr → BitVec 64 → Except Result σ) (l : Layout) (start : Addr)
    (length : BitVec 64) (alignedRw : Addr) : Prop :=
  ∀ g ∈ l.segments start length, ∀ s s',
    l.Answers start.toNat (start.toNat+length.toNat) (p.svcQueryMemory s) →
    call s (alignedRw+g.offset) g.address g.length = .ok s' →
    l.Answers start.toNat (start.toNat+length.toNat) (p.svcQueryMemory s')

section Spec

variable {σ : Type} {p : Platform σ} {fuel : ℕ} {w w' : World σ}

/-- The calls on a list that ends in `q`: those before it, and then the one on `q`. -/
theorem callPieces_concat {call : σ → Addr → Addr → BitVec 64 → Except Result σ}
    {pieces : List Piece} {q : Piece} {s s1 s' : σ} (h : callPieces call pieces s = .ok s1)
    (hq : call s1 q.rw q.ro q.size = .ok s') : callPieces call (pieces++[q]) s = .ok s' := by
  unfold callPieces at h ⊢
  rw [List.foldlM_append, h]
  change ([q].foldlM (fun s q => call s q.rw q.ro q.size) s1 : Except Result σ) = .ok s'
  rw [List.foldlM_cons, hq]
  rfl

/-- A callback adds one piece to those that have led to the kernel's state. -/
theorem pieceCall_calls {call : σ → Addr → Addr → BitVec 64 → Except Result σ}
    {alignedRw : Addr} {g : Segment} {s0 : σ} {s s' : σ × List Piece}
    (hs : callPieces call s.2 s0 = .ok s.1) (h : pieceCall call alignedRw g s = .ok s') :
    callPieces call s'.2 s0 = .ok s'.1 := by
  obtain ⟨k,hk,h⟩ := bind_ok h
  injection h with h
  subst h
  exact callPieces_concat hs (abortUnless_ok hk)

/-- Whatever the kernel reports, a walk that ends has made the calls on the pieces it lists, in
their order. -/
theorem forEachPiece_calls {call : σ → Addr → Addr → BitVec 64 → Except Result σ}
    {alignedRw start : Addr} {length : BitVec 64} {s : σ} {r : σ × List Piece}
    (h : forEachPiece p fuel call alignedRw start length s = .ok r) :
    callPieces call r.2 s = .ok r.1 := by
  have hloop : ∀ fuel meminfo (s1 : σ × List Piece), callPieces call s1.2 s = .ok s1.1 →
      forEachMemRangeLoop (fun s => p.svcQueryMemory s.1) (pieceCall call alignedRw) start
        (start+length) fuel meminfo s1 = .ok r → callPieces call r.2 s = .ok r.1 := by
    intro fuel
    induction fuel with
    | zero =>
      intro meminfo s1 _ h
      cases h
    | succ fuel ih =>
      intro meminfo s1 hs h
      obtain ⟨meminfo,_,h⟩ := bind_ok h
      obtain ⟨s2,hcall,h⟩ := bind_ok h
      have hs2 := pieceCall_calls hs hcall
      split at h
      · exact ih meminfo s2 hs2 h
      · injection h with h
        rw [← h]
        exact hs2
  exact hloop fuel _ (s,[]) rfl h

theorem foldlM_pieceCall {call : σ → Addr → Addr → BitVec 64 → Except Result σ}
    {alignedRw : Addr} {segments : List Segment} {s s' : σ × List Piece}
    (h : segments.foldlM (fun s g => pieceCall call alignedRw g s) s = .ok s') :
    s'.2 = s.2++segments.map (pieceOf alignedRw) := by
  induction segments generalizing s with
  | nil =>
    injection h with h
    rw [← h, List.map_nil, List.append_nil]
  | cons g gs ih =>
    obtain ⟨s1,hstep,hrest⟩ := bind_ok h
    obtain ⟨k,_,hstep⟩ := bind_ok hstep
    injection hstep with hstep
    subst hstep
    rw [ih hrest, List.map_cons, List.append_assoc]
    rfl

/-- The calls cover the range piece by piece, whatever they do. -/
theorem forEachPiece_pieces (l : Layout)
    {call : σ → Addr → Addr → BitVec 64 → Except Result σ} {alignedRw start : Addr}
    {length : BitVec 64} {s : σ} {r : σ × List Piece} (hlength : 0 < length.toNat)
    (htop : start.toNat+length.toNat ≤ l.top) (hfuel : l.regions.length ≤ fuel)
    (hans : l.Answers start.toNat (start.toNat+length.toNat) (p.svcQueryMemory s))
    (hkeep : p.KeepsRange call l start length alignedRw)
    (h : forEachPiece p fuel call alignedRw start length s = .ok r) :
    r.2 = (l.segments start length).map (pieceOf alignedRw) := by
  have hstep : ∀ g ∈ l.segments start length, ∀ s s' : σ × List Piece,
      l.Answers start.toNat (start.toNat+length.toNat) (p.svcQueryMemory s.1) →
      pieceCall call alignedRw g s = .ok s' →
      l.Answers start.toNat (start.toNat+length.toNat) (p.svcQueryMemory s'.1) := by
    intro g hg s s' hs hcall
    obtain ⟨k,hk,hcall⟩ := bind_ok hcall
    injection hcall with hcall
    subst hcall
    exact hkeep g hg s.1 k hs (abortUnless_ok hk)
  have hfold := @forEachMemRange_eq (σ × List Piece) (fun s => p.svcQueryMemory s.1)
    (pieceCall call alignedRw) l start length _ hlength htop (fun s hs => hs) hstep fuel hfuel
    (s,[]) hans
  unfold forEachPiece at h
  rw [hfold] at h
  rw [foldlM_pieceCall h, List.nil_append]

/-- Everything a constructor that reaches its last assertion has done. -/
structure Mapped (p : Platform σ) (fuel : ℕ) (ro : Addr) (size : BitVec 64) (w w' : World σ)
    (alignedRw : Addr) (vm : Virtmem) (pieces : List Piece) (claim : Claim) : Prop where
  ro_eq : claim.ro = ro
  size_eq : claim.size = size
  rw_eq : claim.rw = alignedRw+(ro-alignDown ro pageSize)
  found : virtmemFindAslr p w.kernel w.vm fuel (alignUp size pageSize) 0 = .ok (alignedRw,vm)
  found_ne : alignedRw ≠ 0
  reserved : virtmemAddReservation p w.kernel vm alignedRw (alignUp size pageSize) =
    .ok (claim.rwReserve,w'.vm)
  reserved_ne : claim.rwReserve ≠ 0
  mapped : forEachPiece p fuel p.svcMapProcessMemory alignedRw (alignDown ro pageSize)
    (alignUp size pageSize) w.kernel = .ok (w'.kernel,pieces)
  calls : callPieces p.svcMapProcessMemory pieces w.kernel = .ok w'.kernel
  log_eq : w'.log = w.log++[.findAslr w.kernel alignedRw (alignUp size pageSize),
    .addReservation claim.rwReserve,.mapWindow claim pieces]

theorem rwPagesMap_ok {ro : Addr} {size : BitVec 64} {obj : RwPages}
    (h : rwPagesMap p fuel ro size w = .ok (obj,w')) :
    obj.owner = true ∧ ∃ alignedRw vm pieces,
      Mapped p fuel ro size w w' alignedRw vm pieces obj.claim := by
  obtain ⟨⟨alignedRw,vm⟩,hfound,h⟩ := bind_ok h
  obtain ⟨_,hne,h⟩ := bind_ok h
  obtain ⟨⟨reserve,vm1⟩,hreserved,h⟩ := bind_ok h
  obtain ⟨_,hrne,h⟩ := bind_ok h
  obtain ⟨⟨kernel,pieces⟩,hmapped,h⟩ := bind_ok h
  injection h with h
  obtain ⟨rfl,rfl⟩ := Prod.mk.inj h
  exact ⟨rfl,alignedRw,vm,pieces,rfl,rfl,rfl,hfound,of_decide_eq_true (exlAssert_ok hne),
    hreserved,of_decide_eq_true (exlAssert_ok hrne),hmapped,forEachPiece_calls hmapped,rfl⟩

theorem rwPages_ok {ro : Addr} {size : BitVec 64} {obj : RwPages}
    (h : rwPages p fuel ro size w = .ok (obj,w')) :
    rwPagesMap p fuel ro size w = .ok (obj,w') := by
  obtain ⟨⟨obj1,w1⟩,hmap,h⟩ := bind_ok h
  obtain ⟨b,_,h⟩ := bind_ok h
  obtain ⟨_,_,h⟩ := bind_ok h
  injection h with h
  obtain ⟨rfl,rfl⟩ := Prod.mk.inj h
  exact hmap

/-- Everything the destructor of an owner has done: the walk over the window, with the calls that
it makes, and the removal of the reservation. -/
structure Unmapped (p : Platform σ) (fuel : ℕ) (w w' : World σ) (pieces : List Piece)
    (claim : Claim) : Prop where
  walked : forEachPiece p fuel p.svcUnmapProcessMemory claim.getAlignedRw claim.getAlignedRo
    claim.getAlignedSize w.kernel = .ok (w'.kernel,pieces)
  calls : callPieces p.svcUnmapProcessMemory pieces w.kernel = .ok w'.kernel
  removed : virtmemRemoveReservation w.vm claim.rwReserve = .ok w'.vm
  log_eq : w'.log = w.log++[.dCacheFlush claim.rw claim.size,
    .iCacheInvalidate claim.ro claim.size,.unmapWindow claim pieces,
    .removeReservation claim.rwReserve]

theorem rwPagesDestroy_ok {obj : RwPages} (howner : obj.owner = true)
    (h : rwPagesDestroy p fuel obj w = .ok w') :
    ∃ pieces, Unmapped p fuel w w' pieces obj.claim := by
  have hnot : ¬(!obj.owner) = true := by rw [howner]; decide
  unfold rwPagesDestroy at h
  rw [if_neg hnot] at h
  obtain ⟨⟨kernel,pieces⟩,hunmap,h⟩ := bind_ok h
  obtain ⟨vm,hremove,h⟩ := bind_ok h
  injection h with h
  subst h
  exact ⟨pieces,hunmap,forEachPiece_calls hunmap,hremove,rfl⟩

/-- The destructor finds the base of the window again from the address of the
data in it. -/
theorem Mapped.getAlignedRw_eq {ro : Addr} {size : BitVec 64} {alignedRw : Addr} {vm : Virtmem}
    {pieces : List Piece} {claim : Claim} (h : Mapped p fuel ro size w w' alignedRw vm pieces claim)
    (haslr : w.vm.AslrOk) : claim.getAlignedRw = alignedRw := by
  have hal := (virtmemFindAslr_inside haslr h.found h.found_ne).1
  apply BitVec.eq_of_toNat_eq
  rw [Claim.getAlignedRw, h.rw_eq, alignDown_toNat, BitVec.toNat_add, BitVec.toNat_sub,
    alignDown_toNat]
  have h1 := alignedRw.isLt
  have h2 := ro.isLt
  omega

end Spec

end Zeldar
