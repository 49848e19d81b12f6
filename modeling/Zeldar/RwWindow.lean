import Mathlib.Tactic.Ring
import Zeldar.TinyKernel

namespace Zeldar

/-- Every byte of the range is at its place in a piece of the window. -/
def Covers (pieces : List Piece) (c : Claim) : Prop :=
  ∀ i < c.size.toNat, ∃ q ∈ pieces,
    (c.rw+BitVec.ofNat 64 i-q.rw).toNat < q.size.toNat ∧
      c.ro+BitVec.ofNat 64 i-q.ro = c.rw+BitVec.ofNat 64 i-q.rw

section Window

variable {σ : Type} {p : Platform σ} {l : Layout} {fuel : ℕ} {ro : Addr} {size : BitVec 64}
  {w w' : World σ}

/-- The range is not empty and lies in the layout, which the kernel reports for
its pages also while the window that the search finds is mapped. -/
structure SourceRange (p : Platform σ) (l : Layout) (fuel : ℕ) (ro : Addr) (size : BitVec 64)
    (w : World σ) : Prop where
  pos : 0 < size.toNat
  top : ro.toNat+size.toNat ≤ l.top
  enough : l.regions.length ≤ fuel
  answers : l.Answers (alignDown ro pageSize).toNat
    ((alignDown ro pageSize).toNat+(alignUp size pageSize).toNat) (p.svcQueryMemory w.kernel)
  keeps : ∀ alignedRw vm,
    virtmemFindAslr p w.kernel w.vm fuel (alignUp size pageSize) 0 = .ok (alignedRw,vm) →
    p.KeepsRange p.svcMapProcessMemory l (alignDown ro pageSize) (alignUp size pageSize) alignedRw

/-- The whole pages from the base of the range are in the layout too. -/
theorem alignedRange_top (l : Layout) {ro : Addr} {size : BitVec 64} (hpos : 0 < size.toNat)
    (htop : ro.toNat+size.toNat ≤ l.top) :
    0 < (alignUp size pageSize).toNat ∧
      (alignDown ro pageSize).toNat+(alignUp size pageSize).toNat ≤ l.top := by
  have h1 := l.top_aligned
  have h2 := l.top_lt
  rw [alignDown_toNat, alignUp_toNat]
  omega

theorem SourceRange.pieces_eq (hs : SourceRange p l fuel ro size w) {alignedRw : Addr}
    {vm : Virtmem} {pieces : List Piece} {claim : Claim}
    (h : Mapped p fuel ro size w w' alignedRw vm pieces claim) :
    pieces = (l.segments (alignDown ro pageSize) (alignUp size pageSize)).map
      (pieceOf alignedRw) := by
  obtain ⟨hpos,htop⟩ := alignedRange_top l hs.pos hs.top
  exact forEachPiece_pieces l hpos htop hs.enough hs.answers (hs.keeps _ _ h.found) h.mapped

/-- The distance of a byte from the start of a piece is the same in the window as
in the range. -/
theorem pieceOf_offset (alignedRw ro base i a : BitVec 64) :
    alignedRw+(ro-base)+i-(alignedRw+(a-base)) = ro+i-a := by
  ring

/-- A window holds its range exactly when the range ends within as many bytes of
its first page as the size rounds up to. -/
theorem Mapped.covers_iff (hs : SourceRange p l fuel ro size w) {alignedRw : Addr}
    {vm : Virtmem} {pieces : List Piece} {claim : Claim}
    (h : Mapped p fuel ro size w w' alignedRw vm pieces claim) :
    Covers pieces claim ↔ ro.toNat%4096+size.toNat ≤ (alignUp size pageSize).toNat := by
  obtain ⟨hpos,htop⟩ := alignedRange_top l hs.pos hs.top
  have hcover := l.segments_exactCover (alignDown_aligned ro) htop
  have htoplt := l.top_lt
  have hbase := alignDown_toNat ro
  have hsize := hs.pos
  have hrange := hs.top
  have hbyte : ∀ i < size.toNat, (ro+BitVec.ofNat 64 i).toNat = ro.toNat+i := by
    intro i hi
    rw [BitVec.toNat_add, BitVec.toNat_ofNat]
    omega
  -- a byte of the range and its alias are equally far into their piece
  have hoffset : ∀ g ∈ l.segments (alignDown ro pageSize) (alignUp size pageSize), ∀ i,
      claim.rw+BitVec.ofNat 64 i-(pieceOf alignedRw g).rw =
        ro+BitVec.ofNat 64 i-g.address := by
    intro g hg i
    simp only [pieceOf, h.rw_eq, hcover.offset g hg]
    exact pieceOf_offset _ _ _ _ _
  rw [hs.pieces_eq h]
  constructor
  · -- the last byte is in a segment, and the segments end where the pages do
    intro hcov
    obtain ⟨q,hq,hlt,_⟩ := hcov (size.toNat-1) (by rw [h.size_eq]; omega)
    obtain ⟨g,hg,rfl⟩ := List.mem_map.mp hq
    rw [hoffset g hg] at hlt
    have hlt' : (ro+BitVec.ofNat 64 (size.toNat-1)-g.address).toNat < g.length.toNat := hlt
    rw [BitVec.toNat_sub, hbyte _ (by omega)] at hlt'
    have hend := (hcover.consecutive.mem_bounds (List.mem_map_of_mem hg)).2.2
    have hlo := (hcover.consecutive.mem_bounds (List.mem_map_of_mem hg)).1
    simp only [Segment.span] at hend hlo
    have hg64 := g.address.isLt
    omega
  · -- a byte of the range lies in some segment, and the piece of that segment maps it
    intro hfits i hi
    rw [h.size_eq] at hi
    obtain ⟨g,hg,hmem⟩ := (hcover.covers (ro.toNat+i)).mpr (by omega)
    have hlo : g.address.toNat ≤ ro.toNat+i := hmem.1
    have hhi : ro.toNat+i < g.address.toNat+g.length.toNat := hmem.2
    refine ⟨pieceOf alignedRw g,List.mem_map_of_mem hg,?_,?_⟩
    · rw [hoffset g hg, BitVec.toNat_sub, hbyte i hi]
      have hg64 := g.address.isLt
      change _ < g.length.toNat
      omega
    · rw [hoffset g hg, h.ro_eq]
      rfl

/-- The window of a constructor that reaches its last assertion holds the range
asked for exactly when the page offset of its address and its size together are
at most the size rounded up to pages. -/
theorem rwPages_covers_iff (hs : SourceRange p l fuel ro size w) {obj : RwPages}
    (h : rwPagesMap p fuel ro size w = .ok (obj,w')) :
    obj.claim.ro = ro ∧ obj.claim.size = size ∧
      ∃ pieces, w'.log.getLast? = some (.mapWindow obj.claim pieces) ∧
        (Covers pieces obj.claim ↔
          ro.toNat%4096+size.toNat ≤ (alignUp size pageSize).toNat) := by
  obtain ⟨_,alignedRw,vm,pieces,hm⟩ := rwPagesMap_ok h
  refine ⟨hm.ro_eq,hm.size_eq,pieces,?_,hm.covers_iff hs⟩
  rw [hm.log_eq]
  simp only [List.getLast?_append, List.getLast?_cons, List.getLast?_nil, Option.getD_none,
    Option.some_or, Option.getD_some]

end Window

theorem tinySourceRange {ro : Addr} {size : BitVec 64} {fuel : ℕ} {w : World (List Piece)}
    (hpos : 0 < size.toNat) (hfuel : 2 ≤ fuel)
    (htop : (alignDown ro pageSize).toNat+(alignUp size pageSize).toNat ≤ tinyCode)
    (hro : ro.toNat+size.toNat ≤ tinyTop) :
    SourceRange tinyPlatform tinyLayout fuel ro size w :=
  ⟨hpos,hro,hfuel,tinyLayout_answers _ htop,fun _ _ _ => tinyPlatform_keeps _ htop⟩

theorem rwPages_covers_iff_fits : ∃ obj w' pieces,
    rwPagesMap tinyPlatform 4 0x1fe0 20 ⟨[],tinyVirtmem,[]⟩ = .ok (obj,w') ∧
      w'.log.getLast? = some (.mapWindow obj.claim pieces) ∧ Covers pieces obj.claim := by
  have hs : SourceRange tinyPlatform tinyLayout 4 0x1fe0 20 ⟨[],tinyVirtmem,[]⟩ :=
    tinySourceRange (by decide) (by decide) (by decide) (by decide)
  obtain ⟨_,_,pieces,hlog,hiff⟩ := rwPages_covers_iff hs rfl
  exact ⟨_,_,pieces,rfl,hlog,hiff.mpr (by decide)⟩

/-- The last twelve of twenty bytes at page offset `0xff8` are outside the
window, and comparing them faults. -/
theorem window_misses_range : ∃ obj w' pieces,
    rwPagesMap tinyPlatform 4 0x1ff8 20 ⟨[],tinyVirtmem,[]⟩ = .ok (obj,w') ∧
      w'.log.getLast? = some (.mapWindow obj.claim pieces) ∧ ¬Covers pieces obj.claim ∧
      rwPages tinyPlatform 4 0x1ff8 20 ⟨[],tinyVirtmem,[]⟩ = .error .fault := by
  refine ⟨⟨⟨0x1ff8,0x15ff8,20,0x2000⟩,true⟩,_,[⟨0x15000,0x1000,0x1000⟩],rfl,rfl,?_,rfl⟩
  intro h
  obtain ⟨q,hq,hlt,_⟩ := h 8 (by decide)
  rw [List.mem_singleton.mp hq] at hlt
  exact absurd hlt (by decide)

/-- Over any layout, `ForEachMemRange` ends and hands its callback the segments
that cover the range exactly; and a destructor that finds the range laid out as
the constructor did unmaps the pieces that were mapped, which are those
segments in the window: the system calls on these pieces, in this order, are what
takes the kernel from its state before to its state after, and the window is
reserved and released with them. -/
theorem mapped_and_unmapped_alike {σ : Type} (p : Platform σ) (l : Layout) :
    (∀ (start : Addr) (length : BitVec 64), start.toNat%4096 = 0 → 0 < length.toNat →
      start.toNat+length.toNat ≤ l.top →
      l.ExactCover start length (l.segments start length) ∧
      ∀ {τ : Type} (query : τ → Addr → Except Result MemoryInfo)
        (callback : Segment → τ → Except Halt τ) (Good : τ → Prop),
        (∀ s, Good s → l.Answers start.toNat (start.toNat+length.toNat) (query s)) →
        (∀ g ∈ l.segments start length, ∀ s s', Good s → callback g s = .ok s' → Good s') →
        ∀ fuel, l.regions.length ≤ fuel → ∀ s, Good s →
          forEachMemRange query callback fuel start length s =
            (l.segments start length).foldlM (fun s g => callback g s) s) ∧
    ∀ (fuel : ℕ) (ro : Addr) (size : BitVec 64) (w w1 w2 w3 : World σ) (obj : RwPages),
      SourceRange p l fuel ro size w → w.vm.AslrOk → rwPages p fuel ro size w = .ok (obj,w1) →
      l.Answers (alignDown ro pageSize).toNat
        ((alignDown ro pageSize).toNat+(alignUp size pageSize).toNat)
        (p.svcQueryMemory w2.kernel) →
      p.KeepsRange p.svcUnmapProcessMemory l (alignDown ro pageSize) (alignUp size pageSize)
        obj.claim.getAlignedRw →
      rwPagesDestroy p fuel obj w2 = .ok w3 →
      ∃ pieces, pieces = (l.segments (alignDown ro pageSize) (alignUp size pageSize)).map
          (pieceOf obj.claim.getAlignedRw) ∧
        callPieces p.svcMapProcessMemory pieces w.kernel = .ok w1.kernel ∧
        callPieces p.svcUnmapProcessMemory pieces w2.kernel = .ok w3.kernel ∧
        (∃ vm, virtmemFindAslr p w.kernel w.vm fuel (alignUp size pageSize) 0 =
            .ok (obj.claim.getAlignedRw,vm) ∧
          virtmemAddReservation p w.kernel vm obj.claim.getAlignedRw (alignUp size pageSize) =
            .ok (obj.claim.rwReserve,w1.vm)) ∧
        virtmemRemoveReservation w2.vm obj.claim.rwReserve = .ok w3.vm ∧
        w1.log = w.log++[.findAslr w.kernel obj.claim.getAlignedRw (alignUp size pageSize),
          .addReservation obj.claim.rwReserve,.mapWindow obj.claim pieces] ∧
        w3.log = w2.log++[.dCacheFlush obj.claim.rw size,.iCacheInvalidate ro size,
          .unmapWindow obj.claim pieces,.removeReservation obj.claim.rwReserve] := by
  refine ⟨?_,?_⟩
  · intro start length hstart hlength htop
    refine ⟨l.segments_exactCover hstart htop,?_⟩
    intro τ query callback Good hgood hkeep fuel hfuel s hs
    exact forEachMemRange_eq l hlength htop hgood hkeep hfuel hs
  · -- both walks of the object are folds over the same segments, so both give the same pieces
    intro fuel ro size w w1 w2 w3 obj hs haslr hmake hans hkeep hdestroy
    obtain ⟨hpos,htop⟩ := alignedRange_top l hs.pos hs.top
    obtain ⟨howner,alignedRw,vm,pieces,hm⟩ := rwPagesMap_ok (rwPages_ok hmake)
    obtain ⟨unmapped,hu⟩ := rwPagesDestroy_ok howner hdestroy
    have hrw : obj.claim.getAlignedRw = alignedRw := hm.getAlignedRw_eq haslr
    have hro : obj.claim.getAlignedRo = alignDown ro pageSize := by
      rw [Claim.getAlignedRo, hm.ro_eq]
    have hsize : obj.claim.getAlignedSize = alignUp size pageSize := by
      rw [Claim.getAlignedSize, hm.size_eq]
    have hunmap := hu.walked
    rw [hro, hsize] at hunmap
    -- what the destructor walks over does not depend on what was mapped
    have heq : unmapped = (l.segments (alignDown ro pageSize) (alignUp size pageSize)).map
        (pieceOf obj.claim.getAlignedRw) :=
      forEachPiece_pieces l hpos htop hs.enough hans hkeep hunmap
    have hpieces := hs.pieces_eq hm
    rw [← hrw] at hpieces
    have hcalls := hu.calls
    rw [heq, ← hpieces] at hcalls
    refine ⟨pieces,hpieces,hm.calls,hcalls,⟨vm,?_,?_⟩,hu.removed,?_,?_⟩
    · rw [hrw]
      exact hm.found
    · rw [hrw]
      exact hm.reserved
    · rw [hm.log_eq, hrw]
    · rw [hu.log_eq, heq, ← hpieces, hm.ro_eq, hm.size_eq]

/-- A walk over the end of the code, and a window that is mapped and unmapped. -/
theorem mapped_and_unmapped_alike_page :
    forEachMemRange (fun _ => tinyPlatform.svcQueryMemory []) (fun g s => .ok (s++[g])) 4 0xF000
        0x2000 [] = .ok [⟨0xF000,0x1000,0⟩,⟨0x10000,0x1000,0x1000⟩] ∧
    ∃ obj w1 w3, rwPages tinyPlatform 4 0x1fe0 20 ⟨[],tinyVirtmem,[]⟩ = .ok (obj,w1) ∧
      rwPagesDestroy tinyPlatform 4 obj w1 = .ok w3 ∧ w1.kernel = [⟨0x15000,0x1000,0x1000⟩] ∧
      callPieces tinyPlatform.svcUnmapProcessMemory [⟨0x15000,0x1000,0x1000⟩] w1.kernel =
        .ok w3.kernel ∧ w3.kernel = [] ∧
      virtmemRemoveReservation w1.vm obj.claim.rwReserve = .ok w3.vm ∧
      .unmapWindow obj.claim [⟨0x15000,0x1000,0x1000⟩] ∈ w3.log := by
  obtain ⟨hwalk,hrun⟩ := mapped_and_unmapped_alike tinyPlatform tinyLayout
  constructor
  · have hall : ∀ _ : List Segment, True → tinyLayout.Answers (0xF000 : Addr).toNat
        ((0xF000 : Addr).toNat+(0x2000 : BitVec 64).toNat) (tinyPlatform.svcQueryMemory []) :=
      fun _ _ => tinyLayout_answers_unmapped (by decide)
    rw [(hwalk 0xF000 0x2000 (by decide) (by decide) (by decide)).2
      (fun _ => tinyPlatform.svcQueryMemory []) (fun g s => .ok (s++[g])) (fun _ => True) hall
      (fun _ _ _ _ _ _ => trivial) 4 (by decide) [] trivial]
    rfl
  · have htop : (alignDown 0x1fe0 pageSize).toNat+(alignUp 20 pageSize).toNat ≤ tinyCode := by
      decide
    have hs : SourceRange tinyPlatform tinyLayout 4 0x1fe0 20 ⟨[],tinyVirtmem,[]⟩ :=
      tinySourceRange (by decide) (by decide) htop (by decide)
    -- the destructor starts from the world that the constructor has left
    have hpage := fun w1 w3 obj hmake hdestroy => hrun 4 0x1fe0 20 ⟨[],tinyVirtmem,[]⟩ w1 w1 w3 obj
      hs tinyVirtmem_ok.1 hmake (tinyLayout_answers _ htop) (tinyPlatform_keeps _ htop) hdestroy
    obtain ⟨pieces,hp,_,hunmap,_,hremove,_,hlog⟩ := hpage _ _ _ rfl rfl
    have hone : pieces = [⟨0x15000,0x1000,0x1000⟩] := hp.trans (by decide)
    rw [hone] at hunmap hlog
    refine ⟨_,_,_,rfl,rfl,rfl,hunmap,rfl,hremove,?_⟩
    rw [hlog]
    simp only [List.mem_append, List.mem_cons, true_or, or_true]

end Zeldar
