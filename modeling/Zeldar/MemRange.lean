import Zeldar.Kernel

namespace Zeldar

/-- What the callback is given. -/
structure Segment where
  address : Addr
  length : BitVec 64
  offset : BitVec 64
  deriving DecidableEq, Repr

def Segment.span (g : Segment) : Span ℕ := ⟨g.address.toNat,g.address.toNat+g.length.toNat⟩

/-- The segment of one region. -/
def memSegment (start stop : Addr) (meminfo : MemoryInfo) : Segment :=
  let offset := (if meminfo.addr < start then start else meminfo.addr)-start
  let currentAddress := start+offset
  let last := meminfo.addr+meminfo.size
  let currentLength := (if last < stop then last else stop)-currentAddress
  ⟨currentAddress,currentLength,offset⟩

section MemRange

variable {τ : Type} (query : τ → Addr → Except Result MemoryInfo)
  (callback : Segment → τ → Except Halt τ)

def forEachMemRangeLoop (start stop : Addr) : ℕ → MemoryInfo → τ → Except Halt τ
  | 0,_,_ => .error .diverged
  | fuel+1,meminfo,s => do
    let meminfo ← abortUnless (query s (meminfo.addr+meminfo.size))
    let s ← callback (memSegment start stop meminfo) s
    if meminfo.addr+meminfo.size < stop then forEachMemRangeLoop start stop fuel meminfo s
    else return s

def forEachMemRange (fuel : ℕ) (start : Addr) (length : BitVec 64) (s : τ) : Except Halt τ :=
  forEachMemRangeLoop query callback start (start+length) fuel ⟨start,0,0⟩ s

end MemRange

/-- The segment of a span of addresses, in a range from `start`. -/
def Segment.ofSpan (start : Addr) (t : Span ℕ) : Segment :=
  ⟨BitVec.ofNat 64 t.lo,BitVec.ofNat 64 (t.hi-t.lo),BitVec.ofNat 64 (t.lo-start.toNat)⟩

/-- The parts of the regions inside a range. -/
def Layout.segments (l : Layout) (start : Addr) (length : BitVec 64) : List Segment :=
  (clip start.toNat (start.toNat+length.toNat) l.spans).map (Segment.ofSpan start)

theorem Segment.ofSpan_span {start : Addr} {t : Span ℕ} (hle : t.lo ≤ t.hi)
    (hhi : t.hi < 2^64) : (Segment.ofSpan start t).span = t := by
  obtain ⟨lo,hi⟩ := t
  simp only [Segment.ofSpan, Segment.span, BitVec.toNat_ofNat] at *
  rw [Nat.mod_eq_of_lt (lt_of_le_of_lt hle hhi),
    Nat.mod_eq_of_lt (lt_of_le_of_lt (Nat.sub_le hi lo) hhi), Nat.add_sub_cancel' hle]

/-- At the address the loop has reached, the segment it computes is the part
of the region from there on. -/
theorem memSegment_eq (l : Layout) {start stop : Addr} {r : MemoryInfo} {q : ℕ}
    (hr : r ∈ l.regions) (hmem : r.span.Mem q) (hsq : start.toNat ≤ q) (hqs : q < stop.toNat)
    (hcur : q = start.toNat ∨ r.addr.toNat = q) :
    memSegment start stop r = Segment.ofSpan start ⟨q,min r.span.hi stop.toNat⟩ := by
  have hend := l.region_end hr
  have hqlt : q < 2^64 := lt_trans hqs stop.isLt
  -- the segment starts where the loop is: at the start of the range or of the region
  have hmax : (if r.addr < start then start else r.addr) = BitVec.ofNat 64 q := by
    apply BitVec.eq_of_toNat_eq
    rw [BitVec.toNat_ofNat, Nat.mod_eq_of_lt hqlt]
    have hlo : r.addr.toNat ≤ q := hmem.1
    split
    · rename_i hlt
      have hlt' : r.addr.toNat < start.toNat := hlt
      omega
    · rename_i hge
      have hge' : ¬r.addr.toNat < start.toNat := hge
      omega
  -- it ends with the region or with the range, whichever comes first
  have hmin : (if r.addr+r.size < stop then r.addr+r.size else stop) =
      BitVec.ofNat 64 (min r.span.hi stop.toNat) := by
    apply BitVec.eq_of_toNat_eq
    have hle : min r.span.hi stop.toNat < 2^64 :=
      lt_of_le_of_lt (min_le_right _ _) stop.isLt
    rw [BitVec.toNat_ofNat, Nat.mod_eq_of_lt hle]
    split
    · rename_i hlt
      have hlt' : (r.addr+r.size).toNat < stop.toNat := hlt
      rw [hend] at hlt' ⊢
      exact (min_eq_left (le_of_lt hlt')).symm
    · rename_i hge
      have hge' : ¬(r.addr+r.size).toNat < stop.toNat := hge
      rw [hend] at hge'
      exact (min_eq_right (not_lt.mp hge')).symm
  have hoff : BitVec.ofNat 64 q-start = BitVec.ofNat 64 (q-start.toNat) := by
    apply BitVec.eq_of_toNat_eq
    rw [BitVec.toNat_sub, BitVec.toNat_ofNat, BitVec.toNat_ofNat]
    have hs := start.isLt
    omega
  have hcuraddr : start+BitVec.ofNat 64 (q-start.toNat) = BitVec.ofNat 64 q := by
    apply BitVec.eq_of_toNat_eq
    rw [BitVec.toNat_add, BitVec.toNat_ofNat, BitVec.toNat_ofNat]
    omega
  have hlen : BitVec.ofNat 64 (min r.span.hi stop.toNat)-BitVec.ofNat 64 q =
      BitVec.ofNat 64 (min r.span.hi stop.toNat-q) := by
    have hge : q ≤ min r.span.hi stop.toNat := le_min (le_of_lt hmem.2) (le_of_lt hqs)
    have hlt : min r.span.hi stop.toNat < 2^64 :=
      lt_of_le_of_lt (min_le_right _ _) stop.isLt
    generalize min r.span.hi stop.toNat = e at hge hlt
    apply BitVec.eq_of_toNat_eq
    rw [BitVec.toNat_sub, BitVec.toNat_ofNat, BitVec.toNat_ofNat, BitVec.toNat_ofNat]
    omega
  simp only [memSegment, Segment.ofSpan, hmax, hmin, hoff, hcuraddr, hlen]

section Fold

variable {τ : Type} {query : τ → Addr → Except Result MemoryInfo}
  {callback : Segment → τ → Except Halt τ}

/-- From any point the loop can have reached, it is the fold over the parts of
the regions from there on. -/
theorem forEachMemRangeLoop_eq (l : Layout) {start stop : Addr} {Good : τ → Prop}
    (hstop : stop.toNat ≤ l.top)
    (hgood : ∀ s, Good s → l.Answers start.toNat stop.toNat (query s))
    {fuel : ℕ} {meminfo : MemoryInfo} {s : τ} {q : ℕ} (hs : Good s)
    (hq : (meminfo.addr+meminfo.size).toNat = q) (hsq : start.toNat ≤ q) (hqs : q < stop.toNat)
    (hcur : q = start.toNat ∨ ∃ t ∈ l.spans, t.hi = q)
    (hkeep : ∀ g ∈ (clip q stop.toNat l.spans).map (Segment.ofSpan start),
      ∀ s s', Good s → callback g s = .ok s' → Good s')
    (hfuel : (clip q stop.toNat l.spans).length ≤ fuel) :
    forEachMemRangeLoop query callback start stop fuel meminfo s =
      ((clip q stop.toNat l.spans).map (Segment.ofSpan start)).foldlM
        (fun s g => callback g s) s := by
  induction fuel generalizing meminfo s q with
  | zero =>
    -- the region at q gives the list a first element
    obtain ⟨t,ht,hmem⟩ := (l.spans_tiles.covers q).mpr ⟨Nat.zero_le _,lt_of_lt_of_le hqs hstop⟩
    rw [l.spans_tiles.clip_start hqs ht hmem] at hfuel
    exact absurd hfuel (by simp)
  | succ fuel ih =>
    obtain ⟨r,hr,hquery,hmem⟩ := hgood s hs (meminfo.addr+meminfo.size)
      (by omega) (by omega)
    rw [hq] at hmem
    have hclip := l.spans_tiles.clip_start hqs (l.mem_spans hr) hmem
    have hseg : memSegment start stop r = Segment.ofSpan start ⟨q,min r.span.hi stop.toNat⟩ := by
      refine memSegment_eq l hr hmem hsq hqs ?_
      rcases hcur with hcur | ⟨t,ht,hcur⟩
      · exact Or.inl hcur
      · right
        rw [← hcur] at hmem ⊢
        exact l.spans_tiles.next ht (l.mem_spans hr) hmem
    have hclip' : clip q stop.toNat l.spans =
        ⟨q,min r.span.hi stop.toNat⟩::clip r.span.hi stop.toNat l.spans := hclip
    rw [hclip'] at hkeep hfuel ⊢
    rw [List.map_cons, List.foldlM_cons, ← hseg]
    unfold forEachMemRangeLoop
    rw [hquery]
    simp only [abortUnless]
    change (callback (memSegment start stop r) s >>= _) = _
    cases hc : callback (memSegment start stop r) s with
    | error e => rfl
    | ok s1 =>
      have hs1 : Good s1 := by
        refine hkeep _ ?_ s s1 hs hc
        rw [hseg]
        exact List.mem_cons_self
      have hend := l.region_end hr
      change (if r.addr+r.size < stop then _ else _) = List.foldlM _ s1 _
      split
      · rename_i hlt
        have hlt' : (r.addr+r.size).toNat < stop.toNat := hlt
        have hhi : (r.addr+r.size).toNat = r.span.hi := hend
        have hqhi : q < r.span.hi := hmem.2
        refine ih hs1 hhi ?_ ?_ (Or.inr ⟨r.span,l.mem_spans hr,rfl⟩) ?_ ?_
        · omega
        · omega
        · intro g hg
          exact hkeep g (List.mem_cons_of_mem _ hg)
        · exact Nat.le_of_succ_le_succ hfuel
      · rename_i hge
        have hge' : ¬(r.addr+r.size).toNat < stop.toNat := hge
        have hhi : stop.toNat ≤ r.span.hi := by
          have hhi : (r.addr+r.size).toNat = r.span.hi := hend
          omega
        rw [clip_of_le hhi]
        rfl

/-- With fuel for every region the loop ends, and it hands the callback the
parts of the regions in order. -/
theorem forEachMemRange_eq (l : Layout) {start : Addr} {length : BitVec 64} {Good : τ → Prop}
    (hlength : 0 < length.toNat) (htop : start.toNat+length.toNat ≤ l.top)
    (hgood : ∀ s, Good s → l.Answers start.toNat (start.toNat+length.toNat) (query s))
    (hkeep : ∀ g ∈ l.segments start length, ∀ s s', Good s → callback g s = .ok s' → Good s')
    {fuel : ℕ} (hfuel : l.regions.length ≤ fuel) {s : τ} (hs : Good s) :
    forEachMemRange query callback fuel start length s =
      (l.segments start length).foldlM (fun s g => callback g s) s := by
  have hstop : (start+length).toNat = start.toNat+length.toNat := by
    rw [BitVec.toNat_add, Nat.mod_eq_of_lt (lt_of_le_of_lt htop l.top_lt)]
  have hsum : (start+(0 : BitVec 64)).toNat = start.toNat :=
    congrArg BitVec.toNat (BitVec.add_zero start)
  have hcount : (clip start.toNat (start+length).toNat l.spans).length ≤ fuel := by
    refine le_trans (List.length_filter_le _ _) ?_
    rw [List.length_map, Layout.spans, List.length_map]
    exact hfuel
  unfold forEachMemRange
  rw [forEachMemRangeLoop_eq l (hstop ▸ htop) (hstop ▸ hgood) hs hsum (le_refl _) (by omega)
    (Or.inl rfl) (hstop ▸ hkeep) hcount, hstop]
  rfl

end Fold

/-- The segments run end to end from `start` over `length` bytes, each from a page
on and in one region, with its distance from the start as its offset. -/
structure Layout.ExactCover (l : Layout) (start : Addr) (length : BitVec 64)
    (segments : List Segment) : Prop where
  consecutive :
    Tiles start.toNat (segments.map Segment.span) (start.toNat+length.toNat)
  disjoint : segments.Pairwise (fun g g' => g.span.hi ≤ g'.span.lo)
  covers : ∀ a, (∃ g ∈ segments, g.span.Mem a) ↔
    start.toNat ≤ a ∧ a < start.toNat+length.toNat
  nonempty : ∀ g ∈ segments, 0 < g.length.toNat
  aligned : ∀ g ∈ segments, g.address.toNat%4096 = 0
  whole : length.toNat%4096 = 0 → ∀ g ∈ segments, g.length.toNat%4096 = 0
  region : ∀ g ∈ segments, ∃ r ∈ l.regions, r.span.lo ≤ g.span.lo ∧ g.span.hi ≤ r.span.hi
  offset : ∀ g ∈ segments, g.offset = g.address-start

theorem Layout.segments_exactCover (l : Layout) {start : Addr} {length : BitVec 64}
    (hstart : start.toNat%4096 = 0) (htop : start.toNat+length.toNat ≤ l.top) :
    l.ExactCover start length (l.segments start length) := by
  have htiles : Tiles start.toNat (clip start.toNat (start.toNat+length.toNat) l.spans)
      (start.toNat+length.toNat) :=
    l.spans_tiles.tiles_clip (Nat.zero_le _) (Nat.le_add_right _ _) htop
  have htoplt := l.top_lt
  have hspan : ∀ t ∈ clip start.toNat (start.toNat+length.toNat) l.spans,
      (Segment.ofSpan start t).span = t := by
    intro t ht
    obtain ⟨_,hne,hhi⟩ := htiles.mem_bounds ht
    exact Segment.ofSpan_span (le_of_lt hne) (by omega)
  have hmap : (l.segments start length).map Segment.span =
      clip start.toNat (start.toNat+length.toNat) l.spans := by
    rw [Layout.segments, List.map_map]
    exact (List.map_congr_left hspan).trans (List.map_id _)
  have hmem : ∀ g ∈ l.segments start length,
      g.span ∈ clip start.toNat (start.toNat+length.toNat) l.spans := by
    intro g hg
    rw [← hmap]
    exact List.mem_map_of_mem hg
  -- a segment is where one region and the range meet
  have hmeet : ∀ g ∈ l.segments start length, ∃ t ∈ l.spans,
      g.address.toNat = max t.lo start.toNat ∧
        g.address.toNat+g.length.toNat = min t.hi (start.toNat+length.toNat) := by
    intro g hg
    obtain ⟨t,ht,heq,_⟩ := mem_clip (hmem g hg)
    exact ⟨t,ht,congrArg Span.lo heq,congrArg Span.hi heq⟩
  constructor
  · rw [hmap]
    exact htiles
  · have hp := htiles.pairwise
    rw [← hmap] at hp
    exact List.pairwise_map.mp hp
  · intro a
    rw [← htiles.covers a, ← hmap]
    simp only [List.mem_map, exists_exists_and_eq_and]
  · intro g hg
    have hne := (htiles.mem_bounds (hmem g hg)).2.1
    simp only [Segment.span] at hne
    omega
  · intro g hg
    obtain ⟨t,ht,hlo,_⟩ := hmeet g hg
    have hal := (l.span_aligned ht).1
    omega
  · intro hlen g hg
    obtain ⟨t,ht,hlo,hhi⟩ := hmeet g hg
    obtain ⟨hal,hal'⟩ := l.span_aligned ht
    omega
  · intro g hg
    obtain ⟨t,ht,hlo,hhi⟩ := hmeet g hg
    obtain ⟨r,hr,rfl⟩ := List.mem_map.mp ht
    refine ⟨r,hr,?_,?_⟩
    · exact le_of_le_of_eq (le_max_left _ _) hlo.symm
    · exact le_of_eq_of_le hhi (min_le_left _ _)
  · intro g hg
    obtain ⟨t,ht,rfl⟩ := List.mem_map.mp hg
    obtain ⟨hlo,hne,hhi⟩ := htiles.mem_bounds ht
    apply BitVec.eq_of_toNat_eq
    simp only [Segment.ofSpan, BitVec.toNat_sub, BitVec.toNat_ofNat]
    have hs := start.isLt
    omega

end Zeldar
