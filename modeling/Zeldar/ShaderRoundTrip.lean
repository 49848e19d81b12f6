import Zeldar.ShaderBinary

namespace Zeldar

open GLSLCsectionHeaderUnion (gpuCode)

section Words
variable {ws : List (BitVec 32)} {rest : List Byte} {w : BitVec 32} {i : ℕ}

theorem length_wordBytes (w : BitVec 32) : (wordBytes w).length = 4 := rfl

theorem append_wordBytes (w : BitVec 32) :
    w.extractLsb' 24 8 ++ w.extractLsb' 16 8 ++ w.extractLsb' 8 8 ++ w.extractLsb' 0 8 = w := by
  ext k hk
  simp only [BitVec.getElem_append, BitVec.getElem_extractLsb']
  grind

theorem headerWord_headerBytes (h : ws[i]? = some w) :
    headerWord (headerBytes ws++rest) i = w := by
  have hbytes : slice (headerBytes ws) (i*4) 4 = wordBytes w := slice_packed length_wordBytes h
  have hlen : (headerBytes ws).length = ws.length*4 := length_packed length_wordBytes ws
  have hi := (List.getElem?_eq_some_iff.mp h).1
  have hget : ∀ k < 4, (headerBytes ws++rest).getD (i*4+k) 0 = (wordBytes w).getD k 0 := by
    intro k hk
    rw [List.getD_eq_getElem?_getD, List.getD_eq_getElem?_getD, ← hbytes,
      List.getElem?_append_left (by omega), getElem?_slice, if_pos hk]
  simp only [headerWord]
  rw [hget 3 (by omega), hget 2 (by omega), hget 1 (by omega), hget 0 (by omega)]
  exact append_wordBytes w

end Words

theorem nextBinaryPos_toNat (p n : BitVec 32) :
    (nextBinaryPos p n).toNat = roundUp 0x100 (p.toNat+n.toNat)%2^32 := by
  have h := roundDown_toNat (p.setWidth 64+n.setWidth 64+0xff) 0xff 8 rfl
  have hsum : (p.setWidth 64+n.setWidth 64+0xff : BitVec 64).toNat = p.toNat+n.toNat+0xff := by
    bv_omega
  rw [hsum] at h
  unfold nextBinaryPos
  rw [BitVec.toNat_setWidth]
  unfold roundUp
  show ((p.setWidth 64+n.setWidth 64+0xff) &&& ~~~0xff : BitVec 64).toNat%2^32 = _
  rw [h]
  omega

section Size
variable {out : GLSLCoutput} {a b : GLSLCgpuCodeHeader}

theorem gpuCodeSize_eq (hs : List GLSLCsectionHeaderUnion) (n : BitVec 64) :
    gpuCodeSize hs n = (hs.filterMap gpuCode).foldl
      (fun n h => alignUp (n+h.common.size.setWidth 64) 0x100) n := by
  induction hs generalizing n with
  | nil => rfl
  | cons h hs ih => cases h <;> exact ih _

theorem le_alignUp {x : BitVec 64} {n : ℕ} (h : n ≤ x.toNat) (hx : x.toNat < 2^63) :
    n ≤ (alignUp x 0x100).toNat ∧ (alignUp x 0x100).toNat ≤ x.toNat+0xff := by
  have hdown := roundDown_toNat (x+0xff) 0xff 8 rfl
  have hsum : (x+0xff).toNat = x.toNat+0xff := by bv_omega
  have halign : alignUp x 0x100 = (x+0xff) &&& ~~~0xff := rfl
  rw [halign, hdown, hsum]
  omega

/-- The buffer has room for the two sections and a page more. -/
theorem le_getBinarySize (hgpu : out.gpuSections = [a,b]) :
    a.common.size.toNat+b.common.size.toNat+0x1000 ≤ (getBinarySize out).toNat := by
  have hfold : gpuCodeSize out.headers 0 = alignUp (alignUp (0+a.common.size.setWidth 64) 0x100+
      b.common.size.setWidth 64) 0x100 := by
    rw [gpuCodeSize_eq]
    show out.gpuSections.foldl _ 0 = _
    rw [hgpu]
    rfl
  -- rounding up takes nothing away, and the sums are far from 2^64
  have hfirst := @le_alignUp (0+a.common.size.setWidth 64) a.common.size.toNat
    (by bv_omega) (by bv_omega)
  generalize alignUp (0+a.common.size.setWidth 64) 0x100 = x at hfold hfirst
  have hx : x.toNat < 2^33 := by bv_omega
  have hsecond := @le_alignUp (x+b.common.size.setWidth 64)
    (a.common.size.toNat+b.common.size.toNat) (by bv_omega) (by bv_omega)
  rw [← hfold] at hsecond
  have hlast : (x+b.common.size.setWidth 64).toNat < 2^34 := by bv_omega
  unfold getBinarySize
  generalize gpuCodeSize out.headers 0 = y at hsecond ⊢
  have hy : (y+0x1000).toNat = y.toNat+0x1000 := by bv_omega
  have hpage := alignUp_toNat (y+0x1000)
  have hpageSize : pageSize = 0x1000 := rfl
  rw [hy, hpageSize] at hpage
  rw [hpage]
  omega

end Size

section Rounds
variable {s s' : ShaderPacking} {bytes : List Byte} {size i : BitVec 32}

theorem ShaderPacking.place_eq (h : s.curBinaryPos.toNat+bytes.length ≤ s.binaryBuffer.length)
    (hi : i.toNat < s.headerInfo.length) :
    s.place bytes size i = some
      ⟨splice s.binaryBuffer s.curBinaryPos.toNat bytes,nextBinaryPos s.curBinaryPos size,
        s.headerInfo.set i.toNat s.curBinaryPos,
        s.copies++[⟨s.curBinaryPos.toNat,bytes.length⟩]⟩ := by
  unfold ShaderPacking.place
  rw [copyTo_of_fits h]
  exact if_pos hi

/-- A round writes inside `headerInfo` or it has no result. -/
theorem ShaderPacking.place_some (h : s.place bytes size i = some s') :
    i.toNat < s.headerInfo.length ∧ s'.headerInfo.length = s.headerInfo.length := by
  unfold ShaderPacking.place at h
  obtain ⟨buf,_,h⟩ := Option.bind_eq_some_iff.mp h
  by_cases hi : i.toNat < s.headerInfo.length
  · rw [if_pos hi] at h
    cases h
    exact ⟨hi,List.length_set⟩
  · rw [if_neg hi] at h
    cases h

variable {part : GLSLCgpuCodeHeader → List Byte} {width : GLSLCgpuCodeHeader → BitVec 32}
  {base : BitVec 32} {hs : List GLSLCsectionHeaderUnion}

/-- A loop that ends has written each of its entries inside `headerInfo`. -/
theorem placeSections_some {k : ℕ} (h : placeSections part width base k hs s = some s') :
    s'.headerInfo.length = s.headerInfo.length ∧
      ∀ j c, hs[j]? = some (.gpuCodeHeader c) →
        (base+BitVec.ofNat 32 (k+j)).toNat < s.headerInfo.length := by
  induction hs generalizing k s with
  | nil =>
    cases h
    exact ⟨rfl,fun j c hj => by cases hj⟩
  | cons header hs ih =>
    cases header with
    | gpuCodeHeader c =>
      obtain ⟨s1,hplace,hrest⟩ := Option.bind_eq_some_iff.mp h
      obtain ⟨hi,hlen⟩ := ShaderPacking.place_some hplace
      obtain ⟨hlen',hentries⟩ := ih hrest
      refine ⟨hlen'.trans hlen,?_⟩
      intro j c' hj
      cases j with
      | zero => exact hi
      | succ j =>
        rw [← hlen, ← Nat.add_assoc, Nat.add_right_comm]
        exact hentries j c' hj
    | _ =>
      -- a section that is skipped still counts in the numbers of those after it
      obtain ⟨hlen',hentries⟩ := ih h
      refine ⟨hlen',?_⟩
      intro j c' hj
      cases j with
      | zero => cases hj
      | succ j =>
        rw [← Nat.add_assoc, Nat.add_right_comm]
        exact hentries j c' hj

end Rounds

section Sections
variable {out : GLSLCoutput} {a b : GLSLCgpuCodeHeader}

theorem gpuCode_eq_some {h : GLSLCsectionHeaderUnion} (hc : gpuCode h = some a) :
    h = .gpuCodeHeader a := by
  cases h with
  | gpuCodeHeader c => exact congrArg _ (Option.some.inj hc)
  | _ => cases hc

/-- Where two sections of GPU code stand. -/
theorem headers_eq (hgpu : out.gpuSections = [a,b]) : ∃ before between after,
    out.headers = before++.gpuCodeHeader a :: (between++.gpuCodeHeader b :: after) := by
  obtain ⟨before,ha,rest,hheaders,_,hca,hrest⟩ := List.filterMap_eq_cons_iff.mp hgpu
  obtain ⟨between,hb,after,rfl,_,hcb,_⟩ := List.filterMap_eq_cons_iff.mp hrest
  refine ⟨before,between,after,?_⟩
  rw [hheaders, gpuCode_eq_some hca, gpuCode_eq_some hcb]

theorem length_headers_lt (out : GLSLCoutput) : out.headers.length < 2^25 := by
  have hsize := out.size_lt
  have hinside := out.headers_inside
  unfold sizeofGLSLCsectionHeaderUnion at hinside
  omega

/-- With a third section the entry of the second shader lies outside `headerInfo`. -/
theorem createShaderBinary_of_length_ne (hgpu : out.gpuSections = [a,b])
    (hlen : out.headers.length ≠ 2) : createShaderBinary out = none := by
  apply Option.eq_none_iff_forall_ne_some.mpr
  intro r hr
  obtain ⟨s,hs,_⟩ := Option.bind_eq_some_iff.mp hr
  obtain ⟨s1,hcontrol,hdata⟩ := Option.bind_eq_some_iff.mp hs
  have hfour : s1.headerInfo.length = 4 := (placeSections_some hcontrol).1
  obtain ⟨before,between,after,hheaders⟩ := headers_eq hgpu
  have hb : out.headers[before.length+1+between.length]? = some (.gpuCodeHeader b) := by
    rw [hheaders, List.getElem?_append_right (by omega), List.getElem?_cons,
      if_neg (by omega), List.getElem?_append_right (by omega)]
    rw [show before.length+1+between.length-before.length-1-between.length = 0 by omega]
    rfl
  -- the second loop notes the place of `b` in entry n+j, and here n is at least 3 and j at least 1
  have hentry := (placeSections_some hdata).2 _ b hb
  have hn := length_headers_lt out
  have hcount : out.headers.length = before.length+(between.length+(after.length+1)+1) := by
    rw [hheaders, List.length_append, List.length_cons, List.length_append, List.length_cons]
  rw [hfour] at hentry
  unfold GLSLCoutput.numSections at hentry
  generalize out.headers.length = n at *
  bv_omega

theorem headers_of_length_eq (hgpu : out.gpuSections = [a,b]) (hlen : out.headers.length = 2) :
    out.headers = [.gpuCodeHeader a,.gpuCodeHeader b] := by
  obtain ⟨before,between,after,hheaders⟩ := headers_eq hgpu
  rw [hheaders, List.length_append, List.length_cons, List.length_append,
    List.length_cons] at hlen
  have hbefore : before = [] := List.eq_nil_of_length_eq_zero (by omega)
  have hbetween : between = [] := List.eq_nil_of_length_eq_zero (by omega)
  have hafter : after = [] := List.eq_nil_of_length_eq_zero (by omega)
  rw [hheaders, hbefore, hbetween, hafter]
  rfl

theorem length_controlSection {h : GLSLCgpuCodeHeader} (hmem : h ∈ out.gpuSections) :
    (out.controlSection h).length = h.controlSize.toNat := by
  have hinside := out.control_inside h hmem
  have hsize := out.size_lt
  apply length_slice
  rw [BitVec.toNat_add]
  omega

theorem length_dataSection {h : GLSLCgpuCodeHeader} (hmem : h ∈ out.gpuSections) :
    (out.dataSection h).length = h.dataSize.toNat := by
  have hinside := out.data_inside h hmem
  have hsize := out.size_lt
  apply length_slice
  rw [BitVec.toNat_add]
  omega

end Sections

section Container

/-- The parts in the order in which they are copied. -/
def GLSLCoutput.parts (out : GLSLCoutput) (a b : GLSLCgpuCodeHeader) : List (List Byte) :=
  [out.controlSection a,out.controlSection b,out.dataSection a,out.dataSection b]

def partSizes (a b : GLSLCgpuCodeHeader) : List ℕ :=
  [a.controlSize.toNat,b.controlSize.toNat,a.dataSize.toNat,b.dataSize.toNat]

/-- The parts at their places. -/
def GLSLCoutput.blobs (out : GLSLCoutput) (a b : GLSLCgpuCodeHeader) : List (Blob Byte) :=
  puts 0x100 (2^32) 0x10 (out.parts a b)

/-- The words that name the places. -/
def GLSLCoutput.places (out : GLSLCoutput) (a b : GLSLCgpuCodeHeader) : List (BitVec 32) :=
  (out.blobs a b).map fun blob => BitVec.ofNat 32 blob.place

/-- The container, written out: the header, and the parts with zeros between them and behind. -/
def GLSLCoutput.container (out : GLSLCoutput) (a b : GLSLCgpuCodeHeader) : List Byte :=
  let body := stacked 0x100 0x10 (out.parts a b)
  headerBytes (out.places a b)++
    (body++List.replicate ((getBinarySize out).toNat-0x10-body.length) 0)

variable {out : GLSLCoutput} {a b : GLSLCgpuCodeHeader}

theorem placeSections_pair (s : ShaderPacking) (part : GLSLCgpuCodeHeader → List Byte)
    (width : GLSLCgpuCodeHeader → BitVec 32) (base : BitVec 32) {next : BitVec 32}
    (hnext : nextBinaryPos s.curBinaryPos (width a) = next)
    (ha : s.curBinaryPos.toNat+(part a).length ≤ s.binaryBuffer.length)
    (hb : next.toNat+(part b).length ≤ s.binaryBuffer.length)
    (hbase : base.toNat+1 < s.headerInfo.length) (hfour : s.headerInfo.length = 4) :
    placeSections part width base 0 [.gpuCodeHeader a,.gpuCodeHeader b] s = some
      ⟨spliceAll s.binaryBuffer [⟨s.curBinaryPos.toNat,part a⟩,⟨next.toNat,part b⟩],
        nextBinaryPos next (width b),
        (s.headerInfo.set base.toNat s.curBinaryPos).set (base.toNat+1) next,
        s.copies++[⟨s.curBinaryPos.toNat,(part a).length⟩]++[⟨next.toNat,(part b).length⟩]⟩ := by
  have h0 : (base+BitVec.ofNat 32 0).toNat = base.toNat := by bv_omega
  have h1 : (base+BitVec.ofNat 32 1).toNat = base.toNat+1 := by bv_omega
  show (s.place (part a) (width a) (base+BitVec.ofNat 32 0)).bind
    (placeSections part width base 1 [.gpuCodeHeader b]) = _
  rw [ShaderPacking.place_eq ha (by omega), hnext, h0]
  show (ShaderPacking.place _ (part b) (width b) (base+BitVec.ofNat 32 1)).bind
    (placeSections part width base 2 []) = _
  rw [ShaderPacking.place_eq, h1]
  · rfl
  · show next.toNat+_ ≤ (splice _ _ _).length
    rwa [length_splice ha]
  · show _ < (List.set _ _ _).length
    rw [List.length_set]
    omega

theorem map_length_parts (hgpu : out.gpuSections = [a,b]) :
    (out.parts a b).map List.length = partSizes a b := by
  have ha : a ∈ out.gpuSections := by rw [hgpu]; exact List.mem_cons_self
  have hb : b ∈ out.gpuSections := by
    rw [hgpu]
    exact List.mem_cons_of_mem _ List.mem_cons_self
  show [_,_,_,_] = _
  rw [length_controlSection ha, length_controlSection hb, length_dataSection ha,
    length_dataSection hb]
  rfl

/-- The places are the values of the cursor. -/
theorem blobs_eq (hgpu : out.gpuSections = [a,b]) {p2 p3 p4 : BitVec 32}
    (h2 : nextBinaryPos 0x10 a.controlSize = p2) (h3 : nextBinaryPos p2 b.controlSize = p3)
    (h4 : nextBinaryPos p3 a.dataSize = p4) :
    out.blobs a b = [⟨0x10,out.controlSection a⟩,⟨p2.toNat,out.controlSection b⟩,
      ⟨p3.toNat,out.dataSection a⟩,⟨p4.toNat,out.dataSection b⟩] := by
  have ha : a ∈ out.gpuSections := by rw [hgpu]; exact List.mem_cons_self
  have hb : b ∈ out.gpuSections := by
    rw [hgpu]
    exact List.mem_cons_of_mem _ List.mem_cons_self
  rw [← h4, nextBinaryPos_toNat, ← h3, nextBinaryPos_toNat, ← h2, nextBinaryPos_toNat,
    ← length_controlSection ha, ← length_controlSection hb, ← length_dataSection ha]
  rfl

/-- All parts end inside the buffer. -/
theorem blobs_inside (hgpu : out.gpuSections = [a,b])
    (hsize : ∀ h ∈ out.gpuSections, h.controlSize.toNat+h.dataSize.toNat ≤ h.common.size.toNat) :
    ∀ blob ∈ out.blobs a b,
      blob.place+blob.bytes.length ≤ (List.replicate (getBinarySize out).toNat (0:Byte)).length := by
  intro blob hblob
  have hext := List.mem_map_of_mem (f := Blob.extent) hblob
  rw [GLSLCoutput.blobs, map_extent_puts, map_length_parts hgpu] at hext
  -- four parts, each of which is followed by at most 0xff bytes of padding
  have hend := end_le_of_mem_placed hext
  have hroom := le_getBinarySize hgpu
  rw [hgpu] at hsize
  have ha := hsize a List.mem_cons_self
  have hb := hsize b (List.mem_cons_of_mem _ List.mem_cons_self)
  rw [List.length_replicate]
  have hsum : (partSizes a b).sum = a.controlSize.toNat+(b.controlSize.toNat+
      (a.dataSize.toNat+(b.dataSize.toNat+0))) := rfl
  have hcount : (partSizes a b).length = 4 := rfl
  rw [hsum, hcount] at hend
  have hplace : blob.extent.start+blob.extent.length = blob.place+blob.bytes.length := rfl
  omega

theorem places_eq (hgpu : out.gpuSections = [a,b]) {p2 p3 p4 : BitVec 32}
    (h2 : nextBinaryPos 0x10 a.controlSize = p2) (h3 : nextBinaryPos p2 b.controlSize = p3)
    (h4 : nextBinaryPos p3 a.dataSize = p4) : out.places a b = [0x10,p2,p3,p4] := by
  show (out.blobs a b).map _ = _
  rw [blobs_eq hgpu h2 h3 h4]
  show [_,BitVec.ofNat 32 p2.toNat,BitVec.ofNat 32 p3.toNat,BitVec.ofNat 32 p4.toNat] = _
  rw [BitVec.ofNat_toNat, BitVec.ofNat_toNat, BitVec.ofNat_toNat, BitVec.setWidth_eq,
    BitVec.setWidth_eq, BitVec.setWidth_eq]
  rfl

/-- The two loops over two sections. -/
theorem place_run {zeros : List Byte} (hgpu : out.gpuSections = [a,b])
    (hlen : out.headers.length = 2)
    (hinside : ∀ blob ∈ out.blobs a b, blob.place+blob.bytes.length ≤ zeros.length) :
    ∃ pos, (out.placeControl ⟨zeros,0x10,List.replicate 4 0,[]⟩).bind out.placeData = some
      ⟨spliceAll zeros (out.blobs a b),pos,out.places a b,(out.blobs a b).map Blob.extent⟩ := by
  have hheaders := headers_of_length_eq hgpu hlen
  generalize h2 : nextBinaryPos 0x10 a.controlSize = p2
  generalize h3 : nextBinaryPos p2 b.controlSize = p3
  generalize h4 : nextBinaryPos p3 a.dataSize = p4
  rw [blobs_eq hgpu h2 h3 h4] at hinside ⊢
  rw [places_eq hgpu h2 h3 h4]
  simp only [List.mem_cons, List.not_mem_nil, or_false, forall_eq_or_imp, forall_eq] at hinside
  obtain ⟨hin1,hin2,hin3,hin4⟩ := hinside
  have hnum : out.numSections = 2 := by
    rw [GLSLCoutput.numSections, hlen]
    rfl
  have hbuf : (spliceAll zeros
      [⟨0x10,out.controlSection a⟩,⟨p2.toNat,out.controlSection b⟩]).length = zeros.length := by
    apply length_spliceAll
    intro blob hblob
    simp only [List.mem_cons, List.not_mem_nil, or_false] at hblob
    rcases hblob with rfl | rfl
    · exact hin1
    · exact hin2
  -- the first loop writes the entries 0 and 1, the second goes on at 2
  have hcontrol := placeSections_pair ⟨zeros,0x10,List.replicate 4 0,[]⟩ out.controlSection
    GLSLCgpuCodeHeader.controlSize 0 h2 hin1 hin2 (by show 0+1 < 4; omega) rfl
  have hdata := placeSections_pair
    ⟨spliceAll zeros [⟨0x10,out.controlSection a⟩,⟨p2.toNat,out.controlSection b⟩],p3,
      [0x10,p2,0,0],[⟨0x10,(out.controlSection a).length⟩,
        ⟨p2.toNat,(out.controlSection b).length⟩]⟩
    out.dataSection GLSLCgpuCodeHeader.dataSize 2 h4 (hin3.trans_eq hbuf.symm)
    (hin4.trans_eq hbuf.symm) (by show 2+1 < 4; omega) rfl
  rw [h3] at hcontrol
  refine ⟨nextBinaryPos p4 b.dataSize,?_⟩
  unfold GLSLCoutput.placeControl GLSLCoutput.placeData
  rw [hheaders, hnum, hcontrol]
  exact hdata

/-- The header as the last of the copies. -/
def GLSLCoutput.copied (out : GLSLCoutput) (a b : GLSLCgpuCodeHeader) : List (Blob Byte) :=
  out.blobs a b++[⟨0,headerBytes (out.places a b)⟩]

theorem length_headerBytes_places : (headerBytes (out.places a b)).length = 0x10 := rfl

theorem copied_inside (hgpu : out.gpuSections = [a,b])
    (hsize : ∀ h ∈ out.gpuSections, h.controlSize.toNat+h.dataSize.toNat ≤ h.common.size.toNat) :
    ∀ blob ∈ out.copied a b,
      blob.place+blob.bytes.length ≤ (List.replicate (getBinarySize out).toNat (0:Byte)).length := by
  intro blob hblob
  rcases List.mem_append.mp hblob with hblob | hblob
  · exact blobs_inside hgpu hsize blob hblob
  · have hroom := le_getBinarySize hgpu
    rw [List.mem_singleton.mp hblob, length_headerBytes_places, List.length_replicate]
    show 0+0x10 ≤ _
    omega

/-- With two sections the loops copy the parts to their places, and then the header. -/
theorem createShaderBinary_run (hgpu : out.gpuSections = [a,b]) (hlen : out.headers.length = 2)
    (hsize : ∀ h ∈ out.gpuSections, h.controlSize.toNat+h.dataSize.toNat ≤ h.common.size.toNat) :
    createShaderBinary out = some
      (⟨spliceAll (List.replicate (getBinarySize out).toNat 0) (out.copied a b),
        getBinarySize out⟩,(out.copied a b).map Blob.extent) := by
  have hblobs := blobs_inside hgpu hsize
  have hheader := copied_inside hgpu hsize _
    (List.mem_append_right (out.blobs a b) (List.mem_singleton_self _))
  obtain ⟨pos,hrun⟩ := place_run hgpu hlen hblobs
  unfold createShaderBinary
  simp only
  rw [hrun, Option.bind_some, copyTo_of_fits, Option.map_some, GLSLCoutput.copied,
    spliceAll_append, List.map_append]
  · rfl
  · rwa [← length_spliceAll hblobs] at hheader

/-- If the parts fit below 2^32, this is the container as it is written out. -/
theorem spliceAll_copied (hgpu : out.gpuSections = [a,b])
    (hsize : ∀ h ∈ out.gpuSections, h.controlSize.toNat+h.dataSize.toNat ≤ h.common.size.toNat)
    (hfits : Fits 0x100 (2^32) 0x10 (partSizes a b)) :
    spliceAll (List.replicate (getBinarySize out).toNat 0) (out.copied a b) =
      out.container a b := by
  have hroom := le_getBinarySize hgpu
  rw [hgpu] at hsize
  have ha := hsize a List.mem_cons_self
  have hb := hsize b (List.mem_cons_of_mem _ List.mem_cons_self)
  have hbody := @length_stacked_le Byte 0x100 0x10 (out.parts a b) _
  rw [map_length_parts hgpu] at hbody
  have hsum : (partSizes a b).sum = a.controlSize.toNat+(b.controlSize.toNat+
      (a.dataSize.toNat+(b.dataSize.toNat+0))) := rfl
  have hcount : (out.parts a b).length = 4 := rfl
  rw [hsum, hcount] at hbody
  have hzeros : List.replicate (getBinarySize out).toNat (0:Byte) =
      List.replicate 0x10 0++List.replicate ((getBinarySize out).toNat-0x10) 0 := by
    rw [List.replicate_append_replicate]
    congr 1
    omega
  rw [← map_length_parts hgpu] at hfits
  rw [GLSLCoutput.copied, spliceAll_append, GLSLCoutput.blobs, hzeros,
    spliceAll_puts (by omega) hfits (by omega) List.length_replicate (by omega)]
  show splice _ 0 (headerBytes (out.places a b)) = _
  rw [splice_zero, length_headerBytes_places, List.drop_left' List.length_replicate]
  rfl

/-- The words of the header name the places. -/
theorem headerWord_copied {zeros : List Byte} {w : BitVec 32} {i : ℕ}
    (h : (out.places a b)[i]? = some w) :
    headerWord (spliceAll zeros (out.copied a b)) i = w := by
  rw [GLSLCoutput.copied, spliceAll_append]
  show headerWord (splice _ 0 (headerBytes (out.places a b))) i = w
  rw [splice_zero]
  exact headerWord_headerBytes h

/-- The copies do not overlap if and only if the parts fit below 2^32. -/
theorem pairwise_copied_iff (hgpu : out.gpuSections = [a,b]) :
    ((out.copied a b).map Blob.extent).Pairwise Extent.Apart ↔
      Fits 0x100 (2^32) 0x10 (partSizes a b) := by
  rw [← pairwise_placed_iff (by omega) (by omega) (by omega), ← map_length_parts hgpu,
    ← map_extent_puts, GLSLCoutput.copied, List.map_append]
  exact (List.perm_append_singleton _ _).pairwise_iff Extent.Apart.symm

end Container

section RoundTrip

/-- The bytes stand in the buffer at the offset. -/
def HasBytes (buf : List Byte) (off : BitVec 32) (bytes : List Byte) : Prop :=
  slice buf off.toNat bytes.length = bytes

/-- The header leads to the parts of both shaders. -/
def FindsShaders (out : GLSLCoutput) (d : CompiledData) : Prop :=
  ∀ h ∈ out.gpuSections,
    (h.stage = .vertex → HasBytes d.ptr d.header.mVertexControlOffset (out.controlSection h) ∧
      HasBytes d.ptr d.header.mVertexDataOffset (out.dataSection h)) ∧
    (h.stage = .fragment → HasBytes d.ptr d.header.mFragmentControlOffset (out.controlSection h) ∧
      HasBytes d.ptr d.header.mFragmentDataOffset (out.dataSection h))

/-- The container is made without a write outside the buffer or `headerInfo`, the copies do not
overlap, and the header of the container leads to both shaders. -/
def RoundTrips (out : GLSLCoutput) : Prop :=
  ∃ d copies, createShaderBinary out = some (d,copies) ∧ copies.Pairwise Extent.Apart ∧
    FindsShaders out d

/-- The parts of each of the two sections can also be read where those of the other were put. -/
def Mirrored (out : GLSLCoutput) (a b : GLSLCgpuCodeHeader) : Prop :=
  List.Forall₂ (HasBytes (out.container a b)) (out.places a b) (out.parts b a)

variable {out : GLSLCoutput} {a b : GLSLCgpuCodeHeader}

/-- Each part stands where it was put. -/
theorem hasBytes_parts (hgpu : out.gpuSections = [a,b])
    (hsize : ∀ h ∈ out.gpuSections, h.controlSize.toNat+h.dataSize.toNat ≤ h.common.size.toNat)
    (hfits : Fits 0x100 (2^32) 0x10 (partSizes a b)) :
    List.Forall₂ (HasBytes (spliceAll (List.replicate (getBinarySize out).toNat 0) (out.copied a b)))
      (out.places a b) (out.parts a b) := by
  have hslice := slice_spliceAll (copied_inside hgpu hsize) ((pairwise_copied_iff hgpu).mpr hfits)
  generalize spliceAll _ _ = buf at hslice ⊢
  have hblobs : ∀ blob ∈ out.blobs a b, slice buf blob.place blob.bytes.length = blob.bytes :=
    fun blob hblob => hslice blob (List.mem_append_left _ hblob)
  generalize h2 : nextBinaryPos 0x10 a.controlSize = p2
  generalize h3 : nextBinaryPos p2 b.controlSize = p3
  generalize h4 : nextBinaryPos p3 a.dataSize = p4
  rw [blobs_eq hgpu h2 h3 h4] at hblobs
  rw [places_eq hgpu h2 h3 h4]
  simp only [List.mem_cons, List.not_mem_nil, or_false, forall_eq_or_imp, forall_eq] at hblobs
  obtain ⟨hca,hcb,hda,hdb⟩ := hblobs
  exact .cons hca (.cons hcb (.cons hda (.cons hdb .nil)))

/-- The header expects the parts of the fragment shader before those of the vertex shader. -/
theorem findsShaders_iff {d : CompiledData} {f v : GLSLCgpuCodeHeader}
    {p1 p2 p3 p4 : BitVec 32} (hheader : d.header = ⟨p2,p4,p1,p3⟩)
    (hmem : ∀ h, h ∈ out.gpuSections ↔ h = f ∨ h = v) (hf : f.stage = .fragment)
    (hv : v.stage = .vertex) :
    FindsShaders out d ↔ List.Forall₂ (HasBytes d.ptr) [p1,p2,p3,p4] (out.parts f v) := by
  unfold FindsShaders
  rw [hheader]
  constructor
  · intro h
    obtain ⟨hcf,hdf⟩ := (h f ((hmem f).mpr (Or.inl rfl))).2 hf
    obtain ⟨hcv,hdv⟩ := (h v ((hmem v).mpr (Or.inr rfl))).1 hv
    exact .cons hcf (.cons hcv (.cons hdf (.cons hdv .nil)))
  · intro h c hc
    cases h with
    | cons hcf h => cases h with
      | cons hcv h => cases h with
        | cons hdf h => cases h with
          | cons hdv h =>
            rcases (hmem c).mp hc with rfl | rfl
            · refine ⟨fun hstage => ?_,fun _ => ⟨hcf,hdf⟩⟩
              rw [hf] at hstage
              cases hstage
            · refine ⟨fun _ => ⟨hcv,hdv⟩,fun hstage => ?_⟩
              rw [hv] at hstage
              cases hstage

/-- The four words of the header, as `BinaryHeader` takes them. -/
theorem header_copied {p1 p2 p3 p4 : BitVec 32} (hplaces : out.places a b = [p1,p2,p3,p4])
    (zeros : List Byte) (size : BitVec 64) :
    (CompiledData.mk (spliceAll zeros (out.copied a b)) size).header = ⟨p2,p4,p1,p3⟩ := by
  have hword : ∀ i w, (out.places a b)[i]? = some w →
      headerWord (spliceAll zeros (out.copied a b)) i = w := fun i w hi => headerWord_copied hi
  rw [hplaces] at hword
  generalize spliceAll zeros (out.copied a b) = buf at hword
  show BinaryHeader.mk (headerWord buf 1) (headerWord buf 3) (headerWord buf 0)
    (headerWord buf 2) = _
  rw [hword 0 p1 rfl, hword 1 p2 rfl, hword 2 p3 rfl, hword 3 p4 rfl]

/-- The header leads to both shaders if the fragment shader comes first, or if the two cannot be
told apart. -/
theorem findsShaders_copied_iff (hgpu : out.gpuSections = [a,b])
    (hstages : (a.stage = .vertex ∧ b.stage = .fragment) ∨
      (a.stage = .fragment ∧ b.stage = .vertex))
    (hsize : ∀ h ∈ out.gpuSections, h.controlSize.toNat+h.dataSize.toNat ≤ h.common.size.toNat)
    (hfits : Fits 0x100 (2^32) 0x10 (partSizes a b)) :
    FindsShaders out ⟨spliceAll (List.replicate (getBinarySize out).toNat 0) (out.copied a b),
        getBinarySize out⟩ ↔ a.stage = .fragment ∨ Mirrored out a b := by
  have hmem : ∀ h, h ∈ out.gpuSections ↔ h = a ∨ h = b := by
    intro h
    rw [hgpu, List.mem_cons, List.mem_singleton]
  have hown := hasBytes_parts hgpu hsize hfits
  have hcontainer := spliceAll_copied hgpu hsize hfits
  obtain ⟨p1,p2,p3,p4,hplaces⟩ : ∃ p1 p2 p3 p4, out.places a b = [p1,p2,p3,p4] :=
    ⟨_,_,_,_,rfl⟩
  have hheader := header_copied hplaces (List.replicate (getBinarySize out).toNat 0)
    (getBinarySize out)
  unfold Mirrored
  rw [← hcontainer, hplaces]
  rw [hplaces] at hown
  rcases hstages with ⟨ha,hb⟩ | ⟨ha,hb⟩
  · have hne : ¬a.stage = .fragment := by
      rw [ha]
      exact NVNshaderStage.noConfusion
    rw [or_iff_right hne]
    exact findsShaders_iff hheader (fun h => (hmem h).trans or_comm) hb ha
  · exact iff_of_true ((findsShaders_iff hheader hmem ha hb).mpr hown) (Or.inl ha)

theorem roundTrips_iff_of_two (hgpu : out.gpuSections = [a,b]) (hlen : out.headers.length = 2)
    (hstages : (a.stage = .vertex ∧ b.stage = .fragment) ∨
      (a.stage = .fragment ∧ b.stage = .vertex))
    (hsize : ∀ h ∈ out.gpuSections, h.controlSize.toNat+h.dataSize.toNat ≤ h.common.size.toNat) :
    RoundTrips out ↔ Fits 0x100 (2^32) 0x10 (partSizes a b) ∧
      (a.stage = .fragment ∨ Mirrored out a b) := by
  have hrun := createShaderBinary_run hgpu hlen hsize
  have hpw := pairwise_copied_iff hgpu
  have hfinds := findsShaders_copied_iff hgpu hstages hsize
  constructor
  · rintro ⟨d,copies,hrun',hapart,hfound⟩
    obtain ⟨rfl,rfl⟩ := Prod.mk.inj (Option.some.inj (hrun.symm.trans hrun'))
    have hfits := hpw.mp hapart
    exact ⟨hfits,(hfinds hfits).mp hfound⟩
  · rintro ⟨hfits,hor⟩
    exact ⟨_,_,hrun,hpw.mpr hfits,(hfinds hfits).mpr hor⟩

/-- The shaders come back exactly from an output of two sections whose parts fit below 2^32, with
the fragment shader first, or with shaders that cannot be told apart. -/
theorem createShaderBinary_roundTrips_iff (hgpu : out.gpuSections = [a,b])
    (hstages : (a.stage = .vertex ∧ b.stage = .fragment) ∨
      (a.stage = .fragment ∧ b.stage = .vertex))
    (hsize : ∀ h ∈ out.gpuSections, h.controlSize.toNat+h.dataSize.toNat ≤ h.common.size.toNat) :
    RoundTrips out ↔ out.headers.length = 2 ∧ Fits 0x100 (2^32) 0x10 (partSizes a b) ∧
      (a.stage = .fragment ∨ Mirrored out a b) := by
  by_cases hlen : out.headers.length = 2
  · rw [roundTrips_iff_of_two hgpu hlen hstages hsize]
    exact (and_iff_right hlen).symm
  · have hnone := createShaderBinary_of_length_ne hgpu hlen
    constructor
    · rintro ⟨d,copies,hrun,_⟩
      rw [hnone] at hrun
      cases hrun
    · exact fun h => absurd h.1 hlen

/-- Two section headers, and a byte of control and a byte of data for each. -/
def twoSectionBytes : List Byte := List.replicate 288 0++[1,2,3,4]

theorem length_twoSectionBytes : twoSectionBytes.length = 292 := by
  rw [twoSectionBytes, List.length_append, List.length_replicate]
  rfl

def twoSections (first second : NVNshaderStage) : GLSLCoutput where
  raw := twoSectionBytes
  headers := [.gpuCodeHeader ⟨⟨2,288⟩,first,0,1,1,1⟩,.gpuCodeHeader ⟨⟨2,290⟩,second,0,1,1,1⟩]
  size_lt := by
    rw [length_twoSectionBytes]
    omega
  headers_inside := by
    rw [length_twoSectionBytes]
    show 144*2 ≤ 292
    omega
  control_inside := by
    intro h hmem
    rw [length_twoSectionBytes]
    rcases List.mem_pair.mp hmem with rfl | rfl
    · show 288+0+1 ≤ 292
      omega
    · show 290+0+1 ≤ 292
      omega
  data_inside := by
    intro h hmem
    rw [length_twoSectionBytes]
    rcases List.mem_pair.mp hmem with rfl | rfl
    · show 288+1+1 ≤ 292
      omega
    · show 290+1+1 ≤ 292
      omega

theorem parts_le_section (first second : NVNshaderStage) :
    ∀ h ∈ (twoSections first second).gpuSections,
      h.controlSize.toNat+h.dataSize.toNat ≤ h.common.size.toNat := by
  intro h hmem
  rcases List.mem_pair.mp hmem with rfl | rfl
  · exact Nat.le_refl 2
  · exact Nat.le_refl 2

theorem fragment_first_roundTrips : RoundTrips (twoSections .fragment .vertex) := by
  refine (createShaderBinary_roundTrips_iff rfl (Or.inr ⟨rfl,rfl⟩) (parts_le_section _ _)).mpr
    ⟨rfl,?_,Or.inl rfl⟩
  exact ⟨Or.inr (by decide),Or.inr (by decide),Or.inr (by decide),Or.inr (by decide),trivial⟩

theorem vertex_first_misread : ¬∀ (out : GLSLCoutput) (a b : GLSLCgpuCodeHeader),
    out.gpuSections = [a,b] →
    ((a.stage = .vertex ∧ b.stage = .fragment) ∨ (a.stage = .fragment ∧ b.stage = .vertex)) →
    (∀ h ∈ out.gpuSections, h.controlSize.toNat+h.dataSize.toNat ≤ h.common.size.toNat) →
    RoundTrips out := by
  intro h
  have htrip := h (twoSections .vertex .fragment) _ _ rfl (Or.inl ⟨rfl,rfl⟩) (parts_le_section _ _)
  have hor := ((roundTrips_iff_of_two rfl rfl (Or.inl ⟨rfl,rfl⟩) (parts_le_section _ _)).mp
    htrip).2
  rcases hor with hstage | hmirrored
  · cases hstage
  · cases hmirrored with
    | cons hcontrol _ =>
      -- the vertex shader's control byte stands where the fragment shader's is looked for
      have hbyte : ([1] : List Byte) = [3] := hcontrol
      cases hbyte

end RoundTrip

end Zeldar
