import Mathlib.Algebra.Order.BigOperators.Group.List
import Mathlib.Algebra.BigOperators.Ring.List
import Mathlib.Data.List.Forall2
import Zeldar.RenderDrawData

/-! What the GPU draws in a frame. It carries the commands out after the copies
have been made, and finds for each of them the vertices that ImGui meant. -/
namespace Zeldar

/-- A draw, with what was bound when it was issued. -/
structure Draw where
  count : ℤ
  indexBuffer : BufferAddress
  baseVertex : ℤ
  vertexAddress : BufferAddress
  vertexSize : ℕ
  texture : TextureHandle
  scissor : Scissor

structure GpuState where
  vertexAddress : BufferAddress
  vertexSize : ℕ
  texture : TextureHandle
  scissor : Scissor
  draws : List Draw

namespace GpuState

def step (g : GpuState) : NvnCommand → GpuState
  | .bindVertexBuffer address size => { g with vertexAddress := address, vertexSize := size }
  | .setScissor s => { g with scissor := s }
  | .bindTexture handle => { g with texture := handle }
  | .drawElementsBaseVertex count indexBuffer baseVertex =>
    { g with draws := g.draws++
      [⟨count,indexBuffer,baseVertex,g.vertexAddress,g.vertexSize,g.texture,g.scissor⟩] }
  | _ => g

def run (g : GpuState) (commands : List NvnCommand) : GpuState := commands.foldl step g

end GpuState

/-- What the GPU reads of a buffer, at its own addresses. -/
def MemoryBuffer.bytesAt (b : MemoryBuffer) (a : BufferAddress) (n : ℕ) : List Byte :=
  slice b.storage (a-b.address).toNat n

namespace Draw
variable (d : Draw)

/-- The `k`-th index of a draw. -/
def index (idx : MemoryBuffer) (k : ℕ) : Option ImDrawIdx :=
  match idx.bytesAt (d.indexBuffer+BitVec.ofNat 64 (k*sizeofImDrawIdx)) sizeofImDrawIdx with
  | [lo,hi] => some (hi++lo)
  | _ => none

/-- The vertex that an index names, if it is in the bound range. -/
def vertex (vtx : MemoryBuffer) (i : ImDrawIdx) : Option (List Byte) :=
  let n := (i.toNat:ℤ)+d.baseVertex
  if 0 ≤ n ∧ (n+1)*sizeofImDrawVert ≤ d.vertexSize then
    some (vtx.bytesAt (d.vertexAddress+BitVec.ofInt 64 (n*sizeofImDrawVert)) sizeofImDrawVert)
  else none

end Draw

def ImDrawList.vtxSize (l : ImDrawList) : ℕ := l.vtxBuffer.length*sizeofImDrawVert

def ImDrawList.idxSize (l : ImDrawList) : ℕ := l.idxBuffer.length*sizeofImDrawIdx

/-- The totals are the sums over the lists. -/
structure ImDrawData.Summed (data : ImDrawData) : Prop where
  vtx : data.totalVtxCount.toInt = (data.cmdLists.map fun l => l.vtxBuffer.length).sum
  idx : data.totalIdxCount.toInt = (data.cmdLists.map fun l => l.idxBuffer.length).sum

/-- The command indexes within its list. -/
structure ImDrawCmd.Within (c : ImDrawCmd) (l : ImDrawList) : Prop where
  elems : c.idxOffset.toNat+c.elemCount.toNat ≤ l.idxBuffer.length
  vertices : ∀ k < c.elemCount.toNat, ∀ i, l.idxBuffer[c.idxOffset.toNat+k]? = some i →
    c.vtxOffset.toNat+i.toNat < l.vtxBuffer.length

/-- A command of a list, with the lists before it. -/
structure Placed where
  before : List ImDrawList
  list : ImDrawList
  cmd : ImDrawCmd

/-- The corners of a clip rectangle at the resolution of the display. -/
def displayRect (displaySize : ImVec2) (clip : ImVec4) : ImVec4 :=
  ⟨clip.x/1280*displaySize.x,clip.y/720*displaySize.y,
    clip.z/1280*displaySize.x,clip.w/720*displaySize.y⟩

/-- In one direction or the other the second corner does not lie beyond the first. -/
def ImVec4.Clipped (r : ImVec4) : Prop := r.z ≤ r.x ∨ r.w ≤ r.y

instance (r : ImVec4) : Decidable r.Clipped :=
  inferInstanceAs (Decidable (r.z ≤ r.x ∨ r.w ≤ r.y))

/-- A rectangle by its first corner and its size, in whole pixels. -/
def ImVec4.pixels (r : ImVec4) : Scissor :=
  ⟨r.x.toInt32,r.y.toInt32,(r.z-r.x).toInt32,(r.w-r.y).toInt32⟩

theorem clipScissor_eq (displaySize : ImVec2) (clip : ImVec4) :
    clipScissor displaySize clip = if (displayRect displaySize clip).Clipped then none
      else some (displayRect displaySize clip).pixels :=
  rfl

/-- The commands that are not clipped, in order. -/
def visible (displaySize : ImVec2) : List ImDrawList → List ImDrawList → List Placed
  | _, [] => []
  | before, l :: ls =>
    (l.cmdBuffer.filter fun c => ¬(displayRect displaySize c.clipRect).Clipped).map
        (fun c => ⟨before,l,c⟩)++visible displaySize (before++[l]) ls

/-- Where the copies of a list begin: after those of the lists before it. -/
def vtxStart (before : List ImDrawList) : ℕ := (before.map ImDrawList.vtxSize).sum

def idxStart (before : List ImDrawList) : ℕ := (before.map ImDrawList.idxSize).sum

/-- The copies of the lists stand in the two buffers, each where the one before it ends. -/
structure Packed (vtx idx : MemoryBuffer) (lists : List ImDrawList) : Prop where
  vtx_fits : vtxStart lists ≤ vtx.storage.length
  idx_fits : idxStart lists ≤ idx.storage.length
  vtx_copy : ∀ before l after, lists = before++l :: after →
    slice vtx.storage (vtxStart before) l.vtxSize = l.vtxBytes
  idx_copy : ∀ before l after, lists = before++l :: after →
    slice idx.storage (idxStart before) l.idxSize = l.idxBytes

/-- The draw is the one of the command: its index range is the elements of the command in the copy
of its list, each index names the vertex of that list that the command means, and its texture and
its scissor are bound. -/
structure Draws (displaySize : ImVec2) (vtx idx : MemoryBuffer) (p : Placed) (d : Draw) :
    Prop where
  count : d.count = p.cmd.elemCount.toNat
  range : (d.indexBuffer-idx.address).toNat =
    idxStart p.before+p.cmd.idxOffset.toNat*sizeofImDrawIdx
  bound : (d.vertexAddress-vtx.address).toNat = vtxStart p.before ∧
    d.vertexSize = p.list.vtxSize
  elements : ∀ k < p.cmd.elemCount.toNat, ∃ i v,
    p.list.idxBuffer[p.cmd.idxOffset.toNat+k]? = some i ∧
    p.list.vtxBuffer[p.cmd.vtxOffset.toNat+i.toNat]? = some v ∧
    d.index idx k = some i ∧ d.vertex vtx i = some v.bytes
  texture : p.cmd.texture ≠ 0 → d.texture = p.cmd.texture
  scissor : d.scissor = (displayRect displaySize p.cmd.clipRect).pixels

section Sizes
variable {l : ImDrawList} {before : List ImDrawList}

theorem idx_bytes_length (i : ImDrawIdx) : i.bytes.length = sizeofImDrawIdx := rfl

theorem vtxBytes_length (l : ImDrawList) : l.vtxBytes.length = l.vtxSize :=
  length_packed ImDrawVert.size l.vtxBuffer

theorem idxBytes_length (l : ImDrawList) : l.idxBytes.length = l.idxSize :=
  length_packed idx_bytes_length l.idxBuffer

theorem vtxStart_concat : vtxStart (before++[l]) = vtxStart before+l.vtxSize := by
  unfold vtxStart
  rw [List.map_append, List.sum_append]
  rfl

theorem idxStart_concat : idxStart (before++[l]) = idxStart before+l.idxSize := by
  unfold idxStart
  rw [List.map_append, List.sum_append]
  rfl

theorem vtxStart_append (after : List ImDrawList) :
    vtxStart (before++l :: after) = vtxStart before+(l.vtxSize+vtxStart after) := by
  unfold vtxStart
  rw [List.map_append, List.sum_append, List.map_cons, List.sum_cons]

theorem idxStart_append (after : List ImDrawList) :
    idxStart (before++l :: after) = idxStart before+(l.idxSize+idxStart after) := by
  unfold idxStart
  rw [List.map_append, List.sum_append, List.map_cons, List.sum_cons]

theorem vtxBytes_start (lists : List ImDrawList) :
    (lists.flatMap ImDrawList.vtxBytes).length = vtxStart lists := by
  rw [List.length_flatMap]
  exact congrArg List.sum (List.map_congr_left fun l _ => vtxBytes_length l)

theorem idxBytes_start (lists : List ImDrawList) :
    (lists.flatMap ImDrawList.idxBytes).length = idxStart lists := by
  rw [List.length_flatMap]
  exact congrArg List.sum (List.map_congr_left fun l _ => idxBytes_length l)

/-- The copy of a list in a buffer that starts with all of them. -/
theorem slice_vtxBytes {buf : List Byte} {lists after : List ImDrawList} {k : ℕ}
    (hk : k = vtxStart lists) (hbuf : buf.take k = lists.flatMap ImDrawList.vtxBytes)
    (hlists : lists = before++l :: after) :
    slice buf (vtxStart before) l.vtxSize = l.vtxBytes := by
  have hstart := @vtxStart_append l before after
  rw [slice_of_take hbuf (by rw [hk, hlists]; omega), hlists, List.flatMap_append,
    List.flatMap_cons, ← vtxBytes_start before, ← vtxBytes_length]
  exact slice_append_middle _ _ _

theorem slice_idxBytes {buf : List Byte} {lists after : List ImDrawList} {k : ℕ}
    (hk : k = idxStart lists) (hbuf : buf.take k = lists.flatMap ImDrawList.idxBytes)
    (hlists : lists = before++l :: after) :
    slice buf (idxStart before) l.idxSize = l.idxBytes := by
  have hstart := @idxStart_append l before after
  rw [slice_of_take hbuf (by rw [hk, hlists]; omega), hlists, List.flatMap_append,
    List.flatMap_cons, ← idxBytes_start before, ← idxBytes_length]
  exact slice_append_middle _ _ _

end Sizes

/-- The draw of a command, by addresses. -/
structure Addressed (displaySize : ImVec2) (vtxAddress idxAddress : BufferAddress) (p : Placed)
    (d : Draw) : Prop where
  count : d.count = p.cmd.elemCount.toInt
  indexBuffer : d.indexBuffer = idxAddress+
    BitVec.ofNat 64 (p.cmd.idxOffset.toNat*sizeofImDrawIdx)+BitVec.ofNat 64 (idxStart p.before)
  baseVertex : d.baseVertex = p.cmd.vtxOffset.toInt
  vertexAddress : d.vertexAddress = vtxAddress+BitVec.ofNat 64 (vtxStart p.before)
  vertexSize : d.vertexSize = p.list.vtxSize
  texture : p.cmd.texture ≠ 0 → d.texture = p.cmd.texture
  scissor : d.scissor = (displayRect displaySize p.cmd.clipRect).pixels

/-- The GPU, carrying out the commands recorded so far, draws the commands seen so far, and has
bound the texture that the loop takes for bound. -/
structure Issued (displaySize : ImVec2) (vtxAddress idxAddress : BufferAddress) (g : GpuState)
    (seen : List Placed) (st : RenderState) : Prop where
  texture : st.boundTextureHandle ≠ 0 →
    (g.run st.commands).texture = st.boundTextureHandle
  draws : List.Forall₂ (Addressed displaySize vtxAddress idxAddress) seen
    (g.run st.commands).draws

/-- The loop is in the list that follows the lists `before`. -/
structure InList (vtxAddress : BufferAddress) (g : GpuState) (before : List ImDrawList)
    (l : ImDrawList) (st : RenderState) : Prop where
  vertexAddress : (g.run st.commands).vertexAddress =
    vtxAddress+BitVec.ofNat 64 (vtxStart before)
  vertexSize : (g.run st.commands).vertexSize = l.vtxSize
  idxOffset : st.idxOffset = idxStart before

/-- Between two lists: those before have been copied, and their commands issued. -/
structure Looped (displaySize : ImVec2) (vtxAddress idxAddress : BufferAddress) (g : GpuState)
    (before : List ImDrawList) (seen : List Placed) (st : RenderState) : Prop where
  vtxOffset : st.vtxOffset = vtxStart before
  idxOffset : st.idxOffset = idxStart before
  vtx : st.vtx.take (vtxStart before) = before.flatMap ImDrawList.vtxBytes
  idx : st.idx.take (idxStart before) = before.flatMap ImDrawList.idxBytes
  issued : Issued displaySize vtxAddress idxAddress g seen st

section Loop
variable {displaySize : ImVec2} {vtxAddress idxAddress : BufferAddress} {g : GpuState}
  {before : List ImDrawList} {l : ImDrawList} {seen : List Placed} {st : RenderState}

theorem run_append (commands commands' : List NvnCommand) :
    g.run (commands++commands') = (g.run commands).run commands' :=
  List.foldl_append

theorem renderCmd_fields (c : ImDrawCmd) :
    (renderCmd displaySize idxAddress st c).vtx = st.vtx ∧
      (renderCmd displaySize idxAddress st c).idx = st.idx ∧
      (renderCmd displaySize idxAddress st c).vtxOffset = st.vtxOffset ∧
      (renderCmd displaySize idxAddress st c).idxOffset = st.idxOffset := by
  unfold renderCmd
  cases clipScissor displaySize c.clipRect with
  | none => exact ⟨rfl,rfl,rfl,rfl⟩
  | some scissor => exact ⟨rfl,rfl,rfl,rfl⟩

/-- The texture after the binding, if there is one. -/
theorem run_bind {t : TextureHandle} {bound : TextureHandle} (gpu : GpuState)
    (h : bound ≠ 0 → gpu.texture = bound) (ht : t ≠ 0) :
    (gpu.run (if bound ≠ t then [.bindTexture t] else [])).texture = t := by
  by_cases hb : bound = t
  · -- a handle that is taken for bound and is not zero has been bound
    rw [if_neg (not_not.mpr hb)]
    show gpu.texture = t
    rw [← hb]
    apply h
    rw [hb]
    exact ht
  · rw [if_pos hb]
    rfl

theorem run_bind_fields {t : TextureHandle} {bound : TextureHandle} (gpu : GpuState) :
    (gpu.run (if bound ≠ t then [.bindTexture t] else [])).vertexAddress = gpu.vertexAddress ∧
      (gpu.run (if bound ≠ t then [.bindTexture t] else [])).vertexSize = gpu.vertexSize ∧
      (gpu.run (if bound ≠ t then [.bindTexture t] else [])).scissor = gpu.scissor ∧
      (gpu.run (if bound ≠ t then [.bindTexture t] else [])).draws = gpu.draws := by
  split_ifs <;> exact ⟨rfl,rfl,rfl,rfl⟩

/-- One turn of the inner loop issues its command, unless it is clipped. -/
theorem Issued.cmd (h : Issued displaySize vtxAddress idxAddress g seen st)
    (hl : InList vtxAddress g before l st) (c : ImDrawCmd) :
    Issued displaySize vtxAddress idxAddress g
        (seen++(if (displayRect displaySize c.clipRect).Clipped then [] else [⟨before,l,c⟩]))
        (renderCmd displaySize idxAddress st c) ∧
      InList vtxAddress g before l (renderCmd displaySize idxAddress st c) := by
  unfold renderCmd
  rw [clipScissor_eq]
  generalize hrect : displayRect displaySize c.clipRect = r
  by_cases hclip : r.Clipped
  · rw [if_pos hclip, if_pos hclip, List.append_nil]
    exact ⟨h,hl⟩
  · rw [if_neg hclip, if_neg hclip]
    dsimp only
    obtain ⟨haddress,hsize,hscissor,hdraws⟩ := @run_bind_fields c.texture st.boundTextureHandle
      ((g.run st.commands).step (.setScissor r.pixels))
    have htexture := @run_bind c.texture st.boundTextureHandle
      ((g.run st.commands).step (.setScissor r.pixels)) h.texture
    -- the scissor is set, the texture bound if need be, and the draw issued
    generalize hbind : (if st.boundTextureHandle ≠ c.texture then
      [NvnCommand.bindTexture c.texture] else []) = bind at *
    have hrun (draw : NvnCommand) :
        g.run (st.commands++(.setScissor r.pixels :: (bind++[draw]))) =
          (((g.run st.commands).step (.setScissor r.pixels)).run bind).step draw := by
      rw [run_append]
      show GpuState.run _ (bind++[draw]) = _
      rw [run_append]
      rfl
    refine ⟨⟨?_,?_⟩,?_,?_,hl.idxOffset⟩
    · intro hne
      rw [hrun]
      exact htexture hne
    · rw [hrun]
      apply List.rel_append
      · rw [hdraws]
        exact h.draws
      · refine List.Forall₂.cons ?_ List.Forall₂.nil
        refine ⟨rfl,?_,rfl,?_,?_,htexture,?_⟩
        · dsimp only
          rw [hl.idxOffset]
        · exact haddress.trans hl.vertexAddress
        · exact hsize.trans hl.vertexSize
        · dsimp only
          rw [hrect, hscissor]
          rfl
    · rw [hrun]
      exact haddress.trans hl.vertexAddress
    · rw [hrun]
      exact hsize.trans hl.vertexSize

/-- The inner loop issues the commands of its list that are not clipped. -/
theorem Issued.cmds (h : Issued displaySize vtxAddress idxAddress g seen st)
    (hl : InList vtxAddress g before l st) (cs : List ImDrawCmd) :
    Issued displaySize vtxAddress idxAddress g
      (seen++(cs.filter fun c => ¬(displayRect displaySize c.clipRect).Clipped).map
        (fun c => ⟨before,l,c⟩))
      (cs.foldl (renderCmd displaySize idxAddress) st) := by
  induction cs generalizing seen st with
  | nil =>
    rw [List.filter_nil, List.map_nil, List.append_nil]
    exact h
  | cons c cs ih =>
    obtain ⟨hc,hlc⟩ := h.cmd hl c
    have hrest := ih hc hlc
    rw [List.foldl_cons, List.filter_cons]
    by_cases hclip : (displayRect displaySize c.clipRect).Clipped
    · rw [if_pos hclip, List.append_nil] at hrest
      rw [if_neg (by simpa using hclip)]
      exact hrest
    · rw [if_neg hclip, List.append_assoc] at hrest
      rw [if_pos (by simpa using hclip), List.map_cons]
      exact hrest

theorem foldl_renderCmd_fields (cs : List ImDrawCmd) :
    (cs.foldl (renderCmd displaySize idxAddress) st).vtx = st.vtx ∧
      (cs.foldl (renderCmd displaySize idxAddress) st).idx = st.idx ∧
      (cs.foldl (renderCmd displaySize idxAddress) st).vtxOffset = st.vtxOffset ∧
      (cs.foldl (renderCmd displaySize idxAddress) st).idxOffset = st.idxOffset := by
  induction cs generalizing st with
  | nil => exact ⟨rfl,rfl,rfl,rfl⟩
  | cons c cs ih =>
    obtain ⟨hv,hi,hvo,hio⟩ := @renderCmd_fields displaySize idxAddress st c
    obtain ⟨hv',hi',hvo',hio'⟩ := @ih (renderCmd displaySize idxAddress st c)
    exact ⟨hv'.trans hv,hi'.trans hi,hvo'.trans hvo,hio'.trans hio⟩

/-- One turn of the outer loop copies its list after the lists before it. -/
theorem Looped.list (h : Looped displaySize vtxAddress idxAddress g before seen st)
    (hvtx : vtxStart before+l.vtxSize ≤ st.vtx.length)
    (hidx : idxStart before+l.idxSize ≤ st.idx.length) :
    ∃ st', renderList displaySize vtxAddress idxAddress st l = some st' ∧
      Looped displaySize vtxAddress idxAddress g (before++[l])
        (seen++(l.cmdBuffer.filter fun c => ¬(displayRect displaySize c.clipRect).Clipped).map
          (fun c => ⟨before,l,c⟩)) st' ∧
      st'.vtx.length = st.vtx.length ∧ st'.idx.length = st.idx.length := by
  have hvfits : st.vtxOffset+l.vtxBytes.length ≤ st.vtx.length := by
    rw [h.vtxOffset, vtxBytes_length]
    exact hvtx
  have hifits : st.idxOffset+l.idxBytes.length ≤ st.idx.length := by
    rw [h.idxOffset, idxBytes_length]
    exact hidx
  unfold renderList
  rw [copyTo_of_fits hvfits, copyTo_of_fits hifits]
  dsimp only [bind, Option.bind, pure]
  generalize hbound : ({ st with
    vtx := splice st.vtx st.vtxOffset l.vtxBytes
    idx := splice st.idx st.idxOffset l.idxBytes
    commands := st.commands++[.bindVertexBuffer (vtxAddress+BitVec.ofNat 64 st.vtxOffset)
      (l.vtxBuffer.length*sizeofImDrawVert)] } : RenderState) = bound
  -- binding the vertex range opens the list and draws nothing
  have hrun : g.run bound.commands = (g.run st.commands).step (.bindVertexBuffer
      (vtxAddress+BitVec.ofNat 64 st.vtxOffset) (l.vtxBuffer.length*sizeofImDrawVert)) := by
    rw [← hbound, run_append]
    rfl
  have hissued : Issued displaySize vtxAddress idxAddress g seen bound := by
    refine ⟨?_,?_⟩
    · rw [hrun, ← hbound]
      exact h.issued.texture
    · rw [hrun]
      exact h.issued.draws
  have hin : InList vtxAddress g before l bound := by
    refine ⟨?_,?_,?_⟩
    · rw [hrun, h.vtxOffset]
      rfl
    · rw [hrun]
      rfl
    · rw [← hbound]
      exact h.idxOffset
  obtain ⟨hv,hi,hvo,hio⟩ := @foldl_renderCmd_fields displaySize idxAddress bound l.cmdBuffer
  have hcmds := hissued.cmds hin l.cmdBuffer
  generalize l.cmdBuffer.foldl (renderCmd displaySize idxAddress) bound = done at *
  rw [← hbound] at hv hi hvo hio
  refine ⟨_,rfl,⟨?_,?_,?_,?_,⟨hcmds.texture,hcmds.draws⟩⟩,?_,?_⟩
  · rw [vtxStart_concat, ← h.vtxOffset, ← hvo]
    rfl
  · rw [idxStart_concat, ← h.idxOffset, ← hio]
    rfl
  · have hpack := take_splice hvfits (h.vtxOffset ▸ h.vtx)
    rw [h.vtxOffset, vtxBytes_length] at hpack
    rw [vtxStart_concat, List.flatMap_append, List.flatMap_singleton]
    show done.vtx.take _ = _
    rw [hv, ← hpack, h.vtxOffset]
  · have hpack := take_splice hifits (h.idxOffset ▸ h.idx)
    rw [h.idxOffset, idxBytes_length] at hpack
    rw [idxStart_concat, List.flatMap_append, List.flatMap_singleton]
    show done.idx.take _ = _
    rw [hi, ← hpack, h.idxOffset]
  · show done.vtx.length = _
    rw [hv]
    exact length_splice hvfits
  · show done.idx.length = _
    rw [hi]
    exact length_splice hifits

/-- The outer loop runs through all lists, if the buffers have room for them. -/
theorem Looped.lists (h : Looped displaySize vtxAddress idxAddress g before seen st)
    (ls : List ImDrawList) (hvtx : vtxStart (before++ls) ≤ st.vtx.length)
    (hidx : idxStart (before++ls) ≤ st.idx.length) :
    ∃ st', ls.foldlM (renderList displaySize vtxAddress idxAddress) st = some st' ∧
      Looped displaySize vtxAddress idxAddress g (before++ls)
        (seen++visible displaySize before ls) st' ∧
      st'.vtx.length = st.vtx.length ∧ st'.idx.length = st.idx.length := by
  induction ls generalizing before seen st with
  | nil =>
    rw [List.append_nil, visible, List.append_nil]
    exact ⟨st,rfl,h,rfl,rfl⟩
  | cons l ls ih =>
    have hv := @vtxStart_append l before ls
    have hi := @idxStart_append l before ls
    obtain ⟨st1,hst1,h1,hv1,hi1⟩ := h.list (by omega : vtxStart before+l.vtxSize ≤ st.vtx.length)
      (by omega : idxStart before+l.idxSize ≤ st.idx.length)
    have hassoc : before++l :: ls = before++[l]++ls := by
      rw [List.append_assoc]
      rfl
    rw [hassoc] at hvtx hidx ⊢
    obtain ⟨st2,hst2,h2,hv2,hi2⟩ := ih h1 (by omega) (by omega)
    refine ⟨st2,?_,?_,hv2.trans hv1,hi2.trans hi1⟩
    · rw [List.foldlM_cons, hst1]
      exact hst2
    · rw [List.append_assoc seen] at h2
      exact h2

end Loop

section Buffers
variable {data : ImDrawData}

/-- A count that is not negative takes its size for each. -/
theorem byteSize_toNat {count : BitVec 32} {n size : ℕ} (h : count.toInt = n)
    (hsize : size ≤ 20) : (byteSize count size).toNat = n*size ∧ n < 2^31 := by
  have hlt := @BitVec.toInt_lt 32 count
  have hn : n < 2^31 := by omega
  have hwide : (count.signExtend 64).toNat = n := by
    have hint : (count.signExtend 64).toInt = n := by
      rw [BitVec.toInt_signExtend_of_le (by decide), h]
    have hcond := BitVec.toInt_eq_toNat_cond (count.signExtend 64)
    have hbound := (count.signExtend 64).isLt
    split_ifs at hcond <;> omega
  refine ⟨?_,hn⟩
  have hprod : n*size < 2^64 := by
    calc
      n*size ≤ 2^31*20 := Nat.mul_le_mul hn.le hsize
      _ < 2^64 := by decide
  unfold byteSize
  rw [BitVec.toNat_mul, hwide, BitVec.toNat_ofNat, Nat.mod_eq_of_lt (by omega : size < 2^64),
    Nat.mod_eq_of_lt hprod]

theorem vtxStart_eq (lists : List ImDrawList) :
    vtxStart lists = (lists.map fun l => l.vtxBuffer.length).sum*sizeofImDrawVert :=
  List.sum_map_mul_right ..

theorem idxStart_eq (lists : List ImDrawList) :
    idxStart lists = (lists.map fun l => l.idxBuffer.length).sum*sizeofImDrawIdx :=
  List.sum_map_mul_right ..

/-- A buffer that is large enough is used again. -/
theorem reserve_of_fits {b : MemoryBuffer} {size : BitVec 64} (o : BufferOutcome)
    (h : size.toNat ≤ b.storage.length) : MemoryBuffer.reserve (some b) size o = b :=
  if_neg (Nat.not_lt.mpr h)

/-- The buffer of a frame has room for what it was reserved for. -/
theorem reserve_fits (buffer : Option MemoryBuffer) {size : BitVec 64} (o : BufferOutcome)
    (h : size.toNat < 2^63) :
    size.toNat ≤ (MemoryBuffer.reserve buffer size o).storage.length := by
  have hcreate : size.toNat ≤ (MemoryBuffer.create size o).storage.length := by
    have halign := alignUp_toNat size
    unfold MemoryBuffer.create
    rw [List.length_replicate]
    change (alignUp size 0x1000).toNat = _ at halign
    omega
  cases buffer with
  | none => exact hcreate
  | some b =>
    unfold MemoryBuffer.reserve
    dsimp only
    split_ifs with hsmall
    · exact hcreate
    · exact Nat.le_of_not_lt hsmall

end Buffers

section Resolve
variable {displaySize : ImVec2} {vtx idx : MemoryBuffer} {lists : List ImDrawList}

/-- A visible command, and where its list is. -/
theorem mem_visible {before ls : List ImDrawList} {p : Placed}
    (h : p ∈ visible displaySize before ls) :
    ∃ mid after, p.before = before++mid ∧ ls = mid++p.list :: after ∧
      p.cmd ∈ p.list.cmdBuffer := by
  induction ls generalizing before with
  | nil => cases h
  | cons l ls ih =>
    rcases List.mem_append.mp h with h | h
    · obtain ⟨c,hc,rfl⟩ := List.mem_map.mp h
      exact ⟨[],ls,(List.append_nil before).symm,rfl,(List.mem_filter.mp hc).1⟩
    · obtain ⟨mid,after,hb,hls,hc⟩ := ih h
      refine ⟨l :: mid,after,?_,?_,hc⟩
      · rw [hb, List.append_assoc]
        rfl
      · rw [hls, List.cons_append]

theorem forall₂_imp_mem {α β : Type*} {R S : α → β → Prop} {xs : List α} {ys : List β}
    (h : List.Forall₂ R xs ys) (himp : ∀ x ∈ xs, ∀ y, R x y → S x y) : List.Forall₂ S xs ys := by
  induction h with
  | nil => exact List.Forall₂.nil
  | cons hxy _ ih =>
    refine List.Forall₂.cons (himp _ List.mem_cons_self _ hxy) (ih ?_)
    intro x hx
    exact himp x (List.mem_cons_of_mem _ hx)

/-- An address is as far from the start of its buffer as it was put. -/
theorem address_sub {base : BufferAddress} {n : ℕ} (h : n < 2^64) :
    (base+BitVec.ofNat 64 n-base).toNat = n := by
  rw [add_sub_cancel_left, BitVec.toNat_ofNat, Nat.mod_eq_of_lt h]

theorem idx_bytes_join (i : ImDrawIdx) : i.extractLsb' 8 8++i.extractLsb' 0 8 = i := by
  apply BitVec.eq_of_getLsbD_eq
  intro k hk
  rw [BitVec.getLsbD_append, BitVec.getLsbD_extractLsb', BitVec.getLsbD_extractLsb']
  by_cases h8 : k < 8
  · simp [h8]
  · simp [h8, show k-8 < 8 by omega, show 8+(k-8) = k by omega]

/-- In a packed index buffer a draw finds the elements of its command. -/
theorem index_of_packed {d : Draw} {before after : List ImDrawList} {l : ImDrawList} {o k : ℕ}
    {i : ImDrawIdx} (hpacked : Packed vtx idx lists) (hlists : lists = before++l :: after)
    (hsize : idxStart lists < 2^63)
    (haddress : d.indexBuffer = idx.address+BitVec.ofNat 64 (o*sizeofImDrawIdx)+
      BitVec.ofNat 64 (idxStart before)) (hi : l.idxBuffer[o+k]? = some i) :
    d.index idx k = some i := by
  have hlt := (List.getElem?_eq_some_iff.mp hi).1
  have hstart := @idxStart_append l before after
  rw [← hlists] at hstart
  have hroom : (o+k+1)*sizeofImDrawIdx ≤ l.idxSize := Nat.mul_le_mul_right _ hlt
  unfold sizeofImDrawIdx at haddress hroom
  -- the address is that of the element in the buffer of its list, after the lists before
  have hoff : (d.indexBuffer+BitVec.ofNat 64 (k*sizeofImDrawIdx)-idx.address).toNat =
      idxStart before+(o+k)*sizeofImDrawIdx := by
    have hsum : d.indexBuffer+BitVec.ofNat 64 (k*sizeofImDrawIdx) =
        idx.address+BitVec.ofNat 64 (idxStart before+(o+k)*sizeofImDrawIdx) := by
      rw [haddress, BitVec.add_assoc, BitVec.add_assoc, ← BitVec.ofNat_add, ← BitVec.ofNat_add]
      congr 2
      unfold sizeofImDrawIdx
      omega
    rw [hsum]
    apply address_sub
    unfold sizeofImDrawIdx
    omega
  have hbytes : idx.bytesAt (d.indexBuffer+BitVec.ofNat 64 (k*sizeofImDrawIdx)) sizeofImDrawIdx =
      i.bytes := by
    unfold MemoryBuffer.bytesAt
    rw [hoff, ← slice_packed idx_bytes_length hi]
    have hcopy := hpacked.idx_copy before l after hlists
    unfold ImDrawList.idxBytes at hcopy
    rw [← hcopy, slice_slice]
    unfold sizeofImDrawIdx
    omega
  unfold Draw.index
  rw [hbytes]
  show some (_++_) = _
  rw [idx_bytes_join]

/-- In a packed vertex buffer an index names the vertex of its own list. -/
theorem vertex_of_packed {d : Draw} {before after : List ImDrawList} {l : ImDrawList} {o : ℕ}
    {i : ImDrawIdx} {v : ImDrawVert} (hpacked : Packed vtx idx lists)
    (hlists : lists = before++l :: after) (hsize : vtxStart lists < 2^63)
    (haddress : d.vertexAddress = vtx.address+BitVec.ofNat 64 (vtxStart before))
    (hbound : d.vertexSize = l.vtxSize) (hbase : d.baseVertex = o)
    (hv : l.vtxBuffer[o+i.toNat]? = some v) : d.vertex vtx i = some v.bytes := by
  have hlt := (List.getElem?_eq_some_iff.mp hv).1
  have hstart := @vtxStart_append l before after
  rw [← hlists] at hstart
  have hroom : (o+i.toNat+1)*sizeofImDrawVert ≤ l.vtxSize := Nat.mul_le_mul_right _ hlt
  -- the index counts from the base vertex, within the buffer of its list
  have hindex : (i.toNat:ℤ)+d.baseVertex = ((o+i.toNat:ℕ):ℤ) := by
    rw [hbase]
    omega
  unfold Draw.vertex
  dsimp only
  rw [hindex, if_pos]
  · congr 1
    have hoff : (d.vertexAddress+
        BitVec.ofInt 64 (((o+i.toNat:ℕ):ℤ)*sizeofImDrawVert)-vtx.address).toNat =
          vtxStart before+(o+i.toNat)*sizeofImDrawVert := by
      have hsum : d.vertexAddress+BitVec.ofInt 64 (((o+i.toNat:ℕ):ℤ)*sizeofImDrawVert) =
          vtx.address+BitVec.ofNat 64 (vtxStart before+(o+i.toNat)*sizeofImDrawVert) := by
        rw [haddress, BitVec.add_assoc, ← Nat.cast_mul, BitVec.ofInt_natCast, ← BitVec.ofNat_add]
      rw [hsum]
      apply address_sub
      unfold sizeofImDrawVert at *
      omega
    unfold MemoryBuffer.bytesAt
    rw [hoff, ← slice_packed ImDrawVert.size hv]
    have hcopy := hpacked.vtx_copy before l after hlists
    unfold ImDrawList.vtxBytes at hcopy
    rw [← hcopy, slice_slice]
    unfold sizeofImDrawVert at *
    omega
  · rw [hbound]
    unfold sizeofImDrawVert at *
    omega

/-- A draw at the right addresses is the draw of its command. -/
theorem Addressed.draws {p : Placed} {d : Draw}
    (h : Addressed displaySize vtx.address idx.address p d) (hpacked : Packed vtx idx lists)
    {after : List ImDrawList} (hlists : lists = p.before++p.list :: after)
    (hcmd : p.cmd.Within p.list) (hvtx : vtxStart lists < 2^32*20) (hidx : idxStart lists < 2^32)
    (hvcount : p.list.vtxBuffer.length < 2^31) (hicount : p.list.idxBuffer.length < 2^31) :
    Draws displaySize vtx idx p d where
  count := by
    have helems := hcmd.elems
    rw [h.count, BitVec.toInt_eq_toNat_of_lt (by omega)]
  range := by
    have helems := hcmd.elems
    have hstart := @idxStart_append p.list p.before after
    rw [← hlists] at hstart
    rw [h.indexBuffer, BitVec.add_assoc, ← BitVec.ofNat_add, Nat.add_comm]
    apply address_sub
    unfold sizeofImDrawIdx
    omega
  bound := by
    have hstart := @vtxStart_append p.list p.before after
    rw [← hlists] at hstart
    rw [h.vertexAddress]
    exact ⟨address_sub (by omega),h.vertexSize⟩
  elements := by
    intro k hk
    have helems := hcmd.elems
    -- a command names elements of its list, and these name vertices of it
    obtain ⟨i,hi⟩ : ∃ i, p.list.idxBuffer[p.cmd.idxOffset.toNat+k]? = some i :=
      ⟨_,List.getElem?_eq_getElem (by omega)⟩
    have hvertex := hcmd.vertices k hk i hi
    obtain ⟨v,hv⟩ : ∃ v, p.list.vtxBuffer[p.cmd.vtxOffset.toNat+i.toNat]? = some v :=
      ⟨_,List.getElem?_eq_getElem hvertex⟩
    have hbase : d.baseVertex = p.cmd.vtxOffset.toNat := by
      rw [h.baseVertex, BitVec.toInt_eq_toNat_of_lt (by omega)]
    refine ⟨i,v,hi,hv,?_,?_⟩
    · exact index_of_packed hpacked hlists (by omega) h.indexBuffer hi
    · exact vertex_of_packed hpacked hlists (by omega) h.vertexAddress h.vertexSize hbase hv
  texture := h.texture
  scissor := h.scissor

/-- So all draws are, if the counts of the lists are those of a frame. -/
theorem draws_of_addressed {ds : List Draw} (hpacked : Packed vtx idx lists)
    (haddressed : List.Forall₂ (Addressed displaySize vtx.address idx.address)
      (visible displaySize [] lists) ds)
    (hwithin : ∀ l ∈ lists, ∀ c ∈ l.cmdBuffer, c.Within l)
    (hvtx : (lists.map fun l => l.vtxBuffer.length).sum < 2^31)
    (hidx : (lists.map fun l => l.idxBuffer.length).sum < 2^31) :
    List.Forall₂ (Draws displaySize vtx idx) (visible displaySize [] lists) ds := by
  have hvtotal := vtxStart_eq lists
  have hitotal := idxStart_eq lists
  unfold sizeofImDrawVert at hvtotal
  unfold sizeofImDrawIdx at hitotal
  apply forall₂_imp_mem haddressed
  intro p hp d hd
  obtain ⟨mid,after,hbefore,hlists,hc⟩ := mem_visible hp
  rw [List.nil_append] at hbefore
  rw [← hbefore] at hlists
  have hmem : p.list ∈ lists := by
    rw [hlists]
    exact List.mem_append_right _ List.mem_cons_self
  have hvmem := List.single_le_sum (fun _ _ => Nat.zero_le _) _
    (List.mem_map_of_mem (f := fun l : ImDrawList => l.vtxBuffer.length) hmem)
  have himem := List.single_le_sum (fun _ _ => Nat.zero_le _) _
    (List.mem_map_of_mem (f := fun l : ImDrawList => l.idxBuffer.length) hmem)
  exact hd.draws hpacked hlists (hwithin p.list hmem p.cmd hc) (by omega) (by omega) (by omega)
    (by omega)

/-- What the loop leaves in the storage is packed. -/
theorem Looped.packed {g : GpuState} {seen : List Placed} {st : RenderState}
    (h : Looped displaySize vtx.address idx.address g lists seen st)
    (hvtx : vtxStart lists ≤ st.vtx.length) (hidx : idxStart lists ≤ st.idx.length) :
    Packed { vtx with storage := st.vtx } { idx with storage := st.idx } lists where
  vtx_fits := hvtx
  idx_fits := hidx
  vtx_copy := fun _ _ _ hlists => slice_vtxBytes rfl h.vtx hlists
  idx_copy := fun _ _ _ hlists => slice_idxBytes rfl h.idx hlists

end Resolve

/-- The frame gets to its loop: there is something to draw, the backend is set up and not in its
test mode, and both buffers are ready. -/
structure ReachesDraws (bd : NvnBackendData) (env : DrawEnv) (data : ImDrawData) : Prop where
  valid : data.valid = true
  lists : data.cmdLists ≠ []
  initialized : bd.isInitialized = true
  noTestShader : bd.isUseTestShader = false
  vtxReady : (MemoryBuffer.reserve bd.vtxBuffer (byteSize data.totalVtxCount sizeofImDrawVert)
    env.vtxOutcome).isReady = true
  idxReady : (MemoryBuffer.reserve bd.idxBuffer (byteSize data.totalIdxCount sizeofImDrawIdx)
    env.idxOutcome).isReady = true

/-- Whatever buffers the frames before have left, a frame that gets to its loop leaves the lists
packed in them, and the GPU draws the commands that are not clipped, each as it is meant. -/
theorem renderDrawData_faithful {bd : NvnBackendData} {env : DrawEnv} {data : ImDrawData}
    (hsum : data.Summed) (hwithin : ∀ l ∈ data.cmdLists, ∀ c ∈ l.cmdBuffer, c.Within l)
    (hreach : ReachesDraws bd env data) (g : GpuState) :
    ∃ bd' vtx idx commands, renderDrawData bd env data = some (bd',some commands) ∧
      bd'.vtxBuffer = some vtx ∧ bd'.idxBuffer = some idx ∧ Packed vtx idx data.cmdLists ∧
      List.Forall₂ (Draws env.displaySize vtx idx) (visible env.displaySize [] data.cmdLists)
        (GpuState.run { g with draws := [] } commands).draws := by
  obtain ⟨hvsize,hvlt⟩ := byteSize_toNat hsum.vtx (by decide : sizeofImDrawVert ≤ 20)
  obtain ⟨hisize,hilt⟩ := byteSize_toNat hsum.idx (by decide : sizeofImDrawIdx ≤ 20)
  have hvtotal := vtxStart_eq data.cmdLists
  have hitotal := idxStart_eq data.cmdLists
  unfold sizeofImDrawVert at hvsize hvtotal
  unfold sizeofImDrawIdx at hisize hitotal
  have hvfits := @reserve_fits bd.vtxBuffer (byteSize data.totalVtxCount sizeofImDrawVert)
    env.vtxOutcome (by unfold sizeofImDrawVert; omega)
  have hifits := @reserve_fits bd.idxBuffer (byteSize data.totalIdxCount sizeofImDrawIdx)
    env.idxOutcome (by unfold sizeofImDrawIdx; omega)
  unfold renderDrawData
  rw [if_neg (not_not.mpr hreach.valid), if_neg hreach.lists,
    if_neg (not_not.mpr hreach.initialized), if_neg (by rw [hreach.noTestShader]; decide)]
  dsimp only
  rw [if_neg (not_not.mpr ⟨hreach.vtxReady,hreach.idxReady⟩)]
  generalize MemoryBuffer.reserve bd.vtxBuffer (byteSize data.totalVtxCount sizeofImDrawVert)
    env.vtxOutcome = vtx at hvfits ⊢
  generalize MemoryBuffer.reserve bd.idxBuffer (byteSize data.totalIdxCount sizeofImDrawIdx)
    env.idxOutcome = idx at hifits ⊢
  -- the loop starts with nothing copied, nothing drawn and no texture bound
  have hstart : Looped env.displaySize vtx.address idx.address { g with draws := [] } [] []
      ⟨vtx.storage,idx.storage,0,0,0,bindCommands++[.setRenderStates]⟩ :=
    ⟨rfl,rfl,List.take_zero,List.take_zero,fun h => absurd rfl h,List.Forall₂.nil⟩
  obtain ⟨st,hst,hdone,hvlen,hilen⟩ := hstart.lists data.cmdLists
    (by rw [List.nil_append, hvtotal, ← hvsize]; exact hvfits)
    (by rw [List.nil_append, hitotal, ← hisize]; exact hifits)
  rw [List.nil_append, List.nil_append] at hdone
  have hpacked := hdone.packed (by rw [hvlen, hvtotal, ← hvsize]; exact hvfits)
    (by rw [hilen, hitotal, ← hisize]; exact hifits)
  refine ⟨{ bd with vtxBuffer := some { vtx with storage := st.vtx },
                    idxBuffer := some { idx with storage := st.idx } },
    { vtx with storage := st.vtx },{ idx with storage := st.idx },st.commands,?_,rfl,rfl,
    hpacked,?_⟩
  · rw [hst]
    rfl
  · exact draws_of_addressed hpacked hdone.issued.draws hwithin hvlt hilt

def solid (b : Byte) : ImDrawVert := ⟨List.replicate 20 b,rfl⟩

/-- The second of its commands is clipped. -/
def triangle : ImDrawList where
  vtxBuffer := [solid 1,solid 2,solid 3]
  idxBuffer := [0,1,2]
  cmdBuffer := [⟨⟨0,0,1280,720⟩,0x101,0,0,3⟩,⟨⟨0,0,0,720⟩,0x102,0,0,3⟩]

/-- The second of its commands counts its vertices from the second one on. -/
def quad : ImDrawList where
  vtxBuffer := [solid 4,solid 5,solid 6,solid 7]
  idxBuffer := [0,1,2,0,1,2]
  cmdBuffer := [⟨⟨0,0,640,720⟩,0x101,0,0,3⟩,⟨⟨0,0,1280,360⟩,0x102,1,3,3⟩]

def twoLists : ImDrawData := ⟨true,[triangle,quad],7,9⟩

/-- The buffers of the frame before are large enough. -/
def frameBefore : NvnBackendData where
  isInitialized := true
  isUseTestShader := false
  vtxBuffer := some ⟨List.replicate 0x1000 0xff,0x500000000,true⟩
  idxBuffer := some ⟨List.replicate 0x1000 0xff,0x500010000,true⟩

/-- No new buffer could be had. -/
def nextFrame : DrawEnv := ⟨⟨1600,900⟩,⟨0,false,false⟩,⟨0,false,false⟩,[]⟩

theorem ready_frameBefore : ReachesDraws frameBefore nextFrame twoLists where
  valid := rfl
  lists := nofun
  initialized := rfl
  noTestShader := rfl
  vtxReady := by
    unfold frameBefore
    rw [reserve_of_fits]
    rw [List.length_replicate]
    decide
  idxReady := by
    unfold frameBefore
    rw [reserve_of_fits]
    rw [List.length_replicate]
    decide

theorem visible_twoLists : visible ⟨1600,900⟩ [] [triangle,quad] =
    [⟨[],triangle,⟨⟨0,0,1280,720⟩,0x101,0,0,3⟩⟩,⟨[triangle],quad,⟨⟨0,0,640,720⟩,0x101,0,0,3⟩⟩,
      ⟨[triangle],quad,⟨⟨0,0,1280,360⟩,0x102,1,3,3⟩⟩] :=
  rfl

theorem within_twoLists : ∀ l ∈ twoLists.cmdLists, ∀ c ∈ l.cmdBuffer, c.Within l := by
  have hsmall : ∀ l ∈ [triangle,quad], ∀ c ∈ l.cmdBuffer,
      c.idxOffset.toNat+c.elemCount.toNat ≤ l.idxBuffer.length ∧
        ∀ i ∈ l.idxBuffer.map BitVec.toNat, c.vtxOffset.toNat+i < l.vtxBuffer.length := by
    decide +kernel
  intro l hl c hc
  obtain ⟨helems,hvertices⟩ := hsmall l hl c hc
  exact ⟨helems,fun _ _ _ hi => hvertices _ (List.mem_map_of_mem (List.mem_of_getElem? hi))⟩

/-- Three draws from the buffers of the frame before. The last one counts its indices and its
vertices from where its command says. -/
theorem renderDrawData_two_lists : ∃ bd' vtx idx commands d₁ d₂ d₃,
    renderDrawData frameBefore nextFrame twoLists = some (bd',some commands) ∧
      bd'.vtxBuffer = some vtx ∧ bd'.idxBuffer = some idx ∧ Packed vtx idx [triangle,quad] ∧
      (GpuState.run ⟨0,0,0,⟨0,0,0,0⟩,[]⟩ commands).draws = [d₁,d₂,d₃] ∧
      [d₁,d₂,d₃].map Draw.texture = [0x101,0x101,0x102] ∧
      [d₁,d₂,d₃].map (fun d => (d.indexBuffer-idx.address).toNat) = [0,6,12] ∧
      [d₁,d₂,d₃].map (fun d => (d.vertexAddress-vtx.address).toNat) = [0,60,60] ∧
      d₃.index idx 2 = some 2 ∧ d₃.vertex vtx 2 = some (solid 7).bytes := by
  obtain ⟨bd',vtx,idx,commands,hrun,hvtx,hidx,hpacked,hdraws⟩ :=
    @renderDrawData_faithful frameBefore nextFrame twoLists ⟨rfl,rfl⟩ within_twoLists
      ready_frameBefore ⟨0,0,0,⟨0,0,0,0⟩,[]⟩
  change List.Forall₂ _ (visible ⟨1600,900⟩ [] [triangle,quad]) _ at hdraws
  rw [visible_twoLists] at hdraws
  generalize hall : GpuState.draws _ = draws at hdraws
  simp only [List.forall₂_cons_left_iff, List.forall₂_nil_left_iff] at hdraws
  obtain ⟨d₁,_,h₁,⟨d₂,_,h₂,⟨d₃,_,h₃,rfl,rfl⟩,rfl⟩,rfl⟩ := hdraws
  refine ⟨bd',vtx,idx,commands,d₁,d₂,d₃,hrun,hvtx,hidx,hpacked,hall,?_,?_,?_,?_⟩
  · exact congrArg₂ _ (h₁.texture (by decide)) (congrArg₂ _ (h₂.texture (by decide))
      (congrArg₂ _ (h₃.texture (by decide)) rfl))
  · exact congrArg₂ _ h₁.range (congrArg₂ _ h₂.range (congrArg₂ _ h₃.range rfl))
  · exact congrArg₂ _ h₁.bound.1 (congrArg₂ _ h₂.bound.1 (congrArg₂ _ h₃.bound.1 rfl))
  · obtain ⟨i,v,hi,hv,hindex,hvertex⟩ := h₃.elements 2 (by decide)
    obtain rfl : i = 2 := (Option.some.inj hi).symm
    obtain rfl : solid 7 = v := Option.some.inj hv
    exact ⟨hindex,hvertex⟩

end Zeldar
