import Zeldar.RwClaim
import Zeldar.Splice

namespace Zeldar

abbrev Byte := BitVec 8
abbrev BufferAddress := BitVec 64
abbrev TextureHandle := BitVec 64

/-- A position, a texture coordinate and a colour. -/
def sizeofImDrawVert : ℕ := 20

def sizeofImDrawIdx : ℕ := 2

/-- A vertex as it lies in memory. -/
structure ImDrawVert where
  bytes : List Byte
  size : bytes.length = sizeofImDrawVert

abbrev ImDrawIdx := BitVec 16

def ImDrawIdx.bytes (i : ImDrawIdx) : List Byte := [i.extractLsb' 0 8,i.extractLsb' 8 8]

structure ImVec2 where
  x : Float32
  y : Float32

structure ImVec4 where
  x : Float32
  y : Float32
  z : Float32
  w : Float32

/-- A command, with the handle that its texture id points to. -/
structure ImDrawCmd where
  clipRect : ImVec4
  texture : TextureHandle
  vtxOffset : BitVec 32
  idxOffset : BitVec 32
  elemCount : BitVec 32

structure ImDrawList where
  vtxBuffer : List ImDrawVert
  idxBuffer : List ImDrawIdx
  cmdBuffer : List ImDrawCmd

namespace ImDrawList

def vtxBytes (l : ImDrawList) : List Byte := l.vtxBuffer.flatMap ImDrawVert.bytes

def idxBytes (l : ImDrawList) : List Byte := l.idxBuffer.flatMap ImDrawIdx.bytes

end ImDrawList

/-- The two totals are of type `int`. -/
structure ImDrawData where
  valid : Bool
  cmdLists : List ImDrawList
  totalVtxCount : BitVec 32
  totalIdxCount : BitVec 32

/-- A buffer over the whole of a memory pool, which reports the size of its storage. -/
structure MemoryBuffer where
  storage : List Byte
  address : BufferAddress
  isReady : Bool

/-- What becomes of a new buffer: where the GPU sees it, and whether its pool and it itself could
be initialised. -/
structure BufferOutcome where
  address : BufferAddress
  poolInitialized : Bool
  bufferInitialized : Bool

namespace MemoryBuffer

def getPoolSize (b : MemoryBuffer) : ℕ := b.storage.length

/-- `MemoryBuffer(size_t)`. -/
def create (size : BitVec 64) (o : BufferOutcome) : MemoryBuffer where
  storage := List.replicate (alignUp size 0x1000).toNat 0
  address := o.address
  isReady := o.poolInitialized && o.bufferInitialized

/-- The buffer for `size` bytes: the one of an earlier frame, unless there is none or it is too
small. -/
def reserve (buffer : Option MemoryBuffer) (size : BitVec 64) (o : BufferOutcome) :
    MemoryBuffer :=
  match buffer with
  | none => create size o
  | some b => if b.getPoolSize < size.toNat then create size o else b

end MemoryBuffer

/-- The fields of the backend data that a frame reads. -/
structure NvnBackendData where
  isInitialized : Bool
  isUseTestShader : Bool
  vtxBuffer : Option MemoryBuffer
  idxBuffer : Option MemoryBuffer

structure Scissor where
  x : Int32
  y : Int32
  w : Int32
  h : Int32

inductive NvnCommand
  | bindProgram
  | bindUniformBuffer
  | updateUniformBuffer
  | setRenderStates
  | bindVertexBuffer (address : BufferAddress) (size : ℕ)
  | setScissor (s : Scissor)
  | bindTexture (handle : TextureHandle)
  | drawElementsBaseVertex (count : ℤ) (indexBuffer : BufferAddress) (baseVertex : ℤ)
  | drawArrays (first count : ℕ)

/-- The clip rectangle at the resolution of the display, or none if it is empty. -/
def clipScissor (displaySize : ImVec2) (clip : ImVec4) : Option Scissor :=
  let minX := clip.x/1280*displaySize.x
  let minY := clip.y/720*displaySize.y
  let maxX := clip.z/1280*displaySize.x
  let maxY := clip.w/720*displaySize.y
  if maxX ≤ minX ∨ maxY ≤ minY then none
  else some ⟨minX.toInt32,minY.toInt32,(maxX-minX).toInt32,(maxY-minY).toInt32⟩

/-- The storage of the two buffers, the offsets that have been reached in them, the handle that was
bound last, and the commands so far. -/
structure RenderState where
  vtx : List Byte
  idx : List Byte
  vtxOffset : ℕ
  idxOffset : ℕ
  boundTextureHandle : TextureHandle
  commands : List NvnCommand

section Loop
variable (displaySize : ImVec2)

/-- One turn of the inner loop. -/
def renderCmd (idxAddress : BufferAddress) (st : RenderState) (cmd : ImDrawCmd) : RenderState :=
  match clipScissor displaySize cmd.clipRect with
  | none => st
  | some scissor =>
    let bind := if st.boundTextureHandle ≠ cmd.texture then [.bindTexture cmd.texture] else []
    let index := idxAddress+BitVec.ofNat 64 (cmd.idxOffset.toNat*sizeofImDrawIdx)+
      BitVec.ofNat 64 st.idxOffset
    { st with
      boundTextureHandle := cmd.texture
      commands := st.commands++(.setScissor scissor :: (bind++
        [.drawElementsBaseVertex cmd.elemCount.toInt index cmd.vtxOffset.toInt])) }

/-- One turn of the outer loop. -/
def renderList (vtxAddress idxAddress : BufferAddress) (st : RenderState) (cmdList : ImDrawList) :
    Option RenderState := do
  let vtxSize := cmdList.vtxBuffer.length*sizeofImDrawVert
  let idxSize := cmdList.idxBuffer.length*sizeofImDrawIdx
  let bind := .bindVertexBuffer (vtxAddress+BitVec.ofNat 64 st.vtxOffset) vtxSize
  let vtx ← copyTo st.vtx st.vtxOffset cmdList.vtxBytes
  let idx ← copyTo st.idx st.idxOffset cmdList.idxBytes
  let st := { st with vtx := vtx, idx := idx, commands := st.commands++[bind] }
  let st := cmdList.cmdBuffer.foldl (renderCmd displaySize idxAddress) st
  return { st with vtxOffset := st.vtxOffset+vtxSize, idxOffset := st.idxOffset+idxSize }

end Loop

/-- What the surroundings contribute to a frame: the size of the display, what becomes of the
buffers it may have to create, and the six vertices of the test quad. -/
structure DrawEnv where
  displaySize : ImVec2
  vtxOutcome : BufferOutcome
  idxOutcome : BufferOutcome
  testQuad : List ImDrawVert

def bindCommands : List NvnCommand := [.bindProgram,.bindUniformBuffer,.updateUniformBuffer]

/-- `int` counts are widened with their sign. -/
def byteSize (count : BitVec 32) (size : ℕ) : BitVec 64 := count.signExtend 64*BitVec.ofNat 64 size

/-- `renderTestShader`, where `createQuad` stores the given vertices. -/
def renderTestShader (bd : NvnBackendData) (env : DrawEnv) :
    Option (NvnBackendData × Option (List NvnCommand)) := do
  let pointCount := 6
  let totalVtxSize := BitVec.ofNat 64 (pointCount*sizeofImDrawVert)
  let vtxBuffer := MemoryBuffer.reserve bd.vtxBuffer totalVtxSize env.vtxOutcome
  if ¬vtxBuffer.isReady then return ({ bd with vtxBuffer := some vtxBuffer },none)
  let vtx ← copyTo vtxBuffer.storage 0 (env.testQuad.flatMap ImDrawVert.bytes)
  let commands := bindCommands++
    [.bindVertexBuffer vtxBuffer.address vtxBuffer.getPoolSize,.setRenderStates,
      .drawArrays 0 pointCount]
  return ({ bd with vtxBuffer := some { vtxBuffer with storage := vtx } },some commands)

/-- A frame: the backend data after it and the commands it submits, if any. There is no result if
a copy would run over the end of a buffer. -/
def renderDrawData (bd : NvnBackendData) (env : DrawEnv) (drawData : ImDrawData) :
    Option (NvnBackendData × Option (List NvnCommand)) :=
  if ¬drawData.valid then some (bd,none)
  else if drawData.cmdLists = [] then some (bd,none)
  else if ¬bd.isInitialized then some (bd,none)
  else if bd.isUseTestShader then renderTestShader bd env
  else
    let totalVtxSize := byteSize drawData.totalVtxCount sizeofImDrawVert
    let totalIdxSize := byteSize drawData.totalIdxCount sizeofImDrawIdx
    let vtxBuffer := MemoryBuffer.reserve bd.vtxBuffer totalVtxSize env.vtxOutcome
    let idxBuffer := MemoryBuffer.reserve bd.idxBuffer totalIdxSize env.idxOutcome
    let bd := { bd with vtxBuffer := some vtxBuffer, idxBuffer := some idxBuffer }
    if ¬(vtxBuffer.isReady ∧ idxBuffer.isReady) then some (bd,none)
    else do
      let st ← drawData.cmdLists.foldlM
        (renderList env.displaySize vtxBuffer.address idxBuffer.address)
        ⟨vtxBuffer.storage,idxBuffer.storage,0,0,0,bindCommands++[.setRenderStates]⟩
      let bd := { bd with
        vtxBuffer := some { vtxBuffer with storage := st.vtx }
        idxBuffer := some { idxBuffer with storage := st.idx } }
      return (bd,some st.commands)

end Zeldar
