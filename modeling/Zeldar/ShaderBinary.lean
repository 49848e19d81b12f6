import Zeldar.Placement
import Zeldar.RenderDrawData

namespace Zeldar

inductive NVNshaderStage
  | vertex
  | fragment
  | geometry
  | tessControl
  | tessEvaluation
  | compute
  deriving DecidableEq

structure GLSLCsectionHeaderCommon where
  size : BitVec 32
  dataOffset : BitVec 32

structure GLSLCgpuCodeHeader where
  common : GLSLCsectionHeaderCommon
  stage : NVNshaderStage
  controlOffset : BitVec 32
  dataOffset : BitVec 32
  dataSize : BitVec 32
  controlSize : BitVec 32

/-- A section header, by the type of its section. -/
inductive GLSLCsectionHeaderUnion
  | gpuCodeHeader (h : GLSLCgpuCodeHeader)
  | asmDumpHeader (common : GLSLCsectionHeaderCommon)
  | perfStatsHeader (common : GLSLCsectionHeaderCommon)
  | programReflectionHeader (common : GLSLCsectionHeaderCommon)
  | debugInfoHeader (common : GLSLCsectionHeaderCommon)

def sizeofGLSLCsectionHeaderUnion : ℕ := 144

/-- The header of a section of type `GLSLC_SECTION_TYPE_GPU_CODE`. -/
def GLSLCsectionHeaderUnion.gpuCode : GLSLCsectionHeaderUnion → Option GLSLCgpuCodeHeader
  | .gpuCodeHeader h => some h
  | _ => none

/-- What GLSLC returns: its bytes, which a 32-bit size counts, and the section headers in them. -/
structure GLSLCoutput where
  raw : List Byte
  headers : List GLSLCsectionHeaderUnion
  size_lt : raw.length < 2^32
  headers_inside : sizeofGLSLCsectionHeaderUnion*headers.length ≤ raw.length
  control_inside : ∀ h ∈ headers.filterMap GLSLCsectionHeaderUnion.gpuCode,
    h.common.dataOffset.toNat+h.controlOffset.toNat+h.controlSize.toNat ≤ raw.length
  data_inside : ∀ h ∈ headers.filterMap GLSLCsectionHeaderUnion.gpuCode,
    h.common.dataOffset.toNat+h.dataOffset.toNat+h.dataSize.toNat ≤ raw.length

namespace GLSLCoutput

def numSections (out : GLSLCoutput) : BitVec 32 := BitVec.ofNat 32 out.headers.length

/-- The sections of GPU code, in order. -/
def gpuSections (out : GLSLCoutput) : List GLSLCgpuCodeHeader :=
  out.headers.filterMap GLSLCsectionHeaderUnion.gpuCode

def controlSection (out : GLSLCoutput) (h : GLSLCgpuCodeHeader) : List Byte :=
  slice out.raw (h.common.dataOffset+h.controlOffset).toNat h.controlSize.toNat

def dataSection (out : GLSLCoutput) (h : GLSLCgpuCodeHeader) : List Byte :=
  slice out.raw (h.common.dataOffset+h.dataOffset).toNat h.dataSize.toNat

end GLSLCoutput

/-- The loop that adds up `binarySize`. -/
def gpuCodeSize : List GLSLCsectionHeaderUnion → BitVec 64 → BitVec 64
  | [], binarySize => binarySize
  | .gpuCodeHeader h :: hs, binarySize =>
    gpuCodeSize hs (alignUp (binarySize+h.common.size.setWidth 64) 0x100)
  | _ :: hs, binarySize => gpuCodeSize hs binarySize

def getBinarySize (out : GLSLCoutput) : BitVec 64 :=
  alignUp (gpuCodeSize out.headers 0+0x1000) 0x1000

/-- What the two copying loops work on, and where they have copied to. -/
structure ShaderPacking where
  binaryBuffer : List Byte
  curBinaryPos : BitVec 32
  headerInfo : List (BitVec 32)
  copies : List Extent

/-- The cursor behind `size` bytes. The sum has 64 bits, and the cursor keeps 32 of them. -/
def nextBinaryPos (curBinaryPos size : BitVec 32) : BitVec 32 :=
  (alignUp (curBinaryPos.setWidth 64+size.setWidth 64) 0x100).setWidth 32

/-- One round of a loop: a part of a section is copied to the cursor, and the cursor is noted in
entry `i` of `headerInfo`. A write outside the buffer or outside `headerInfo` has no result. -/
def ShaderPacking.place (s : ShaderPacking) (bytes : List Byte) (size i : BitVec 32) :
    Option ShaderPacking :=
  (copyTo s.binaryBuffer s.curBinaryPos.toNat bytes).bind fun binaryBuffer =>
    if i.toNat < s.headerInfo.length then
      some {
        binaryBuffer := binaryBuffer
        curBinaryPos := nextBinaryPos s.curBinaryPos size
        headerInfo := s.headerInfo.set i.toNat s.curBinaryPos
        copies := s.copies++[⟨s.curBinaryPos.toNat,bytes.length⟩] }
    else none

/-- A loop over the sections from number `i` on, which copies a part of those of GPU code and notes
where in the entries from `base` on. -/
def placeSections (part : GLSLCgpuCodeHeader → List Byte) (size : GLSLCgpuCodeHeader → BitVec 32)
    (base : BitVec 32) : ℕ → List GLSLCsectionHeaderUnion → ShaderPacking → Option ShaderPacking
  | _, [], s => some s
  | i, .gpuCodeHeader h :: hs, s =>
    (s.place (part h) (size h) (base+BitVec.ofNat 32 i)).bind (placeSections part size base (i+1) hs)
  | i, _ :: hs, s => placeSections part size base (i+1) hs s

namespace GLSLCoutput

/-- The loop that places the control sections. -/
def placeControl (out : GLSLCoutput) : ShaderPacking → Option ShaderPacking :=
  placeSections out.controlSection GLSLCgpuCodeHeader.controlSize 0 0 out.headers

/-- The loop that places the data sections. -/
def placeData (out : GLSLCoutput) : ShaderPacking → Option ShaderPacking :=
  placeSections out.dataSection GLSLCgpuCodeHeader.dataSize out.numSections 0 out.headers

end GLSLCoutput

def wordBytes (w : BitVec 32) : List Byte :=
  [w.extractLsb' 0 8,w.extractLsb' 8 8,w.extractLsb' 16 8,w.extractLsb' 24 8]

def headerBytes (headerInfo : List (BitVec 32)) : List Byte := headerInfo.flatMap wordBytes

structure CompiledData where
  ptr : List Byte
  size : BitVec 64

/-- `CreateShaderBinary` without its output file, into an allocation of `binarySize` bytes: the
container and the ranges of it that were copied to. -/
def createShaderBinary (out : GLSLCoutput) : Option (CompiledData × List Extent) :=
  let binarySize := getBinarySize out
  let start : ShaderPacking :=
    ⟨List.replicate binarySize.toNat 0,0x10,List.replicate 4 0,[]⟩
  ((out.placeControl start).bind out.placeData).bind fun s =>
    (copyTo s.binaryBuffer 0 (headerBytes s.headerInfo)).map fun binaryBuffer =>
      (⟨binaryBuffer,binarySize⟩,s.copies++[⟨0,(headerBytes s.headerInfo).length⟩])

structure BinaryHeader where
  mVertexControlOffset : BitVec 32
  mVertexDataOffset : BitVec 32
  mFragmentControlOffset : BitVec 32
  mFragmentDataOffset : BitVec 32

/-- The constructor, on the words that `header` points to. -/
def BinaryHeader.create (header : ℕ → BitVec 32) : BinaryHeader where
  mFragmentControlOffset := header 0
  mVertexControlOffset := header 1
  mFragmentDataOffset := header 2
  mVertexDataOffset := header 3

/-- Entry `i` of a buffer that is read as an array of words. -/
def headerWord (buf : List Byte) (i : ℕ) : BitVec 32 :=
  let byte (k : ℕ) : Byte := buf.getD (i*4+k) 0
  byte 3 ++ byte 2 ++ byte 1 ++ byte 0

/-- The header that `setupShaders` reads. -/
def CompiledData.header (d : CompiledData) : BinaryHeader := BinaryHeader.create (headerWord d.ptr)

end Zeldar
