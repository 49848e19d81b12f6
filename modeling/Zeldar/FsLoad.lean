import Zeldar.FsHelper

namespace Zeldar

/-- `OpenMode_Read`. -/
def openModeRead : Word := 1

/-- The calls that read: the size query stores its answer, or leaves what it finds. -/
structure NnFsRead (σ : Type) extends NnFs σ where
  getFileSize : FileHandle → BitVec 64 → σ → Result × BitVec 64
  readFile : FileHandle → BitVec 64 → BitVec 64 → σ → Result × List (BitVec 8)

/-- What they read of a file that a handle is open on. -/
structure NnFsRead.Documented {σ : Type} (fs : NnFsRead σ) : Prop where
  calls : fs.toNnFs.Documented
  size_done : ∀ h size s p f, isSuccess (fs.getFileSize h size s).1 → (h,p) ∈ fs.opened s →
    fs.file p s = some f → (fs.getFileSize h size s).2.toInt = f.bytes.length
  size_failed : ∀ h size s, isFailure (fs.getFileSize h size s).1 →
    (fs.getFileSize h size s).2 = size
  read_done : ∀ h n size s p f, isSuccess (fs.readFile h n size s).1 → (h,p) ∈ fs.opened s →
    fs.file p s = some f → (fs.readFile h n size s).2 = (f.bytes.drop n.toNat).take size.toNat

namespace FsHelper

/-- The members that `loadFileFromPath` fills in, with what the buffer holds. -/
structure LoadData where
  buffer : Addr
  bytes : List (BitVec 8)
  bufSize : BitVec 64
  deriving DecidableEq, Repr

section Source
variable {σ : Type} (fs : NnFsRead σ) (tryAlloc : BitVec 64 → BitVec 64 → Option Addr)
  (path : Path) (stale : Word) (s : σ)

/-- Without the memory the assertion on the buffer fails. -/
def loadFileFromPath : Except Halt (LoadData × σ) := do
  exlAssert (isFileExist fs.toNnFs path stale s)
  let (result,handle,s) := fs.openFile path openModeRead s
  if isFailure result then .error (.abort result)
  else
    let size := (fs.getFileSize handle 0 s).2
    match tryAlloc size 4 with
    | none => .error .assertion
    | some buffer =>
      let (result,bytes) := fs.readFile handle 0 size s
      if isFailure result then .error (.abort result)
      else return (⟨buffer,bytes,size⟩,fs.closeFile handle s)

def getFileSize : BitVec 64 × σ :=
  let (openResult,handle,s) := fs.openFile path openModeRead s
  if isSuccess openResult then ((fs.getFileSize handle (-1) s).2,fs.closeFile handle s) else (-1,s)

end Source

section Load
variable {σ : Type} {fs : NnFsRead σ} (hfs : fs.Documented)
  {tryAlloc : BitVec 64 → BitVec 64 → Option Addr} {path : Path} {stale : Word} {s s' : σ}

/-- The file open for reading. -/
def reading (fs : NnFsRead σ) (path : Path) (s : σ) : Result × FileHandle × σ :=
  fs.openFile path openModeRead s

/-- Whether the size of the file is found out. -/
def SizeKnown (fs : NnFsRead σ) (path : Path) (initial : BitVec 64) (s : σ) : Prop :=
  isSuccess (fs.getFileSize (reading fs path s).2.1 initial (reading fs path s).2.2).1 = true

instance (initial : BitVec 64) : Decidable (SizeKnown fs path initial s) :=
  inferInstanceAs (Decidable (_ = true))

/-- A load that returns has done every step. -/
theorem loadFileFromPath_ok {data : LoadData}
    (h : loadFileFromPath fs tryAlloc path stale s = .ok (data,s')) :
    isSuccess (reading fs path s).1 = true ∧
      data.bufSize = (fs.getFileSize (reading fs path s).2.1 0 (reading fs path s).2.2).2 ∧
      isSuccess (fs.readFile (reading fs path s).2.1 0 data.bufSize (reading fs path s).2.2).1 =
        true ∧
      data.bytes = (fs.readFile (reading fs path s).2.1 0 data.bufSize (reading fs path s).2.2).2 ∧
      s' = fs.closeFile (reading fs path s).2.1 (reading fs path s).2.2 := by
  obtain ⟨-,-,h⟩ := bind_ok h
  change (if isFailure (reading fs path s).1 then _ else _) = _ at h
  split at h
  · cases h
  · rename_i hopen
    dsimp only at h
    split at h
    · cases h
    · split at h
      · cases h
      · rename_i hread
        cases h
        exact ⟨isSuccess_of_not_isFailure hopen,rfl,isSuccess_of_not_isFailure hread,rfl,rfl⟩

include hfs

/-- The file is still open where it is read, and unchanged. -/
theorem opened_reading (ho : isSuccess (reading fs path s).1 = true) {f : File}
    (hf : fs.file path s = some f) :
    ((reading fs path s).2.1,path) ∈ fs.opened (reading fs path s).2.2 ∧
      fs.file path (reading fs path s).2.2 = some f := by
  constructor
  · rw [reading, (hfs.calls.open_done path openModeRead s ho).1]
    exact List.mem_cons_self
  · exact (hfs.calls.open_file path path openModeRead s).trans hf

/-- Closing the handle leaves those that were open before. -/
theorem opened_closed (ho : isSuccess (reading fs path s).1 = true) :
    fs.opened (fs.closeFile (reading fs path s).2.1 (reading fs path s).2.2) = fs.opened s := by
  obtain ⟨hopened,hfresh⟩ := hfs.calls.open_done path openModeRead s ho
  rw [hfs.calls.close_opened, reading, hopened, List.filter_cons_of_neg (by simp)]
  apply List.filter_eq_self.mpr
  rintro ⟨g,q⟩ hg
  have hne : g ≠ (fs.openFile path openModeRead s).2.1 := by
    rintro rfl
    exact hfresh q hg
  exact decide_eq_true hne

theorem file_closed (p : Path) :
    fs.file p (fs.closeFile (reading fs path s).2.1 (reading fs path s).2.2) = fs.file p s :=
  (hfs.calls.close_file _ p _).trans (hfs.calls.open_file path p openModeRead s)

/-- The size is that of the file if it is found out, and otherwise what was there before. -/
theorem size_read (ho : isSuccess (reading fs path s).1 = true) {f : File}
    (hf : fs.file path s = some f) (initial : BitVec 64) :
    (SizeKnown fs path initial s → (fs.getFileSize (reading fs path s).2.1 initial
        (reading fs path s).2.2).2.toInt = f.bytes.length) ∧
      (¬SizeKnown fs path initial s → (fs.getFileSize (reading fs path s).2.1 initial
        (reading fs path s).2.2).2 = initial) := by
  obtain ⟨hin,hfile⟩ := opened_reading hfs ho hf
  refine ⟨fun hknown => hfs.size_done _ initial _ path f hknown hin hfile,fun hno => ?_⟩
  apply hfs.size_failed
  rwa [isFailure, Bool.not_eq_true', ← Bool.not_eq_true]

/-- A load that returns leaves the files and the open handles as they were, and has read the whole
file if its size was found out; otherwise it returns an empty buffer. -/
theorem loadFileFromPath_reads {data : LoadData} {f : File} (hf : fs.file path s = some f)
    (h : loadFileFromPath fs tryAlloc path stale s = .ok (data,s')) :
    fs.opened s' = fs.opened s ∧ (∀ p, fs.file p s' = fs.file p s) ∧
      (SizeKnown fs path 0 s → data.bytes = f.bytes ∧ data.bufSize.toNat = f.bytes.length) ∧
      (¬SizeKnown fs path 0 s → data.bytes = [] ∧ data.bufSize = 0) := by
  obtain ⟨ho,hsize,hr,hbytes,rfl⟩ := loadFileFromPath_ok h
  obtain ⟨hin,hfile⟩ := opened_reading hfs ho hf
  obtain ⟨hknown,hunknown⟩ := size_read hfs ho hf 0
  have hread := hfs.read_done _ 0 data.bufSize _ path f hr hin hfile
  rw [← hbytes] at hread
  refine ⟨opened_closed hfs ho,file_closed hfs,fun hk => ?_,fun hk => ?_⟩
  · have hlen := hknown hk
    rw [← hsize] at hlen
    -- a length is not negative, so the signed size is the unsigned one
    have hnat : data.bufSize.toNat = f.bytes.length := by
      have hcond := BitVec.toInt_eq_toNat_cond data.bufSize
      have hlt := data.bufSize.isLt
      split_ifs at hcond <;> omega
    refine ⟨?_,hnat⟩
    rw [hread, hnat]
    exact List.take_length
  · -- the size is still the 0 it was initialised with, and nothing is read
    have hzero := hsize.trans (hunknown hk)
    refine ⟨?_,hzero⟩
    rw [hread, hzero]
    rfl

/-- `getFileSize` gives the size of the file, or -1 if it cannot be opened or its size is not found
out, and closes what it has opened. -/
theorem getFileSize_reads {f : File} (hf : fs.file path s = some f) :
    fs.opened (getFileSize fs path s).2 = fs.opened s ∧
      (getFileSize fs path s).1.toInt =
        if isSuccess (reading fs path s).1 = true ∧ SizeKnown fs path (-1) s then
          (f.bytes.length:ℤ)
        else -1 := by
  have hout : getFileSize fs path s = if isSuccess (reading fs path s).1 then
      ((fs.getFileSize (reading fs path s).2.1 (-1) (reading fs path s).2.2).2,
        fs.closeFile (reading fs path s).2.1 (reading fs path s).2.2)
      else (-1,(reading fs path s).2.2) := rfl
  rw [hout]
  by_cases ho : isSuccess (reading fs path s).1 = true
  · obtain ⟨hknown,hunknown⟩ := size_read hfs ho hf (-1)
    rw [if_pos ho]
    refine ⟨opened_closed hfs ho,?_⟩
    by_cases hk : SizeKnown fs path (-1) s
    · rw [if_pos ⟨ho,hk⟩]
      exact hknown hk
    · rw [if_neg fun h => hk h.2]
      exact congrArg BitVec.toInt (hunknown hk)
  · rw [if_neg ho, if_neg fun h => ho h.1]
    refine ⟨hfs.calls.open_failed path openModeRead s ?_,rfl⟩
    rwa [isFailure, Bool.not_eq_true', ← Bool.not_eq_true]

end Load

namespace Disk

/-- The file that a handle is open on. -/
def target (h : FileHandle) (s : Disk) : Option File :=
  match s.opened.filter (fun e => e.1 = h) with
  | [(_,p)] => s.file p
  | _ => none

def getFileSize (h : FileHandle) (size : BitVec 64) (s : Disk) : Result × BitVec 64 :=
  match s.target h with
  | some f => if f.bytes.length < 2^63 then (0,BitVec.ofNat 64 f.bytes.length)
    else (invalidHandle,size)
  | none => (invalidHandle,size)

def readFile (h : FileHandle) (n size : BitVec 64) (s : Disk) : Result × List (BitVec 8) :=
  match s.target h with
  | some f => (0,(f.bytes.drop n.toNat).take size.toNat)
  | none => (invalidHandle,[])

/-- The calls on a disk that can also be read. -/
def readCalls : NnFsRead Disk := { calls with getFileSize := getFileSize, readFile := readFile }

/-- Only one file can be the target of a handle that is open on a path. -/
theorem target_of_opened {h : FileHandle} {s : Disk} {p : Path} {f g : File}
    (hin : (h,p) ∈ s.opened) (hf : s.file p = some f) (hg : s.target h = some g) : g = f := by
  have hmem : (h,p) ∈ s.opened.filter (fun e => e.1 = h) :=
    List.mem_filter.mpr ⟨hin,decide_eq_true rfl⟩
  rw [target] at hg
  split at hg
  next q heq =>
    rw [heq, List.mem_singleton] at hmem
    obtain rfl := (Prod.mk.inj hmem).2
    exact Option.some.inj (hg.symm.trans hf)
  next => cases hg

theorem readCalls_documented : readCalls.Documented where
  calls := calls_documented
  size_done h size s p f hs hin hf := by
    change isSuccess (getFileSize h size s).1 = true at hs
    change (getFileSize h size s).2.toInt = f.bytes.length
    rw [getFileSize] at hs ⊢
    cases htarget : s.target h with
    | none => rw [htarget] at hs; cases hs
    | some g =>
      obtain rfl := target_of_opened hin hf htarget
      rw [htarget] at hs
      dsimp only at hs ⊢
      by_cases hlt : g.bytes.length < 2^63
      · rw [if_pos hlt, BitVec.toInt_ofNat']
        exact Int.bmod_eq_of_le (by omega) (by omega)
      · rw [if_neg hlt] at hs
        cases hs
  size_failed h size s hs := by
    change isFailure (getFileSize h size s).1 = true at hs
    change (getFileSize h size s).2 = size
    rw [getFileSize] at hs ⊢
    cases htarget : s.target h with
    | none => rfl
    | some g =>
      rw [htarget] at hs
      dsimp only at hs ⊢
      split_ifs at hs ⊢ with hlt
      · cases hs
      · rfl
  read_done h n size s p f hs hin hf := by
    change isSuccess (readFile h n size s).1 = true at hs
    change (readFile h n size s).2 = _
    rw [readFile] at hs ⊢
    cases htarget : s.target h with
    | none => rw [htarget] at hs; cases hs
    | some g =>
      obtain rfl := target_of_opened hin hf htarget
      rfl

end Disk

end FsHelper

end Zeldar
