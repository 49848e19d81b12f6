import Zeldar.Kernel

/-! `writeFileToPath` over a file system whose calls may fail one by one. The
calls of `nn::fs` are parameters; `Documented` says what they do to the files
and to the open handles. -/
namespace Zeldar

def isSuccess (r : Result) : Bool := r == 0

def isFailure (r : Result) : Bool := !isSuccess r

theorem isSuccess_of_isFailure {r : Result} (h : isFailure r = true) : isSuccess r = false := by
  simpa [isFailure] using h

theorem isSuccess_of_not_isFailure {r : Result} (h : ¬isFailure r = true) : isSuccess r = true := by
  simpa [isFailure] using h

theorem not_isFailure {r : Result} (h : isSuccess r = true) : ¬isFailure r = true := by
  simp [isFailure, h]

/-- A path, by its bytes. -/
abbrev Path := List (BitVec 8)

abbrev FileHandle := BitVec 64

/-- `DirectoryEntryType_File`. -/
def directoryEntryTypeFile : Word := 1

/-- `OpenMode_Write`. -/
def openModeWrite : Word := 2

/-- `WriteOptionFlag_Flush`. -/
def writeOptionFlagFlush : Word := 1

/-- A buffer and its size. -/
structure Buffer where
  bytes : List (BitVec 8)
  size : BitVec 64
  size_eq : bytes.length = size.toNat

/-- A file, told apart from every file that was at its path before. -/
structure File where
  id : ℕ
  bytes : List (BitVec 8)
  deriving DecidableEq, Repr

/-- The calls of `nn::fs` over a state, and what can be seen of the state: the
file at a path, the open handles with the paths they were opened on, and how
many files were created. The query stores its answer, or leaves what it finds. -/
structure NnFs (σ : Type) where
  getEntryType : Path → Word → σ → Result × Word
  deleteFile : Path → σ → Result × σ
  createFile : Path → BitVec 64 → σ → Result × σ
  openFile : Path → Word → σ → Result × FileHandle × σ
  writeFile : FileHandle → BitVec 64 → Buffer → Word → σ → Result × σ
  closeFile : FileHandle → σ → σ
  file : Path → σ → Option File
  opened : σ → List (FileHandle × Path)
  clock : σ → ℕ

namespace FsHelper

section Source
variable {σ : Type} (fs : NnFs σ) (buf : Buffer) (path : Path) (stale : Word) (s : σ)

/-- `type` is not initialised: it holds `stale` before the query. -/
def isFileExist : Bool := (fs.getEntryType path stale s).2 == directoryEntryTypeFile

def writeFileToPath : Result × σ :=
  let s := if isFileExist fs path stale s then (fs.deleteFile path s).2 else s
  let (result,s) := fs.createFile path buf.size s
  if isFailure result then (result,s)
  else
    let (result,handle,s) := fs.openFile path openModeWrite s
    if isFailure result then (result,s)
    else
      let (result,s) := fs.writeFile handle 0 buf writeOptionFlagFlush s
      if isFailure result then (result,s)
      else (1,fs.closeFile handle s)

end Source

end FsHelper

/-- What the calls do. A write of the bytes at a position leaves the others, and
a new file has the size asked for, which the call takes as a signed number. -/
structure NnFs.Documented {σ : Type} (fs : NnFs σ) : Prop where
  id_lt : ∀ p s f, fs.file p s = some f → f.id < fs.clock s
  delete_opened : ∀ p s, fs.opened (fs.deleteFile p s).2 = fs.opened s
  delete_clock : ∀ p s, fs.clock (fs.deleteFile p s).2 = fs.clock s
  delete_file : ∀ p s, fs.file p (fs.deleteFile p s).2 =
    if isSuccess (fs.deleteFile p s).1 then none else fs.file p s
  create_opened : ∀ p n s, fs.opened (fs.createFile p n s).2 = fs.opened s
  create_failed : ∀ p n s, isFailure (fs.createFile p n s).1 →
    fs.file p (fs.createFile p n s).2 = fs.file p s
  create_done : ∀ p n s, isSuccess (fs.createFile p n s).1 →
    ∃ f, fs.file p (fs.createFile p n s).2 = some f ∧ f.id = fs.clock s ∧ f.bytes.length = n.toInt
  open_file : ∀ p q m s, fs.file q (fs.openFile p m s).2.2 = fs.file q s
  open_failed : ∀ p m s, isFailure (fs.openFile p m s).1 →
    fs.opened (fs.openFile p m s).2.2 = fs.opened s
  open_done : ∀ p m s, isSuccess (fs.openFile p m s).1 →
    fs.opened (fs.openFile p m s).2.2 = ((fs.openFile p m s).2.1,p) :: fs.opened s ∧
    ∀ q, ((fs.openFile p m s).2.1,q) ∉ fs.opened s
  write_opened : ∀ h n buf o s, fs.opened (fs.writeFile h n buf o s).2 = fs.opened s
  write_done : ∀ h n buf o s p f, isSuccess (fs.writeFile h n buf o s).1 →
    (h,p) ∈ fs.opened s → fs.file p s = some f →
    fs.file p (fs.writeFile h n buf o s).2 = some { f with
      bytes := f.bytes.take n.toNat++buf.bytes++f.bytes.drop (n.toNat+buf.bytes.length) }
  close_file : ∀ h p s, fs.file p (fs.closeFile h s) = fs.file p s
  close_opened : ∀ h s, fs.opened (fs.closeFile h s) = (fs.opened s).filter (fun e => e.1 ≠ h)

namespace FsHelper

section Contract
variable {σ : Type} (fs : NnFs σ)

/-- The file at the path holds the bytes, and it is not the file that was there. -/
def PutBetween (path : Path) (bytes : List (BitVec 8)) (s s' : σ) : Prop :=
  ∃ f, fs.file path s' = some f ∧ f.bytes = bytes ∧ fs.file path s ≠ some f

/-- Success is reported exactly if the bytes were written. -/
def Truthful (buf : Buffer) (path : Path) (s : σ) (out : Result × σ) : Prop :=
  isSuccess out.1 = true ↔ PutBetween fs path buf.bytes s out.2

/-- No handle is open afterwards that was not open before. -/
def Leakless (s : σ) (out : Result × σ) : Prop := ∀ e, e ∈ fs.opened out.2 → e ∈ fs.opened s

end Contract

section Calls
variable {σ : Type} (fs : NnFs σ) (buf : Buffer) (path : Path) (stale : Word) (s : σ)

/-- The state in which the file is created. -/
def cleared : σ := if isFileExist fs path stale s then (fs.deleteFile path s).2 else s

def creation : Result × σ := fs.createFile path buf.size (cleared fs path stale s)

def opening : Result × FileHandle × σ :=
  fs.openFile path openModeWrite (creation fs buf path stale s).2

def writing : Result × σ :=
  fs.writeFile (opening fs buf path stale s).2.1 0 buf writeOptionFlagFlush
    (opening fs buf path stale s).2.2

/-- The four ways through the function. -/
theorem writeFileToPath_cases :
    let created := creation fs buf path stale s
    let opened := opening fs buf path stale s
    let written := writing fs buf path stale s
    let out := writeFileToPath fs buf path stale s
    isFailure created.1 = true ∧ out = created ∨
    isSuccess created.1 = true ∧ isFailure opened.1 = true ∧ out = (opened.1,opened.2.2) ∨
    isSuccess created.1 = true ∧ isSuccess opened.1 = true ∧ isFailure written.1 = true ∧
      out = written ∨
    isSuccess created.1 = true ∧ isSuccess opened.1 = true ∧ isSuccess written.1 = true ∧
      out = (1,fs.closeFile opened.2.1 written.2) := by
  intro created opened written out
  have hout : out = if isFailure created.1 then created
      else if isFailure opened.1 then (opened.1,opened.2.2)
      else if isFailure written.1 then written
      else (1,fs.closeFile opened.2.1 written.2) := rfl
  by_cases hc : isFailure created.1 = true
  · exact Or.inl ⟨hc,hout.trans (if_pos hc)⟩
  · have hc' := isSuccess_of_not_isFailure hc
    rw [if_neg hc] at hout
    by_cases ho : isFailure opened.1 = true
    · exact Or.inr (Or.inl ⟨hc',ho,hout.trans (if_pos ho)⟩)
    · have ho' := isSuccess_of_not_isFailure ho
      rw [if_neg ho] at hout
      by_cases hw : isFailure written.1 = true
      · exact Or.inr (Or.inr (Or.inl ⟨hc',ho',hw,hout.trans (if_pos hw)⟩))
      · have hw' := isSuccess_of_not_isFailure hw
        exact Or.inr (Or.inr (Or.inr ⟨hc',ho',hw',hout.trans (if_neg hw)⟩))

/-- The call never reports success: it returns a failure, or 1. -/
theorem not_isSuccess : isSuccess (writeFileToPath fs buf path stale s).1 = false := by
  obtain ⟨hc,h⟩ | ⟨-,ho,h⟩ | ⟨-,-,hw,h⟩ | ⟨-,-,-,h⟩ := writeFileToPath_cases fs buf path stale s
  · rw [h]
    exact isSuccess_of_isFailure hc
  · rw [h]
    exact isSuccess_of_isFailure ho
  · rw [h]
    exact isSuccess_of_isFailure hw
  · rw [h]
    rfl

/-- So it is truthful exactly if it did not put the bytes there. -/
theorem truthful_iff :
    Truthful fs buf path s (writeFileToPath fs buf path stale s) ↔
      ¬PutBetween fs path buf.bytes s (writeFileToPath fs buf path stale s).2 := by
  rw [Truthful, not_isSuccess]
  simp

end Calls

section Outcomes
variable {σ : Type} {fs : NnFs σ} (hfs : fs.Documented) (buf : Buffer) (path : Path)
  (stale : Word) (s : σ)
include hfs

theorem opened_creation : fs.opened (creation fs buf path stale s).2 = fs.opened s := by
  rw [creation, hfs.create_opened, cleared]
  by_cases h : isFileExist fs path stale s = true
  · rw [if_pos h, hfs.delete_opened]
  · rw [if_neg h]

theorem clock_cleared : fs.clock (cleared fs path stale s) = fs.clock s := by
  rw [cleared]
  by_cases h : isFileExist fs path stale s = true
  · rw [if_pos h, hfs.delete_clock]
  · rw [if_neg h]

/-- Before the creation the path has the file it had, or none. -/
theorem file_cleared {f : File} (h : fs.file path (cleared fs path stale s) = some f) :
    fs.file path s = some f := by
  rw [cleared] at h
  by_cases he : isFileExist fs path stale s = true
  · rw [if_pos he, hfs.delete_file] at h
    by_cases hd : isSuccess (fs.deleteFile path s).1 = true
    · rw [if_pos hd] at h
      cases h
    · rwa [if_neg hd] at h
  · rwa [if_neg he] at h

/-- Nothing was put at the path if the creation failed. -/
theorem not_putBetween_of_creation_failed (h : isFailure (creation fs buf path stale s).1 = true) :
    ¬PutBetween fs path buf.bytes s (creation fs buf path stale s).2 := by
  rintro ⟨f,hf,-,hne⟩
  have hsame := hfs.create_failed path buf.size (cleared fs path stale s) h
  rw [creation, hsame] at hf
  exact hne (file_cleared hfs path stale s hf)

/-- A created file has room for exactly the bytes, and it is not the file that
was there. -/
theorem file_created (h : isSuccess (creation fs buf path stale s).1 = true) :
    ∃ f, fs.file path (creation fs buf path stale s).2 = some f ∧
      f.bytes.length = buf.bytes.length ∧ ∀ g, g.id = f.id → fs.file path s ≠ some g := by
  obtain ⟨f,hf,hid,hlen⟩ := hfs.create_done path buf.size (cleared fs path stale s) h
  refine ⟨f,hf,?_,fun g hg hold => ?_⟩
  · have hnat := BitVec.toInt_eq_toNat_cond buf.size
    have hsize := buf.size_eq
    split_ifs at hnat <;> omega
  · have hlt := hfs.id_lt path s g hold
    rw [hg, hid, clock_cleared hfs] at hlt
    omega

/-- After a successful write the bytes are at the path, as a result of the call. -/
theorem putBetween_of_written (hc : isSuccess (creation fs buf path stale s).1 = true)
    (ho : isSuccess (opening fs buf path stale s).1 = true)
    (hw : isSuccess (writing fs buf path stale s).1 = true) (h : FileHandle) :
    PutBetween fs path buf.bytes s (fs.closeFile h (writing fs buf path stale s).2) := by
  obtain ⟨f,hf,hlen,hnew⟩ := file_created hfs buf path stale s hc
  have hopened := (hfs.open_done path openModeWrite (creation fs buf path stale s).2 ho).1
  have hin : ((opening fs buf path stale s).2.1,path) ∈
      fs.opened (opening fs buf path stale s).2.2 := by
    rw [opening, hopened]
    exact List.mem_cons_self
  have hfile : fs.file path (opening fs buf path stale s).2.2 = some f := by
    rw [opening, hfs.open_file, hf]
  have hwritten := hfs.write_done _ 0 buf writeOptionFlagFlush _ path f hw hin hfile
  refine ⟨_,(hfs.close_file h path _).trans hwritten,?_,hnew _ rfl⟩
  -- the file is as long as the buffer, and the write starts at its first byte
  change f.bytes.take 0++buf.bytes++f.bytes.drop (0+buf.bytes.length) = buf.bytes
  rw [List.take_zero, List.nil_append, Nat.zero_add, ← hlen, List.drop_length, List.append_nil]

theorem opened_writing (ho : isSuccess (opening fs buf path stale s).1 = true) :
    fs.opened (writing fs buf path stale s).2 =
      ((opening fs buf path stale s).2.1,path) :: fs.opened s := by
  have hopened := (hfs.open_done path openModeWrite (creation fs buf path stale s).2 ho).1
  rw [writing, hfs.write_opened, opening, hopened, opened_creation hfs]

/-- A file is opened with a handle that was not open before. -/
theorem handle_not_opened (ho : isSuccess (opening fs buf path stale s).1 = true) :
    ((opening fs buf path stale s).2.1,path) ∉ fs.opened s := by
  have hfresh := (hfs.open_done path openModeWrite (creation fs buf path stale s).2 ho).2 path
  rwa [opened_creation hfs] at hfresh

/-- The handle stays open if the write fails, and only then. -/
theorem leakless_iff :
    Leakless fs s (writeFileToPath fs buf path stale s) ↔
      isFailure (creation fs buf path stale s).1 ∨ isFailure (opening fs buf path stale s).1 ∨
        isSuccess (writing fs buf path stale s).1 := by
  obtain ⟨hc,h⟩ | ⟨hc,ho,h⟩ | ⟨hc,ho,hw,h⟩ | ⟨hc,ho,hw,h⟩ :=
    writeFileToPath_cases fs buf path stale s
  · rw [h]
    refine ⟨fun _ => Or.inl hc,fun _ e he => ?_⟩
    rwa [opened_creation hfs] at he
  · rw [h]
    refine ⟨fun _ => Or.inr (Or.inl ho),fun _ e he => ?_⟩
    have hsame := hfs.open_failed path openModeWrite (creation fs buf path stale s).2 ho
    rwa [opening, hsame, opened_creation hfs] at he
  · rw [h]
    constructor
    · intro hleak
      have hin : ((opening fs buf path stale s).2.1,path) ∈ fs.opened s := by
        apply hleak
        rw [opened_writing hfs buf path stale s ho]
        exact List.mem_cons_self
      exact absurd hin (handle_not_opened hfs buf path stale s ho)
    · rintro (h | h | h)
      · exact absurd h (not_isFailure hc)
      · exact absurd h (not_isFailure ho)
      · exact absurd hw (not_isFailure h)
  · rw [h]
    refine ⟨fun _ => Or.inr (Or.inr hw),fun _ e he => ?_⟩
    rw [hfs.close_opened, opened_writing hfs buf path stale s ho] at he
    obtain ⟨hmem,hne⟩ := List.mem_filter.mp he
    rcases List.mem_cons.mp hmem with rfl | hmem
    · exact absurd rfl (of_decide_eq_true hne)
    · exact hmem

/-- A file that was created and not opened holds what it was created with. -/
theorem putBetween_opening (hc : isSuccess (creation fs buf path stale s).1 = true) :
    PutBetween fs path buf.bytes s (opening fs buf path stale s).2.2 ↔
      ∃ f, fs.file path (creation fs buf path stale s).2 = some f ∧ f.bytes = buf.bytes := by
  obtain ⟨f,hf,-,hnew⟩ := file_created hfs buf path stale s hc
  have hfile : fs.file path (opening fs buf path stale s).2.2 = some f := by
    rw [opening, hfs.open_file, hf]
  rw [PutBetween, hfile, hf]
  constructor
  · rintro ⟨g,hg,hbytes,-⟩
    exact ⟨g,hg,hbytes⟩
  · rintro ⟨g,hg,hbytes⟩
    obtain rfl := Option.some.inj hg
    exact ⟨f,rfl,hbytes,hnew f rfl⟩

end Outcomes

/-- A disk. The files on a full one can be created, but not written. -/
structure Disk where
  file : Path → Option File
  opened : List (FileHandle × Path)
  clock : ℕ
  full : Bool
  id_lt : ∀ p f, file p = some f → f.id < clock

namespace Disk

def pathNotFound : Result := 0x202

def pathAlreadyExists : Result := 0x402

def invalidHandle : Result := 0xa02

def usableSpaceNotEnough : Result := 0x3c02

def empty : Disk := ⟨fun _ => none,[],0,false,fun _ _ h => by cases h⟩

/-- The disk with another file, or none, at a path. -/
def put (s : Disk) (p : Path) (file : Option File) (clock : ℕ) (hc : s.clock ≤ clock)
    (hf : ∀ f, file = some f → f.id < clock) : Disk :=
  { s with
    file := Function.update s.file p file
    clock := clock
    id_lt := by
      intro q f h
      by_cases hq : q = p
      · rw [hq, Function.update_self] at h
        exact hf f h
      · rw [Function.update_of_ne hq] at h
        exact (s.id_lt q f h).trans_le hc }

def getEntryType (p : Path) (type : Word) (s : Disk) : Result × Word :=
  if (s.file p).isSome then (0,directoryEntryTypeFile) else (pathNotFound,type)

def deleteFile (p : Path) (s : Disk) : Result × Disk :=
  if (s.file p).isSome then (0,s.put p none s.clock le_rfl (fun _ h => by cases h))
  else (pathNotFound,s)

def createFile (p : Path) (n : BitVec 64) (s : Disk) : Result × Disk :=
  if (s.file p).isSome ∨ n.msb then (pathAlreadyExists,s)
  else (0,s.put p (some ⟨s.clock,List.replicate n.toNat 0⟩) (s.clock+1) (Nat.le_succ _)
    (fun f h => by cases h; exact Nat.lt_succ_self _))

def openFile (p : Path) (_mode : Word) (s : Disk) : Result × FileHandle × Disk :=
  let handle := BitVec.ofNat 64 s.opened.length
  if (s.file p).isNone ∨ handle ∈ s.opened.map Prod.fst then (pathNotFound,0,s)
  else (0,handle,{ s with opened := (handle,p) :: s.opened })

def writeFile (h : FileHandle) (n : BitVec 64) (buf : Buffer) (_option : Word) (s : Disk) :
    Result × Disk :=
  if s.full then (usableSpaceNotEnough,s)
  else match s.opened.filter (fun e => e.1 = h) with
    | [(_,p)] => match hf : s.file p with
      | some f => (0,s.put p (some { f with
          bytes := f.bytes.take n.toNat++buf.bytes++f.bytes.drop (n.toNat+buf.bytes.length) })
          s.clock le_rfl (fun g hg => by cases hg; exact s.id_lt p f hf))
      | none => (pathNotFound,s)
    | _ => (invalidHandle,s)

def closeFile (h : FileHandle) (s : Disk) : Disk :=
  { s with opened := s.opened.filter (fun e => e.1 ≠ h) }

/-- The calls on a disk. -/
def calls : NnFs Disk :=
  ⟨getEntryType,deleteFile,createFile,openFile,writeFile,closeFile,fun p s => s.file p,opened,clock⟩

theorem calls_documented : calls.Documented where
  id_lt p s f h := s.id_lt p f h
  delete_opened p s := by
    change (deleteFile p s).2.opened = s.opened
    rw [deleteFile]
    split_ifs <;> rfl
  delete_clock p s := by
    change (deleteFile p s).2.clock = s.clock
    rw [deleteFile]
    split_ifs <;> rfl
  delete_file p s := by
    change (deleteFile p s).2.file p = if isSuccess (deleteFile p s).1 then none else s.file p
    rw [deleteFile]
    split_ifs with h1 h2 h2
    · exact Function.update_self p none s.file
    · exact absurd rfl h2
    · cases h2
    · rfl
  create_opened p n s := by
    change (createFile p n s).2.opened = s.opened
    rw [createFile]
    split_ifs <;> rfl
  create_failed p n s h := by
    change isFailure (createFile p n s).1 = true at h
    change (createFile p n s).2.file p = s.file p
    rw [createFile] at h ⊢
    split_ifs at h ⊢ with hc
    · rfl
    · cases h
  create_done p n s h := by
    change isSuccess (createFile p n s).1 = true at h
    change ∃ f, (createFile p n s).2.file p = some f ∧ f.id = s.clock ∧ f.bytes.length = n.toInt
    rw [createFile] at h ⊢
    split_ifs at h ⊢ with hc
    · cases h
    · refine ⟨_,Function.update_self p _ s.file,rfl,?_⟩
      have hm : n.msb = false := by simpa using fun hm => hc (Or.inr hm)
      rw [List.length_replicate, BitVec.toInt_eq_toNat_of_msb hm]
  open_file p q m s := by
    change (openFile p m s).2.2.file q = s.file q
    rw [openFile]
    split_ifs <;> rfl
  open_failed p m s h := by
    change isFailure (openFile p m s).1 = true at h
    change (openFile p m s).2.2.opened = s.opened
    rw [openFile] at h ⊢
    split_ifs at h ⊢ with ho
    · rfl
    · cases h
  open_done p m s h := by
    change isSuccess (openFile p m s).1 = true at h
    change (openFile p m s).2.2.opened = ((openFile p m s).2.1,p) :: s.opened ∧
      ∀ q, ((openFile p m s).2.1,q) ∉ s.opened
    rw [openFile] at h ⊢
    split_ifs at h ⊢ with ho
    · cases h
    · exact ⟨rfl,fun q hq => ho (Or.inr (List.mem_map.mpr ⟨_,hq,rfl⟩))⟩
  write_opened h n buf o s := by
    change (writeFile h n buf o s).2.opened = s.opened
    rw [writeFile]
    split_ifs
    · rfl
    · split
      · split <;> rfl
      · rfl
  write_done h n buf o s p f hs hin hf := by
    change isSuccess (writeFile h n buf o s).1 = true at hs
    change (writeFile h n buf o s).2.file p = _
    have hmem : (h,p) ∈ s.opened.filter (fun e => e.1 = h) :=
      List.mem_filter.mpr ⟨hin,decide_eq_true rfl⟩
    have hfile : s.file p = some f := hf
    rw [writeFile] at hs ⊢
    by_cases hfull : s.full = true
    · rw [if_pos hfull] at hs
      cases hs
    · rw [if_neg hfull] at hs ⊢
      revert hs
      split
      next q heq =>
        -- the one handle that passes the filter was opened on the path
        rw [heq, List.mem_singleton] at hmem
        obtain rfl := (Prod.mk.inj hmem).2
        split
        next g hg =>
          obtain rfl := Option.some.inj (hfile.symm.trans hg)
          exact fun _ => Function.update_self p _ s.file
        next hg => exact fun _ => absurd hg (by rw [hfile]; exact Option.some_ne_none f)
      next => exact fun hs => absurd hs Bool.false_ne_true
  close_file h p s := rfl
  close_opened h s := rfl

end Disk

def threeBytes : Buffer := ⟨[0x41,0x42,0x43],3,rfl⟩

/-- A call of `writeFileToPath` that tells the truth and closes what it opened:
only the failing ones can, and of these the ones that stop before a write. -/
theorem writeFileToPath_iff {σ : Type} {fs : NnFs σ} (hfs : fs.Documented) (buf : Buffer)
    (path : Path) (stale : Word) (s : σ) :
    Truthful fs buf path s (writeFileToPath fs buf path stale s) ∧
        Leakless fs s (writeFileToPath fs buf path stale s) ↔
      isFailure (creation fs buf path stale s).1 ∨
        isFailure (opening fs buf path stale s).1 ∧
          ∀ f, fs.file path (creation fs buf path stale s).2 = some f → f.bytes ≠ buf.bytes := by
  rw [leakless_iff hfs, truthful_iff]
  obtain ⟨hc,h⟩ | ⟨hc,ho,h⟩ | ⟨hc,ho,hw,h⟩ | ⟨hc,ho,hw,h⟩ :=
    writeFileToPath_cases fs buf path stale s
  · rw [h]
    have hnone := not_putBetween_of_creation_failed hfs buf path stale s hc
    exact ⟨fun _ => Or.inl hc,fun _ => ⟨hnone,Or.inl hc⟩⟩
  · rw [h, putBetween_opening hfs buf path stale s hc]
    constructor
    · rintro ⟨hnone,-⟩
      exact Or.inr ⟨ho,fun f hf he => hnone ⟨f,hf,he⟩⟩
    · rintro (h | ⟨-,h⟩)
      · exact absurd h (not_isFailure hc)
      · refine ⟨?_,Or.inr (Or.inl ho)⟩
        rintro ⟨f,hf,he⟩
        exact h f hf he
  -- once the file is open, the handle leaks or the bytes are written
  · rw [or_iff_right (not_isFailure hc), or_iff_right (not_isFailure ho),
      or_iff_right (not_isFailure hc)]
    constructor
    · rintro ⟨-,hw'⟩
      exact absurd hw (not_isFailure hw')
    · rintro ⟨ho',-⟩
      exact absurd ho' (not_isFailure ho)
  · rw [h]
    have hput := putBetween_of_written hfs buf path stale s hc ho hw
      (opening fs buf path stale s).2.1
    constructor
    · rintro ⟨hnone,-⟩
      exact absurd hput hnone
    · rintro (h | ⟨ho',-⟩)
      · exact absurd h (not_isFailure hc)
      · exact absurd ho' (not_isFailure ho)

theorem writeFileToPath_iff_disk :
    Truthful Disk.calls threeBytes [0x61] Disk.empty
        (writeFileToPath Disk.calls threeBytes [0x61] 0 Disk.empty) ∧
        Leakless Disk.calls Disk.empty
          (writeFileToPath Disk.calls threeBytes [0x61] 0 Disk.empty) ↔
      isFailure (creation Disk.calls threeBytes [0x61] 0 Disk.empty).1 ∨
        isFailure (opening Disk.calls threeBytes [0x61] 0 Disk.empty).1 ∧
          ∀ f, Disk.calls.file [0x61] (creation Disk.calls threeBytes [0x61] 0 Disk.empty).2 =
            some f → f.bytes ≠ threeBytes.bytes :=
  writeFileToPath_iff Disk.calls_documented threeBytes [0x61] 0 Disk.empty

/-- On an empty disk the three bytes are written, and the result is 1. On a full
one the handle of the failed write stays open. -/
theorem writeFileToPath_disk :
    Disk.calls.Documented ∧
    (let out := writeFileToPath Disk.calls threeBytes [0x61] 0 Disk.empty
     out.1 = 1 ∧ PutBetween Disk.calls [0x61] threeBytes.bytes Disk.empty out.2 ∧
       ¬Truthful Disk.calls threeBytes [0x61] Disk.empty out) ∧
    let full := { Disk.empty with full := true }
    let out := writeFileToPath Disk.calls threeBytes [0x61] 0 full
    out.1 = Disk.usableSpaceNotEnough ∧ Disk.calls.opened out.2 = [(0,[0x61])] ∧
      ¬Leakless Disk.calls full out := by
  have hput : PutBetween Disk.calls [0x61] threeBytes.bytes Disk.empty
      (writeFileToPath Disk.calls threeBytes [0x61] 0 Disk.empty).2 :=
    ⟨⟨0,threeBytes.bytes⟩,rfl,rfl,fun h => by cases h⟩
  refine ⟨Disk.calls_documented,⟨rfl,hput,fun h => ?_⟩,rfl,rfl,fun h => ?_⟩
  · exact Bool.false_ne_true (h.mpr hput)
  · have hopen := h ((0:FileHandle),[0x61]) List.mem_cons_self
    cases hopen

end FsHelper

end Zeldar
