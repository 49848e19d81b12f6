import Zeldar.A64Code
import Zeldar.A64Decode
import Zeldar.A64Frame

namespace Zeldar.A64

section Cpu
variable (c : Cpu) (r : BitVec 5) (v : BitVec 64)

@[simp] theorem setX_mem : (c.setX r v).mem = c.mem := by
  unfold Cpu.setX
  split_ifs <;> rfl

@[simp] theorem setX_pc : (c.setX r v).pc = c.pc := by
  unfold Cpu.setX
  split_ifs <;> rfl

@[simp] theorem loadLit_mem (kind : LitKind) (a : Addr) (rt : BitVec 5) :
    (loadLit kind a rt c).mem = c.mem := by
  cases kind <;> simp [loadLit, Cpu.setV]

@[simp] theorem loadLit_pc (kind : LitKind) (a : Addr) (rt : BitVec 5) :
    (loadLit kind a rt c).pc = c.pc := by
  cases kind <;> simp [loadLit, Cpu.setV]

theorem setX_goto (a : Addr) : (c.setX r v).goto a = (c.goto a).setX r v := by
  unfold Cpu.setX
  split_ifs <;> rfl

end Cpu

section Values
variable {m m' : Mem} {a b start stop : Addr} {c : Cpu} {kind : LitKind} {rt : BitVec 5}

def LitKind.vector : LitKind → Bool
  | .s | .d | .q => true
  | _ => false

/-- What a literal load of the kind leaves in its register. -/
def LitKind.value (kind : LitKind) (m : Mem) (a : Addr) : BitVec 128 :=
  match kind with
  | .w => (m.read32 a).setWidth 128
  | .x => (m.read64 a).setWidth 128
  | .sw => ((m.read32 a).signExtend 64).setWidth 128
  | .prfm => 0
  | .s => (m.read32 a).setWidth 128
  | .d => (m.read64 a).setWidth 128
  | .q => m.read64 (a+8)++m.read64 a

/-- The register takes the value. -/
def place (vector : Bool) (rt : BitVec 5) (v : BitVec 128) (c : Cpu) : Cpu :=
  if vector then c.setV rt v else c.setX rt (v.setWidth 64)

/-- A literal load from `a` with the literal as it is in `m`. -/
def loadLitFrom (m : Mem) (kind : LitKind) (a : Addr) (rt : BitVec 5) (c : Cpu) : Cpu :=
  { loadLit kind a rt { c with mem := m } with mem := c.mem }

theorem loadLit_eq (hk : kind ≠ .prfm) :
    loadLit kind a rt c = place kind.vector rt (kind.value c.mem a) c := by
  cases kind with
  | prfm => contradiction
  | _ => simp [loadLit, place, LitKind.vector, LitKind.value]

theorem loadLitFrom_eq (hk : kind ≠ .prfm) :
    loadLitFrom m kind a rt c = place kind.vector rt (kind.value m a) c := by
  rw [loadLitFrom, loadLit_eq hk]
  unfold place Cpu.setX Cpu.setV
  split_ifs <;> rfl

/-- Values for a general register are 64 bits wide. -/
theorem value_setWidth (hv : kind.vector = false) :
    ((kind.value m a).setWidth 64).setWidth 128 = kind.value m a := by
  cases kind with
  | w | x | sw | prfm => simp [LitKind.value]
  | _ => cases hv

/-- A literal is the words it consists of. -/
theorem value_of_words (h : ∀ k < kind.size/4, m.read32 (wordAt a k) = m'.read32 (wordAt b k)) :
    kind.value m a = kind.value m' b := by
  have h64 (i : ℕ) (hi : ∀ k < 2, m.read32 (wordAt a (i+k)) = m'.read32 (wordAt b (i+k))) :
      m.read64 (wordAt a i) = m'.read64 (wordAt b i) := by
    have h0 := hi 0 (by decide)
    have h1 := hi 1 (by decide)
    rw [Mem.read64, Mem.read64]
    change m.read32 (wordAt a i+4#64)++m.read32 (wordAt a i) =
      m'.read32 (wordAt b i+4#64)++m'.read32 (wordAt b i)
    rw [wordAt_four, wordAt_four, h1]
    exact congrArg _ h0
  cases kind with
  | prfm => rfl
  | w | sw | s =>
    have h0 := h 0 (by decide)
    rw [wordAt_zero, wordAt_zero] at h0
    simp only [LitKind.value, h0]
  | x | d =>
    have h0 := h64 0 fun k hk => h (0+k) (by simp only [LitKind.size]; omega)
    rw [wordAt_zero, wordAt_zero] at h0
    simp only [LitKind.value, h0]
  | q =>
    have h0 := h64 0 fun k hk => h (0+k) (by simp only [LitKind.size]; omega)
    have h2 := h64 2 fun k hk => h (2+k) (by simp only [LitKind.size]; omega)
    rw [wordAt_zero, wordAt_zero] at h0
    have h8 (x : Addr) : x+8 = wordAt x 2 := rfl
    simp only [LitKind.value, h8, h0, h2]

theorem place_goto {vector : Bool} {v : BitVec 128} (b stop : Addr) :
    (place vector rt v (c.goto b)).goto stop = (place vector rt v c).goto stop := by
  unfold place
  split_ifs
  · rfl
  · rw [setX_goto, setX_goto]
    rfl

/-- Some core tells two values in a register apart, if there is a register. -/
theorem Computes.place_iff {vector : Bool} {v v' : BitVec 128}
    (h : Computes m start stop (place vector rt v)) :
    Computes m start stop (place vector rt v') ↔
      vector = false ∧ rt = 31 ∨ if vector then v = v' else v.setWidth 64 = v'.setWidth 64 := by
  cases vector with
  | false =>
    have hx : Computes m start stop fun c => c.setX rt (v.setWidth 64) := h
    apply (@Computes.setX_iff m start stop rt rt _ (v'.setWidth 64) hx).trans
    simp
  | true =>
    simp only [Bool.true_eq_false, false_and, ↓reduceIte, false_or]
    constructor
    · intro h'
      have he := h.unique h' ⟨fun _ => 0,fun _ => 0,0,start,⟨false,false,false,false⟩,m⟩ rfl rfl
      have hv := congrFun (congrArg Cpu.v he) rt
      simpa [place, Cpu.setV, Cpu.goto] using hv
    · rintro rfl
      exact h

end Values

end Zeldar.A64
