import Zeldar.Asm
import Mathlib.Tactic.Ring
import Mathlib.Data.List.Sort

namespace Zeldar
open Asm

inductive Maintenance
  | dcCivac
  | dcCvac
  | icIvau
  | dcZva
  deriving DecidableEq, Repr

inductive CacheOp
  | mrsCtr (rd : Reg)
  | maintain (kind : Maintenance) (r : Reg)
  | dsb
  deriving DecidableEq, Repr

inductive CacheEvent
  | line (kind : Maintenance) (a : Addr)
  | dsb
  deriving DecidableEq, Repr

/-- `CTR_EL0`, and the logarithm of the number of bytes that `dc zva` zeroes. -/
structure CacheRegs where
  ctr : BitVec 64
  zva : ℕ

/-- `dc zva` writes to memory. -/
def Maintenance.store (kind : Maintenance) (regs : CacheRegs) (a : Addr) (m : Mem) : Mem :=
  if kind = .dcZva then fun x => if x >>> regs.zva = a >>> regs.zva then 0 else m x else m

def CacheOp.exec (regs : CacheRegs) (op : CacheOp) (s : Core (List CacheEvent)) :
    Option (Core (List CacheEvent)) :=
  match op with
  | .mrsCtr rd => some (s.set rd regs.ctr)
  | .maintain kind r => some { s with
      mem := kind.store regs (s.get r) s.mem
      world := s.world++[.line kind (s.get r)] }
  | .dsb => some { s with world := s.world++[.dsb] }

/-- The lines before the loop. -/
def cacheSetup (shift : List (Instr CacheOp)) : List (Instr CacheOp) :=
  [.alu .add 1 1 (.reg 0),.sys (.mrsCtr 8)]++shift++
    [.alu .and 8 8 (.imm 0xf),.mov 9 (.imm 4),.alu .lsl 9 9 (.reg 8),.alu .sub 10 9 (.imm 1),
      .alu .bic 8 0 (.reg 10),.mov 10 (.reg 1)]

/-- What the four routines share. -/
def cacheRoutine (kind : Maintenance) (shift : List (Instr CacheOp)) : List (Instr CacheOp) :=
  cacheSetup shift++
    [.sys (.maintain kind 8),.alu .add 8 8 (.reg 9),.cmp 8 (.reg 10),
      .bcond .cc (cacheSetup shift).length,.sys .dsb,.ret]

def armDCacheFlush : List (Instr CacheOp) := cacheRoutine .dcCivac [.alu .lsr 8 8 (.imm 16)]

def armDCacheClean : List (Instr CacheOp) := cacheRoutine .dcCvac [.alu .lsr 8 8 (.imm 16)]

def armICacheInvalidate : List (Instr CacheOp) := cacheRoutine .icIvau []

def armDCacheZero : List (Instr CacheOp) := cacheRoutine .dcZva [.alu .lsr 8 8 (.imm 16)]

/-- The size of a line that a field of `CTR_EL0` gives. -/
def lineSize (field : ℕ) : ℕ := 4*2^(field%16)

/-- The lines of `size` bytes from that of `a` on. -/
def lineAt (size a i : ℕ) : Addr := BitVec.ofNat 64 (size*(a/size+i))

/-- How many of them a routine goes through: at least one, even if there are no bytes. -/
def lineCount (size a n : ℕ) : ℕ := max 1 ((a+n+(size-1))/size-a/size)

section Lines
variable {size a n : ℕ}

theorem lineCount_pos (size a n : ℕ) : 0 < lineCount size a n := by
  rw [lineCount]
  omega

/-- The loop goes on while the next line begins before the end of the range. -/
theorem lt_lineCount_iff (hsize : 0 < size) {i : ℕ} (hi : 0 < i) :
    i < lineCount size a n ↔ size*(a/size+i) < a+n := by
  have hlt : i < (a+n+(size-1))/size-a/size ↔ a/size+i < (a+n+(size-1))/size := by omega
  rw [lineCount, lt_max_iff, hlt, or_iff_right (by omega), Nat.lt_iff_add_one_le,
    Nat.le_div_iff_mul_le hsize, Nat.add_mul, one_mul, mul_comm]
  omega

def linesOf (size a n : ℕ) : List Addr := (List.range (lineCount size a n)).map (lineAt size a)

/-- A line of the range begins before its end, and ends after its start. -/
theorem line_bounds (hsize : 0 < size) {i : ℕ} (hi : i < lineCount size a n) :
    size*(a/size+i) < a+max n 1 ∧ a < size*(a/size+i)+size := by
  have hdiv := Nat.div_add_mod a size
  have hmod := Nat.mod_lt a hsize
  have hmul : size*(a/size+i) = size*(a/size)+size*i := by ring
  by_cases h : i = 0
  · rw [h] at hmul ⊢
    omega
  · have hlt := (lt_lineCount_iff hsize (Nat.pos_of_ne_zero h)).mp hi
    omega

theorem line_number (hsize : 0 < size) {q : ℕ} (hlo : a < size*q+size)
    (hhi : size*q < a+max n 1) : ∃ i < lineCount size a n, q = a/size+i := by
  have hq : a/size ≤ q := by
    rw [← Nat.lt_succ_iff, Nat.div_lt_iff_lt_mul hsize, Nat.succ_mul, mul_comm]
    exact hlo
  obtain ⟨i,rfl⟩ := Nat.exists_eq_add_of_le hq
  refine ⟨i,?_,rfl⟩
  by_cases h : i = 0
  · rw [h]
    exact lineCount_pos size a n
  · rw [lt_lineCount_iff hsize (Nat.pos_of_ne_zero h)]
    by_contra hge
    -- then there are no bytes, and only the line of the start is left
    have hn : n = 0 := by omega
    have hdiv := Nat.div_add_mod a size
    have hmod := Nat.mod_lt a hsize
    have hmul : size*(a/size+i) = size*(a/size)+size*i := by ring
    have hle : size ≤ size*i := Nat.le_mul_of_pos_right size (Nat.pos_of_ne_zero h)
    omega

variable (hsize : 0 < size) (hend : a+max n 1+size ≤ 2^64)
include hsize hend

theorem lineAt_toNat {i : ℕ} (hi : i < lineCount size a n) :
    (lineAt size a i).toNat = size*(a/size+i) := by
  have hbounds := (line_bounds hsize hi).1
  rw [lineAt, BitVec.toNat_ofNat, Nat.mod_eq_of_lt]
  omega

/-- The address after a line of the range does not wrap. -/
theorem lineAt_succ_toNat {i : ℕ} (hi : i < lineCount size a n) :
    (lineAt size a (i+1)).toNat = size*(a/size+(i+1)) := by
  have hbounds := (line_bounds hsize hi).1
  have hmul : size*(a/size+(i+1)) = size*(a/size+i)+size := by ring
  rw [lineAt, BitVec.toNat_ofNat, Nat.mod_eq_of_lt]
  omega

/-- The lines are those that hold a byte of the range, or the first one. -/
theorem mem_linesOf_iff {l : Addr} : l ∈ linesOf size a n ↔
    size ∣ l.toNat ∧ l.toNat < a+max n 1 ∧ a < l.toNat+size := by
  rw [linesOf, List.mem_map]
  constructor
  · rintro ⟨i,hi,rfl⟩
    rw [List.mem_range] at hi
    rw [lineAt_toNat hsize hend hi]
    exact ⟨Nat.dvd_mul_right size _,line_bounds hsize hi⟩
  · rintro ⟨⟨q,hq⟩,hhi,hlo⟩
    rw [hq] at hhi hlo
    obtain ⟨i,hi,rfl⟩ := line_number hsize hlo hhi
    refine ⟨i,List.mem_range.mpr hi,BitVec.eq_of_toNat_eq ?_⟩
    rw [lineAt_toNat hsize hend hi, hq]

/-- They come one after another. -/
theorem linesOf_sorted : (linesOf size a n).Pairwise fun l l' => l.toNat < l'.toNat := by
  rw [linesOf, List.pairwise_map]
  refine List.pairwise_lt_range.imp_of_mem fun {i j} hi hj hij => ?_
  rw [lineAt_toNat hsize hend (List.mem_range.mp hi),
    lineAt_toNat hsize hend (List.mem_range.mp hj)]
  exact Nat.mul_lt_mul_of_pos_left (by omega) hsize

end Lines

section Routine
variable (regs : CacheRegs) (kind : Maintenance) (shift : List (Instr CacheOp))

def cacheCode (start : Addr) : Routine CacheOp (List CacheEvent) :=
  ⟨cacheRoutine kind shift,start,CacheOp.exec regs⟩

/-- What is left of the core before the loop, and by it. -/
structure Kept (s t : Core (List CacheEvent)) : Prop where
  x : ∀ r, r ≠ 1 → r ≠ 8 → r ≠ 9 → r ≠ 10 → t.x r = s.x r
  q : t.q = s.q
  sp : t.sp = s.sp

/-- The core at the head of the loop, `i` lines done. -/
structure AtLine (s : Core (List CacheEvent)) (size i : ℕ) (t : Core (List CacheEvent)) : Prop where
  line : t.x 8 = lineAt size (s.x 0).toNat i
  step : t.x 9 = BitVec.ofNat 64 size
  stop : t.x 10 = s.x 0+s.x 1
  kept : Kept s t
  mem : t.mem = ((List.range i).map (lineAt size (s.x 0).toNat)).foldl
    (fun m l => kind.store regs l m) s.mem
  world : t.world = s.world++((List.range i).map (lineAt size (s.x 0).toNat)).map (.line kind)

end Routine

section Setup

theorem lineSize_pos (field : ℕ) : 0 < lineSize field := by
  unfold lineSize
  positivity

theorem lineSize_le (field : ℕ) : lineSize field ≤ 2^17 := by
  have hf : field%16 ≤ 15 := by omega
  calc
    lineSize field ≤ 4*2^15 := Nat.mul_le_mul_left 4 (Nat.pow_le_pow_right (by decide) hf)
    _ = 2^17 := by decide

theorem shifted_line (x : BitVec 64) :
    (4:BitVec 64) <<< ((x &&& 0xf).toNat%64) = BitVec.ofNat 64 (lineSize x.toNat) := by
  have hand : (x &&& 0xf).toNat = x.toNat%16 := and_mask_toNat x 0xf 4 rfl
  have hle := lineSize_le x.toNat
  apply BitVec.eq_of_toNat_eq
  rw [hand, BitVec.toNat_shiftLeft, BitVec.toNat_ofNat, Nat.shiftLeft_eq,
    Nat.mod_eq_of_lt (show x.toNat%16 < 64 by omega)]
  rfl

theorem line_start (a : Addr) (field : ℕ) :
    a &&& ~~~(BitVec.ofNat 64 (lineSize field)-1) = lineAt (lineSize field) a.toNat 0 := by
  have hsize : lineSize field = 2^(field%16+2) := by
    rw [lineSize, pow_add]
    ring
  have hle := lineSize_le field
  have hpos := lineSize_pos field
  have hmask : (BitVec.ofNat 64 (lineSize field)-1).toNat = 2^(field%16+2)-1 := by
    rw [← hsize]
    bv_omega
  apply BitVec.eq_of_toNat_eq
  rw [roundDown_toNat a _ _ hmask, ← hsize, lineAt, BitVec.toNat_ofNat, Nat.add_zero]
  have hdiv := Nat.div_add_mod a.toNat (lineSize field)
  have hlt := a.isLt
  have hsmall : lineSize field*(a.toNat/lineSize field) < 2^64 := by omega
  rw [Nat.mod_eq_of_lt hsmall]
  omega

variable {regs : CacheRegs} {kind : Maintenance} {s : Core (List CacheEvent)}

/-- The shift that selects the line size of the data cache, or that of the instruction cache. -/
structure Selects (regs : CacheRegs) (shift : List (Instr CacheOp)) (field : ℕ) : Prop where
  straight : ∀ i ∈ cacheSetup shift, i.straight = true
  setup : ∀ s, ∃ t, execBlock (CacheOp.exec regs) (cacheSetup shift) s = some t ∧
    t.x 8 = lineAt (lineSize field) (s.x 0).toNat 0 ∧
    t.x 9 = BitVec.ofNat 64 (lineSize field) ∧ t.x 10 = s.x 0+s.x 1 ∧ Kept s t ∧
    t.mem = s.mem ∧ t.world = s.world

theorem selects_data (regs : CacheRegs) :
    Selects regs [.alu .lsr 8 8 (.imm 16)] (regs.ctr >>> 16).toNat := by
  refine ⟨by decide,fun s => ⟨_,rfl,?_,?_,?_,⟨fun r h1 h8 h9 h10 => ?_,rfl,rfl⟩,rfl,rfl⟩⟩
  · rw [← line_start, ← shifted_line]
    rfl
  · rw [← shifted_line]
    rfl
  · exact BitVec.add_comm _ _
  · simp [Core.set, Function.update_of_ne, h1, h8, h9, h10]

theorem selects_instruction (regs : CacheRegs) : Selects regs [] regs.ctr.toNat := by
  refine ⟨by decide,fun s => ⟨_,rfl,?_,?_,?_,⟨fun r h1 h8 h9 h10 => ?_,rfl,rfl⟩,rfl,rfl⟩⟩
  · rw [← line_start, ← shifted_line]
    rfl
  · rw [← shifted_line]
    rfl
  · exact BitVec.add_comm _ _
  · simp [Core.set, Function.update_of_ne, h1, h8, h9, h10]

end Setup

section Loop
variable {regs : CacheRegs} {kind : Maintenance} {shift : List (Instr CacheOp)} {field : ℕ}
  {start : Addr} {s t : Core (List CacheEvent)} (hsel : Selects regs shift field)

theorem drop_setup (start : Addr) :
    (cacheCode regs kind shift start).code.drop (cacheSetup shift).length =
      [.sys (.maintain kind 8),.alu .add 8 8 (.reg 9),.cmp 8 (.reg 10)]++
        [.bcond .cc (cacheSetup shift).length,.sys .dsb,.ret] :=
  List.drop_left

theorem code_after (start : Addr) (k : ℕ) :
    (cacheCode regs kind shift start).code[(cacheSetup shift).length+k]? =
      [Instr.sys (.maintain kind 8),.alu .add 8 8 (.reg 9),.cmp 8 (.reg 10),
        .bcond .cc (cacheSetup shift).length,.sys .dsb,.ret][k]? := by
  rw [← List.getElem?_drop, drop_setup]
  rfl

theorem Kept.set_line (h : Kept s t) (v : BitVec 64) {z c : Bool} {m : Mem}
    {w : List CacheEvent} :
    Kept s { t with x := Function.update t.x 8 v, z := z, c := c, mem := m, world := w } := by
  refine ⟨fun r h1 h8 h9 h10 => ?_,h.q,h.sp⟩
  exact (Function.update_of_ne h8 v t.x).trans (h.x r h1 h8 h9 h10)

/-- A pass maintains a line, and compares the next one with the end of the range. -/
theorem pass_runs {i : ℕ} (h : AtLine regs kind s (lineSize field) i t) (start : Addr) :
    ∃ u, (cacheCode regs kind shift start).Runs (.line (cacheSetup shift).length,t)
        (.line ((cacheSetup shift).length+3),u) ∧
      AtLine regs kind s (lineSize field) (i+1) u ∧
      u.c = decide (s.x 0+s.x 1 ≤ lineAt (lineSize field) (s.x 0).toNat (i+1)) := by
  have hline : t.x 8+t.x 9 = lineAt (lineSize field) (s.x 0).toNat (i+1) := by
    rw [h.line, h.step, lineAt, lineAt, ← BitVec.ofNat_add]
    congr 1
  let u : Core (List CacheEvent) :=
    { t with
      x := Function.update t.x 8 (t.x 8+t.x 9)
      z := t.x 8+t.x 9 == t.x 10
      c := decide (t.x 10 ≤ t.x 8+t.x 9)
      mem := kind.store regs (t.x 8) t.mem
      world := t.world++[.line kind (t.x 8)] }
  have hu : execBlock (CacheOp.exec regs)
      [.sys (.maintain kind 8),.alu .add 8 8 (.reg 9),.cmp 8 (.reg 10)] t = some u := rfl
  refine ⟨u,Routine.runs_block (drop_setup start) (by simp [Instr.straight]) hu,?_,?_⟩
  · refine ⟨hline,h.step,h.stop,h.kept.set_line _,?_,?_⟩
    · change kind.store regs (t.x 8) t.mem = _
      rw [h.line, h.mem, List.range_succ, List.map_append, List.foldl_append]
      rfl
    · change t.world++[.line kind (t.x 8)] = _
      rw [h.line, h.world, List.range_succ, List.map_append, List.map_append, List.append_assoc]
      rfl
  · change decide (t.x 10 ≤ t.x 8+t.x 9) = _
    rw [h.stop, hline]

/-- The branch goes back as long as the next line begins before the end. -/
theorem branch_step (start : Addr) (u : Core (List CacheEvent)) :
    (cacheCode regs kind shift start).step (.line ((cacheSetup shift).length+3),u) =
      some (if u.c then .line ((cacheSetup shift).length+4) else .line (cacheSetup shift).length,
        u) := by
  rw [Routine.step_transfer (code_after start 3) rfl, Routine.transfer]
  cases hc : u.c with
  | true => simp [Core.holds, hc]
  | false => simp [Core.holds, hc]

theorem finish_runs (start : Addr) (u : Core (List CacheEvent)) :
    (cacheCode regs kind shift start).Runs (.line ((cacheSetup shift).length+4),u)
      (.left (u.get 30),{ u with world := u.world++[.dsb] }) := by
  have hdsb := Routine.step_straight (code_after start 4) rfl
    (show (Instr.sys CacheOp.dsb).effect (cacheCode regs kind shift start).outside u =
      some { u with world := u.world++[.dsb] } from rfl)
  have hret : (cacheCode regs kind shift start).step
      (.line ((cacheSetup shift).length+4+1),{ u with world := u.world++[.dsb] }) = _ :=
    Routine.step_transfer (code_after start 5) rfl
  exact (Routine.Runs.single hdsb).tail hret

variable (hend : (s.x 0).toNat+max (s.x 1).toNat 1+lineSize field ≤ 2^64)
include hend

/-- A turn goes back to the head, or on after the last line. -/
theorem turn_runs {i : ℕ} (hi : i < lineCount (lineSize field) (s.x 0).toNat (s.x 1).toNat)
    (h : AtLine regs kind s (lineSize field) i t) (start : Addr) :
    ∃ u, AtLine regs kind s (lineSize field) (i+1) u ∧
      (cacheCode regs kind shift start).Runs (.line (cacheSetup shift).length,t)
        (if i+1 < lineCount (lineSize field) (s.x 0).toNat (s.x 1).toNat then
          .line (cacheSetup shift).length else .line ((cacheSetup shift).length+4),u) := by
  have hsize := lineSize_pos field
  obtain ⟨u,hrun,hat,hc⟩ := @pass_runs regs kind shift field s t i h start
  have hbranch := @branch_step regs kind shift start u
  have hstop : (s.x 0+s.x 1).toNat = (s.x 0).toNat+(s.x 1).toNat := by
    rw [BitVec.toNat_add, Nat.mod_eq_of_lt (by omega)]
  have hle : s.x 0+s.x 1 ≤ lineAt (lineSize field) (s.x 0).toNat (i+1) ↔
      (s.x 0).toNat+(s.x 1).toNat ≤
        lineSize field*((s.x 0).toNat/lineSize field+(i+1)) := by
    rw [BitVec.le_def, hstop, lineAt_succ_toNat hsize hend hi]
  refine ⟨u,hat,hrun.tail ?_⟩
  rw [hbranch, hc]
  by_cases hlt : i+1 < lineCount (lineSize field) (s.x 0).toNat (s.x 1).toNat
  · have hge := not_le.mpr ((lt_lineCount_iff hsize i.succ_pos).mp hlt)
    rw [if_pos hlt, decide_eq_false (mt hle.mp hge)]
    rfl
  · have hge := not_lt.mp (mt (lt_lineCount_iff hsize i.succ_pos).mpr hlt)
    rw [if_neg hlt, decide_eq_true (hle.mpr hge)]
    rfl

/-- The rest of the loop. -/
theorem loop_runs {d i : ℕ}
    (hd : i+(d+1) = lineCount (lineSize field) (s.x 0).toNat (s.x 1).toNat)
    (h : AtLine regs kind s (lineSize field) i t) (start : Addr) :
    ∃ u, (cacheCode regs kind shift start).Runs (.line (cacheSetup shift).length,t)
        (.line ((cacheSetup shift).length+4),u) ∧
      AtLine regs kind s (lineSize field)
        (lineCount (lineSize field) (s.x 0).toNat (s.x 1).toNat) u := by
  induction d generalizing i t with
  | zero =>
    obtain ⟨u,hat,hrun⟩ := @turn_runs regs kind shift field s t hend i (by omega) h start
    rw [if_neg (by omega)] at hrun
    rw [← hd]
    exact ⟨u,hrun,hat⟩
  | succ d ih =>
    obtain ⟨u,hat,hrun⟩ := @turn_runs regs kind shift field s t hend i (by omega) h start
    rw [if_pos (by omega)] at hrun
    obtain ⟨v,hv,hatv⟩ := ih (by omega) hat
    exact ⟨v,hrun.trans hv,hatv⟩

omit hend in
/-- In front of an end in the last line of the address space the loop always goes back. -/
theorem back_runs (hsum : (s.x 0).toNat+(s.x 1).toNat < 2^64)
    (hover : 2^64 < (s.x 0).toNat+(s.x 1).toNat+lineSize field) {i : ℕ}
    (h : AtLine regs kind s (lineSize field) i t) (start : Addr) :
    ∃ u v, AtLine regs kind s (lineSize field) (i+1) u ∧
      (cacheCode regs kind shift start).step (.line (cacheSetup shift).length,t) = some v ∧
      (cacheCode regs kind shift start).Runs v (.line (cacheSetup shift).length,u) := by
  obtain ⟨u,hrun,hat,hc⟩ := @pass_runs regs kind shift field s t i h start
  have hbranch := @branch_step regs kind shift start u
  have hlt : ¬s.x 0+s.x 1 ≤ lineAt (lineSize field) (s.x 0).toNat (i+1) := by
    have hsize : lineSize field = 2^(field%16+2) := by
      rw [lineSize, pow_add]
      ring
    -- lines and address space are powers of two
    have hdvd : lineSize field ∣ 2^64 := by
      rw [hsize]
      exact pow_dvd_pow 2 (by omega)
    have hline : lineSize field ∣ (lineAt (lineSize field) (s.x 0).toNat (i+1)).toNat := by
      rw [lineAt, BitVec.toNat_ofNat]
      exact (Nat.dvd_mod_iff hdvd).mpr (Nat.dvd_mul_right _ _)
    have hbelow := (lineAt (lineSize field) (s.x 0).toNat (i+1)).isLt
    obtain ⟨q,hq⟩ := hline
    obtain ⟨r,hr⟩ := hdvd
    rw [BitVec.le_def, BitVec.toNat_add, Nat.mod_eq_of_lt hsum, hq]
    rw [hq, hr] at hbelow
    have hqr : q+1 ≤ r := Nat.lt_of_mul_lt_mul_left hbelow
    have hmul := Nat.mul_le_mul_left (lineSize field) hqr
    rw [Nat.mul_add, mul_one] at hmul
    omega
  rw [hc, decide_eq_false hlt] at hbranch
  have hback := hrun.tail hbranch
  rcases Relation.ReflTransGen.cases_head hrun with heq | ⟨v,hv,hrest⟩
  · simp at heq
  · exact ⟨u,v,hat,hv,Relation.ReflTransGen.tail hrest hbranch⟩

end Loop

/-- What a routine of `cache.s` leaves when it returns. -/
structure Maintained (regs : CacheRegs) (kind : Maintenance) (size : ℕ)
    (s s' : Core (List CacheEvent)) (lines : List Addr) : Prop where
  covers : ∀ l, l ∈ lines ↔ size ∣ l.toNat ∧ l.toNat < (s.x 0).toNat+max (s.x 1).toNat 1 ∧
    (s.x 0).toNat < l.toNat+size
  sorted : lines.Pairwise fun l l' => l.toNat < l'.toNat
  world : s'.world = s.world++lines.map (.line kind)++[.dsb]
  mem : s'.mem = lines.foldl (fun m l => kind.store regs l m) s.mem
  kept : Kept s s'

theorem cacheCode_maintains {regs : CacheRegs} (kind : Maintenance)
    {shift : List (Instr CacheOp)} {field : ℕ} (hsel : Selects regs shift field) (start : Addr)
    (s : Core (List CacheEvent)) :
    ((s.x 0).toNat+max (s.x 1).toNat 1+lineSize field ≤ 2^64 →
        ∃ s' lines, (cacheCode regs kind shift start).Leaves s (s.x 30) s' ∧
          Maintained regs kind (lineSize field) s s' lines) ∧
      ((s.x 0).toNat+(s.x 1).toNat < 2^64 →
        2^64 < (s.x 0).toNat+(s.x 1).toNat+lineSize field →
        ∀ a s', ¬(cacheCode regs kind shift start).Leaves s a s') := by
  have hsize := lineSize_pos field
  obtain ⟨t,ht,h8,h9,h10,hkept,hmem,hworld⟩ := hsel.setup s
  have hsetup : (cacheCode regs kind shift start).Runs (.line 0,s)
      (.line (cacheSetup shift).length,t) := by
    have h := @Routine.runs_block _ _ (cacheCode regs kind shift start) 0 s t (cacheSetup shift) _
      rfl hsel.straight ht
    rwa [Nat.zero_add] at h
  have hat : AtLine regs kind s (lineSize field) 0 t :=
    ⟨h8,h9,h10,hkept,hmem,hworld.trans (List.append_nil _).symm⟩
  constructor
  · intro hend
    have hpos := lineCount_pos (lineSize field) (s.x 0).toNat (s.x 1).toNat
    obtain ⟨u,hu,hatu⟩ := @loop_runs regs kind shift field s t hend
      (lineCount (lineSize field) (s.x 0).toNat (s.x 1).toNat-1) 0 (by omega) hat start
    have hlr : u.get 30 = s.x 30 := by
      rw [Core.get_of_ne u (by decide)]
      exact hatu.kept.x 30 (by decide) (by decide) (by decide) (by decide)
    have hfinish := @finish_runs regs kind shift start u
    rw [hlr] at hfinish
    refine ⟨_,linesOf (lineSize field) (s.x 0).toNat (s.x 1).toNat,
      (hsetup.trans hu).trans hfinish,fun l => mem_linesOf_iff hsize hend,
      linesOf_sorted hsize hend,?_,hatu.mem,⟨hatu.kept.x,hatu.kept.q,hatu.kept.sp⟩⟩
    change u.world++[.dsb] = _
    rw [hatu.world]
    rfl
  · intro hsum hover a s' hleaves
    rcases Routine.Runs.linear hsetup hleaves with h | h
    · refine Routine.not_left_of_loop
        (P := fun t => ∃ i, AtLine regs kind s (lineSize field) i t) ?_ ⟨0,hat⟩ h
      rintro t ⟨i,hi⟩
      obtain ⟨u,v,hu,hv,hrun⟩ := @back_runs regs kind shift field s t hsum hover i hi start
      exact ⟨u,v,⟨i+1,hu⟩,hv,hrun⟩
    · have heq := h.of_left
      simp at heq

inductive CacheFn
  | dCacheFlush
  | dCacheClean
  | iCacheInvalidate
  | dCacheZero
  deriving DecidableEq, Repr

namespace CacheFn
variable (regs : CacheRegs)

def code : CacheFn → List (Instr CacheOp)
  | .dCacheFlush => armDCacheFlush
  | .dCacheClean => armDCacheClean
  | .iCacheInvalidate => armICacheInvalidate
  | .dCacheZero => armDCacheZero

def kind : CacheFn → Maintenance
  | .dCacheFlush => .dcCivac
  | .dCacheClean => .dcCvac
  | .iCacheInvalidate => .icIvau
  | .dCacheZero => .dcZva

/-- `DminLine` or `IminLine`, in bytes. -/
def size : CacheFn → ℕ
  | .iCacheInvalidate => lineSize regs.ctr.toNat
  | _ => lineSize (regs.ctr >>> 16).toNat

def routine (fn : CacheFn) (start : Addr) : Routine CacheOp (List CacheEvent) :=
  ⟨fn.code,start,CacheOp.exec regs⟩

end CacheFn

/-- A routine of `cache.s` maintains each line that holds a byte of the range once, in ascending
order, and at least the line of its start; then it waits and returns. A range that ends in the
last line of the address space keeps it going for ever. -/
theorem cache_routine_maintains (fn : CacheFn) (regs : CacheRegs) (start : Addr)
    (s : Core (List CacheEvent)) :
    ((s.x 0).toNat+max (s.x 1).toNat 1+fn.size regs ≤ 2^64 →
        ∃ s' lines, (fn.routine regs start).Leaves s (s.x 30) s' ∧
          Maintained regs fn.kind (fn.size regs) s s' lines) ∧
      ((s.x 0).toNat+(s.x 1).toNat < 2^64 →
        2^64 < (s.x 0).toNat+(s.x 1).toNat+fn.size regs →
        ∀ a s', ¬(fn.routine regs start).Leaves s a s') := by
  cases fn with
  | dCacheFlush => exact cacheCode_maintains .dcCivac (selects_data regs) start s
  | dCacheClean => exact cacheCode_maintains .dcCvac (selects_data regs) start s
  | iCacheInvalidate => exact cacheCode_maintains .icIvau (selects_instruction regs) start s
  | dCacheZero => exact cacheCode_maintains .dcZva (selects_data regs) start s

/-- A call for 0x50 bytes from 0x1010 on, with lines of 64 bytes. -/
def flushCall : Core (List CacheEvent) where
  x r := if r = 0 then 0x1010 else if r = 1 then 0x50 else 0x8000
  q _ := 0
  sp := 0x7000
  z := false
  c := false
  mem _ := 0
  world := []

theorem cache_routine_maintains_flush : ∃ s' lines,
    (CacheFn.dCacheFlush.routine ⟨0x84448004,6⟩ 0x2000).Leaves flushCall 0x8000 s' ∧
      Maintained ⟨0x84448004,6⟩ .dcCivac 64 flushCall s' lines :=
  (cache_routine_maintains .dCacheFlush ⟨0x84448004,6⟩ 0x2000 flushCall).1 (by decide)

end Zeldar
