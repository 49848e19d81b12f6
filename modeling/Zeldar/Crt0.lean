import Zeldar.Asm
import Zeldar.Elf
import Mathlib.Tactic.Ring

namespace Zeldar
open Asm

/-- `bl exl_dynamic`. -/
inductive Crt0Op
  | exlDynamic
  deriving DecidableEq, Repr

/-- The symbols that the routine leaves for. -/
structure Crt0Symbols where
  exceptionEntry : Addr
  entrypointInit : Addr

section Listing
variable (symbols : Crt0Symbols)

/-- `FROM_MOD0`. -/
def fromMod0 (r : Reg) (offset : BitVec 64) : List (Instr Crt0Op) :=
  [.ldrW r (.x 24) offset .offset,.sxtw r r,.alu .add r r (.reg 24)]

/-- From `get_module_info`, past the call of the shim, up to the loop. -/
def crt0Info : List (Instr Crt0Op) :=
  [.ldrW 23 (.x 30) 0 .offset,.sxtw 23 23,.alu .add 23 23 (.reg 30),
    .mov 24 (.reg 31),.ldrW 24 (.x 23) 4 .offset,.alu .add 24 24 (.reg 23)]++
    fromMod0 8 0x8++fromMod0 9 0xc++
    [.alu .sub 9 9 (.reg 8),.alu .add 9 9 (.imm 7),.alu .bic 9 9 (.imm 7)]

/-- The loop over the BSS. -/
def crt0Loop : List (Instr Crt0Op) := [.subsW 9 9 8,.str 31 (.x 8) 8 .post,.bcond .ne 21]

def crt0Dynamic : List (Instr Crt0Op) :=
  [.mov 25 (.reg 0),.mov 26 (.reg 1),.mov 0 (.reg 23)]++fromMod0 1 0x4

/-- `entrypoint`; the word after the call of the shim is the distance of `__module_start`. -/
def crt0 (moduleWord : Word) : List (Instr Crt0Op) :=
  [.cmp 0 (.imm 0),.ccmn 1 1 true .ne,.bcond .eq 4,.goto symbols.exceptionEntry,
    .bl 6,.word moduleWord]++crt0Info++crt0Loop++crt0Dynamic++
    [.sys .exlDynamic,.mov 0 (.reg 25),.mov 1 (.reg 26),.goto symbols.entrypointInit,
      .word 0xdeadbeef]

def crt0Routine (moduleWord : Word) (exlDynamic : Core Unit → Option (Core Unit)) (start : Addr) :
    Routine Crt0Op Unit :=
  ⟨crt0 symbols moduleWord,start,fun _ => exlDynamic⟩

end Listing

section Words
variable (m : Mem) (start : Addr)

/-- `__module_start`, from the word after the call. -/
def moduleStart : Addr := (m.read32 (start+20)).signExtend 64+(start+20)

/-- The address of `__nx_mod0`. -/
def mod0 : Addr := (m.read32 (moduleStart m start+4)).setWidth 64+moduleStart m start

def mod0Field (offset : BitVec 64) : Addr :=
  (m.read32 (mod0 m start+offset)).signExtend 64+mod0 m start

/-- `__bss_start__`, and the size of the BSS rounded up to 8. -/
def bssStart : Addr := mod0Field m start 0x8

def bssSize : BitVec 64 := (mod0Field m start 0xc-bssStart m start+7) &&& ~~~7

/-- How many bytes the loop clears: its counter has 32 bits, and is tested when it has counted. -/
def bssCleared : ℕ :=
  let size := (bssSize m start).toNat%2^32
  if size = 0 then 2^32 else size

end Words

/-- Memory with `n` bytes of zeros at `a`. -/
def zeroed (m : Mem) (a : Addr) (n : ℕ) : Mem := fun x => if (x-a).toNat < n then 0 else m x

section Zero
variable {m : Mem} {a : Addr} {n : ℕ}

theorem write64_zero_apply (m : Mem) {a x : Addr} (h : (x-a).toNat < 8) :
    m.write64 a 0 x = 0 := by
  have hext : ∀ (w : Word) (k : ℕ), w = 0 → w.extractLsb' k 8 = 0 := by
    rintro w k rfl
    simp
  simp only [Mem.write64, Mem.write32]
  by_cases h4 : (x-(a+4)).toNat < 4
  · rw [if_pos h4, hext _ _ (by decide)]
  · have hlo : (x-a).toNat < 4 := by bv_omega
    rw [if_neg h4, if_pos hlo, hext _ _ (by decide)]

theorem zeroed_succ (hn : n+8 ≤ 2^64) : zeroed (m.write64 a 0) (a+8) n = zeroed m a (n+8) := by
  funext x
  by_cases h : (x-a).toNat < 8
  · have hout : ¬(x-(a+8)).toNat < n := by bv_omega
    rw [zeroed, zeroed, if_neg hout, if_pos (by omega), write64_zero_apply m h]
  · rw [zeroed, zeroed, Mem.write64_apply_of_le m 0 (not_lt.mp h)]
    have hiff : (x-(a+8)).toNat < n ↔ (x-a).toNat < n+8 := by bv_omega
    rw [if_congr hiff rfl rfl]

end Zero

section Runs
variable {symbols : Crt0Symbols} {moduleWord : Word} {exlDynamic : Core Unit → Option (Core Unit)}
  {start : Addr} {s t : Core Unit}

/-- An entry whose arguments are those of an exception. -/
def IsException (s : Core Unit) : Prop := s.x 0 ≠ 0 ∧ s.x 1 ≠ -1

instance (s : Core Unit) : Decidable (IsException s) := inferInstanceAs (Decidable (_ ∧ _))

/-- The comparisons at the entry. -/
theorem compare_runs (s : Core Unit) :
    ∃ c, (crt0Routine symbols moduleWord exlDynamic start).Runs (.line 0,s)
      (.line 2,{ s with z := !decide (IsException s), c := c }) := by
  have hcompare : ∃ c, execBlock (fun _ : Crt0Op => exlDynamic)
      [.cmp 0 (.imm 0),.ccmn 1 1 true .ne] s =
        some { s with z := !decide (IsException s), c := c } := by
    by_cases h0 : s.x 0 = 0
    · have hz : decide (IsException s) = false := decide_eq_false fun h => h.1 h0
      refine ⟨false,?_⟩
      rw [hz]
      have h : s.get 0 = 0 := h0
      simp only [execBlock, List.foldlM_cons, List.foldlM_nil, Instr.effect, Core.operand, h]
      rfl
    · have hz : (s.x 1+1 == 0) = !decide (IsException s) := by
        by_cases h1 : s.x 1 = -1
        · have hnot : decide (IsException s) = false := decide_eq_false fun h => h.2 h1
          rw [h1, hnot]
          rfl
        · have hyes : decide (IsException s) = true := decide_eq_true ⟨h0,h1⟩
          rw [hyes, beq_eq_false_iff_ne.mpr (by bv_omega)]
          rfl
      have hne : (s.get 0 == 0) = false := beq_eq_false_iff_ne.mpr h0
      refine ⟨decide (2^64 ≤ (s.get 1).toNat+(1:BitVec 64).toNat),?_⟩
      rw [← hz]
      simp only [execBlock, List.foldlM_cons, List.foldlM_nil, Instr.effect, Core.operand, hne]
      rfl
  obtain ⟨c,hc⟩ := hcompare
  exact ⟨c,@Routine.runs_block _ _ (crt0Routine symbols moduleWord exlDynamic start) 0 s _
    [.cmp 0 (.imm 0),.ccmn 1 1 true .ne] ((crt0 symbols moduleWord).drop 2) rfl (by decide) hc⟩

/-- What is known of the core in front of the loop over the BSS. -/
structure AtBss (start : Addr) (s t : Core Unit) : Prop where
  module : t.x 23 = moduleStart s.mem start
  header : t.x 24 = mod0 s.mem start
  bss : t.x 8 = bssStart s.mem start
  size : t.x 9 = bssSize s.mem start
  x0 : t.x 0 = s.x 0
  x1 : t.x 1 = s.x 1
  sp : t.sp = s.sp
  mem : t.mem = s.mem

theorem setWidth_read (w : Word) :
    ((w.setWidth 64).setWidth 32).signExtend 64 = w.signExtend 64 := by
  rw [BitVec.setWidth_setWidth_of_le _ (by decide), BitVec.setWidth_eq]

theorem info_runs (s : Core Unit) (hlr : s.x 30 = start+20) :
    ∃ t, (crt0Routine symbols moduleWord exlDynamic start).Runs (.line 6,s) (.line 21,t) ∧
      AtBss start s t := by
  have h : ∃ t, execBlock (fun _ : Crt0Op => exlDynamic) crt0Info s = some t ∧ AtBss start s t := by
    let v23 := (((s.mem.read32 (s.x 30+0)).setWidth 64).setWidth 32).signExtend 64+s.x 30
    let v24 := (s.mem.read32 (v23+4)).setWidth 64+v23
    let field (offset : BitVec 64) : Addr :=
      (((s.mem.read32 (v24+offset)).setWidth 64).setWidth 32).signExtend 64+v24
    have h23 : v23 = moduleStart s.mem start := by
      change (((s.mem.read32 (s.x 30+0)).setWidth 64).setWidth 32).signExtend 64+s.x 30 = _
      have h0 : s.x 30+0 = s.x 30 := BitVec.add_zero _
      rw [h0, setWidth_read, hlr]
      rfl
    have h24 : v24 = mod0 s.mem start := by
      change (s.mem.read32 (v23+4)).setWidth 64+v23 = _
      rw [h23]
      rfl
    have hfield (offset : BitVec 64) : field offset = mod0Field s.mem start offset := by
      change (((s.mem.read32 (v24+offset)).setWidth 64).setWidth 32).signExtend 64+v24 = _
      rw [h24, setWidth_read]
      rfl
    refine ⟨_,rfl,h23,h24,hfield 0x8,?_,rfl,rfl,rfl,rfl⟩
    change (field 0xc-field 0x8+7) &&& ~~~7 = _
    rw [hfield, hfield]
    rfl
  obtain ⟨t,ht,hat⟩ := h
  exact ⟨t,@Routine.runs_block _ _ (crt0Routine symbols moduleWord exlDynamic start) 6 s t crt0Info
    ((crt0 symbols moduleWord).drop 21) rfl (by decide) ht,hat⟩

/-- What the loop leaves alone. -/
structure BssKept (t u : Core Unit) : Prop where
  x : ∀ r, r ≠ 8 → r ≠ 9 → u.x r = t.x r
  sp : u.sp = t.sp

/-- The loop, `k` words before its end. -/
theorem bss_runs {k : ℕ} (hk : 0 < k) (hmax : k ≤ 2^29) {t : Core Unit}
    (hcount : (t.x 9).setWidth 32 = BitVec.ofNat 32 (8*k)) :
    ∃ u, (crt0Routine symbols moduleWord exlDynamic start).Runs (.line 21,t) (.line 24,u) ∧
      BssKept t u ∧ u.mem = zeroed t.mem (t.x 8) (8*k) := by
  induction k generalizing t with
  | zero => exact absurd hk (Nat.lt_irrefl 0)
  | succ k ih =>
    let u : Core Unit := { t with
      x := Function.update (Function.update t.x 9 (((t.x 9).setWidth 32-8).setWidth 64)) 8
        (t.x 8+8)
      mem := t.mem.write64 (t.x 8) 0
      z := (t.x 9).setWidth 32 == 8
      c := decide (8 ≤ (t.x 9).setWidth 32) }
    have hpass : (crt0Routine symbols moduleWord exlDynamic start).Runs (.line 21,t)
        (.line 23,u) :=
      @Routine.runs_block _ _ (crt0Routine symbols moduleWord exlDynamic start) 21 t u
        [.subsW 9 9 8,.str 31 (.x 8) 8 .post] ((crt0 symbols moduleWord).drop 23) rfl (by decide)
        rfl
    have hbranch : (crt0Routine symbols moduleWord exlDynamic start).step (.line 23,u) =
        some (if !u.z then .line 21 else .line 24,u) := rfl
    have hkept : BssKept t u := by
      refine ⟨fun r h8 h9 => ?_,rfl⟩
      exact (Function.update_of_ne h8 _ _).trans (Function.update_of_ne h9 _ _)
    have hz : u.z = decide (k = 0) := by
      change ((t.x 9).setWidth 32 == 8) = _
      rw [hcount]
      by_cases h0 : k = 0
      · rw [h0]
        rfl
      · rw [decide_eq_false h0, beq_eq_false_iff_ne]
        bv_omega
    have hone := @zeroed_succ t.mem (t.x 8) (8*k) (by omega)
    rw [hz] at hbranch
    by_cases h0 : k = 0
    · -- the last word
      rw [h0] at hbranch hone ⊢
      refine ⟨u,hpass.tail hbranch,hkept,?_⟩
      rw [← hone]
      funext x
      rw [zeroed, if_neg (by omega)]
    · rw [decide_eq_false h0] at hbranch
      have hnext : (u.x 9).setWidth 32 = BitVec.ofNat 32 (8*k) := by
        change ((((t.x 9).setWidth 32-8).setWidth 64 : BitVec 64)).setWidth 32 = _
        rw [hcount]
        bv_omega
      obtain ⟨v,hv,hvkept,hvmem⟩ := ih (Nat.pos_of_ne_zero h0) (by omega) hnext
      refine ⟨v,(hpass.tail hbranch).trans hv,⟨fun r h8 h9 => ?_,hvkept.sp.trans hkept.sp⟩,?_⟩
      · exact (hvkept.x r h8 h9).trans (hkept.x r h8 h9)
      · rw [hvmem, Nat.mul_succ, ← hone]
        rfl

theorem bssSize_dvd (m : Mem) (start : Addr) : 8 ∣ (bssSize m start).toNat := by
  rw [bssSize, roundDown_toNat _ 7 3 rfl]
  exact Nat.dvd_sub_mod _

theorem bssCleared_dvd (m : Mem) (start : Addr) : 8 ∣ bssCleared m start := by
  rw [bssCleared]
  by_cases h : (bssSize m start).toNat%2^32 = 0
  · rw [if_pos h]
    decide
  · rw [if_neg h]
    exact (Nat.dvd_mod_iff (by decide)).mpr (bssSize_dvd m start)

theorem bssCleared_bounds (m : Mem) (start : Addr) :
    0 < bssCleared m start ∧ bssCleared m start ≤ 2^32 := by
  rw [bssCleared]
  split <;> omega

theorem bss_count (m : Mem) (start : Addr) :
    (bssSize m start).setWidth 32 = BitVec.ofNat 32 (bssCleared m start) := by
  apply BitVec.eq_of_toNat_eq
  rw [BitVec.toNat_setWidth, BitVec.toNat_ofNat, bssCleared]
  split <;> omega

/-- The core in front of the call of `exl_dynamic`. -/
structure AtDynamic (start : Addr) (s t : Core Unit) : Prop where
  x0 : t.x 0 = moduleStart s.mem start
  x1 : t.x 1 = mod0Field s.mem start 0x4
  x25 : t.x 25 = s.x 0
  x26 : t.x 26 = s.x 1
  sp : t.sp = s.sp
  mem : t.mem = zeroed s.mem (bssStart s.mem start) (bssCleared s.mem start)

theorem dynamic_runs {s t u : Core Unit} (hat : AtBss start s t) (hkept : BssKept t u)
    (hmem : u.mem = zeroed s.mem (bssStart s.mem start) (bssCleared s.mem start))
    (happart : Sep (mod0 s.mem start+4) 4 (bssStart s.mem start) (bssCleared s.mem start)) :
    ∃ v, (crt0Routine symbols moduleWord exlDynamic start).Runs (.line 24,u) (.line 30,v) ∧
      AtDynamic start s v := by
  have hx (r : Reg) (h8 : r ≠ 8) (h9 : r ≠ 9) := hkept.x r h8 h9
  have h24 : u.x 24 = mod0 s.mem start := (hx 24 (by decide) (by decide)).trans hat.header
  have hread : u.mem.read32 (u.x 24+4) = s.mem.read32 (mod0 s.mem start+4) := by
    rw [h24, hmem]
    apply Mem.read32_congr
    intro i hi
    rw [zeroed, if_neg]
    have hoff := happart.symm.offset (x := mod0 s.mem start+4+BitVec.ofNat 64 i) (by bv_omega)
    exact not_lt.mpr hoff
  have h : ∃ v, execBlock (fun _ : Crt0Op => exlDynamic) crt0Dynamic u = some v ∧
      AtDynamic start s v := by
    refine ⟨_,rfl,?_,?_,?_,?_,?_,hmem⟩
    · exact (hx 23 (by decide) (by decide)).trans hat.module
    · change (((u.mem.read32 (u.x 24+4)).setWidth 64).setWidth 32).signExtend 64+u.x 24 = _
      rw [hread, setWidth_read, h24]
      rfl
    · exact (hx 0 (by decide) (by decide)).trans hat.x0
    · exact (hx 1 (by decide) (by decide)).trans hat.x1
    · exact hkept.sp.trans hat.sp
  obtain ⟨v,hv,hatv⟩ := h
  exact ⟨v,@Routine.runs_block _ _ (crt0Routine symbols moduleWord exlDynamic start) 24 u v
    crt0Dynamic ((crt0 symbols moduleWord).drop 30) rfl (by decide) hv,hatv⟩

end Runs

/-- `callee` is `exl_dynamic`, compiled to the calling convention; it uses `stack` bytes. -/
def RelocatesModule (callee : Core Unit → Option (Core Unit)) (fuel stack : ℕ) : Prop :=
  ∀ s m', exlDynamic fuel (s.x 0) (s.x 1) s.mem = some m' →
    ∃ s', callee s = some s' ∧ (∀ r : Reg, 19 ≤ r.val → r.val ≤ 29 → s'.x r = s.x r) ∧
      s'.sp = s.sp ∧
      ∀ a, stack ≤ (a-(s.sp-BitVec.ofNat 64 stack)).toNat → s'.mem a = m' a

section Start
variable {symbols : Crt0Symbols} {moduleWord : Word} {callee : Core Unit → Option (Core Unit)}
  {fuel stack : ℕ} {start : Addr} {s : Core Unit}

theorem exception_leaves (h : IsException s) :
    ∃ c, (crt0Routine symbols moduleWord callee start).Leaves s symbols.exceptionEntry
      { s with z := false, c := c } := by
  obtain ⟨c,hc⟩ := @compare_runs symbols moduleWord callee start s
  rw [decide_eq_true h] at hc
  have hbranch : (crt0Routine symbols moduleWord callee start).step
      (.line 2,{ s with z := false, c := c }) = some (.line 3,{ s with z := false, c := c }) := rfl
  have hgoto : (crt0Routine symbols moduleWord callee start).step
      (.line 3,{ s with z := false, c := c }) =
        some (.left symbols.exceptionEntry,{ s with z := false, c := c }) := rfl
  exact ⟨c,(hc.tail hbranch).tail hgoto⟩

/-- An entry that is no exception gets to the loop over the BSS. -/
theorem entry_runs (h : ¬IsException s) :
    ∃ t, (crt0Routine symbols moduleWord callee start).Runs (.line 0,s) (.line 21,t) ∧
      AtBss start s t := by
  obtain ⟨c,hc⟩ := @compare_runs symbols moduleWord callee start s
  rw [decide_eq_false h] at hc
  let linked : Core Unit := { s with
    x := Function.update s.x 30 (start+20)
    z := true
    c := c }
  have hbranch : (crt0Routine symbols moduleWord callee start).step
      (.line 2,{ s with z := true, c := c }) = some (.line 4,{ s with z := true, c := c }) := rfl
  have hcall : (crt0Routine symbols moduleWord callee start).step
      (.line 4,{ s with z := true, c := c }) = some (.line 6,linked) := rfl
  obtain ⟨t,ht,hat⟩ := @info_runs symbols moduleWord callee start linked rfl
  exact ⟨t,((hc.tail hbranch).tail hcall).trans ht,
    ⟨hat.module,hat.header,hat.bss,hat.size,hat.x0,hat.x1,hat.sp,hat.mem⟩⟩

/-- The call, and the way out. -/
theorem call_leaves (hcallee : RelocatesModule callee fuel stack) {v : Core Unit}
    (hat : AtDynamic start s v) {m' : Mem}
    (hm : exlDynamic fuel (moduleStart s.mem start) (mod0Field s.mem start 0x4) v.mem = some m') :
    ∃ t, (crt0Routine symbols moduleWord callee start).Runs (.line 30,v)
        (.left symbols.entrypointInit,t) ∧
      t.x 0 = s.x 0 ∧ t.x 1 = s.x 1 ∧ t.sp = s.sp ∧
      ∀ a, stack ≤ (a-(s.sp-BitVec.ofNat 64 stack)).toNat → t.mem a = m' a := by
  rw [← hat.x0, ← hat.x1] at hm
  obtain ⟨u,hu,hkept,hsp,hmem⟩ := hcallee v m' hm
  let t : Core Unit := { u with x := Function.update (Function.update u.x 0 (u.x 25)) 1 (u.x 26) }
  have hcall : (crt0Routine symbols moduleWord callee start).step (.line 30,v) =
      some (.line 31,u) :=
    @Routine.step_straight _ _ (crt0Routine symbols moduleWord callee start) 30
      (.sys .exlDynamic) v u rfl rfl hu
  have harguments : (crt0Routine symbols moduleWord callee start).Runs (.line 31,u) (.line 33,t) :=
    @Routine.runs_block _ _ (crt0Routine symbols moduleWord callee start) 31 u t
      [.mov 0 (.reg 25),.mov 1 (.reg 26)] ((crt0 symbols moduleWord).drop 33) rfl (by decide) rfl
  have hgoto : (crt0Routine symbols moduleWord callee start).step (.line 33,t) =
      some (.left symbols.entrypointInit,t) := rfl
  have h25 := (hkept 25 (by decide) (by decide)).trans hat.x25
  have h26 := (hkept 26 (by decide) (by decide)).trans hat.x26
  refine ⟨t,((Routine.Runs.single hcall).trans harguments).tail hgoto,h25,h26,hsp.trans hat.sp,?_⟩
  intro a ha
  rw [← hat.sp] at ha
  exact hmem a ha

/-- How much of memory is cleared for a BSS of `n` bytes. -/
theorem bssCleared_eq (m : Mem) (start : Addr) {n : ℕ} (hn : n+8 ≤ 2^32)
    (hbss : mod0Field m start 0xc = bssStart m start+BitVec.ofNat 64 n) :
    bssCleared m start = if n = 0 then 2^32 else 8*((n+7)/8) := by
  have hsum : bssStart m start+BitVec.ofNat 64 n-bssStart m start+7 = BitVec.ofNat 64 (n+7) := by
    bv_omega
  have hsize : (bssSize m start).toNat = 8*((n+7)/8) := by
    rw [bssSize, hbss, hsum, roundDown_toNat _ 7 3 rfl, BitVec.toNat_ofNat,
      Nat.mod_eq_of_lt (by omega)]
    omega
  rw [bssCleared, hsize]
  split <;> split <;> omega

/-- An exception leaves with what it came with. Any other entry gets to `exl_entrypoint_init`
with its arguments and its stack: memory is what `exl_dynamic` makes of the module once the BSS is
clear. A BSS without bytes has the loop clear 4 GiB. -/
theorem crt0_starts (hcallee : RelocatesModule callee fuel stack) (s : Core Unit) :
    (IsException s → ∃ t, (crt0Routine symbols moduleWord callee start).Leaves s
        symbols.exceptionEntry t ∧ t.x = s.x ∧ t.sp = s.sp ∧ t.mem = s.mem) ∧
    (¬IsException s → ∀ n m', n+8 ≤ 2^32 →
      mod0Field s.mem start 0xc = mod0Field s.mem start 0x8+BitVec.ofNat 64 n →
      let cleared := if n = 0 then 2^32 else 8*((n+7)/8)
      Sep (mod0 s.mem start+4) 4 (mod0Field s.mem start 0x8) cleared →
      exlDynamic fuel (moduleStart s.mem start) (mod0Field s.mem start 0x4)
        (zeroed s.mem (mod0Field s.mem start 0x8) cleared) = some m' →
      ∃ t, (crt0Routine symbols moduleWord callee start).Leaves s symbols.entrypointInit t ∧
        t.x 0 = s.x 0 ∧ t.x 1 = s.x 1 ∧ t.sp = s.sp ∧
        ∀ a, stack ≤ (a-(s.sp-BitVec.ofNat 64 stack)).toNat → t.mem a = m' a) := by
  constructor
  · intro h
    obtain ⟨c,hc⟩ := @exception_leaves symbols moduleWord callee start s h
    exact ⟨_,hc,rfl,rfl,rfl⟩
  · intro h n m' hn hbss cleared happart hm
    have hcleared : bssCleared s.mem start = cleared := bssCleared_eq s.mem start hn hbss
    change Sep _ _ (bssStart s.mem start) _ at happart
    change exlDynamic _ _ _ (zeroed _ (bssStart s.mem start) _) = _ at hm
    rw [← hcleared] at happart hm
    obtain ⟨k,hk⟩ := bssCleared_dvd s.mem start
    have hbounds := bssCleared_bounds s.mem start
    obtain ⟨t,ht,hat⟩ := @entry_runs symbols moduleWord callee start s h
    have hcount : (t.x 9).setWidth 32 = BitVec.ofNat 32 (8*k) := by
      rw [hat.size, bss_count, hk]
    obtain ⟨u,hu,hkept,humem⟩ := @bss_runs symbols moduleWord callee start k (by omega) (by omega) t
      hcount
    rw [hat.mem, hat.bss, ← hk] at humem
    obtain ⟨v,hv,hatv⟩ :=
      @dynamic_runs symbols moduleWord callee start s t u hat hkept humem happart
    rw [← hatv.mem] at hm
    obtain ⟨w,hw,hrest⟩ :=
      @call_leaves symbols moduleWord callee fuel stack start s hcallee v hatv m' hm
    exact ⟨w,((ht.trans hu).trans hv).trans hw,hrest⟩

/-- A module at 0 with a relocation in its BSS, and the entry at `0x100`. -/
def startMem : Mem :=
  [((0x4:Addr),(0x200:BitVec 64)),(0x114,0xfffffeec),(0x204,0x100),(0x208,0x1000),(0x20c,0x100d),
    (0x300,dtRelaSz),(0x308,24),(0x310,dtRela),(0x318,0x400),(0x400,0x1208),(0x408,archRelative),
    (0x410,0x30),(0x1208,0x5555)].foldl (fun m (a,v) => m.write64 a v) fun _ => 0

/-- The core at the entry of the module; its thread handle is 5. -/
def startCore : Core Unit :=
  ⟨fun r => if r = 1 then 5 else 0,fun _ => 0,0x8000,false,false,startMem,()⟩

/-- `exl_dynamic` with a fuel of 3, which keeps every register. -/
def dynamicCallee (s : Core Unit) : Option (Core Unit) :=
  (exlDynamic 3 (s.x 0) (s.x 1) s.mem).map fun m => { s with mem := m }

theorem dynamicCallee_relocates : RelocatesModule dynamicCallee 3 0 := by
  intro s m' hm
  refine ⟨{ s with mem := m' },?_,fun _ _ _ => rfl,rfl,fun _ _ => rfl⟩
  rw [dynamicCallee, hm]
  rfl

theorem crt0_starts_module :
    ∃ t, (crt0Routine ⟨0x9000,0x9100⟩ 0xfffffeec dynamicCallee 0x100).Leaves startCore 0x9100 t ∧
      t.x 0 = 0 ∧ t.x 1 = 5 ∧ t.mem.read64 0x1208 = 0x30 := by
  have hstart : moduleStart startMem 0x100 = 0 := by decide
  have hdynamic : mod0Field startMem 0x100 0x4 = 0x300 := by decide
  have hbss : mod0Field startMem 0x100 0x8 = 0x1200 := by decide
  obtain ⟨m',hm',hread⟩ : ∃ m', exlDynamic 3 0 0x300 (zeroed startMem 0x1200 16) = some m' ∧
      m'.read64 0x1208 = 0x30 := by
    apply Option.map_eq_some_iff.mp
    decide
  obtain ⟨t,ht,h0,h1,-,hmem⟩ := (@crt0_starts ⟨0x9000,0x9100⟩ 0xfffffeec dynamicCallee 3 0 0x100
    dynamicCallee_relocates startCore).2 (by decide) 13 m' (by decide) (by decide) (by decide)
    (by
      change exlDynamic 3 (moduleStart startMem 0x100) (mod0Field startMem 0x100 0x4)
        (zeroed startMem (mod0Field startMem 0x100 0x8) 16) = some m'
      rw [hstart, hdynamic, hbss, hm'])
  refine ⟨t,ht,h0,h1,?_⟩
  rw [← hread]
  exact Mem.read64_congr fun x _ => hmem x (Nat.zero_le _)

end Start

end Zeldar
