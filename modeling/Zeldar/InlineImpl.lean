import Zeldar.Armv8
import Zeldar.HookInstall
import Zeldar.HookTarget

namespace Zeldar
open A64 Armv8

def inlinePoolSize : ℕ := 0x1000

/-- `sizeof(Entry)`: four instructions and a pointer. -/
def entrySize : ℕ := 4*4+8

def inlinePoolCount : ℕ := inlinePoolSize/entrySize

/-- Besides what `Hook` finds: `s_InlineHookJit`, and the address of `exl_inline_hook_impl`. -/
structure InlineEnv where
  hook : HookEnv
  jit : Claim
  impl : Addr

inductive InlineFault
  | trampolineAllocFail
  | hook (f : HookFault)
  deriving DecidableEq, Repr

structure InlineState where
  hook : HookState
  entryIndex : BitVec 64

def entryAt (pool : Addr) (index : BitVec 64) : Addr := pool+index*BitVec.ofNat 64 entrySize

/-- `m_CbEntry`. The displacements are cut to 32 bits on their way to the builders. -/
def entryInstructions (impl entryCb trampoline : Addr) : List Word :=
  [sturUnscaledImmediate .lr .sp (-0x10),
    branchLink ((impl-(entryCb+4)).setWidth 32),
    ldurUnscaledImmediate .lr .sp (-0x10),
    branch ((trampoline-(entryCb+8)).setWidth 32)]

def hookInline (env : InlineEnv) (st : InlineState) (hook callback : Addr) :
    Except InlineFault InlineState :=
  if inlinePoolCount ≤ st.entryIndex.toNat then .error .trampolineAllocFail
  else
    let entryRx := entryAt env.jit.ro st.entryIndex
    let entryRw := entryAt env.jit.rw st.entryIndex
    match Zeldar.hook env.hook st.hook hook entryRx true with
    | .error f => .error (.hook f)
    | .ok (trampoline,h) =>
      let m := h.m.storeWords env.hook.tr entryRw (entryInstructions env.impl entryRx trampoline)
      let m := m.store64 env.hook.tr (wordAt entryRw 4) callback
      .ok ⟨⟨m.flushPages env.jit,h.index⟩,st.entryIndex+1⟩

/-- The entry is seen through both views of the pool. -/
def InlineEnv.Aliases (env : InlineEnv) (index : BitVec 64) : Prop :=
  ∀ k < 6, env.hook.tr (wordAt (entryAt env.jit.rw index) k) = wordAt (entryAt env.jit.ro index) k

/-- The words of an entry: the stub, then the callback. -/
def entryWords (impl entryCb trampoline callback : Addr) : List Word :=
  entryInstructions impl entryCb trampoline++
    [callback.extractLsb' 0 32,callback.extractLsb' 32 32]

theorem storeWords_entry (tr : Addr → Addr) (m : Machine)
    (rw impl entryCb trampoline callback : Addr) :
    (m.storeWords tr rw (entryInstructions impl entryCb trampoline)).store64 tr (wordAt rw 4)
      callback = m.storeWords tr rw (entryWords impl entryCb trampoline callback) := by
  have h5 : wordAt rw 4+4 = wordAt rw (1+1+1+1+1) := wordAt_four rw 4
  simp only [entryWords, entryInstructions, List.cons_append, List.nil_append, Machine.storeWords,
    Machine.store64, wordAt_add, h5]

theorem entryWords_length (impl entryCb trampoline callback : Addr) :
    (entryWords impl entryCb trampoline callback).length = 6 := rfl

/-- What a call to `HookInline` that returns has done. -/
theorem hookInline_ok {env : InlineEnv} {st st' : InlineState} {hook callback : Addr}
    (halias : env.Aliases st.entryIndex) (h : hookInline env st hook callback = .ok st') :
    let entryCb := entryAt env.jit.ro st.entryIndex
    ∃ trampoline h', Zeldar.hook env.hook st.hook hook entryCb true = .ok (trampoline,h') ∧
      st'.hook.m.mem =
        overlay h'.m.mem entryCb (entryWords env.impl entryCb trampoline callback) := by
  unfold hookInline at h
  split_ifs at h with hfull
  dsimp only at h ⊢
  cases hh : Zeldar.hook env.hook st.hook hook (entryAt env.jit.ro st.entryIndex) true with
  | error f =>
    rw [hh] at h
    cases h
  | ok v =>
    obtain ⟨trampoline,h'⟩ := v
    rw [hh] at h
    cases h
    refine ⟨trampoline,h',rfl,?_⟩
    -- the entry is stored through the RW view after `Hook` has returned
    have hm := @storeWords_overlay env.hook.tr h'.m (entryAt env.jit.rw st.entryIndex)
      (entryAt env.jit.ro st.entryIndex) h'.m.mem []
      (entryWords env.impl (entryAt env.jit.ro st.entryIndex) trampoline callback)
      (overlay_nil _ _).symm (by rw [entryWords_length]; decide) (fun k hk => by
        rw [List.length_nil, Nat.zero_add]
        exact halias k hk)
    rw [List.length_nil, wordAt_zero, ← storeWords_entry] at hm
    exact hm

/-- The first half of a stub calls `impl`, with LR saved below the stack and the callback eight
bytes past the return address. -/
def Calls (mem : Mem) (entryCb impl callback : Addr) : Prop :=
  ∀ c : Cpu, c.pc = entryCb → (∀ x, (x-entryCb).toNat < entrySize → c.mem x = mem x) →
    Sep (c.sp-0x10) 8 entryCb entrySize → ∃ c', run 2 c = some c' ∧ c'.pc = impl ∧
      c'.mem.read64 (c.sp-0x10) = c.x 30 ∧ c'.x 30 = entryCb+8 ∧
      c'.mem.read64 (c'.x 30+8) = callback

/-- The second half, where `impl` returns to, restores LR and goes on at `target`. -/
def Resumes (mem : Mem) (entryCb target : Addr) : Prop :=
  ∀ c : Cpu, c.pc = entryCb+8 → (∀ x, (x-entryCb).toNat < entrySize → c.mem x = mem x) →
    ∃ c', run 2 c = some c' ∧ c'.x 30 = c.mem.read64 (c.sp-0x10) ∧ c'.pc = target

/-- The stub joins hook, callback and trampoline. -/
def Joins (mem : Mem) (entryCb impl callback trampoline : Addr) : Prop :=
  Calls mem entryCb impl callback ∧ Resumes mem entryCb trampoline

/-- The distances that a `B` or `BL` can express. -/
def InReach (d : Addr) : Prop := d.toNat%4 = 0 ∧ -2^27 ≤ d.toInt ∧ d.toInt < 2^27

theorem InReach.wordOffset {d : Addr} (h : InReach d) :
    wordOffset ((d.sshiftRight 2).setWidth 26) = d := by
  obtain ⟨hd,hlo,hhi⟩ := h
  exact displacement_of_range d (by decide) (by decide) hd (by omega) (by omega)

section Stub
variable {c : Cpu} {entryCb impl callback trampoline : Addr}

theorem read64_of_entry {m : Mem}
    (hw : WordsAt m entryCb (entryWords impl entryCb trampoline callback)) :
    m.read64 (entryCb+16) = callback := by
  have h := (wordsAt_append.mp hw).2
  have ha : entryCb+16 = wordAt entryCb (entryInstructions impl entryCb trampoline).length := rfl
  rw [ha, read64_of_words h, BitVec.extractLsb'_append_extractLsb'_eq_extractLsb' (by rfl)]
  exact BitVec.extractLsb'_eq_self

theorem below_sp (a : Addr) : a+(0x1f0:BitVec 9).signExtend 64 = a-0x10 := by
  have he : (0x1f0:BitVec 9).signExtend 64 = -0x10 := by decide
  rw [he]
  ring

theorem step_stur (hr : c.mem.read32 c.pc = 0xf81f03fe) :
    step c = some { c with pc := c.pc+4, mem := c.mem.write64 (c.sp-0x10) (c.x 30) } := by
  rw [step_of_read hr (by decide : _ = Instr.stur 0x1f0 31 30)]
  simp only [exec, Cpu.getXsp, Cpu.getX, Cpu.next, Cpu.goto, ↓reduceIte, below_sp,
    show ¬(30:BitVec 5) = 31 by decide]

theorem step_ldur (hr : c.mem.read32 c.pc = 0xf85f03fe) :
    step c = some { c with
      pc := c.pc+4, x := Function.update c.x 30 (c.mem.read64 (c.sp-0x10)) } := by
  rw [step_of_read hr (by decide : _ = Instr.ldur 0x1f0 31 30)]
  simp only [exec, Cpu.getXsp, Cpu.setX, Cpu.next, Cpu.goto, ↓reduceIte, below_sp,
    show ¬(30:BitVec 5) = 31 by decide]

theorem step_branch {d : Addr} (hr : c.mem.read32 c.pc = branchWord 0x14000000 d) :
    step c = some { c with pc := c.pc+wordOffset ((d.sshiftRight 2).setWidth 26) } := by
  have hopc : (0x14000000:Word) &&& fieldMask 0 26 = 0 := by decide
  rw [step_of_read hr (decode_b (branchWord_opcode _ hopc))]
  simp only [exec, Bool.false_eq_true, ↓reduceIte, branchWord_imm _ hopc, Cpu.goto]

theorem step_branchLink {d : Addr} (hr : c.mem.read32 c.pc = branchWord 0x94000000 d) :
    step c = some { c with
      pc := c.pc+wordOffset ((d.sshiftRight 2).setWidth 26)
      x := Function.update c.x 30 (c.pc+4) } := by
  have hopc : (0x94000000:Word) &&& fieldMask 0 26 = 0 := by decide
  rw [step_of_read hr (decode_bl (branchWord_opcode _ hopc))]
  simp only [exec, ↓reduceIte, branchWord_imm _ hopc, Cpu.goto, Cpu.setX,
    show ¬(30:BitVec 5) = 31 by decide]

/-- From its first word the stub saves LR and branches where its second word says. -/
theorem stub_calls (hw : WordsAt c.mem entryCb (entryWords impl entryCb trampoline callback))
    (hpc : c.pc = entryCb) (hs : Sep (c.sp-0x10) 8 entryCb entrySize) :
    run 2 c = some { c with
      pc := entryCb+4+wordOffset (((impl-(entryCb+4)).sshiftRight 2).setWidth 26)
      x := Function.update c.x 30 (entryCb+8)
      mem := c.mem.write64 (c.sp-0x10) (c.x 30) } := by
  have h0 : c.mem.read32 c.pc = 0xf81f03fe := by
    have h := hw 0 _ rfl
    rwa [wordAt_zero, stur_lr, ← hpc] at h
  have h1 : c.mem.read32 (entryCb+4) = branchWord 0x94000000 (impl-(entryCb+4)) := by
    have h := hw 1 _ rfl
    rwa [branchLink_eq] at h
  have hsep : Sep (wordAt entryCb 1) 4 (c.sp-0x10) 8 :=
    @Sep.word entryCb _ 6 8 1 hs.symm (by decide)
  -- the slot below the stack is apart from the stub
  have hmem : (c.mem.write64 (c.sp-0x10) (c.x 30)).read32 (c.pc+4) =
      branchWord 0x94000000 (impl-(entryCb+4)) := by
    have ha : c.pc+4 = wordAt entryCb 1 := by
      rw [hpc]
      rfl
    rw [ha, Mem.read32_write64_of_sep _ _ hsep]
    exact h1
  have h8 : entryCb+4+4 = entryCb+8 := by
    rw [add_assoc]
    rfl
  have hbl := @step_branchLink
    { c with pc := c.pc+4, mem := c.mem.write64 (c.sp-0x10) (c.x 30) } (impl-(entryCb+4)) hmem
  rw [run, step_stur h0, Option.bind_some, run, hbl, Option.bind_some, run]
  simp only [hpc, h8]

theorem step_restore (hw : WordsAt c.mem entryCb (entryWords impl entryCb trampoline callback))
    (hpc : c.pc = entryCb+8) : step c = some { c with
      pc := entryCb+12, x := Function.update c.x 30 (c.mem.read64 (c.sp-0x10)) } := by
  have h2 : c.mem.read32 c.pc = 0xf85f03fe := by
    have h := hw 2 _ rfl
    rw [ldur_lr] at h
    rw [hpc]
    exact h
  have hpc12 : c.pc+4 = entryCb+12 := by
    rw [hpc, add_assoc]
    rfl
  rw [step_ldur h2, hpc12]

/-- From its third word the stub restores LR and branches where its fourth word says. -/
theorem stub_resumes (hw : WordsAt c.mem entryCb (entryWords impl entryCb trampoline callback))
    (hpc : c.pc = entryCb+8) : run 2 c = some { c with
      pc := entryCb+12+wordOffset (((trampoline-(entryCb+8)).sshiftRight 2).setWidth 26)
      x := Function.update c.x 30 (c.mem.read64 (c.sp-0x10)) } := by
  have h3 : c.mem.read32 (entryCb+12) = branchWord 0x14000000 (trampoline-(entryCb+8)) := by
    have h := hw 3 _ rfl
    rwa [branch_eq] at h
  have hb := @step_branch { c with
    pc := entryCb+12, x := Function.update c.x 30 (c.mem.read64 (c.sp-0x10)) } _ h3
  rw [run, step_restore hw hpc, Option.bind_some, run, hb, Option.bind_some, run]

/-- The offset in the last word is for the third: it never leads from the last to the target. -/
theorem wordOffset_quarter_ne (d : Addr) : wordOffset ((d.sshiftRight 2).setWidth 26) ≠ d-4 := by
  intro h
  have hi := wordOffset_toInt ((d.sshiftRight 2).setWidth 26) (by decide)
  rw [h] at hi
  have hd : d.toNat%4 = 0 := by
    have h4 := BitVec.toInt_eq_toNat_cond (d-4)
    generalize (BitVec.setWidth 26 (d.sshiftRight 2)).toInt = z at hi
    split_ifs at h4 <;> bv_omega
  have hw := @displacement_setWidth 26 d (by decide) hd
  rw [← wordOffset, h, setWidth_eq_iff (by decide)] at hw
  have hm : d-4-d = -4 := by ring
  rw [hm] at hw
  exact absurd hw (by decide)

/-- Whatever the addresses, the last branch misses the trampoline. -/
theorem entry_not_resumes {m : Mem}
    (hw : WordsAt m entryCb (entryWords impl entryCb trampoline callback)) :
    ¬Resumes m entryCb trampoline := by
  intro hj
  let c : Cpu := ⟨fun _ => 0,fun _ => 0,0,entryCb+8,⟨false,false,false,false⟩,m⟩
  obtain ⟨c',hrun,-,hpc⟩ := hj c rfl fun _ _ => rfl
  rw [@stub_resumes c _ _ _ _ hw rfl, Option.some.injEq] at hrun
  have ht := (congrArg Cpu.pc hrun).trans hpc
  dsimp only at ht
  apply wordOffset_quarter_ne (trampoline-(entryCb+8))
  generalize wordOffset _ = d at ht ⊢
  rw [← ht]
  bv_omega

theorem entry_calls {m : Mem}
    (hw : WordsAt m entryCb (entryWords impl entryCb trampoline callback))
    (hreach : InReach (impl-(entryCb+4))) : Calls m entryCb impl callback := by
  intro c hpc hm hs
  have hwc := hw.congr (by rw [entryWords_length]; decide) hm
  refine ⟨_,stub_calls hwc hpc hs,?_,?_,?_,?_⟩
  · rw [hreach.wordOffset]
    ring
  · exact Mem.read64_write64_self _ _ _
  · exact Function.update_self (30:BitVec 5) (entryCb+8) c.x
  · have ha : entryCb+8+8 = entryCb+16 := by
      rw [add_assoc]
      rfl
    have hsep : Sep (entryCb+16) 8 (c.sp-0x10) 8 := by
      obtain ⟨h1,h2⟩ := hs
      unfold entrySize at h1
      generalize c.sp-0x10 = a at h1 h2 ⊢
      refine ⟨?_,?_⟩ <;> bv_omega
    dsimp only
    rw [Function.update_self, ha, Mem.read64_write64_of_sep _ _ hsep]
    exact read64_of_entry hwc

/-- Where the last branch does lead, within its reach. -/
theorem entry_resumes_next {m : Mem}
    (hw : WordsAt m entryCb (entryWords impl entryCb trampoline callback))
    (hreach : InReach (trampoline-(entryCb+8))) : Resumes m entryCb (trampoline+4) := by
  intro c hpc hm
  have hwc := hw.congr (by rw [entryWords_length]; decide) hm
  refine ⟨_,stub_resumes hwc hpc,Function.update_self (30:BitVec 5) _ c.x,?_⟩
  have h4 : (12:Addr) = 8+4 := rfl
  rw [hreach.wordOffset, h4]
  ring

end Stub

/-- The entry that `HookInline` leaves behind. -/
theorem hookInline_entry {env : InlineEnv} {st st' : InlineState} {hook callback : Addr}
    (halias : env.Aliases st.entryIndex) (h : hookInline env st hook callback = .ok st') :
    let entryCb := entryAt env.jit.ro st.entryIndex
    ∃ trampoline h', Zeldar.hook env.hook st.hook hook entryCb true = .ok (trampoline,h') ∧
      WordsAt st'.hook.m.mem entryCb (entryWords env.impl entryCb trampoline callback) := by
  obtain ⟨trampoline,h',hhook,hmem⟩ := hookInline_ok halias h
  refine ⟨trampoline,h',hhook,?_⟩
  rw [hmem]
  exact wordsAt_overlay _ (by rw [entryWords_length]; decide)

/-- The stub never joins: its last branch misses the trampoline that `Hook` returned. -/
theorem hookInline_not_joins {env : InlineEnv} {st st' : InlineState} {hook callback : Addr}
    (halias : env.Aliases st.entryIndex) (h : hookInline env st hook callback = .ok st') :
    ∃ trampoline h', Zeldar.hook env.hook st.hook hook (entryAt env.jit.ro st.entryIndex) true =
        .ok (trampoline,h') ∧
      ¬Joins st'.hook.m.mem (entryAt env.jit.ro st.entryIndex) env.impl callback trampoline := by
  obtain ⟨trampoline,h',hhook,hw⟩ := hookInline_entry halias h
  exact ⟨trampoline,h',hhook,fun hj => entry_not_resumes hw hj.2⟩

/-- Within reach the stub joins in every respect but one: it skips a word of the trampoline. -/
theorem hookInline_joins_next {env : InlineEnv} {st st' : InlineState} {hook callback : Addr}
    (halias : env.Aliases st.entryIndex) (h : hookInline env st hook callback = .ok st') :
    let entryCb := entryAt env.jit.ro st.entryIndex
    ∃ trampoline h', Zeldar.hook env.hook st.hook hook entryCb true = .ok (trampoline,h') ∧
      (InReach (env.impl-(entryCb+4)) → InReach (trampoline-(entryCb+8)) →
        Joins st'.hook.m.mem entryCb env.impl callback (trampoline+4)) := by
  obtain ⟨trampoline,h',hhook,hw⟩ := hookInline_entry halias h
  exact ⟨trampoline,h',hhook,fun h1 h2 => ⟨entry_calls hw h1,entry_resumes_next hw h2⟩⟩

section Mirror

/-- An inline pool and an implementation near `mirrorEnv`'s pool. -/
def mirrorInlineEnv : InlineEnv := ⟨mirrorEnv,⟨0x30000,0x10030000,0x1000,0⟩,0x4000⟩

def mirrorInlineState : InlineState := ⟨HookState.initial ⟨fun _ => 0,[]⟩,0⟩

theorem mirrorInline_aliases : mirrorInlineEnv.Aliases mirrorInlineState.entryIndex := by
  intro k hk
  interval_cases k <;> decide

theorem mirrorInline_hook : ∃ h', hook mirrorEnv mirrorInlineState.hook 0x1000 0x30000 true =
    .ok (0x20000,h') := by
  obtain ⟨m1,st',-,-,hhook,-⟩ := @hook_with_mem mirrorEnv 0x1000 0x30000 mirrorInlineState.hook
    mirrorSlot (by decide) (by decide) (by decide)
    (fun i hi => by
      have hw : (windowSize 0x1000 0x30000).toNat = 4 := by decide
      obtain rfl : i = 0 := by omega
      decide)
    (by decide) (by decide)
  exact ⟨st',hhook⟩

theorem mirrorInline_returns :
    ∃ st', hookInline mirrorInlineEnv mirrorInlineState 0x1000 0x5000 = .ok st' := by
  obtain ⟨h',hhook⟩ := mirrorInline_hook
  have hfull : ¬inlinePoolCount ≤ mirrorInlineState.entryIndex.toNat := by decide
  have he : entryAt mirrorInlineEnv.jit.ro mirrorInlineState.entryIndex = 0x30000 := by decide
  unfold hookInline
  rw [if_neg hfull, he]
  simp only [mirrorInlineEnv, hhook]
  exact ⟨_,rfl⟩

theorem hookInline_not_joins_mirror :
    ∃ st', hookInline mirrorInlineEnv mirrorInlineState 0x1000 0x5000 = .ok st' ∧
      ∃ trampoline, ¬Joins st'.hook.m.mem
        (entryAt mirrorInlineEnv.jit.ro mirrorInlineState.entryIndex) 0x4000 0x5000 trampoline := by
  obtain ⟨st',h⟩ := mirrorInline_returns
  obtain ⟨trampoline,-,-,hj⟩ := hookInline_not_joins mirrorInline_aliases h
  exact ⟨st',h,trampoline,hj⟩

/-- A stub at 0x30000, with its trampoline at 0x20000 and the implementation at 0x4000. -/
theorem stub_misses_trampoline :
    ∃ st', hookInline mirrorInlineEnv mirrorInlineState 0x1000 0x5000 = .ok st' ∧
      (∃ h', hook mirrorEnv mirrorInlineState.hook 0x1000 0x30000 true = .ok (0x20000,h')) ∧
      ¬Joins st'.hook.m.mem 0x30000 0x4000 0x5000 0x20000 := by
  obtain ⟨st',h⟩ := mirrorInline_returns
  obtain ⟨h',hhook⟩ := mirrorInline_hook
  obtain ⟨trampoline,g,htramp,hw⟩ := hookInline_entry mirrorInline_aliases h
  have he : entryAt mirrorInlineEnv.jit.ro mirrorInlineState.entryIndex = 0x30000 := by decide
  rw [he] at htramp hw
  have ht : trampoline = 0x20000 := by
    have heq := htramp.symm.trans hhook
    simp only [Except.ok.injEq, Prod.mk.injEq] at heq
    exact heq.1
  rw [ht] at hw
  exact ⟨st',h,⟨h',hhook⟩,fun hj => entry_not_resumes hw hj.2⟩

end Mirror

end Zeldar
