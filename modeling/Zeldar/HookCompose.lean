import Zeldar.HookKeeps

namespace Zeldar
open A64

/-- Between the memories `m1` and `m2` before and after the second hook the old trampoline is as
it was, and a core that enters it goes on as before for as long as it does not look at what
changed. -/
structure ResumesAlike (m1 m2 : Mem) (t1 : Addr) (changed : Addr → Prop) : Prop where
  keeps : ∀ x, (x-t1).toNat < 4*trampolineSize → ¬changed x
  resumes : ∀ n (c d : Cpu), c.mem = m1 → c.pc = t1 → Avoids changed n c → run n c = some d →
    ∃ d', run n { c with mem := m2 } = some d' ∧ AgreeOff changed d d'

/-- Two calls to `Hook` on one function, for `c1` and then for `c2`, that both get a trampoline.
The patches are off the slots, and can be written where they are executed. -/
structure TwoHooks (env : HookEnv) (h c1 c2 : Addr) (st st1 st2 : HookState)
    (slot1 slot2 : Slot env.tr) : Prop where
  aligned : h.toNat%4 = 0
  aligned1 : c1.toNat%4 = 0
  aligned2 : c2.toNat%4 = 0
  nonnull : h ≠ 0
  nonnull1 : c1 ≠ 0
  nonnull2 : c2 ≠ 0
  window1 : env.Aliases h c1
  window2 : env.Aliases h c2
  executed : ∀ k < patchCount h c1, env.tr (wordAt h k) = wordAt h k
  alloc1 : (allocForTrampoline env.jit st.index).2 = some (slot1.rx,slot1.rw)
  alloc2 : (allocForTrampoline env.jit st1.index).2 = some (slot2.rx,slot2.rw)
  apart1 : Sep h (4*patchCount h c1) slot1.rx (4*trampolineSize)
  apart2 : Sep h (4*patchCount h c1) slot2.rx (4*trampolineSize)
  apart2' : Sep h (4*patchCount h c2) slot2.rx (4*trampolineSize)
  hook1 : hook env st h c1 true = .ok (slot1.rx,st1)
  hook2 : hook env st1 h c2 true = .ok (slot2.rx,st2)

section Compose
variable {env : HookEnv} {h c c1 c2 : Addr}

theorem patchCount_near (hn : isFar h c = false) : patchCount h c = 1 := by
  simp only [patchCount, hn, Bool.false_eq_true, ↓reduceIte]

theorem patchCount_pos : 0 < patchCount h c := by
  unfold patchCount
  split_ifs <;> exact Nat.succ_pos _

theorem jumpWords_near (hn : isFar h c = false) :
    jumpWords c h = [branchWord 0x14000000 (c-h)] := by
  unfold isFar at hn
  simp only [jumpWords, hn, Bool.false_eq_true, ↓reduceIte]

/-- A far jump at an address whose literal is aligned anyway needs no NOP. -/
theorem jumpWords_aligned (hf : isFar h c = true) (ha : wordAt h 2 &&& 7 = 0) :
    jumpWords c h = absoluteJump c ∧ patchCount h c = 4 := by
  have hn : ¬wordAt h 2 &&& 7 ≠ 0 := not_not.mpr ha
  constructor
  · unfold isFar at hf
    unfold jumpWords
    rw [if_pos hf, if_pos ha]
    rfl
  · unfold patchCount
    rw [if_pos hf, if_neg hn]

theorem patchCount_mono (hform : isFar h c2 = true → isFar h c1 = true) :
    patchCount h c2 ≤ patchCount h c1 := by
  unfold patchCount
  split_ifs <;> simp_all

/-- The words of a far jump, and how many there are. -/
theorem jumpWords_far (hf : isFar h c = true) : ∃ j ≤ 1, jumpWords c h = nops j++absoluteJump c ∧
    patchCount h c = j+4 ∧ (j = 0 → wordAt h 2 &&& 7 = 0) := by
  unfold isFar at hf
  refine ⟨if wordAt h 2 &&& 7 = 0 then 0 else 1,?_,?_,?_,?_⟩
  · split_ifs <;> decide
  · unfold jumpWords
    rw [if_pos hf]
  · unfold patchCount isFar
    rw [if_pos hf]
    split_ifs with ha <;> simp_all
  · split_ifs with ha
    · exact fun _ => ha
    · intro h10
      cases h10

theorem alloc_some {jit : Claim} {index : BitVec 32} {rx rw : Addr}
    (h : (allocForTrampoline jit index).2 = some (rx,rw)) :
    (index+1).toNat ≤ hookMax ∧ rx = wordAt jit.ro (trampolineSize*(index+1).toNat) := by
  unfold allocForTrampoline at h
  dsimp only at h
  split_ifs at h with hm
  cases h
  exact ⟨not_lt.mp hm,rfl⟩

/-- Two calls in a row get two slots that do not overlap. -/
theorem alloc_apart {st st1 : HookState} {rx rw rx' rw' : Addr} (hi : st1.index = st.index+1)
    (h1 : (allocForTrampoline env.jit st.index).2 = some (rx,rw))
    (h2 : (allocForTrampoline env.jit st1.index).2 = some (rx',rw')) :
    Sep rx (4*trampolineSize) rx' (4*trampolineSize) := by
  have ht : trampolineSize = 50 := rfl
  obtain ⟨hle,hrx⟩ := alloc_some h1
  obtain ⟨hle',hrx'⟩ := alloc_some h2
  have hmax : hookMax = 20 := rfl
  have hnext : (st1.index+1).toNat = (st.index+1).toNat+1 := by
    rw [hi]
    bv_omega
  rw [hrx, hrx', hnext, ht]
  exact @regions_sep env.jit.ro _ _ 50 (by omega) (by omega)

namespace TwoHooks
variable {st st1 st2 : HookState} {slot1 slot2 : Slot env.tr}

/-- The second call gets another slot. -/
theorem slots (t : TwoHooks env h c1 c2 st st1 st2 slot1 slot2) :
    Sep slot1.rx (4*trampolineSize) slot2.rx (4*trampolineSize) := by
  have hindex : st1.index = st.index+1 := by
    have hcall := (@hook_returns ⟨env,h,c1,true⟩ st st1 slot1.rx t.hook1).2
    simp only [HookCall.alloc, ne_eq, t.nonnull, t.nonnull1, not_false_eq_true, and_self,
      ↓reduceIte, List.length_singleton] at hcall
    exact hcall
  exact alloc_apart hindex t.alloc1 t.alloc2

/-- The words that the first call relocates. -/
def source1 (t : TwoHooks env h c1 c2 st st1 st2 slot1 slot2) :
    Source env.tr (patchCount h c1) slot1 := t.window1.source t.aligned slot1 t.apart1

/-- The words that the second call relocates. -/
def source (t : TwoHooks env h c1 c2 st st1 st2 slot1 slot2) :
    Source env.tr (patchCount h c2) slot2 := t.window2.source t.aligned slot2 t.apart2'

/-- The first call leaves the relocated words, its patch, and all else as it was. -/
theorem leaves1 (t : TwoHooks env h c1 c2 st st1 st2 slot1 slot2) :
    Keeps t.source1 st.m st1.m.mem ∧ WordsAt st1.m.mem h (jumpWords c1 h) ∧
      ∀ x, 4*patchCount h c1 ≤ (x-h).toNat → ¬slot1.bytes x → st1.m.mem x = st.m.mem x :=
  hook_leaves slot1 t.aligned t.nonnull t.nonnull1 t.window1 t.alloc1 t.apart1 t.hook1

theorem patched (t : TwoHooks env h c1 c2 st st1 st2 slot1 slot2) :
    WordsAt st1.m.mem h (jumpWords c1 h) := t.leaves1.2.1

/-- The second one leaves the relocated words of the first patch, its own patch, and all else as
it was. -/
theorem leaves (t : TwoHooks env h c1 c2 st st1 st2 slot1 slot2) :
    Keeps t.source st1.m st2.m.mem ∧ WordsAt st2.m.mem h (jumpWords c2 h) ∧
      ∀ x, 4*patchCount h c2 ≤ (x-h).toNat → ¬slot2.bytes x → st2.m.mem x = st1.m.mem x :=
  hook_leaves slot2 t.aligned t.nonnull t.nonnull2 t.window2 t.alloc2 t.apart2' t.hook2

/-- The second call leaves the slot of the first one alone, if its patch is off it too. -/
theorem kept1 (t : TwoHooks env h c1 c2 st st1 st2 slot1 slot2)
    (hap : Sep h (4*patchCount h c2) slot1.rx (4*trampolineSize)) :
    Keeps t.source1 st.m st2.m.mem := by
  obtain ⟨mach',hrun,hm⟩ := t.leaves1.1
  refine ⟨mach',hrun,fun x hx => (t.leaves.2.2 x (hap.offset hx) ?_).trans (hm x hx)⟩
  intro hx'
  exact absurd hx (not_lt.mpr (t.slots.offset hx'))

/-- What is neither in a patch nor in a slot is as it was. -/
theorem untouched (t : TwoHooks env h c1 c2 st st1 st2 slot1 slot2) {a : Addr}
    (hp : ∀ i < 4, 4*patchCount h c1 ≤ (a+BitVec.ofNat 64 i-h).toNat ∧
      4*patchCount h c2 ≤ (a+BitVec.ofNat 64 i-h).toNat)
    (hs : ∀ i < 4, ¬slot1.bytes (a+BitVec.ofNat 64 i) ∧ ¬slot2.bytes (a+BitVec.ofNat 64 i)) :
    st1.m.mem.read32 a = st.m.mem.read32 a ∧ st2.m.mem.read32 a = st.m.mem.read32 a := by
  have h1 (i : ℕ) (hi : i < 4) := t.leaves1.2.2 _ (hp i hi).1 (hs i hi).1
  have h2 (i : ℕ) (hi : i < 4) := t.leaves.2.2 _ (hp i hi).2 (hs i hi).2
  exact ⟨Mem.read32_congr h1,Mem.read32_congr fun i hi => (h2 i hi).trans (h1 i hi)⟩

/-- The words of the first patch behind a near second one still stand. -/
theorem rest (t : TwoHooks env h c1 c2 st st1 st2 slot1 slot2) (hf2 : isFar h c2 = false) :
    WordsAt st2.m.mem (wordAt h 1) ((jumpWords c1 h).drop 1) := by
  have hlen1 := jumpWords_length_eq h c1
  have hle1 := patchCount_le h c1
  unfold maxInstructions at hle1
  apply (t.patched.drop 1).congr (by rw [List.length_drop]; omega)
  intro x hx
  rw [List.length_drop, hlen1] at hx
  have hx1 : 4 ≤ (x-h).toNat ∧ (x-h).toNat < 4*patchCount h c1 := by
    unfold wordAt at hx
    constructor <;> bv_omega
  apply t.leaves.2.2 x (by rw [patchCount_near hf2]; omega)
  intro hb
  have hge := t.apart2.offset hb
  omega

/-- After the second call the function leads to its callback. -/
theorem enters (t : TwoHooks env h c1 c2 st st1 st2 slot1 slot2) : Transfers st2.m.mem h c2 :=
  transfers_jumpWords t.aligned t.aligned2 t.leaves.2.1

/-- If the second patch is no longer than the first, the first trampoline goes on as before. -/
theorem resumes (t : TwoHooks env h c1 c2 st st1 st2 slot1 slot2)
    (hform : isFar h c2 = true → isFar h c1 = true) :
    ResumesAlike st1.m.mem st2.m.mem slot1.rx (Changed h (patchCount h c1) slot2) := by
  have hcount := patchCount_mono hform
  refine ⟨?_,?_⟩
  · -- the first slot is apart from the patch and from the second slot
    rintro x hx (hp | hp)
    · have hge := t.apart1.offset hx
      omega
    · have hge := t.slots.offset hp
      omega
  · -- a run that avoids what the second call changed goes as before it
    rintro n c d hm hpc hav hrun
    refine run_off ⟨rfl,fun a ha => ?_⟩ hav hrun
    rw [Changed, not_or, not_lt] at ha
    rw [hm]
    exact t.leaves.2.2 a (by omega) ha.2

/-- A near first patch is one branch, which the second call relocates; if it leads out of the
relocated words it still leads there. -/
theorem chains_near (t : TwoHooks env h c1 c2 st st1 st2 slot1 slot2) (hf1 : isFar h c1 = false)
    (hout : 4*patchCount h c2 ≤ (c1-h).toNat) : Transfers st2.m.mem slot2.rx c1 := by
  have hh := t.aligned
  have hc1 := t.aligned1
  have hd : (c1-h).toNat%4 = 0 := by bv_omega
  have hw := t.patched
  rw [jumpWords_near hf1] at hw
  exact t.leaves.1.branch patchCount_pos (wordsAt_cons.mp hw).1 hd (branchOffset_of_near hd hf1) hout

/-- A far first patch is relocated as a whole by a far second call, and its literal with it if
the range test finds it among the words. -/
theorem chains_far (t : TwoHooks env h c1 c2 st st1 st2 slot1 slot2) (hf1 : isFar h c1 = true)
    (hf2 : isFar h c2 = true)
    (hspan : h.toNat < 2^63 → h.toNat+4*patchCount h c1 < 2^63) :
    Transfers st2.m.mem slot2.rx c1 := by
  obtain ⟨j,hj,hwords,hcount,-⟩ := jumpWords_far hf1
  have hw := t.patched
  have hexec := t.executed
  rw [hwords] at hw
  rw [hcount] at hexec hspan
  have hn : patchCount h c2 = j+4 := by
    rw [← hcount]
    unfold patchCount
    rw [if_pos hf1, if_pos hf2]
  have hlt : j+2 < patchCount h c2 := by
    rw [hn]
    exact Nat.add_lt_add_left (by decide) j
  have hrx : t.source.rx = h := rfl
  have hspan' : t.source.rx.toNat < 2^63 → t.source.rx.toNat+4*patchCount h c2 < 2^63 := by
    rw [hrx, hn]
    exact hspan
  exact t.leaves.1.far hn hw (fun l hl => hexec l (lt_of_lt_of_eq hl hn))
    (range_of_span hlt hspan')

/-- Where the range test loses the literal and the slot is near it, the relocated load goes back
for what is there by then, which is the second callback. -/
theorem reloads (t : TwoHooks env h c1 c2 st st1 st2 slot1 slot2) (hf1 : isFar h c1 = true)
    (hf2 : isFar h c2 = true) (hodd : wordAt h 2 &&& 7 = 0)
    (hr : (t.source.start st1.m).ctx.isInFixingRange (wordAt h 2) = false)
    (hnear : (0x3ffff:BitVec 64).ule
      (llabs ((wordAt h 2-slot2.rx).sshiftRight 2)+(7+1-4)/4) = false) :
    Transfers st2.m.mem slot2.rx c2 := by
  obtain ⟨hjump1,-⟩ := jumpWords_aligned hf1 hodd
  obtain ⟨hjump2,hcount⟩ := jumpWords_aligned hf2 hodd
  have hw := t.patched
  have hw2 := t.leaves.2.1
  rw [hjump1] at hw
  rw [hjump2] at hw2
  obtain ⟨hldr,hw⟩ := wordsAt_cons.mp hw
  obtain ⟨hbr,-⟩ := wordsAt_cons.mp hw
  have hload := t.leaves.1.reload (by rw [hcount]; decide) hldr hr hnear
  obtain ⟨hbr',-⟩ := @Keeps.plain _ _ _ t.source _ _ t.leaves.1 1 (by rw [hcount]; decide)
    (by decide) _ hbr (by decide)
  have hlit := (wordsAt_cons.mp (wordsAt_cons.mp hw2).2).2
  rw [wordAt_add] at hlit
  have hval : st2.m.mem.read64 (wordAt t.source.rx 2) = c2 := read64_literal hlit
  rw [hval] at hload
  exact hload.br hbr'

/-- Of a far first patch a near second call relocates the first word, and the rest still stands.
That word is a NOP, or the load of X17, which the jump behind its copy has to keep. -/
theorem chains_far_near (t : TwoHooks env h c1 c2 st st1 st2 slot1 slot2)
    (hf1 : isFar h c1 = true) (hf2 : isFar h c2 = false)
    (hresume : wordAt h 2 &&& 7 = 0 →
      isFar (t.source.code st1.m (patchCount h c2)) (wordAt h 1) = false) :
    Transfers st2.m.mem slot2.rx c1 := by
  obtain ⟨j,hj,hwords,hcount,hodd⟩ := jumpWords_far hf1
  have hw := t.patched
  have hrest := t.rest hf2
  have hexec := t.executed
  have hap := t.apart2
  rw [hwords] at hw hrest
  rw [hcount] at hexec hap
  have hn := patchCount_near hf2
  apply t.leaves.1.resume hn hj hw hrest hexec hap
  intro hj0
  have hnear := hresume (hodd hj0)
  have hcode : t.source.code st1.m (patchCount h c2) = t.source.code st1.m 1 := congrArg _ hn
  rwa [hcode] at hnear

/-- If the jump behind the copied load of X17 is a far one, it leaves its own target in X17, and
the BR that still stands there branches to itself. -/
theorem loops (t : TwoHooks env h c1 c2 st st1 st2 slot1 slot2)
    (hf1 : isFar h c1 = true) (hf2 : isFar h c2 = false) (hodd : wordAt h 2 &&& 7 = 0)
    (hfar : isFar (t.source.code st1.m 1) (wordAt h 1) = true) (c : Cpu)
    (hm : c.mem = st2.m.mem) (hp : c.pc = slot2.rx) :
    ∃ d : Cpu, Reaches c d ∧ d.pc = wordAt h 1 ∧ step d = some d := by
  obtain ⟨hjump,hcount⟩ := jumpWords_aligned hf1 hodd
  have hn := patchCount_near hf2
  have hw := t.patched
  have hrest := t.rest hf2
  have hexec := t.executed
  have hap := t.apart2
  rw [hjump] at hw hrest
  rw [hcount] at hexec hap
  obtain ⟨hldr,hw⟩ := wordsAt_cons.mp hw
  have hlit := (wordsAt_cons.mp hw).2
  obtain ⟨hbr,hlit'⟩ := wordsAt_cons.mp hrest
  rw [wordAt_add] at hlit hlit'
  -- the load, and the far jump back
  have hload := @Keeps.ldr _ _ _ t.source _ _ t.leaves.1 0 patchCount_pos (by decide) c1
    (by rw [wordAt_zero]; exact hldr) hlit (fun i hi => hexec _ (by omega)) hap
    (fun _ => read64_literal hlit')
  have htail := t.leaves.1.tail
  have hone : t.source.code st1.m (patchCount h c2) = t.source.code st1.m 1 := congrArg _ hn
  have hback : wordAt t.source.rx (patchCount h c2) = wordAt h 1 := congrArg _ hn
  rw [hone, hback] at htail
  obtain ⟨j,-,hwords,-,-⟩ := jumpWords_far hfar
  rw [hwords] at htail
  obtain ⟨hnops,hjump'⟩ := wordsAt_append.mp htail
  rw [nops_length] at hjump'
  rw [← hm] at hnops hjump' hbr
  have h1 := hload c hm hp
  have h2 := @reaches_nops { c with
    pc := t.source.code st1.m 1, x := Function.update c.x 17 c1 } j hnops
  have h3 := @reaches_absoluteJump { c with
    pc := wordAt (t.source.code st1.m 1) j, x := Function.update c.x 17 c1 } (wordAt h 1) hjump'
  have hbr' := @step_br17 { c with
    pc := wordAt h 1, x := Function.update c.x 17 (wordAt h 1) } hbr
  dsimp only at h3 hbr'
  rw [Function.update_idem] at h3
  rw [Function.update_self] at hbr'
  exact ⟨_,h1.trans (h2.trans h3),rfl,hbr'⟩

/-- A first hook of the function with itself is a branch that the second one relocates to branch
to itself. -/
theorem spins (t : TwoHooks env h h c2 st st1 st2 slot1 slot2)
    (hspan : h.toNat < 2^63 → h.toNat+4*patchCount h c2 < 2^63) (c : Cpu)
    (hm : c.mem = st2.m.mem) (hp : c.pc = slot2.rx) : step c = some c := by
  have hzero : h-h = 0#64 := BitVec.sub_self h
  have hnear : isFar h h = false := by
    unfold isFar
    rw [hzero]
    decide
  have hbranch : branchWord 0x14000000 0#64 = 0x14000000 := by decide
  have hw := t.patched
  rw [jumpWords_near hnear, hzero, hbranch] at hw
  have hr := @range_of_span _ _ _ t.source st1.m 0 patchCount_pos hspan
  rw [wordAt_zero] at hr
  have hself := t.leaves.1.self patchCount_pos (wordsAt_cons.mp hw).1 hr
  have hread : c.mem.read32 c.pc = 0x14000000 := by rw [hm, hp, hself]
  rw [step_of_read hread (by decide : _ = Instr.b false 0)]
  have hoff : wordOffset (0:BitVec 26) = 0#64 := by decide
  simp only [exec, Bool.false_eq_true, ↓reduceIte, hoff, BitVec.add_zero, Cpu.goto]

end TwoHooks

/-- Two hooks on one function compose. After the second call the function leads to the second
callback. If the second patch is no longer than the first, the first trampoline goes on
as before. The second trampoline leads to the first callback: always, if the first patch is near
and does not lead into the words that the second one replaces; if both are far, unless the range
test loses the literal because the patch reaches the middle of the address space; and if only the
first is far, unless its load of X17 is followed by a far jump back, which needs X17 itself. -/
theorem hooks_compose {st st1 st2 : HookState} {slot1 slot2 : Slot env.tr}
    (t : TwoHooks env h c1 c2 st st1 st2 slot1 slot2) :
    Transfers st2.m.mem h c2 ∧
    ((isFar h c2 = true → isFar h c1 = true) →
      ResumesAlike st1.m.mem st2.m.mem slot1.rx (Changed h (patchCount h c1) slot2)) ∧
    (isFar h c1 = false → 4*patchCount h c2 ≤ (c1-h).toNat → Transfers st2.m.mem slot2.rx c1) ∧
    (isFar h c1 = true → isFar h c2 = true →
      (h.toNat < 2^63 → h.toNat+4*patchCount h c1 < 2^63) →
      Transfers st2.m.mem slot2.rx c1) ∧
    (isFar h c1 = true → isFar h c2 = false →
      (wordAt h 2 &&& 7 = 0 → ∀ s, fixLoop env.tr (patchCount h c2) (fixStart st1.m
        (env.window h (windowSize h c2)) h (patchCount h c2) slot2.rw slot2.rx) = .ok s →
        isFar s.outprx (wordAt h 1) = false) →
      Transfers st2.m.mem slot2.rx c1) := by
  refine ⟨t.enters,t.resumes,t.chains_near,t.chains_far,?_⟩
  intro hf1 hf2 hresume
  apply t.chains_far_near hf1 hf2
  intro hodd
  exact hresume hodd _ (@loop_represents env.tr slot2 _ t.source st1.m _ le_rfl).1

end Compose

section Views
variable {base h c1 c2 : Addr} {pool i : ℕ}

/-- With a view of its words any function in front of the pool can be hooked twice. -/
theorem exists_twoHooks (hv : ViewPlaced base pool) (hi : i+5 ≤ pool) (hh : wordAt base i = h)
    (ha : h.toNat%4 = 0 ∧ c1.toNat%4 = 0 ∧ c2.toNat%4 = 0) (h0 : h ≠ 0 ∧ c1 ≠ 0 ∧ c2 ≠ 0)
    (m : Mem) : ∃ st1 st2, TwoHooks (viewEnv base pool) h c1 c2 (HookState.initial ⟨m,[]⟩) st1 st2
      (viewSlot hv 0 (by decide)) (viewSlot hv 1 (by decide)) := by
  subst hh
  have hlt : i+5 ≤ 2^28 := by
    have hpool := hv.high
    omega
  have halloc1 : (allocForTrampoline (viewEnv base pool).jit (-1)).2 =
      some ((viewSlot hv 0 (by decide)).rx,(viewSlot hv 0 (by decide)).rw) := rfl
  have halloc2 : (allocForTrampoline (viewEnv base pool).jit 0).2 =
      some ((viewSlot hv 1 (by decide)).rx,(viewSlot hv 1 (by decide)).rw) := rfl
  have hn (c : Addr) : patchCount (wordAt base i) c ≤ 5 := patchCount_le _ _
  have hw1 := @view_window base pool i hlt c1
  have hw2 := @view_window base pool i hlt c2
  have hap (c : Addr) (k : ℕ) (hk : k ≤ hookMax) := view_apart hv hk hi (hn c)
  obtain ⟨_,st1,hook1,-⟩ := hook_changes (HookState.initial ⟨m,[]⟩) (viewSlot hv 0 (by decide)) ha.1
    h0.1 h0.2.1 hw1 halloc1 (hap c1 0 _)
  -- the first call has taken the slot 0, so the second one gets the slot 1
  have hindex : st1.index = 0 := by
    have hcall := (@hook_returns ⟨viewEnv base pool,wordAt base i,c1,true⟩ _ st1 _ hook1).2
    simp only [HookCall.alloc, ne_eq, h0.1, h0.2.1, not_false_eq_true, and_self,
      ↓reduceIte, List.length_singleton] at hcall
    have hfirst : (HookState.initial ⟨m,[]⟩).index = -1 := rfl
    rw [hcall, hfirst]
    decide
  rw [← hindex] at halloc2
  obtain ⟨_,st2,hook2,-⟩ := hook_changes st1 (viewSlot hv 1 (by decide)) ha.1 h0.1 h0.2.2 hw2
    halloc2 (hap c2 1 _)
  exact ⟨st1,st2,ha.1,ha.2.1,ha.2.2,h0.1,h0.2.1,h0.2.2,hw1,hw2,
    fun k hk => view_executed hlt (lt_of_lt_of_le hk (hn c1)),halloc1,halloc2,hap c1 0 _,hap c1 1 _,
    hap c2 1 _,hook1,hook2⟩

/-- Two hooks of `h` after which `P` holds of the memories before and after the second one. -/
def AfterTwoHooks (hv : ViewPlaced base pool) (h c1 c2 : Addr) (m : Mem) (P : Mem → Mem → Prop) :
    Prop :=
  ∃ st1 st2, TwoHooks (viewEnv base pool) h c1 c2 (HookState.initial ⟨m,[]⟩) st1 st2
    (viewSlot hv 0 (by decide)) (viewSlot hv 1 (by decide)) ∧ P st1.m.mem st2.m.mem

theorem nearView_slots : (viewSlot nearView 0 (by decide)).rx = 0x20000 ∧
    (viewSlot nearView 1 (by decide)).rx = 0x200c8 := by decide

/-- A near and a near, a far and a far, and a far and a near hook. -/
theorem hooks_compose_pairs :
    AfterTwoHooks nearView 0x1000 0x2000 0x3000 nopMem (fun m1 m2 =>
      Transfers m2 0x1000 0x3000 ∧ Transfers m2 0x200c8 0x2000 ∧
      ResumesAlike m1 m2 0x20000 (Changed 0x1000 1 (viewSlot nearView 1 (by decide)))) ∧
    AfterTwoHooks nearView 0x1000 0x0e000000 0x0f000000 nopMem (fun m1 m2 =>
      Transfers m2 0x1000 0x0f000000 ∧ Transfers m2 0x200c8 0x0e000000 ∧
      ResumesAlike m1 m2 0x20000 (Changed 0x1000 4 (viewSlot nearView 1 (by decide)))) ∧
    AfterTwoHooks nearView 0x1000 0x0e000000 0x3000 nopMem (fun m1 m2 =>
      Transfers m2 0x1000 0x3000 ∧ Transfers m2 0x200c8 0x0e000000 ∧
      ResumesAlike m1 m2 0x20000 (Changed 0x1000 4 (viewSlot nearView 1 (by decide)))) := by
  obtain ⟨hrx1,hrx2⟩ := nearView_slots
  have hcount1 : patchCount 0x1000 0x2000 = 1 := by decide
  have hcount4 : patchCount 0x1000 0x0e000000 = 4 := by decide
  refine ⟨?_,?_,?_⟩
  · obtain ⟨st1,st2,t⟩ := @exists_twoHooks 0 0x1000 0x2000 0x3000 0x8000 0x400 nearView (by decide)
      (by decide) (by decide) (by decide) nopMem
    obtain ⟨henters,hresumes,hnear,-,-⟩ := hooks_compose t
    rw [hrx1, hcount1] at hresumes
    rw [hrx2] at hnear
    exact ⟨st1,st2,t,henters,hnear (by decide) (by decide),hresumes (by decide)⟩
  · obtain ⟨st1,st2,t⟩ := @exists_twoHooks 0 0x1000 0x0e000000 0x0f000000 0x8000 0x400 nearView
      (by decide) (by decide) (by decide) (by decide) nopMem
    obtain ⟨henters,hresumes,-,hfar,-⟩ := hooks_compose t
    rw [hrx1, hcount4] at hresumes
    rw [hrx2] at hfar
    exact ⟨st1,st2,t,henters,hfar (by decide) (by decide) (by decide),hresumes (by decide)⟩
  · obtain ⟨st1,st2,t⟩ := @exists_twoHooks 0 0x1000 0x0e000000 0x3000 0x8000 0x400 nearView
      (by decide) (by decide) (by decide) (by decide) nopMem
    obtain ⟨henters,hresumes,-,-,hmixed⟩ := hooks_compose t
    rw [hrx1, hcount4] at hresumes
    rw [hrx2] at hmixed
    refine ⟨st1,st2,t,henters,hmixed (by decide) (by decide) ?_,hresumes (by decide)⟩
    -- the whole slot is within branch reach of the function
    intro _ s hs
    have hreach : ∀ l : Fin 46, isFar (wordAt 0x200c8 l) (wordAt 0x1000 1) = false := by decide
    have hrun := (@loop_represents _ _ _ t.source st1.m _ le_rfl).1
    obtain rfl : loopState (viewEnv 0 0x8000).tr (t.source.start st1.m) (patchCount 0x1000 0x3000) =
        s := Except.ok.inj (hrun.symm.trans hs)
    have hcode := @code_eq _ _ _ t.source st1.m _ le_rfl
    have hpos := @pos_le _ _ _ t.source st1.m _ le_rfl
    rw [hrx2] at hcode
    change isFar (t.source.code st1.m (patchCount 0x1000 0x3000)) _ = false
    rw [hcode]
    exact hreach ⟨t.source.pos st1.m _,by omega⟩

/-- A near hook and then a far one: the first trampoline resumes in the second patch. -/
theorem rest_overwritten : AfterTwoHooks nearView 0x1000 0x2000 0x0e000000 nopMem (fun m1 m2 =>
    (∀ c : Cpu, c.mem = m1 → c.pc = 0x20000 → Reaches c { c with pc := 0x1008 }) ∧
      ∀ c : Cpu, c.mem = m2 → c.pc = 0x20000 → Reaches c { c with pc := c.x 17 }) := by
  obtain ⟨hrx1,-⟩ := nearView_slots
  obtain ⟨st1,st2,t⟩ := @exists_twoHooks 0 0x1000 0x2000 0x0e000000 0x8000 0x400 nearView
    (by decide) (by decide) (by decide) (by decide) nopMem
  have hsrc : nopMem.read32 0x1000 = aarch64Nop := nopMem_read (by decide)
  have hnear : isFar (wordAt 0x20000 1) 0x1004 = false := by decide
  have hkept2 := t.kept1 (by rw [hrx1]; decide)
  -- the word after the first patch: a NOP after the first call, a BR X17 after the second
  have hnop : st1.m.mem.read32 0x1004 = aarch64Nop := by
    rw [← @nopMem_read 0x1004 (by decide)]
    apply Mem.read32_congr
    intro i hi
    apply t.leaves1.2.2 <;> interval_cases i <;> decide
  have hbr : st2.m.mem.read32 0x1004 = 0xd61f0220 := t.leaves.2.1 1 0xd61f0220 (by decide)
  refine ⟨st1,st2,t,?_,?_⟩
  · intro c hm hpc
    have hback := t.leaves1.1.nop_resumes hsrc hnear c hm hpc
    exact hback.trans (Reaches.single (@step_nop { c with pc := 0x1004 } (by rw [hm]; exact hnop)))
  · intro c hm hpc
    have hback := hkept2.nop_resumes hsrc hnear c hm hpc
    exact hback.trans (Reaches.single (@step_br17 { c with pc := 0x1004 } (by rw [hm]; exact hbr)))

/-- NOPs, and a branch from the second word of the function to its first. -/
def backMem : Mem := nopMem.write32 0x1004 0x17ffffff

/-- Where the function comes back to its first word it is at the callback of the last hook. -/
theorem patch_entered_again : AfterTwoHooks nearView 0x1000 0x2000 0x3000 backMem (fun m1 m2 =>
    Transfers m1 0x20000 0x2000 ∧ Transfers m2 0x20000 0x3000) := by
  obtain ⟨hrx1,hrx2⟩ := nearView_slots
  obtain ⟨st1,st2,t⟩ := @exists_twoHooks 0 0x1000 0x2000 0x3000 0x8000 0x400 nearView
    (by decide) (by decide) (by decide) (by decide) backMem
  have hsrc : backMem.read32 0x1000 = aarch64Nop := by
    unfold backMem
    rw [Mem.read32_write32_of_sep _ _ (by decide)]
    exact nopMem_read (by decide)
  have hnear : isFar (wordAt 0x20000 1) 0x1004 = false := by decide
  have hkept2 := t.kept1 (by rw [hrx1]; decide)
  have hword : backMem.read32 0x1004 = 0x17ffffff := Mem.read32_write32_self _ _ _
  have hsame := @TwoHooks.untouched _ _ _ _ _ _ _ _ _ t 0x1004 (by decide) (by decide)
  have hsame : st1.m.mem.read32 0x1004 = 0x17ffffff ∧ st2.m.mem.read32 0x1004 = 0x17ffffff :=
    ⟨hsame.1.trans hword,hsame.2.trans hword⟩
  -- from the word behind the patch the function branches back to it
  have hback : ∀ m : Mem, m.read32 0x1004 = 0x17ffffff → Transfers m 0x1004 0x1000 := by
    intro m hm
    apply transfers_branch
    · rw [hm]
      decide
    · decide
  refine ⟨st1,st2,t,?_,?_⟩
  · have hfirst : Transfers st1.m.mem 0x20000 0x1004 := by
      intro c hm hpc
      refine ⟨c.x 17,?_⟩
      rw [Function.update_eq_self]
      exact t.leaves1.1.nop_resumes hsrc hnear c hm hpc
    have hnext := transfers_jumpWords (by decide) (by decide) t.patched
    exact (hfirst.trans (hback _ hsame.1)).trans hnext
  · have hfirst : Transfers st2.m.mem 0x20000 0x1004 := by
      intro c hm hpc
      refine ⟨c.x 17,?_⟩
      rw [Function.update_eq_self]
      exact hkept2.nop_resumes hsrc hnear c hm hpc
    exact (hfirst.trans (hback _ hsame.2)).trans t.enters

/-- A function hooked with itself: the second trampoline branches to itself. -/
theorem trampoline_spins : AfterTwoHooks nearView 0x1000 0x1000 0x3000 nopMem (fun _ m2 =>
    ¬Transfers m2 0x200c8 0x1000) := by
  obtain ⟨-,hrx2⟩ := nearView_slots
  obtain ⟨st1,st2,t⟩ := @exists_twoHooks 0 0x1000 0x1000 0x3000 0x8000 0x400 nearView
    (by decide) (by decide) (by decide) (by decide) nopMem
  refine ⟨st1,st2,t,?_⟩
  intro h
  let c : Cpu := ⟨fun _ => 0,fun _ => 0,0,0x200c8,⟨false,false,false,false⟩,st2.m.mem⟩
  obtain ⟨v,hv⟩ := h c rfl rfl
  have hspin := t.spins (by decide) c rfl hrx2.symm
  have hpc : (0x1000:Addr) = 0x200c8 := congrArg Cpu.pc (hv.of_end (Or.inr hspin))
  exact absurd hpc (by decide)

theorem middleView : ViewPlaced 0x7fffffffffff0000 0x10000 := by decide

/-- Two far hooks of a function that ends the lower half of the address space: the second
trampoline loads the callback of the second one. -/
theorem literal_reloaded : AfterTwoHooks middleView 0x7ffffffffffffff8 0x100000 0x200000 (fun _ => 0)
    (fun _ m2 => Transfers m2 0x80000000000300c8 0x200000 ∧
      ¬Transfers m2 0x80000000000300c8 0x100000) := by
  have hrx1 : (viewSlot middleView 0 (by decide)).rx = 0x8000000000030000 := by decide
  have hrx2 : (viewSlot middleView 1 (by decide)).rx = 0x80000000000300c8 := by decide
  obtain ⟨st1,st2,t⟩ := @exists_twoHooks 0x7fffffffffff0000 0x7ffffffffffffff8 0x100000 0x200000
    0x10000 0x3ffe middleView (by decide) (by decide) (by decide) (by decide) (fun _ => 0)
  have hload := t.reloads (by decide) (by decide) (by decide) (by rfl) (by rw [hrx2]; decide)
  rw [hrx2] at hload
  refine ⟨st1,st2,t,hload,?_⟩
  -- neither callback is code, so a core stops at the one it comes to
  have hzero1 : st2.m.mem.read32 0x100000 = 0 :=
    (@TwoHooks.untouched _ _ _ _ _ _ _ _ _ t 0x100000 (by decide) (by decide)).2
  have hzero2 : st2.m.mem.read32 0x200000 = 0 :=
    (@TwoHooks.untouched _ _ _ _ _ _ _ _ _ t 0x200000 (by decide) (by decide)).2
  let c : Cpu := ⟨fun _ => 0,fun _ => 0,0,0x80000000000300c8,⟨false,false,false,false⟩,st2.m.mem⟩
  obtain ⟨v,hv⟩ := hload c rfl rfl
  have hne : (0x200000:Addr) ≠ 0x100000 := by decide
  refine not_transfers (@rfl _ c.mem) (@rfl _ c.pc) hv (Or.inl (step_zero hzero2)) hne ?_
  intro e he hpc
  apply step_zero
  rw [he, hpc]
  exact hzero1

theorem farView : ViewPlaced 0 0x8000000 := by decide

/-- A far and a near hook out of branch reach of the pool: the jump back of the second trampoline
takes X17 for itself, and the function goes round at its second word. -/
theorem register_lost : AfterTwoHooks farView 0x1000 0x0e000000 0x3000 (fun _ => 0) (fun _ m2 =>
    ¬Transfers m2 0x200000c8 0x0e000000) := by
  have hrx2 : (viewSlot farView 1 (by decide)).rx = 0x200000c8 := by decide
  obtain ⟨st1,st2,t⟩ := @exists_twoHooks 0 0x1000 0x0e000000 0x3000 0x8000000 0x400 farView
    (by decide) (by decide) (by decide) (by decide) (fun _ => 0)
  refine ⟨st1,st2,t,?_⟩
  have hreach : ∀ l : Fin 46, isFar (wordAt 0x200000c8 l) (wordAt 0x1000 1) = true := by decide
  have hfar : isFar (t.source.code st1.m 1) (wordAt 0x1000 1) = true := by
    have hpos := @pos_le _ _ _ t.source st1.m 1 patchCount_pos
    rw [code_eq t.source st1.m patchCount_pos, hrx2]
    exact hreach ⟨t.source.pos st1.m 1,by omega⟩
  have hzero : st2.m.mem.read32 0x0e000000 = 0 :=
    (@TwoHooks.untouched _ _ _ _ _ _ _ _ _ t 0x0e000000 (by decide) (by decide)).2
  let c : Cpu := ⟨fun _ => 0,fun _ => 0,0,0x200000c8,⟨false,false,false,false⟩,st2.m.mem⟩
  obtain ⟨d,hreaches,hpc,hloop⟩ := t.loops (by decide) (by decide) (by decide) hfar c rfl hrx2.symm
  have hne : d.pc ≠ 0x0e000000 := by
    rw [hpc]
    decide
  refine not_transfers (@rfl _ c.mem) (@rfl _ c.pc) hreaches (Or.inr hloop) hne ?_
  intro e he hpc
  apply step_zero
  rw [he, hpc]
  exact hzero

/-- Each condition of `hooks_compose` is needed, by the conclusion that it stands before. -/
theorem hooks_do_not_compose :
    AfterTwoHooks nearView 0x1000 0x2000 0x0e000000 nopMem (fun m1 m2 =>
      (∀ c : Cpu, c.mem = m1 → c.pc = 0x20000 → Reaches c { c with pc := 0x1008 }) ∧
        ∀ c : Cpu, c.mem = m2 → c.pc = 0x20000 → Reaches c { c with pc := c.x 17 }) ∧
    AfterTwoHooks nearView 0x1000 0x2000 0x3000 backMem (fun m1 m2 =>
      Transfers m1 0x20000 0x2000 ∧ Transfers m2 0x20000 0x3000) ∧
    AfterTwoHooks nearView 0x1000 0x1000 0x3000 nopMem (fun _ m2 =>
      ¬Transfers m2 0x200c8 0x1000) ∧
    AfterTwoHooks middleView 0x7ffffffffffffff8 0x100000 0x200000 (fun _ => 0) (fun _ m2 =>
      Transfers m2 0x80000000000300c8 0x200000 ∧ ¬Transfers m2 0x80000000000300c8 0x100000) ∧
    AfterTwoHooks farView 0x1000 0x0e000000 0x3000 (fun _ => 0) (fun _ m2 =>
      ¬Transfers m2 0x200000c8 0x0e000000) :=
  ⟨rest_overwritten,patch_entered_again,trampoline_spins,literal_reloaded,register_lost⟩

end Views

end Zeldar
