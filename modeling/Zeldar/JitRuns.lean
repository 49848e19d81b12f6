import Zeldar.HookKeeps
import Zeldar.JitFlush
import Zeldar.Runs

/-! Whole runs of `Hook` and `HookInline` over one pair of pools. Every call
owns its patch, its slot and its entry. When the patches lie apart from each
other and from the pools, and the pool of trampolines has room, no call
disturbs another one. -/
namespace Zeldar
open A64

section Calls
variable {pools : JitPools}

namespace JitCall
variable (call : JitCall pools) (st : InlineState)

/-- Where the patch of the target leads: to the callback, or to the entry of an inline hook. -/
def jump : Addr :=
  match call.entry with
  | .hook _ => call.callback
  | .hookInline => entryAt pools.inline.claim.ro st.entryIndex

/-- The call asks for a trampoline. -/
def traps : Bool :=
  match call.entry with
  | .hook doTrampoline => doTrampoline
  | .hookInline => true

def patch : ℕ := patchCount call.symbol (call.jump st)

/-- The slot that a call gets which asks for one. -/
def slotAt : Addr := wordAt pools.hook.claim.ro (trampolineSize*(st.hook.index+1).toNat)

/-- The bytes that the call may change. -/
def owned : Set Addr := { x | (x-call.symbol).toNat < 4*call.patch st ∨
  call.traps = true ∧ (x-@JitCall.slotAt pools st).toNat < 4*trampolineSize ∨
  call.entry = .hookInline ∧
    (x-entryAt pools.inline.claim.ro st.entryIndex).toNat < entrySize }

/-- The views that the call writes through are those of the words it means to write. -/
structure Mapped : Prop where
  aligned : call.symbol.toNat%4 = 0
  window : ∀ c, call.env.hook.Aliases call.symbol c
  hook : ∀ l < 1024, call.env.hook.tr (wordAt pools.hook.claim.rw l) =
    wordAt pools.hook.claim.ro l
  executed : ∀ l < 1024, call.env.hook.tr (wordAt pools.hook.claim.ro l) =
    wordAt pools.hook.claim.ro l
  inline : ∀ l < 1024, call.env.hook.tr (wordAt pools.inline.claim.rw l) =
    wordAt pools.inline.claim.ro l

/-- The patch is in neither pool. -/
structure OffPools : Prop where
  hook : Sep call.symbol (4*call.patch st) pools.hook.claim.ro jitSize
  inline : Sep call.symbol (4*call.patch st) pools.inline.claim.ro jitSize

end JitCall

/-- What a call set up is in the memory `m`: the patch, the slot as `__fix_instructions` filled it
from the words before the call, and the entry. -/
structure SetUp (call : JitCall pools) (st : InlineState) (m : Mem) : Prop where
  patch : WordsAt m call.symbol (jumpWords (call.jump st) call.symbol)
  slot : call.traps = true → ∃ (slot : Slot call.env.hook.tr)
    (src : Source call.env.hook.tr (call.patch st) slot),
    src.rx = call.symbol ∧ slot.rx = @JitCall.slotAt pools st ∧ Keeps src st.hook.m m
  entry : call.entry = .hookInline → ∃ trampoline,
    trampoline = @JitCall.slotAt pools st ∧
    WordsAt m (entryAt pools.inline.claim.ro st.entryIndex)
      (entryWords call.env.impl (entryAt pools.inline.claim.ro st.entryIndex) trampoline
        call.callback)

end Calls

/-- The slot of the `k`-th request, in a pool that is seen through both views. -/
def JitPool.slot (pool : JitPool) {tr : Addr → Addr}
    (hrw : ∀ l < 1024, tr (wordAt pool.claim.rw l) = wordAt pool.claim.ro l)
    (hro : ∀ l < 1024, tr (wordAt pool.claim.ro l) = wordAt pool.claim.ro l) {k : ℕ}
    (hk : k < hookMax) : Slot tr where
  rw := wordAt pool.claim.rw (trampolineSize*k)
  rx := wordAt pool.claim.ro (trampolineSize*k)
  aligned := by
    apply wordAt_aligned
    have h := pool.ro_aligned
    omega
  aliased l hl := by
    have hword := slot_word_lt hk.le hl.le
    rw [wordAt_add, wordAt_add]
    have hs : trampolineSize = 50 := rfl
    have hm : hookMax = 20 := rfl
    exact hrw _ (by rw [hs] at hl ⊢; omega)
  executed l hl := by
    rw [wordAt_add]
    have hs : trampolineSize = 50 := rfl
    have hm : hookMax = 20 := rfl
    exact hro _ (by rw [hs] at hl ⊢; omega)
  nonnull l hl := by
    rw [wordAt_add]
    have hs : trampolineSize = 50 := rfl
    have hm : hookMax = 20 := rfl
    exact JitPool.page_ne pool.rw_aligned pool.rw_ne (by rw [hs] at hl ⊢; omega)
  placed := by
    have hs : trampolineSize = 50 := rfl
    have hm : hookMax = 20 := rfl
    exact JitPool.page_ne pool.ro_aligned pool.ro_ne (by rw [hs]; omega)

/-- Apart from a range is apart from each part of it. -/
theorem Sep.part {a b : Addr} {n k d l : ℕ} (h : Sep a n b k) (hd : d+l ≤ k)
    (hl : 0 < l) : Sep a n (b+BitVec.ofNat 64 d) l := by
  obtain ⟨h1,h2⟩ := h
  have ha : a-(b+BitVec.ofNat 64 d) = a-b-BitVec.ofNat 64 d := by ring
  have hb : b+BitVec.ofNat 64 d-a = BitVec.ofNat 64 d-(a-b) := by ring
  have hc : b-a = 0-(a-b) := by ring
  rw [hc] at h2
  rw [Sep, ha, hb]
  generalize a-b = x at h1 h2 ⊢
  have hx := x.isLt
  have hd64 : d%2^64 = d := Nat.mod_eq_of_lt (by omega)
  rw [BitVec.toNat_sub] at h2 ⊢
  rw [BitVec.toNat_sub, BitVec.toNat_ofNat, hd64]
  have hzero : (0:Addr).toNat = 0 := rfl
  rw [hzero] at h2
  constructor <;> omega

section Step
variable {pools : JitPools} {call : JitCall pools} {st st' : InlineState} {k : ℕ}

theorem slotAt_kth (hk : st.hook.index = kthIndex k) (hroom : k < hookMax) :
    @JitCall.slotAt pools st = wordAt pools.hook.claim.ro (trampolineSize*k) := by
  have hm : hookMax = 20 := rfl
  have hi : (kthIndex k+1).toNat = k := by
    unfold kthIndex
    bv_omega
  rw [JitCall.slotAt, hk, hi]

theorem kthIndex_of_alloc (hk : st.hook.index = kthIndex k) {symbol c r : Addr}
    {doTrampoline : Bool}
    {h' : HookState} (h : hook call.env.hook st.hook symbol c doTrampoline = .ok (r,h')) :
    h'.index = kthIndex (if doTrampoline then k+1 else k) := by
  obtain ⟨hs,hc,-⟩ := hook_ok h
  have hindex := (@hook_returns ⟨call.env.hook,symbol,c,doTrampoline⟩ st.hook h' r h).2
  rw [hindex, hk]
  unfold HookCall.alloc
  cases doTrampoline with
  | false => simp
  | true =>
    simp only [ne_eq, hs, hc, not_false_eq_true, and_self, ↓reduceIte, List.length_singleton]
    exact kthIndex_succ k

/-- What a call to `Hook` does to memory. -/
theorem hook_sets (hmap : call.Mapped) (hk : st.hook.index = kthIndex k) {c r : Addr}
    {doTrampoline : Bool} (hroom : doTrampoline = true → k < hookMax)
    (hap : Sep call.symbol (4*patchCount call.symbol c) pools.hook.claim.ro jitSize)
    {h' : HookState} (h : hook call.env.hook st.hook call.symbol c doTrampoline = .ok (r,h')) :
    WordsAt h'.m.mem call.symbol (jumpWords c call.symbol) ∧
      (doTrampoline = true → r = @JitCall.slotAt pools st ∧
        ∃ (slot : Slot call.env.hook.tr)
          (src : Source call.env.hook.tr (patchCount call.symbol c) slot),
          src.rx = call.symbol ∧ slot.rx = @JitCall.slotAt pools st ∧
            Keeps src st.hook.m h'.m.mem) ∧
      ∀ x, 4*patchCount call.symbol c ≤ (x-call.symbol).toNat →
        (doTrampoline = true →
          4*trampolineSize ≤ (x-@JitCall.slotAt pools st).toNat) →
        h'.m.mem x = st.hook.m.mem x := by
  obtain ⟨hs,hc,-⟩ := hook_ok h
  have hlen := jumpWords_length_eq call.symbol c
  cases doTrampoline with
  | false =>
    -- without a trampoline only the patch is written
    rw [hook_without st.hook hs hc, Except.ok.injEq, Prod.mk.injEq] at h
    have hmem := @installed_mem call.env.hook st.hook.m call.symbol c (hmap.window c)
    have he : h'.m.mem = overlay st.hook.m.mem call.symbol (jumpWords c call.symbol) := by
      rw [← h.2]
      exact hmem
    rw [he]
    refine ⟨wordsAt_overlay _ ?_,fun hd => absurd hd (by decide),fun x hx _ => ?_⟩
    · have hle := patchCount_le call.symbol c
      unfold maxInstructions at hle
      omega
    · exact overlay_apply_of_le _ _ _ _ (by rw [hlen]; exact hx)
  | true =>
    have hkmax := hroom rfl
    have hm : hookMax = 20 := rfl
    have hts : trampolineSize = 50 := rfl
    have hat := @slotAt_kth pools st k hk hkmax
    rw [hat]
    -- the slot is the `k`-th of its pool, which the patch is apart from
    generalize hslot : pools.hook.slot hmap.hook hmap.executed hkmax = slot
    have hrx : wordAt pools.hook.claim.ro (trampolineSize*k) = slot.rx := by rw [← hslot]; rfl
    have halloc : (allocForTrampoline call.env.hook.jit st.hook.index).2 =
        some (slot.rx,slot.rw) := by
      rw [call.hookJit, hk, allocForTrampoline_kth _ (by omega), kthAlloc, if_neg (by omega),
        ← hslot]
      rfl
    have hap' : Sep call.symbol (4*patchCount call.symbol c) slot.rx (4*trampolineSize) := by
      have hj : jitSize = 4096 := rfl
      rw [← hrx]
      exact hap.part (by rw [hts, hj]; omega) (by rw [hts]; omega)
    obtain ⟨m1,st1,hhook,-⟩ := hook_changes st.hook slot hmap.aligned hs hc (hmap.window c) halloc
      hap'
    rw [h, Except.ok.injEq, Prod.mk.injEq] at hhook
    rw [hhook.1] at h
    obtain ⟨hkeeps,hpatch,hframe⟩ :=
      hook_leaves slot hmap.aligned hs hc (hmap.window c) halloc hap' h
    rw [hrx]
    refine ⟨hpatch,fun _ => ⟨hhook.1,slot,_,rfl,rfl,hkeeps⟩,fun x hx hslotx => ?_⟩
    exact hframe x hx (not_lt.mpr (hslotx rfl))

theorem entryAt_word (a : Addr) (index : BitVec 64) :
    entryAt a index = wordAt a (6*index.toNat) := by
  have hsize : entrySize = 24 := rfl
  rw [entryAt_eq, hsize, wordAt]
  congr 2
  omega

/-- What a call to `HookInline` does beyond its call to `Hook`. -/
theorem inline_sets (hmap : call.Mapped) (hentry : call.entry = .hookInline)
    (h : call.exec st = .ok st') :
    st.entryIndex.toNat < inlinePoolCount ∧ ∃ r h',
      hook call.env.hook st.hook call.symbol (entryAt pools.inline.claim.ro st.entryIndex) true =
        .ok (r,h') ∧ st'.hook.index = h'.index ∧ st'.entryIndex = st.entryIndex+1 ∧
      st'.hook.m.mem = overlay h'.m.mem (entryAt pools.inline.claim.ro st.entryIndex)
        (entryWords call.env.impl (entryAt pools.inline.claim.ro st.entryIndex) r
          call.callback) := by
  unfold JitCall.exec at h
  rw [hentry] at h
  have hlt := (hookInline_log h).1
  have hcount : inlinePoolCount = 170 := rfl
  have halias : call.env.Aliases st.entryIndex := by
    intro l hl
    rw [call.inlineJit, entryAt_word, entryAt_word, wordAt_add, wordAt_add]
    exact hmap.inline _ (by omega)
  obtain ⟨r,h',hhook,hmem⟩ := hookInline_ok halias h
  rw [call.inlineJit] at hhook hmem
  refine ⟨hlt,r,h',hhook,?_,?_,hmem⟩ <;>
    · unfold hookInline at h
      rw [call.inlineJit, if_neg (not_le.mpr hlt)] at h
      simp only [hhook, Except.ok.injEq] at h
      rw [← h]

/-- What a call that returns does to the state, `k` trampolines having been given out. -/
structure ExecSets (call : JitCall pools) (st st' : InlineState) (k : ℕ) : Prop where
  sets : SetUp call st st'.hook.m.mem
  frame : ∀ x, x ∉ call.owned st → st'.hook.m.mem x = st.hook.m.mem x
  index : st'.hook.index = kthIndex (if call.traps then k+1 else k)
  entries : call.entry = .hookInline → st.entryIndex.toNat < inlinePoolCount
  entry : st'.entryIndex = if call.entry = .hookInline then st.entryIndex+1 else st.entryIndex

theorem exec_sets_hook {doTrampoline : Bool} (hentry : call.entry = .hook doTrampoline)
    (hmap : call.Mapped) (hk : st.hook.index = kthIndex k)
    (hroom : call.traps = true → k < hookMax) (hoff : call.OffPools st)
    (h : call.exec st = .ok st') : ExecSets call st st' k := by
  have hjump : call.jump st = call.callback := by rw [JitCall.jump, hentry]
  have htraps : call.traps = doTrampoline := by rw [JitCall.traps, hentry]
  obtain ⟨r,h',hhook,hst⟩ := exec_hook hentry h
  have hap := hoff.hook
  rw [JitCall.patch, hjump] at hap
  rw [htraps] at hroom
  obtain ⟨hpatch,hslot,hframe⟩ := hook_sets hmap hk hroom hap hhook
  have hindex := kthIndex_of_alloc hk hhook
  have hei : st'.entryIndex = st.entryIndex := by
    unfold JitCall.exec at h
    rw [hentry] at h
    simp only [hhook, Except.ok.injEq] at h
    rw [← h]
  subst hst
  have hother : call.entry ≠ .hookInline := by
    rw [hentry]
    nofun
  refine ⟨⟨?_,?_,fun he => absurd he hother⟩,?_,?_,fun he => absurd he hother,?_⟩
  · rw [hjump]
    exact hpatch
  · rw [htraps, JitCall.patch, hjump]
    exact fun hd => (hslot hd).2
  · intro x hx
    simp only [JitCall.owned, JitCall.patch, hjump, htraps, hentry, reduceCtorEq, false_and,
      or_false, Set.mem_ofPred_eq, not_or, not_lt, not_and] at hx
    exact hframe x hx.1 hx.2
  · rw [htraps]
    exact hindex
  · rw [if_neg hother, hei]

/-- The words of an entry of the pool are apart from what is apart from the pool. -/
theorem entry_apart (hlt : st.entryIndex.toNat < inlinePoolCount) {a : Addr} {l : ℕ}
    (hs : Sep a l pools.inline.claim.ro jitSize) :
    Sep (entryAt pools.inline.claim.ro st.entryIndex) entrySize a l := by
  have hcount : inlinePoolCount = 170 := rfl
  have hsize : entrySize = 24 := rfl
  have hj : jitSize = 4096 := rfl
  rw [entryAt_eq]
  exact (hs.part (by rw [hsize, hj]; omega) (by rw [hsize]; omega)).symm

theorem exec_sets_inline (hentry : call.entry = .hookInline) (hmap : call.Mapped)
    (hk : st.hook.index = kthIndex k) (hroom : call.traps = true → k < hookMax)
    (hoff : call.OffPools st)
    (hpools : Sep pools.hook.claim.ro jitSize pools.inline.claim.ro jitSize)
    (h : call.exec st = .ok st') : ExecSets call st st' k := by
  have hjump : call.jump st = entryAt pools.inline.claim.ro st.entryIndex := by
    rw [JitCall.jump, hentry]
  have htraps : call.traps = true := by rw [JitCall.traps, hentry]
  obtain ⟨hlt,r,h',hhook,hindex',hei,hmem⟩ := inline_sets hmap hentry h
  have hap := hoff.hook
  have hapi := hoff.inline
  rw [JitCall.patch, hjump] at hap hapi
  have hkroom := hroom htraps
  obtain ⟨hpatch,hslot,hframe⟩ := hook_sets hmap hk (fun _ => hkroom) hap hhook
  obtain ⟨hr,slot,src,hsrc,hrx,mach',hrun,hkept⟩ := hslot rfl
  have hindex := kthIndex_of_alloc hk hhook
  -- the entry is apart from the patch and from the slot
  have hoffPatch := entry_apart hlt hapi
  have hoffSlot : Sep (entryAt pools.inline.claim.ro st.entryIndex) entrySize slot.rx
      (4*trampolineSize) := by
    have hm : hookMax = 20 := rfl
    have hts : trampolineSize = 50 := rfl
    have hj : jitSize = 4096 := rfl
    rw [hrx, slotAt_kth hk hkroom]
    exact (entry_apart hlt hpools).part (by rw [hts, hj]; omega) (by rw [hts]; omega)
  have hsame {x : Addr}
      (hx : entrySize ≤ (x-entryAt pools.inline.claim.ro st.entryIndex).toNat) :
      st'.hook.m.mem x = h'.m.mem x := by
    rw [hmem]
    exact overlay_apply_of_le _ _ _ _ (by rw [entryWords_length]; exact hx)
  refine ⟨⟨?_,?_,?_⟩,?_,?_,fun _ => hlt,?_⟩
  · rw [hjump]
    have hlen := jumpWords_length_eq call.symbol
      (entryAt pools.inline.claim.ro st.entryIndex)
    have hle := patchCount_le call.symbol (entryAt pools.inline.claim.ro st.entryIndex)
    unfold maxInstructions at hle
    apply hpatch.congr (by omega)
    intro x hx
    rw [hlen] at hx
    exact hsame (hoffPatch.offset hx)
  · intro _
    rw [JitCall.patch, hjump]
    refine ⟨slot,src,hsrc,hrx,mach',hrun,fun x hx => ?_⟩
    exact (hsame (hoffSlot.offset hx)).trans (hkept x hx)
  · refine fun _ => ⟨r,hr,?_⟩
    rw [hmem]
    exact wordsAt_overlay _ (by rw [entryWords_length]; decide)
  · intro x hx
    simp only [JitCall.owned, JitCall.patch, hjump, htraps, hentry, true_and,
      Set.mem_ofPred_eq, not_or, not_lt] at hx
    rw [hsame hx.2.2]
    exact hframe x hx.1 fun _ => hx.2.1
  · rw [hindex', hindex, htraps]
  · rw [if_pos hentry, hei]

theorem exec_sets (hmap : call.Mapped) (hk : st.hook.index = kthIndex k)
    (hroom : call.traps = true → k < hookMax) (hoff : call.OffPools st)
    (hpools : Sep pools.hook.claim.ro jitSize pools.inline.claim.ro jitSize)
    (h : call.exec st = .ok st') : ExecSets call st st' k := by
  cases hentry : call.entry with
  | hook doTrampoline => exact exec_sets_hook hentry hmap hk hroom hoff h
  | hookInline => exact exec_sets_inline hentry hmap hk hroom hoff hpools h

end Step

section Homes
variable {pools : JitPools}

/-- Which slot is given next. -/
def slotNo (st : InlineState) : ℕ := (st.hook.index+1).toNat

theorem slotNo_kth {st : InlineState} {k : ℕ} (hk : st.hook.index = kthIndex k)
    (hle : k ≤ hookMax) : slotNo st = k := by
  have hm : hookMax = 20 := rfl
  rw [slotNo, hk]
  unfold kthIndex
  bv_omega

/-- A byte of the `n`-th part of a page tells `n`. -/
theorem part_number {a x : Addr} {size n : ℕ} (hn : size*n+size ≤ jitSize)
    (hx : (x-(a+BitVec.ofNat 64 (size*n))).toNat < size) :
    (x-a).toNat < jitSize ∧ (x-a).toNat/size = n := by
  have hj : jitSize = 4096 := rfl
  have hsub : x-(a+BitVec.ofNat 64 (size*n)) = x-a-BitVec.ofNat 64 (size*n) := by ring
  rw [hsub] at hx
  have hlt := (x-a).isLt
  have hd64 : size*n%2^64 = size*n := Nat.mod_eq_of_lt (by omega)
  rw [BitVec.toNat_sub, BitVec.toNat_ofNat, hd64] at hx
  have hxa : size*n ≤ (x-a).toNat ∧ (x-a).toNat < size*n+size := by omega
  refine ⟨by omega,?_⟩
  apply Nat.div_eq_of_lt_le
  · rw [mul_comm]
    exact hxa.1
  · rw [Nat.succ_mul, mul_comm n size]
    exact hxa.2

theorem slot_home {st : InlineState} {x : Addr} (hlt : slotNo st < hookMax)
    (hx : (x-@JitCall.slotAt pools st).toNat < 4*trampolineSize) :
    (x-pools.hook.claim.ro).toNat < jitSize ∧
      (x-pools.hook.claim.ro).toNat/(4*trampolineSize) = slotNo st := by
  have hm : hookMax = 20 := rfl
  have hts : trampolineSize = 50 := rfl
  have hj : jitSize = 4096 := rfl
  rw [JitCall.slotAt, wordAt, ← mul_assoc] at hx
  exact part_number (by rw [hts]; omega) hx

theorem entry_home {st : InlineState} {x : Addr} (hlt : st.entryIndex.toNat < inlinePoolCount)
    (hx : (x-entryAt pools.inline.claim.ro st.entryIndex).toNat < entrySize) :
    (x-pools.inline.claim.ro).toNat < jitSize ∧
      (x-pools.inline.claim.ro).toNat/entrySize = st.entryIndex.toNat := by
  have hcount : inlinePoolCount = 170 := rfl
  have hsize : entrySize = 24 := rfl
  have hj : jitSize = 4096 := rfl
  rw [entryAt_eq] at hx
  exact part_number (by rw [hsize]; omega) hx

end Homes

section Run
variable {pools : JitPools} {st st' : InlineState}
  {steps : List (RunStep InlineState (JitCall pools))}

abbrev JitTrace (pools : JitPools) (st : InlineState)
    (steps : List (RunStep InlineState (JitCall pools))) (st' : InlineState) : Prop :=
  Trace (fun st (call : JitCall pools) => call.exec st) st steps st'

/-- Calls that all return leave a trace. -/
theorem jitRun_trace {calls : List (JitCall pools)} (h : jitRun calls st = .ok st') :
    ∃ steps, steps.map RunStep.label = calls ∧ JitTrace pools st steps st' :=
  trace_of_foldlM h

/-- How many calls ask for a trampoline. -/
def requests (calls : List (JitCall pools)) : ℕ := calls.countP JitCall.traps

/-- The addresses are mapped and apart as the calls of a run need it. -/
structure RunApart (steps : List (RunStep InlineState (JitCall pools))) : Prop where
  pools : Sep pools.hook.claim.ro jitSize pools.inline.claim.ro jitSize
  mapped : ∀ x ∈ steps, x.label.Mapped
  off : ∀ x ∈ steps, x.label.OffPools x.before
  patches : steps.Pairwise fun x y => Sep x.label.symbol (4*x.label.patch x.before)
    y.label.symbol (4*y.label.patch y.before)

/-- What one step of a run within the pool does. -/
structure StepSets (x : RunStep InlineState (JitCall pools)) : Prop where
  room : x.label.traps = true → slotNo x.before < hookMax
  entries : x.label.entry = .hookInline → x.before.entryIndex.toNat < inlinePoolCount
  sets : SetUp x.label x.before x.after.hook.m.mem
  frame : ∀ a, a ∉ x.label.owned x.before → x.after.hook.m.mem a = x.before.hook.m.mem a
  slotNo : slotNo x.after = if x.label.traps then slotNo x.before+1 else slotNo x.before
  entry : x.after.entryIndex =
    if x.label.entry = .hookInline then x.before.entryIndex+1 else x.before.entryIndex

theorem JitTrace.stepSets (h : JitTrace pools st steps st') (hap : RunApart steps) {k : ℕ}
    (hk : st.hook.index = kthIndex k) (hroom : k+requests (steps.map RunStep.label) ≤ hookMax) :
    ∀ x ∈ steps, StepSets x := by
  obtain ⟨hpools,hmap,hoff,-⟩ := hap
  induction h generalizing k with
  | nil s => exact fun x hx => absurd hx List.not_mem_nil
  | @cons s s' t a rest hs _ ih =>
    have hcount : requests ((⟨s,a,s'⟩ :: rest).map RunStep.label) =
        requests (rest.map RunStep.label)+if a.traps = true then 1 else 0 := by
      rw [requests, List.map_cons, List.countP_cons]
      rfl
    rw [hcount] at hroom
    -- the requests are counted from the front: this call finds room, and so do the later ones
    have hkroom : a.traps = true → k < hookMax := by
      intro ha
      rw [if_pos ha] at hroom
      omega
    have hnext : (if a.traps = true then k+1 else k)+requests (rest.map RunStep.label) ≤
        hookMax := by
      split at hroom
      case isTrue ha => rw [if_pos ha]; omega
      case isFalse ha => rw [if_neg ha]; omega
    obtain ⟨hsets,hframe,hindex,hentries,hentry⟩ := exec_sets (hmap _ List.mem_cons_self) hk
      hkroom (hoff _ List.mem_cons_self) hpools hs
    have hno := slotNo_kth hk (by omega)
    intro x hx
    rcases List.mem_cons.mp hx with rfl | hx
    · refine ⟨fun ha => hno ▸ hkroom ha,hentries,hsets,hframe,?_,hentry⟩
      rw [slotNo_kth hindex ((Nat.le_add_right _ _).trans hnext), hno]
    · exact ih hindex hnext (fun y hy => hmap y (List.mem_cons_of_mem _ hy))
        (fun y hy => hoff y (List.mem_cons_of_mem _ hy)) x hx

/-- A later step has later numbers. -/
def Numbered (x : RunStep InlineState (JitCall pools)) (s : InlineState) : Prop :=
  (x.label.traps = true → slotNo x.before < slotNo s) ∧
    (x.label.entry = .hookInline → x.before.entryIndex.toNat < s.entryIndex.toNat)

theorem JitTrace.numbered (h : JitTrace pools st steps st') (hsteps : ∀ x ∈ steps, StepSets x) :
    steps.Pairwise fun x y => Numbered x y.before := by
  have hentries {x : RunStep InlineState (JitCall pools)} (hx : StepSets x) :
      x.before.entryIndex.toNat ≤ x.after.entryIndex.toNat ∧
        (x.label.entry = .hookInline →
          x.before.entryIndex.toNat < x.after.entryIndex.toNat) := by
    have hcount : inlinePoolCount = 170 := rfl
    have hroom := hx.entries
    rw [hx.entry]
    split
    case isTrue he =>
      have hlt := hroom he
      bv_omega
    case isFalse he => exact ⟨le_rfl,fun h => absurd h he⟩
  apply h.pairwise (P := Numbered)
  · intro x hx _
    have hsets := hsteps x hx
    refine ⟨fun ht => ?_,(hentries hsets).2⟩
    rw [hsets.slotNo, if_pos ht]
    exact Nat.lt_succ_self _
  · intro x _ y hy hxy _
    have hsets := hsteps y hy
    refine ⟨fun ht => (hxy.1 ht).trans_le ?_,fun he => (hxy.2 he).trans_le (hentries hsets).1⟩
    rw [hsets.slotNo]
    split <;> omega
  · exact fun x _ y _ hxy => hxy

theorem Sep.not_both {a b x : Addr} {n k : ℕ} (h : Sep a n b k) (ha : (x-a).toNat < n)
    (hb : (x-b).toNat < k) : False :=
  absurd (h.offset hb) (not_le.mpr ha)

theorem owned_disjoint {x y : RunStep InlineState (JitCall pools)}
    (hpools : Sep pools.hook.claim.ro jitSize pools.inline.claim.ro jitSize) (hx : StepSets x)
    (hy : StepSets y) (hoffx : x.label.OffPools x.before) (hoffy : y.label.OffPools y.before)
    (hpatch : Sep x.label.symbol (4*x.label.patch x.before) y.label.symbol
      (4*y.label.patch y.before)) (hnum : Numbered x y.before) :
    Disjoint (x.label.owned x.before) (y.label.owned y.before) := by
  apply Set.disjoint_left.mpr
  rintro a (hax | ⟨htx,hax⟩ | ⟨hex,hax⟩) (hay | ⟨hty,hay⟩ | ⟨hey,hay⟩)
  · exact hpatch.not_both hax hay
  · exact hoffx.hook.not_both hax (slot_home (hy.room hty) hay).1
  · exact hoffx.inline.not_both hax (entry_home (hy.entries hey) hay).1
  · exact hoffy.hook.not_both hay (slot_home (hx.room htx) hax).1
  · -- two slots of one pool have different numbers
    have hnx := (slot_home (hx.room htx) hax).2
    have hny := (slot_home (hy.room hty) hay).2
    exact absurd (hnx.symm.trans hny) (hnum.1 htx).ne
  · exact hpools.not_both (slot_home (hx.room htx) hax).1 (entry_home (hy.entries hey) hay).1
  · exact hoffy.inline.not_both hay (entry_home (hx.entries hex) hax).1
  · exact hpools.not_both (slot_home (hy.room hty) hay).1 (entry_home (hx.entries hex) hax).1
  · have hnx := (entry_home (hx.entries hex) hax).2
    have hny := (entry_home (hy.entries hey) hay).2
    exact absurd (hnx.symm.trans hny) (hnum.2 hex).ne

/-- What was set up stays set up while the owned bytes stay. -/
theorem SetUp.congr {call : JitCall pools} {s : InlineState} {m m' : Mem}
    (hm : ∀ a ∈ call.owned s, m' a = m a) (h : SetUp call s m) : SetUp call s m' := by
  have hlen := jumpWords_length_eq call.symbol (call.jump s)
  have hle := patchCount_le call.symbol (call.jump s)
  unfold maxInstructions at hle
  refine ⟨?_,?_,?_⟩
  · apply h.patch.congr (by omega)
    intro a ha
    rw [hlen] at ha
    exact hm a (Or.inl ha)
  · intro ht
    obtain ⟨slot,src,hsrc,hrx,mach',hrun,hkept⟩ := h.slot ht
    refine ⟨slot,src,hsrc,hrx,mach',hrun,fun a ha => ?_⟩
    refine (hm a (Or.inr (Or.inl ⟨ht,?_⟩))).trans (hkept a ha)
    rw [← hrx]
    exact ha
  · intro he
    obtain ⟨trampoline,htramp,hwords⟩ := h.entry he
    refine ⟨trampoline,htramp,?_⟩
    apply hwords.congr (by rw [entryWords_length]; decide)
    intro a ha
    rw [entryWords_length] at ha
    exact hm a (Or.inr (Or.inr ⟨he,ha⟩))

theorem JitTrace.disjoint (h : JitTrace pools st steps st') (hap : RunApart steps)
    (hsteps : ∀ x ∈ steps, StepSets x) : steps.Pairwise fun x y =>
      Disjoint (x.label.owned x.before) (y.label.owned y.before) := by
  have hboth := (h.numbered hsteps).and hap.patches
  apply hboth.imp_of_mem
  intro x y hx hy hxy
  exact owned_disjoint hap.pools (hsteps x hx) (hsteps y hy) (hap.off x hx) (hap.off y hy)
    hxy.2 hxy.1

/-- Calls on functions apart from each other do not disturb one another. Within the pool of
trampolines, no two calls of a run that returns have a byte of a patch, a slot or an entry in
common; at the end each patch, slot and entry is as its own call set it up, from the words that
stood at the function before the run, and nothing else has changed. -/
theorem jit_runs_compose {calls : List (JitCall pools)} (h : jitRun calls st = .ok st') {k : ℕ}
    (hk : st.hook.index = kthIndex k) (hroom : k+requests calls ≤ hookMax) :
    ∃ steps, steps.map RunStep.label = calls ∧ JitTrace pools st steps st' ∧
      (RunApart steps →
        (steps.Pairwise fun x y =>
          Disjoint (x.label.owned x.before) (y.label.owned y.before)) ∧
        (∀ x ∈ steps, SetUp x.label x.before st'.hook.m.mem ∧
          ∀ a, (a-x.label.symbol).toNat < 4*x.label.patch x.before →
            x.before.hook.m.mem a = st.hook.m.mem a) ∧
        ∀ a, (∀ x ∈ steps, a ∉ x.label.owned x.before) →
          st'.hook.m.mem a = st.hook.m.mem a) := by
  obtain ⟨steps,rfl,htrace⟩ := jitRun_trace h
  refine ⟨steps,rfl,htrace,fun hap => ?_⟩
  have hsteps := htrace.stepSets hap hk hroom
  have hdisjoint := htrace.disjoint hap hsteps
  have hframe := fun x hx => (hsteps x hx).frame
  have hkept {x} (hx : x ∈ steps) {a : Addr} (ha : a ∈ x.label.owned x.before) :=
    @Trace.kept _ _ _ _ _ _ _ _ _ (fun s : InlineState => s.hook.m.mem)
      (fun x : RunStep InlineState (JitCall pools) => x.label.owned x.before) hframe htrace
      hdisjoint x hx a ha
  refine ⟨hdisjoint,fun x hx => ⟨?_,?_⟩,fun a ha => ?_⟩
  · exact (hsteps x hx).sets.congr fun a ha => (hkept hx ha).2
  · exact fun a ha => (hkept hx (Or.inl ha)).1
  · exact @Trace.off _ _ _ _ _ _ _ _ _ (fun s : InlineState => s.hook.m.mem)
      (fun x : RunStep InlineState (JitCall pools) => x.label.owned x.before) hframe htrace a ha

end Run

section Mirror

/-- A call for the function at 0x1020. -/
def nextCall : JitCall mirrorPools :=
  { mirrorCall (.hook true) 0x2000 with
    symbol := 0x1020
    window := by
      intro size hsize
      rcases hsize with rfl | rfl <;> decide }

theorem hook_execs {pools : JitPools} {call : JitCall pools} {st : InlineState} {t : Bool}
    {rx : Addr} {h : HookState} (hentry : call.entry = .hook t)
    (hhook : hook call.env.hook st.hook call.symbol call.callback t = .ok (rx,h)) :
    call.exec st = .ok { st with hook := h } := by
  unfold JitCall.exec
  rw [hentry]
  simp only [hhook]

theorem mirror_aliases {symbol : Addr} (hs : symbol.toNat < 2^16) (c : Addr) :
    mirrorEnv.Aliases symbol c := by
  intro k hk
  have hk5 : k < 5 := by
    unfold windowSize at hk
    split at hk <;> simp at hk <;> omega
  have hsub : wordAt (mirrorEnv.window symbol (windowSize symbol c)) k =
      wordAt symbol k+0x10000000 := by
    change wordAt (symbol+0x10000000) k = _
    unfold wordAt
    ring
  rw [hsub]
  apply BitVec.eq_of_toNat_eq
  refine (and_mask_toNat _ 0x0fffffff 28 rfl).trans ?_
  unfold wordAt
  bv_omega

theorem mirror_mapped {call : JitCall mirrorPools} (henv : call.env = mirrorInlineEnv)
    (hs : call.symbol.toNat < 2^16) (hal : call.symbol.toNat%4 = 0) : call.Mapped := by
  have hbound {l : ℕ} (hl : l < 1024) : l < 2^20 ∧ 0x4000+l < 2^20 := by omega
  have hat (a : Addr) (l : ℕ) : wordAt (a+0x10000) l = wordAt a (0x4000+l) := by
    have ha : a+0x10000 = wordAt a 0x4000 := rfl
    rw [ha, wordAt_add]
  refine ⟨hal,?_,?_,?_,?_⟩ <;> rw [henv]
  · exact mirror_aliases hs
  · exact fun l hl => (mirrorEnv_tr (hbound hl).1).1
  · exact fun l hl => (mirrorEnv_tr (hbound hl).1).2
  · intro l hl
    have h := (mirrorEnv_tr (hbound hl).2).1
    rw [← hat, ← hat] at h
    exact h

/-- An inline hook, and then a hook of the next function. -/
theorem jit_runs_compose_two : ∃ steps st',
    jitRun [mirrorCall .hookInline 0x5000,nextCall] mirrorInlineState = .ok st' ∧
    JitTrace mirrorPools mirrorInlineState steps st' ∧
    steps.map RunStep.label = [mirrorCall .hookInline 0x5000,nextCall] ∧
    (steps.Pairwise fun x y => Disjoint (x.label.owned x.before) (y.label.owned y.before)) ∧
    ∀ x ∈ steps, SetUp x.label x.before st'.hook.m.mem := by
  obtain ⟨st1,h1⟩ := mirrorInline_returns
  have hexec1 : (mirrorCall .hookInline 0x5000).exec mirrorInlineState = .ok st1 := h1
  have hmap1 := @mirror_mapped (mirrorCall .hookInline 0x5000) rfl (by decide) (by decide)
  have hmap2 := @mirror_mapped nextCall rfl (by decide) (by decide)
  have hoff1 : (mirrorCall .hookInline 0x5000).OffPools mirrorInlineState :=
    ⟨by decide,by decide⟩
  have hpools : Sep mirrorPools.hook.claim.ro jitSize mirrorPools.inline.claim.ro jitSize := by
    decide
  have hindex : st1.hook.index = kthIndex 1 :=
    (@exec_sets mirrorPools _ mirrorInlineState st1 0 hmap1 rfl (fun _ => by decide) hoff1 hpools
      hexec1).index
  obtain ⟨-,m2,hhook⟩ := @mirror_returns 0x1020 0x2000 st1.hook.m 1 (by decide) (by decide)
    (by decide) (by decide) (mirror_aliases (by decide) _) (by decide)
  have hexec2 : nextCall.exec st1 = .ok { st1 with hook := ⟨m2,kthIndex 2⟩ } := by
    rw [← hindex] at hhook
    exact hook_execs rfl hhook
  have hoff2 : nextCall.OffPools st1 := by
    have hjump : nextCall.patch st1 = patchCount 0x1020 0x2000 := rfl
    constructor <;> rw [hjump] <;> decide
  have htrace : JitTrace mirrorPools mirrorInlineState _ _ :=
    Trace.cons hexec1 (Trace.cons hexec2 (Trace.nil _))
  have hrun : jitRun [mirrorCall .hookInline 0x5000,nextCall] mirrorInlineState =
      .ok { st1 with hook := ⟨m2,kthIndex 2⟩ } := by
    simp only [jitRun, List.foldlM_cons, List.foldlM_nil, hexec1, hexec2, bind, Except.bind, pure,
      Except.pure]
  obtain ⟨steps,hlabel,htrace',hcompose⟩ :=
    @jit_runs_compose mirrorPools mirrorInlineState _ _ hrun 0 rfl (by decide)
  -- calls have one trace, so the steps of the theorem are these two
  obtain ⟨rfl,-⟩ := htrace.unique htrace' hlabel.symm
  have hpatch : Sep 0x1000 (4*patchCount 0x1000 0x30000) 0x1020
      (4*patchCount 0x1020 0x2000) := by decide
  have happart : RunApart [⟨mirrorInlineState,mirrorCall .hookInline 0x5000,st1⟩,
      ⟨st1,nextCall,{ st1 with hook := ⟨m2,kthIndex 2⟩ }⟩] := by
    refine ⟨hpools,?_,?_,?_⟩
    · intro y hy
      simp only [List.mem_cons, List.not_mem_nil, or_false] at hy
      rcases hy with rfl | rfl
      · exact hmap1
      · exact hmap2
    · intro y hy
      simp only [List.mem_cons, List.not_mem_nil, or_false] at hy
      rcases hy with rfl | rfl
      · exact hoff1
      · exact hoff2
    · refine List.pairwise_cons.mpr ⟨fun y hy => ?_,List.pairwise_singleton _ _⟩
      rw [List.mem_singleton.mp hy]
      exact hpatch
  obtain ⟨hdisjoint,hsets,-⟩ := hcompose happart
  exact ⟨_,_,hrun,htrace,rfl,hdisjoint,fun x hx => (hsets x hx).1⟩

end Mirror

end Zeldar
