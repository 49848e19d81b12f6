import Zeldar.HookContext
import Zeldar.Runs
import Zeldar.HookLog
import Zeldar.InlineImpl
import Zeldar.TrampolinePool

/-! Whether the words that `Hook` and `HookInline` write to their pools are made
coherent by the time they return. A pool is written through its read-write view
and executed through the other one; `Flush` maintains both caches at the
read-write view. -/
namespace Zeldar

namespace Claim

/-- The address is in the read-write view. -/
def Writes (c : Claim) (a : Addr) : Prop := (a-c.rw).toNat < c.size.toNat

/-- Where a word that is written at `a` is executed. -/
def exec (c : Claim) (a : Addr) : Addr := c.ro+(a-c.rw)

/-- Every word written through the read-write view is afterwards flushed there, and then
invalidated where it is executed. -/
def Coherent (c : Claim) (log : List Event) : Prop :=
  Provided (fun e later => ∀ a, e = .write a → c.Writes a → e.Coherent c.exec 4 later) log

/-- A word whose execution address is not invalidated after it is written. -/
theorem not_coherent {c : Claim} {a : Addr} {later earlier : List Event} (hw : c.Writes a)
    (hl : ∀ e ∈ later, e.discards (c.exec a) = false) :
    ¬c.Coherent (later++.write a :: earlier) := by
  intro h
  have hword := h later (.write a) earlier rfl a rfl hw a rfl 0 (by decide)
  obtain ⟨f,hf,hdiscards⟩ := hword.exists_right
  have hzero : c.exec a+BitVec.ofNat 64 0 = c.exec a := BitVec.add_zero _
  rw [hzero, hl f hf] at hdiscards
  cases hdiscards

theorem coherent_of_no_writes {c : Claim} {log : List Event}
    (h : ∀ a, .write a ∈ log → ¬c.Writes a) : c.Coherent log := by
  rintro later e earlier rfl a rfl hw
  exact absurd hw (h a (List.mem_append_right later List.mem_cons_self))

end Claim

/-- A pool, as its JIT holds it: the window of a page of its own. -/
structure JitPool where
  claim : Claim
  size_eq : claim.size = BitVec.ofNat 64 jitSize
  ro_aligned : claim.ro.toNat%4096 = 0
  rw_aligned : claim.rw.toNat%4096 = 0
  ro_ne : claim.ro ≠ 0
  rw_ne : claim.rw ≠ 0
  views : claim.ro ≠ claim.rw

/-- `s_HookJit` and `s_InlineHookJit`. -/
structure JitPools where
  hook : JitPool
  inline : JitPool

inductive JitEntry
  | hook (doTrampoline : Bool)
  | hookInline
  deriving DecidableEq, Repr

/-- A call to `Hook` or `HookInline` and what it finds around it. The windows it may open over its
target are not those of the pools. -/
structure JitCall (pools : JitPools) where
  entry : JitEntry
  env : InlineEnv
  symbol : Addr
  callback : Addr
  hookJit : env.hook.jit = pools.hook.claim
  inlineJit : env.jit = pools.inline.claim
  window : ∀ size : BitVec 64, size = 4 ∨ size = 20 →
    Sep (env.hook.window symbol size) size.toNat pools.hook.claim.rw jitSize ∧
      Sep (env.hook.window symbol size) size.toNat pools.inline.claim.rw jitSize

section Calls
variable {pools : JitPools}

namespace JitCall
variable (call : JitCall pools) (st : InlineState)

def exec : Except InlineFault InlineState :=
  match call.entry with
  | .hook doTrampoline =>
    match hook call.env.hook st.hook call.symbol call.callback doTrampoline with
    | .error f => .error (.hook f)
    | .ok (_,h) => .ok { st with hook := h }
  | .hookInline => hookInline call.env st call.symbol call.callback

/-- The patch of the target does not lie over the slot that the call is given. -/
def OffSlot : Prop :=
  call.entry = .hook true → ∀ rx rw,
    (allocForTrampoline call.env.hook.jit st.hook.index).2 = some (rx,rw) →
      (windowSize call.symbol call.callback).toNat ≤ (rx-call.symbol).toNat

end JitCall

def jitRun (calls : List (JitCall pools)) (st : InlineState) : Except InlineFault InlineState :=
  calls.foldlM (fun st call => call.exec st) st

/-- What was done from `st` to `st'` leaves the pools coherent. -/
def JitCoherent (pools : JitPools) (st st' : InlineState) : Prop :=
  ∃ new, st'.hook.m.log = new++st.hook.m.log ∧ pools.hook.claim.Coherent new ∧
    pools.inline.claim.Coherent new

end Calls

theorem ult_eq_false {x y : BitVec 64} (h : y.toNat ≤ x.toNat) : x.ult y = false :=
  decide_eq_false (not_lt.mpr h)

namespace JitPool
variable (pool : JitPool)

theorem size_toNat : pool.claim.size.toNat = 4096 := by
  rw [pool.size_eq]
  rfl

theorem getAlignedRw_eq : pool.claim.getAlignedRw = pool.claim.rw := by
  have h := pool.rw_aligned
  apply BitVec.eq_of_toNat_eq
  rw [Claim.getAlignedRw, alignDown_toNat]
  omega

theorem getAlignedSize_eq : pool.claim.getAlignedSize = pool.claim.size := by
  have h := pool.size_toNat
  apply BitVec.eq_of_toNat_eq
  rw [Claim.getAlignedSize, alignUp_toNat, h]
  rfl

/-- Neither view reaches into the other one. -/
theorem apart {d : ℕ} (hd : d < 4096) :
    4096 ≤ (pool.claim.ro+BitVec.ofNat 64 d-pool.claim.rw).toNat := by
  have h1 := pool.ro_aligned
  have h2 := pool.rw_aligned
  have h3 : pool.claim.ro.toNat ≠ pool.claim.rw.toNat := fun h =>
    pool.views (BitVec.eq_of_toNat_eq h)
  generalize pool.claim.ro = a at *
  generalize pool.claim.rw = b at *
  bv_omega

theorem flush_keeps {d : ℕ} (hd : d < 4096) :
    (Event.icacheInvalidate pool.claim.getAlignedRw pool.claim.getAlignedSize).discards
      (pool.claim.ro+BitVec.ofNat 64 d) = false := by
  have h := pool.apart hd
  have hs := pool.size_toNat
  rw [Event.discards, getAlignedRw_eq, getAlignedSize_eq]
  apply ult_eq_false
  rw [hs]
  exact h

theorem page_ne {a : Addr} (ha : a.toNat%4096 = 0) (hne : a ≠ 0) {d : ℕ} (hd : d < 4096) :
    a+BitVec.ofNat 64 d ≠ 0 := by
  bv_omega

theorem writes {d : ℕ} (hd : d < 4096) :
    pool.claim.Writes (pool.claim.rw+BitVec.ofNat 64 d) := by
  rw [Claim.Writes, pool.size_toNat, add_sub_cancel_left, BitVec.toNat_ofNat]
  omega

theorem exec_eq (d : ℕ) :
    pool.claim.exec (pool.claim.rw+BitVec.ofNat 64 d) = pool.claim.ro+BitVec.ofNat 64 d := by
  rw [Claim.exec, add_sub_cancel_left]

/-- A slot has the same place in both views. -/
theorem slot_eq {index : BitVec 32} {rx rw : Addr}
    (h : (allocForTrampoline pool.claim index).2 = some (rx,rw)) :
    ∃ d ≤ 4000, rx = pool.claim.ro+BitVec.ofNat 64 d ∧ rw = pool.claim.rw+BitVec.ofNat 64 d := by
  unfold allocForTrampoline at h
  dsimp only at h
  have hmax : hookMax = 20 := rfl
  have hsize : trampolineSize = 50 := rfl
  split_ifs at h with hi
  rw [hmax, not_lt] at hi
  injection h with h
  obtain ⟨rfl,rfl⟩ := Prod.mk.inj h
  refine ⟨4*(trampolineSize*(index+1).toNat),?_,rfl,rfl⟩
  rw [hsize]
  omega

end JitPool

section Call
variable {pools : JitPools} {call : JitCall pools} {st st' : InlineState}

theorem storesAt_discards {P : Addr → Prop} {log : List Event} (h : StoresAt P log) (x : Addr) :
    ∀ e ∈ log, e.discards x = false := by
  intro e he
  obtain ⟨a,rfl,-⟩ := h e he
  rfl

theorem exec_hook {doTrampoline : Bool} (hentry : call.entry = .hook doTrampoline)
    (h : call.exec st = .ok st') : ∃ r h', hook call.env.hook st.hook call.symbol call.callback
      doTrampoline = .ok (r,h') ∧ st'.hook = h' := by
  unfold JitCall.exec at h
  rw [hentry] at h
  dsimp only at h
  cases hh : hook call.env.hook st.hook call.symbol call.callback doTrampoline with
  | error f =>
    rw [hh] at h
    cases h
  | ok v =>
    rw [hh] at h
    injection h with h
    exact ⟨v.1,v.2,rfl,by rw [← h]⟩

/-- Without a trampoline nothing is written to a pool. -/
theorem plain_coherent (hentry : call.entry = .hook false) (h : call.exec st = .ok st') :
    JitCoherent pools st st' := by
  obtain ⟨r,h',hhook,rfl⟩ := exec_hook hentry h
  obtain ⟨patch,hlog,hpatch⟩ := hook_log_plain hhook
  have hsize : windowSize call.symbol call.callback = 4 ∨
      windowSize call.symbol call.callback = 20 := by
    unfold windowSize
    split
    · exact Or.inr rfl
    · exact Or.inl rfl
  obtain ⟨hhookPool,hinline⟩ := call.window _ hsize
  have hin := patchCount_window call.symbol call.callback
  generalize call.env.hook.window call.symbol (windowSize call.symbol call.callback) = w at *
  -- all stores are in the window over the target, which is apart from both pools
  have hnone (pool : JitPool) (hsep : Sep w (windowSize call.symbol call.callback).toNat
      pool.claim.rw jitSize) :
      pool.claim.Coherent (hookMaintenance call.env.hook call.symbol call.callback++patch) := by
    apply Claim.coherent_of_no_writes
    intro a ha hw
    rw [Claim.Writes, pool.size_toNat] at hw
    rcases List.mem_append.mp ha with ha | ha
    · simp [hookMaintenance] at ha
    · obtain ⟨b,hb,k,hk,rfl⟩ := hpatch _ ha
      injection hb with hb
      rw [hb] at hw
      have hle := hsep.offset hw
      unfold wordAt at hle
      rw [add_sub_cancel_left, BitVec.toNat_ofNat] at hle
      have hc := patchCount_le call.symbol call.callback
      unfold maxInstructions at hc
      omega
  refine ⟨hookMaintenance call.env.hook call.symbol call.callback++patch,?_,hnone _ hhookPool,
    hnone _ hinline⟩
  rw [hlog, List.append_assoc]

/-- The maintenance of a call invalidates the patch of its target and the read-write view of the
pool, and nothing else. -/
theorem hookMaintenance_keeps {d : ℕ} (hd : d < 4096)
    (hapart : (windowSize call.symbol call.callback).toNat ≤
      (pools.hook.claim.ro+BitVec.ofNat 64 d-call.symbol).toNat) :
    ∀ e ∈ hookMaintenance call.env.hook call.symbol call.callback,
      e.discards (pools.hook.claim.ro+BitVec.ofNat 64 d) = false := by
  have hpatch : (pools.hook.claim.ro+BitVec.ofNat 64 d-call.symbol).ult
      (windowSize call.symbol call.callback) = false := ult_eq_false hapart
  intro e he
  unfold hookMaintenance at he
  rw [call.hookJit] at he
  simp only [List.mem_cons, List.not_mem_nil, or_false] at he
  rcases he with rfl | rfl | rfl | rfl | rfl
  · exact pools.hook.flush_keeps hd
  · rfl
  · exact hpatch
  · rfl
  · exact hpatch

/-- The slot is cleaned where it is written. -/
theorem clearCache_keeps (pool : JitPool) {d k : ℕ} (hk : k ≤ trampolineSize) :
    (Event.clearCache (pool.claim.rw+BitVec.ofNat 64 d) (BitVec.ofNat 64 (4*k))).discards
      (pool.claim.ro+BitVec.ofNat 64 d) = false := by
  have h := @JitPool.apart pool 0 (by decide)
  have hsize : trampolineSize = 50 := rfl
  rw [hsize] at hk
  have hdiff : pool.claim.ro+BitVec.ofNat 64 d-(pool.claim.rw+BitVec.ofNat 64 d) =
      pool.claim.ro+BitVec.ofNat 64 0-pool.claim.rw := by
    bv_omega
  rw [Event.discards, hdiff]
  apply ult_eq_false
  rw [BitVec.toNat_ofNat]
  omega

/-- The words of a trampoline are not invalidated where they are executed. -/
theorem trampoline_not_coherent (hentry : call.entry = .hook true) (hoff : call.OffSlot st)
    (h : call.exec st = .ok st') : ¬JitCoherent pools st st' := by
  obtain ⟨r,h',hhook,rfl⟩ := exec_hook hentry h
  obtain ⟨rx,rw,halloc,hlog⟩ := hook_log_trampoline hhook
  have hapart := hoff hentry rx rw halloc
  rw [call.hookJit] at halloc
  obtain ⟨d,hd,rfl,rfl⟩ := pools.hook.slot_eq halloc
  obtain ⟨k,hk,patch,reloc,hlog,hpatch,hreloc,hat⟩ :=
    hlog (JitPool.page_ne pools.hook.ro_aligned pools.hook.ro_ne (by omega))
      (JitPool.page_ne pools.hook.rw_aligned pools.hook.rw_ne (by omega))
  rintro ⟨new,hnew,hcoherent,-⟩
  -- the log around the first store to the slot
  obtain ⟨later,earlier,rfl⟩ := List.append_of_mem hat
  have heq : new = (hookMaintenance call.env.hook call.symbol call.callback++
      (patch++.clearCache (pools.hook.claim.rw+BitVec.ofNat 64 d) (BitVec.ofNat 64 (4*k)) ::
        later))++.write (pools.hook.claim.rw+BitVec.ofNat 64 d) :: earlier := by
    rw [hlog] at hnew
    refine List.append_cancel_right (?_ : new++st.hook.m.log = _++st.hook.m.log)
    rw [← hnew]
    simp
  rw [heq] at hcoherent
  -- no event after the first store to the slot invalidates the word
  refine Claim.not_coherent (pools.hook.writes (by omega)) ?_ hcoherent
  rw [pools.hook.exec_eq]
  intro e he
  rcases List.mem_append.mp he with he | he
  · exact hookMaintenance_keeps (by omega) hapart e he
  rcases List.mem_append.mp he with he | he
  · exact storesAt_discards hpatch _ e he
  rcases List.mem_cons.mp he with rfl | he
  · exact clearCache_keeps pools.hook hk
  · exact storesAt_discards hreloc _ e (List.mem_append_left _ he)

theorem entryAt_eq (a : Addr) (index : BitVec 64) :
    entryAt a index = a+BitVec.ofNat 64 (entrySize*index.toNat) := by
  rw [entryAt, BitVec.ofNat_mul, BitVec.ofNat_toNat, BitVec.setWidth_eq, mul_comm]

/-- Before the maintenance of a call to `HookInline` come the stores of the entry, the first of
them at its start, and all that the call to `Hook` has done. -/
theorem hookInline_log {env : InlineEnv} {symbol callback : Addr}
    (h : hookInline env st symbol callback = .ok st') :
    st.entryIndex.toNat < inlinePoolCount ∧ ∃ r h' stores,
      hook env.hook st.hook symbol (entryAt env.jit.ro st.entryIndex) true = .ok (r,h') ∧
      StoresAt (fun _ => True) stores ∧
      st'.hook.m.log = .icacheInvalidate env.jit.getAlignedRw env.jit.getAlignedSize ::
        .dcacheFlush env.jit.getAlignedRw env.jit.getAlignedSize :: (stores++
          .write (entryAt env.jit.rw st.entryIndex) :: h'.m.log) := by
  unfold hookInline at h
  split_ifs at h with hfull
  refine ⟨not_le.mp hfull,?_⟩
  dsimp only at h
  cases hh : hook env.hook st.hook symbol (entryAt env.jit.ro st.entryIndex) true with
  | error f =>
    rw [hh] at h
    cases h
  | ok v =>
    obtain ⟨trampoline,h'⟩ := v
    rw [hh] at h
    injection h with h
    rw [storeWords_entry] at h
    -- the entry is stored after the hook has been installed
    obtain ⟨new,hlog,hnew,hfirst⟩ := storeWords_log env.hook.tr h'.m
      (entryAt env.jit.rw st.entryIndex)
      (entryWords env.impl (entryAt env.jit.ro st.entryIndex) trampoline callback)
    obtain ⟨stores,rfl⟩ := hfirst _ _ rfl
    refine ⟨trampoline,h',stores,rfl,?_,?_⟩
    · intro e he
      obtain ⟨a,ha,-⟩ := hnew e (List.mem_append_left _ he)
      exact ⟨a,ha,trivial⟩
    · rw [← h]
      show _ :: _ :: Machine.log _ = _
      rw [hlog, List.append_assoc]
      rfl

/-- The words of an entry are not either. -/
theorem inline_not_coherent (hentry : call.entry = .hookInline) (h : call.exec st = .ok st') :
    ¬JitCoherent pools st st' := by
  unfold JitCall.exec at h
  rw [hentry] at h
  dsimp only at h
  obtain ⟨hindex,r,h',stores,hhook,hstores,hlog⟩ := hookInline_log h
  obtain ⟨rx,rw,halloc,hbefore⟩ := hook_log_trampoline hhook
  rw [call.hookJit] at halloc
  obtain ⟨s,hs,rfl,rfl⟩ := pools.hook.slot_eq halloc
  obtain ⟨k,-,patch,reloc,hbefore,-⟩ :=
    hbefore (JitPool.page_ne pools.hook.ro_aligned pools.hook.ro_ne (by omega))
      (JitPool.page_ne pools.hook.rw_aligned pools.hook.rw_ne (by omega))
  -- the entry is in the page of the inline pool
  have hd : entrySize*st.entryIndex.toNat < 4096 := by
    have hcount : inlinePoolCount = 170 := rfl
    have hsize : entrySize = 24 := rfl
    rw [hsize]
    omega
  rw [call.inlineJit, entryAt_eq] at hlog
  generalize entrySize*st.entryIndex.toNat = d at hd hlog
  rintro ⟨new,hnew,-,hcoherent⟩
  have heq : new = (.icacheInvalidate pools.inline.claim.getAlignedRw
        pools.inline.claim.getAlignedSize :: .dcacheFlush pools.inline.claim.getAlignedRw
        pools.inline.claim.getAlignedSize :: stores)++
      .write (pools.inline.claim.rw+BitVec.ofNat 64 d) ::
        (hookMaintenance call.env.hook call.symbol (entryAt call.env.jit.ro st.entryIndex)++
          (patch++.clearCache (pools.hook.claim.rw+BitVec.ofNat 64 s)
            (BitVec.ofNat 64 (4*k)) :: reloc)) := by
    rw [hlog, hbefore] at hnew
    refine List.append_cancel_right (?_ : new++st.hook.m.log = _++st.hook.m.log)
    rw [← hnew]
    simp
  rw [heq] at hcoherent
  -- the entry is written after everything that `Hook` did
  refine Claim.not_coherent (pools.inline.writes hd) ?_ hcoherent
  rw [pools.inline.exec_eq]
  intro e he
  rcases List.mem_cons.mp he with rfl | he
  · exact pools.inline.flush_keeps hd
  rcases List.mem_cons.mp he with rfl | he
  · rfl
  · exact storesAt_discards hstores _ e he

/-- A call leaves the pools coherent exactly when it writes nothing to them. -/
theorem exec_coherent_iff (hoff : call.OffSlot st) (h : call.exec st = .ok st') :
    JitCoherent pools st st' ↔ call.entry = .hook false := by
  constructor
  · intro hcoherent
    cases hentry : call.entry with
    | hook doTrampoline =>
      cases doTrampoline with
      | false => rfl
      | true => exact absurd hcoherent (trampoline_not_coherent hentry hoff h)
    | hookInline => exact absurd hcoherent (inline_not_coherent hentry h)
  · intro hentry
    exact plain_coherent hentry h

end Call

/-- Along a run every call leaves the pools coherent exactly when none of them asks for a
trampoline. -/
theorem jit_coherent_iff {pools : JitPools} (calls : List (JitCall pools)) (st : InlineState)
    (hoff : EveryStep (fun before call => ∀ s, jitRun before st = .ok s → call.OffSlot s) calls) :
    EveryStep (fun before call => ∀ s s', jitRun before st = .ok s → call.exec s = .ok s' →
      JitCoherent pools s s') calls ↔
    EveryStep (fun before call => ∀ s s', jitRun before st = .ok s → call.exec s = .ok s' →
      call.entry = .hook false) calls := by
  -- call by call, each from the state that the calls before it left
  constructor
  · intro hcoherent before call after heq s s' hs hcall
    exact (exec_coherent_iff (hoff before call after heq s hs) hcall).mp
      (hcoherent before call after heq s s' hs hcall)
  · intro hplain before call after heq s s' hs hcall
    exact (exec_coherent_iff (hoff before call after heq s hs) hcall).mpr
      (hplain before call after heq s s' hs hcall)

section Mirror

def mirrorPools : JitPools where
  hook := ⟨mirrorEnv.jit,by decide,by decide,by decide,by decide,by decide,by decide⟩
  inline := ⟨mirrorInlineEnv.jit,by decide,by decide,by decide,by decide,by decide,by decide⟩

/-- A call for the function at 0x1000. -/
def mirrorCall (entry : JitEntry) (callback : Addr) : JitCall mirrorPools where
  entry := entry
  env := mirrorInlineEnv
  symbol := 0x1000
  callback := callback
  hookJit := rfl
  inlineJit := rfl
  window size hsize := by
    rcases hsize with rfl | rfl <;> decide

/-- A hook with a trampoline leaves its slot to a stale instruction cache. -/
theorem jit_coherent_iff_trampoline :
    ¬EveryStep (fun before call => ∀ s s', jitRun before mirrorInlineState = .ok s →
      call.exec s = .ok s' → JitCoherent mirrorPools s s')
      [mirrorCall (.hook true) 0x2000] := by
  -- the run is one call, and it gets the first slot of the pool
  have honly {before after : List (JitCall mirrorPools)} {call : JitCall mirrorPools}
      (h : [mirrorCall (.hook true) 0x2000] = before++call :: after) :
      before = [] ∧ call = mirrorCall (.hook true) 0x2000 := by
    cases before with
    | nil =>
      rw [List.nil_append, List.cons.injEq] at h
      exact ⟨rfl,h.1.symm⟩
    | cons b before => simp at h
  intro hcoherent
  have hplain := (jit_coherent_iff [mirrorCall (.hook true) 0x2000] mirrorInlineState (by
    intro before call after h s hs
    obtain ⟨rfl,rfl⟩ := honly h
    injection hs with hs
    rw [← hs]
    intro _ rx rw halloc
    have hrx : rx = 0x20000 := by
      have hfirst : (allocForTrampoline mirrorEnv.jit mirrorInlineState.hook.index).2 =
          some (0x20000,0x10020000) := by decide
      have heq := halloc.symm.trans hfirst
      injection heq with heq
      exact (Prod.mk.inj heq).1
    rw [hrx]
    decide)).mp hcoherent
  obtain ⟨r,m',hhook⟩ := @nearCall_returns mirrorInlineState.hook.m 0 (Nat.zero_le _)
  have hcall : (mirrorCall (.hook true) 0x2000).exec mirrorInlineState =
      .ok { mirrorInlineState with hook := ⟨m',kthIndex 1⟩ } := by
    unfold JitCall.exec
    show (match hook mirrorEnv mirrorInlineState.hook 0x1000 0x2000 true with
      | .error f => Except.error (InlineFault.hook f)
      | .ok (_,h) => .ok { mirrorInlineState with hook := h }) = _
    have hstate : mirrorInlineState.hook = ⟨mirrorInlineState.hook.m,kthIndex 0⟩ := rfl
    rw [hstate, hhook]
  have hentry := hplain [] _ [] rfl _ _ rfl hcall
  exact absurd hentry (by decide)

/-- The same of an inline hook and its entry. -/
theorem jit_not_coherent :
    ¬EveryStep (fun before call => ∀ s s', jitRun before mirrorInlineState = .ok s →
      call.exec s = .ok s' → JitCoherent mirrorPools s s')
      [mirrorCall .hookInline 0x5000] := by
  intro hcoherent
  obtain ⟨st',hreturns⟩ := mirrorInline_returns
  have hcall : (mirrorCall .hookInline 0x5000).exec mirrorInlineState = .ok st' := hreturns
  exact inline_not_coherent rfl hcall (hcoherent [] _ [] rfl _ _ rfl hcall)

end Mirror

end Zeldar
