import Zeldar.HookImpl
import Zeldar.HookJump

namespace Zeldar

/-- The form that `HookFuncImpl` chooses. -/
def isFar (symbol replace : Addr) : Bool :=
  (0x1ffffff:BitVec 64).ule (llabs ((replace-symbol).sshiftRight 2))

/-- The size of the window that `HookFuncImpl` opens. -/
def windowSize (symbol replace : Addr) : BitVec 64 := if isFar symbol replace then 20 else 4

/-- How many words `HookFuncImpl` has relocated. -/
def patchCount (symbol replace : Addr) : ℕ :=
  if isFar symbol replace then (if wordAt symbol 2 &&& 7 ≠ 0 then 5 else 4) else 1

/-- The window that is opened is a faithful alias of the words it covers. -/
def HookEnv.Aliases (env : HookEnv) (symbol replace : Addr) : Prop :=
  ∀ k, 4*k < (windowSize symbol replace).toNat →
    env.tr (wordAt (env.window symbol (windowSize symbol replace)) k) = wordAt symbol k

theorem jumpWords_length_eq (symbol replace : Addr) :
    (jumpWords replace symbol).length = patchCount symbol replace := by
  unfold jumpWords patchCount isFar
  split_ifs <;> simp_all [nops, absoluteJump]

theorem patchCount_le (symbol replace : Addr) : patchCount symbol replace ≤ maxInstructions := by
  rw [← jumpWords_length_eq]
  exact jumpWords_length _ _

theorem patchCount_window (symbol replace : Addr) :
    4*patchCount symbol replace ≤ (windowSize symbol replace).toNat := by
  unfold patchCount windowSize
  split_ifs <;> decide

/-- A machine store for each word, through the window. -/
def Machine.storeWords (tr : Addr → Addr) (m : Machine) (a : Addr) : List Word → Machine
  | [] => m
  | w :: ws => (m.store32 tr a w).storeWords tr (wordAt a 1) ws

theorem storeWords_overlay {tr : Addr → Addr} {m : Machine} {rw a : Addr} {base : Mem}
    (out ws : List Word) (hm : m.mem = overlay base a out) (hl : out.length+ws.length < 2^60)
    (halias : ∀ k < ws.length, tr (wordAt rw (out.length+k)) = wordAt a (out.length+k)) :
    (m.storeWords tr (wordAt rw out.length) ws).mem = overlay base a (out++ws) := by
  induction ws generalizing out m with
  | nil => simpa [Machine.storeWords] using hm
  | cons w ws ih =>
    rw [List.length_cons] at hl halias
    have h0 := halias 0 (by omega)
    rw [Nat.add_zero] at h0
    have h := @ih (m.store32 tr (wordAt rw out.length) w) (out++[w])
      (by rw [Machine.store32, h0, hm, write32_overlay_append _ _ _ _ (by omega)])
      (by simp only [List.length_append, List.length_singleton]; omega)
      (fun k hk => by
        have hk' := halias (k+1) (by omega)
        rwa [List.length_append, List.length_singleton, Nat.add_assoc, Nat.add_comm 1])
    rw [Machine.storeWords, wordAt_add]
    simpa using h

section Install
variable {env : HookEnv} {m : Machine} {symbol replace : Addr}

/-- The window, as the words that `__fix_instructions` reads. -/
def HookEnv.Aliases.source (halias : env.Aliases symbol replace) (hs : symbol.toNat%4 = 0)
    (slot : Slot env.tr)
    (hapart : Sep symbol (4*patchCount symbol replace) slot.rx (4*trampolineSize)) :
    Source env.tr (patchCount symbol replace) slot where
  rw := env.window symbol (windowSize symbol replace)
  rx := symbol
  aligned := hs
  aliased k hk := halias k (by
    have hw := patchCount_window symbol replace
    omega)
  apart := hapart
  count := patchCount_le symbol replace

/-- What `HookFuncImpl` does after the relocation, in either form. -/
def installed (env : HookEnv) (m : Machine) (symbol replace : Addr) : Machine :=
  let size := windowSize symbol replace
  let m := m.storeWords env.tr (env.window symbol size) (jumpWords replace symbol)
  (m.record (.clearCache symbol size)).releasePages (env.rwPages symbol size)

theorem installed_far (hf : isFar symbol replace = true) :
    installed env m symbol replace =
      let size := 5*4
      let m := m.storeWords env.tr (env.window symbol size)
        (nops (if wordAt symbol 2 &&& 7 = 0 then 0 else 1)++absoluteJump replace)
      (m.record (.clearCache symbol size)).releasePages (env.rwPages symbol size) := by
  have hw : windowSize symbol replace = 5*4 := by simp only [windowSize, hf, ↓reduceIte]; rfl
  unfold isFar at hf
  simp only [installed, hw, jumpWords, hf, ↓reduceIte]

theorem installed_near (hf : isFar symbol replace = false) :
    installed env m symbol replace =
      let size := 1*4
      let m := m.store32 env.tr (env.window symbol size) (branchWord 0x14000000 (replace-symbol))
      (m.record (.clearCache symbol size)).releasePages (env.rwPages symbol size) := by
  have hw : windowSize symbol replace = 1*4 := by
    simp only [windowSize, hf, Bool.false_eq_true, ↓reduceIte]
    rfl
  unfold isFar at hf
  simp only [installed, hw, jumpWords, hf, Bool.false_eq_true, ↓reduceIte, Machine.storeWords]

/-- In both forms the patch follows the relocation, and is the words of a jump. -/
theorem hookFuncImpl_eq (rxtr rwtr : Addr) :
    hookFuncImpl env m symbol replace rxtr rwtr =
      let ctrl := env.rwPages symbol (windowSize symbol replace)
      let tramp := if isFar symbol replace then rxtr else rwtr
      (relocate env m ctrl (patchCount symbol replace) tramp rxtr rwtr).map fun r =>
        match r with
        | none => (false,m.releasePages ctrl)
        | some m => (true,installed env m symbol replace) := by
  have hlimit : (0x03ffffff:BitVec 64) >>> 1 = 0x1ffffff := by decide
  have hstores (m : Machine) (a : Addr) :
      ((m.store32 env.tr a 0x58000051).store32 env.tr (wordAt a 1) 0xd61f0220).store64 env.tr
        (wordAt a 2) replace = m.storeWords env.tr a (absoluteJump replace) := by
    simp only [absoluteJump, Machine.storeWords, Machine.store64, wordAt_add, wordAt_four,
      BitVec.ofNat_eq_ofNat]
  -- the two forms differ in the window, in the count and in the trampoline they relocate to
  cases hf : isFar symbol replace with
  | false =>
    have hi (m : Machine) := @installed_near env m symbol replace hf
    have hw : windowSize symbol replace = 1*4 := by
      simp only [windowSize, hf, Bool.false_eq_true, ↓reduceIte]
      rfl
    have hc : patchCount symbol replace = 1 := by
      simp only [patchCount, hf, Bool.false_eq_true, ↓reduceIte]
    unfold isFar at hf
    simp only [hookFuncImpl, hlimit, hf, hw, hc, Bool.false_eq_true, ↓reduceIte]
    cases relocate env m (env.rwPages symbol (1*4)) 1 rwtr rxtr rwtr with
    | error e => rfl
    | ok r =>
      cases r with
      | none => rfl
      | some m =>
        simp only [Except.map, hi]
        rfl
  | true =>
    have hi (m : Machine) := @installed_far env m symbol replace hf
    have hw : windowSize symbol replace = 5*4 := by
      simp only [windowSize, hf, ↓reduceIte]
      rfl
    have hc : patchCount symbol replace = if wordAt symbol 2 &&& 7 ≠ 0 then 5 else 4 := by
      simp only [patchCount, hf, ↓reduceIte]
    unfold isFar at hf
    simp only [hookFuncImpl, hlimit, hf, hw, hc, ↓reduceIte]
    cases relocate env m (env.rwPages symbol (5*4)) (if wordAt symbol 2 &&& 7 ≠ 0 then 5 else 4)
      rxtr rxtr rwtr with
    | error e => rfl
    | ok r =>
      cases r with
      | none => rfl
      | some m =>
        simp only [Except.map, hi]
        -- the far form starts with a NOP where its literal would not be aligned
        by_cases hodd : wordAt symbol 2 &&& 7 = 0
        · simp only [hodd, ne_eq, not_true_eq_false, ↓reduceIte, show ¬(4:ℕ) = 5 by decide,
            nops, List.replicate_zero, List.nil_append, ← hstores]
          rfl
        · simp only [hodd, ne_eq, not_false_eq_true, ↓reduceIte, nops, List.replicate_one,
            List.cons_append, List.nil_append, Machine.storeWords, ← hstores]
          rfl

theorem installed_mem (halias : env.Aliases symbol replace) :
    (installed env m symbol replace).mem = overlay m.mem symbol (jumpWords replace symbol) := by
  have hl := jumpWords_length_eq symbol replace
  have hw := patchCount_window symbol replace
  have hc := patchCount_le symbol replace
  have h := @storeWords_overlay env.tr m (env.window symbol (windowSize symbol replace)) symbol m.mem
    [] (jumpWords replace symbol) (overlay_nil _ _).symm
    (by unfold maxInstructions at hc; simp only [List.length_nil]; omega)
    (fun k hk => by
      rw [List.length_nil, Nat.zero_add]
      exact halias k (by omega))
  rw [List.length_nil, wordAt_zero, List.nil_append] at h
  exact h

/-- A call that returns was given two addresses. -/
theorem hook_ok {st st' : HookState} {doTrampoline : Bool} {r : Addr}
    (h : hook env st symbol replace doTrampoline = .ok (r,st')) :
    symbol ≠ 0 ∧ replace ≠ 0 ∧ (if doTrampoline then
      match allocForTrampoline env.jit st.index with
      | (index,some (rx,rw)) => hookInto env st.m symbol replace index rx rw
      | (_,none) => .error .trampolineAllocFail
    else hookInto env st.m symbol replace st.index 0 0) = .ok (r,st') := by
  unfold hook at h
  by_cases hs : symbol = 0
  · rw [if_pos hs] at h
    cases h
  rw [if_neg hs] at h
  by_cases hr : replace = 0
  · rw [if_pos hr] at h
    cases h
  rw [if_neg hr] at h
  exact ⟨hs,hr,h⟩

/-- A call that asks for no trampoline. -/
theorem hook_without (st : HookState) (hs : symbol ≠ 0) (hr : replace ≠ 0) :
    hook env st symbol replace false =
      .ok (0,⟨(installed env st.m symbol replace).flushPages env.jit,st.index⟩) := by
  simp only [hook, hs, hr, ↓reduceIte, Bool.false_eq_true, hookInto, hookFuncImpl_eq, relocate,
    ite_self, pure, Except.pure, Except.map]

/-- A call that gets a slot relocates into it and then patches. -/
theorem hook_with (st : HookState) (slot : Slot env.tr) {m1 : Machine} (hs : symbol ≠ 0)
    (hr : replace ≠ 0) (halloc : (allocForTrampoline env.jit st.index).2 = some (slot.rx,slot.rw))
    (hfix : fixInstructions env.tr st.m (env.window symbol (windowSize symbol replace)) symbol
      (patchCount symbol replace) slot.rw slot.rx = .ok m1) :
    hook env st symbol replace true =
      .ok (slot.rx,⟨(installed env m1 symbol replace).flushPages env.jit,st.index+1⟩) := by
  have hrw : slot.rw ≠ 0 := by
    have h0 := slot.nonnull 0 (by decide)
    rwa [wordAt_zero] at h0
  have htramp : (if isFar symbol replace then slot.rx else slot.rw) ≠ 0 := by
    split_ifs
    · exact slot.placed
    · exact hrw
  have hroom : ¬trampolineSize < patchCount symbol replace*10 := by
    have hc := patchCount_le symbol replace
    unfold trampolineSize
    omega
  have hindex : allocForTrampoline env.jit st.index = (st.index+1,some (slot.rx,slot.rw)) := by
    rw [← halloc]
    unfold allocForTrampoline
    dsimp only
    split_ifs <;> rfl
  simp only [hook, hs, hr, ↓reduceIte, hindex, hookInto, hookFuncImpl_eq, relocate, htramp, hroom,
    HookEnv.rwPages, hfix, pure, Except.pure, Except.map, bind, Except.bind]

/-- The memory after a call that gets a slot: the relocated words and the jump back in the slot,
and the patch over the target. -/
theorem hook_with_mem (st : HookState) (slot : Slot env.tr) (hal : symbol.toNat%4 = 0)
    (hs : symbol ≠ 0) (hr : replace ≠ 0) (halias : env.Aliases symbol replace)
    (halloc : (allocForTrampoline env.jit st.index).2 = some (slot.rx,slot.rw))
    (hapart : Sep symbol (4*patchCount symbol replace) slot.rx (4*trampolineSize)) :
    let start := (halias.source hal slot hapart).start st.m
    let out := (loopReloc slot start (patchCount symbol replace)).out
    ∃ m1 st', fixInstructions env.tr st.m (env.window symbol (windowSize symbol replace)) symbol
        (patchCount symbol replace) slot.rw slot.rx = .ok m1 ∧
      m1.mem = overlay st.m.mem slot.rx (out++jumpWords (wordAt symbol (patchCount symbol replace))
        (wordAt slot.rx out.length)) ∧
      hook env st symbol replace true = .ok (slot.rx,st') ∧
      st'.m.mem = overlay m1.mem symbol (jumpWords replace symbol) := by
  obtain ⟨m1,hfix,hmem⟩ := fixInstructions_overlay (halias.source hal slot hapart) st.m
  exact ⟨m1,_,hfix,hmem,hook_with st slot hs hr halloc hfix,installed_mem halias⟩

end Install

/-- What a hook of `n` words guarantees: it redirects, and it changes those words and the slot. -/
structure Redirects (m m' : Mem) (h c : Addr) (n : ℕ) (slots : Addr → Prop) : Prop where
  reaches : Transfers m' h c
  words : WordsAt m' h (jumpWords c h)
  count : (jumpWords c h).length = n
  frame : ∀ x, 4*n ≤ (x-h).toNat → ¬slots x → m' x = m x

/-- The bytes of a slot. -/
def Slot.bytes {tr : Addr → Addr} (slot : Slot tr) (x : Addr) : Prop :=
  (x-slot.rx).toNat < 4*trampolineSize

instance {tr : Addr → Addr} (slot : Slot tr) (x : Addr) : Decidable (slot.bytes x) :=
  inferInstanceAs (Decidable (_ < _))

theorem jumpWords_redirects {m : Mem} {h c : Addr} (hh : h.toNat%4 = 0) (hc : c.toNat%4 = 0) :
    Transfers (overlay m h (jumpWords c h)) h c ∧ WordsAt (overlay m h (jumpWords c h)) h
      (jumpWords c h) := by
  have hl := jumpWords_length c h
  have hw := @wordsAt_overlay m h (jumpWords c h) (by omega)
  exact ⟨transfers_jumpWords hh hc hw,hw⟩

/-- What a call that gets a slot changes: the slot holds the relocated words and the jump back,
the target holds the patch, and the rest is as it was. -/
theorem hook_changes {env : HookEnv} {h c : Addr} (st : HookState) (slot : Slot env.tr)
    (hh : h.toNat%4 = 0) (h0 : h ≠ 0) (c0 : c ≠ 0) (halias : env.Aliases h c)
    (halloc : (allocForTrampoline env.jit st.index).2 = some (slot.rx,slot.rw))
    (hap : Sep h (4*patchCount h c) slot.rx (4*trampolineSize)) :
    let out := (loopReloc slot ((halias.source hh slot hap).start st.m) (patchCount h c)).out
    ∃ m1 st', hook env st h c true = .ok (slot.rx,st') ∧
      fixInstructions env.tr st.m (env.window h (windowSize h c)) h (patchCount h c) slot.rw
        slot.rx = .ok m1 ∧
      (∀ x, slot.bytes x → st'.m.mem x = m1.mem x) ∧
      WordsAt st'.m.mem slot.rx
        (out++jumpWords (wordAt h (patchCount h c)) (wordAt slot.rx out.length)) ∧
      WordsAt st'.m.mem h (jumpWords c h) ∧
      ∀ x, 4*patchCount h c ≤ (x-h).toNat → ¬slot.bytes x → st'.m.mem x = st.m.mem x := by
  intro out
  obtain ⟨m1,st',hfix,hm1,hhook,hmem⟩ := hook_with_mem st slot hh h0 c0 halias halloc hap
  change m1.mem = overlay st.m.mem slot.rx
    (out++jumpWords (wordAt h (patchCount h c)) (wordAt slot.rx out.length)) at hm1
  have hlen := jumpWords_length_eq h c
  have hle := patchCount_le h c
  have hmax : maxInstructions = 5 := rfl
  have hsize : trampolineSize = 50 := rfl
  -- five words become at most fifty, with the jump back
  have hroom : (out++jumpWords (wordAt h (patchCount h c)) (wordAt slot.rx out.length)).length ≤
      trampolineSize := by
    have hrep := (@loop_represents env.tr slot _ (halias.source hh slot hap) st.m _ le_rfl).2
    have hsmall : out.length ≤ _ := hrep.small
    have hjump := jumpWords_length (wordAt h (patchCount h c)) (wordAt slot.rx out.length)
    rw [List.length_append]
    omega
  -- the slot is apart from the patch, so each keeps what was stored in it
  have hkept : ∀ x, slot.bytes x → st'.m.mem x = m1.mem x := by
    intro x hx
    rw [hmem]
    apply overlay_apply_of_le
    rw [hlen]
    exact hap.offset hx
  have hslot : WordsAt m1.mem slot.rx
      (out++jumpWords (wordAt h (patchCount h c)) (wordAt slot.rx out.length)) := by
    rw [hm1]
    exact wordsAt_overlay _ (by omega)
  refine ⟨m1,st',hhook,hfix,hkept,?_,?_,fun x hpatch hout => ?_⟩
  · apply hslot.congr (by omega)
    intro x hx
    exact hkept x (hx.trans_le (Nat.mul_le_mul_left 4 hroom))
  · rw [hmem]
    exact wordsAt_overlay _ (by omega)
  · unfold Slot.bytes at hout
    rw [hmem, overlay_apply_of_le _ _ _ _ (by rwa [hlen]), hm1]
    apply overlay_apply_of_le
    omega

/-- Installing a hook redirects exactly, and its trampoline resumes exactly. -/
theorem hook_redirects_and_resumes {env : HookEnv} {st : HookState} {h c : Addr}
    (tramp : Option (Slot env.tr)) (hh : h.toNat%4 = 0) (hc : c.toNat%4 = 0) (h0 : h ≠ 0)
    (c0 : c ≠ 0) (halias : env.Aliases h c)
    (halloc : ∀ slot ∈ tramp, (allocForTrampoline env.jit st.index).2 = some (slot.rx,slot.rw))
    (hapart : ∀ slot ∈ tramp, Sep h (4*patchCount h c) slot.rx (4*trampolineSize)) :
    ∃ rx st', hook env st h c tramp.isSome = .ok (rx,st') ∧
      Redirects st.m.mem st'.m.mem h c (patchCount h c) (fun x => ∃ slot ∈ tramp, slot.bytes x) ∧
      ∀ slot ∈ tramp, rx = slot.rx ∧
        let rw := env.window h (windowSize h c)
        ∃ s m1, fixLoop env.tr (patchCount h c)
            (fixStart st.m rw h (patchCount h c) slot.rw slot.rx) = .ok s ∧
          fixInstructions env.tr st.m rw h (patchCount h c) slot.rw slot.rx = .ok m1 ∧
          (∀ x, slot.bytes x → st'.m.mem x = m1.mem x) ∧
          Transfers st'.m.mem s.outprx (wordAt h (patchCount h c)) := by
  have hlen := jumpWords_length_eq h c
  cases tramp with
  | none =>
    -- nothing is relocated: memory changes under the patch only
    have hmem := @installed_mem env st.m h c halias
    obtain ⟨ht,hw⟩ := @jumpWords_redirects st.m.mem h c hh hc
    refine ⟨0,_,hook_without st h0 c0,⟨?_,?_,hlen,?_⟩,by simp⟩
    · rw [← hmem] at ht
      exact ht
    · rw [← hmem] at hw
      exact hw
    · intro x hx _
      exact (congrFun hmem x).trans (overlay_apply_of_le _ _ _ _ (by rw [hlen]; exact hx))
  | some slot =>
    have hap := hapart slot rfl
    obtain ⟨m1,st',hhook,hfix,hkept,hslot,hpatch,hframe⟩ :=
      hook_changes st slot hh h0 c0 halias (halloc slot rfl) hap
    obtain ⟨hloop,hrep⟩ := @loop_represents env.tr slot _ (halias.source hh slot hap) st.m _ le_rfl
    have hredirects := transfers_jumpWords hh hc hpatch
    refine ⟨slot.rx,st',hhook,⟨hredirects,hpatch,hlen,?_⟩,?_⟩
    · intro x hx hns
      exact hframe x hx fun hb => hns ⟨slot,rfl,hb⟩
    · intro slot' hslot'
      cases hslot'
      refine ⟨rfl,_,m1,hloop,hfix,hkept,?_⟩
      -- the jump back stands right after the relocated words
      rw [hrep.outprx]
      exact transfers_jumpWords (wordAt_aligned slot.aligned _) (wordAt_aligned hh _)
        (wordsAt_append.mp hslot).2

/-- Read-write windows at a fixed distance above the executable addresses. -/
def mirrorEnv : HookEnv where
  tr a := a &&& 0x0fffffff
  window ro _ := ro+0x10000000
  reserve _ _ := 0
  jit := ⟨0x20000,0x10020000,0x1000,0⟩

def mirrorSlot : Slot mirrorEnv.tr where
  rw := 0x10020000
  rx := 0x20000
  aligned := by decide
  aliased := by decide
  executed := by decide
  nonnull := by decide
  placed := by decide

/-- A far patch at an address where it needs the leading NOP. -/
theorem hook_redirects_and_resumes_far :
    ∃ rx st', hook mirrorEnv (HookState.initial ⟨fun _ => 0,[]⟩) 0x1004 0x0e000000 true =
      .ok (rx,st') ∧ Transfers st'.m.mem 0x1004 0x0e000000 ∧ rx = 0x20000 := by
  obtain ⟨rx,st',hhook,hr,hs⟩ := @hook_redirects_and_resumes mirrorEnv
    (HookState.initial ⟨fun _ => 0,[]⟩) 0x1004 0x0e000000 (some mirrorSlot) (by decide) (by decide)
    (by decide) (by decide)
    (fun k hk => by
      have hk5 : k < 5 := by
        have hw : (windowSize 0x1004 0x0e000000).toNat = 20 := by decide
        omega
      interval_cases k <;> decide)
    (fun slot hslot => by cases hslot; decide) (fun slot hslot => by cases hslot; decide)
  exact ⟨rx,st',hhook,hr.reaches,(hs mirrorSlot rfl).1⟩

end Zeldar
