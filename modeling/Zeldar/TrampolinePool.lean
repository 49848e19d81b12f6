import Zeldar.HookInstall

namespace Zeldar

structure HookCall where
  env : HookEnv
  symbol : Addr
  callback : Addr
  doTrampoline : Bool

/-- What `AllocForTrampoline` answers to a call to `Hook`, if it comes to it. -/
def HookCall.alloc (call : HookCall) (st : HookState) : List (Option (Addr × Addr)) :=
  if call.symbol ≠ 0 ∧ call.callback ≠ 0 ∧ call.doTrampoline then
    [(allocForTrampoline call.env.jit st.index).2]
  else []

/-- The answers of `AllocForTrampoline` over a run, which ends with the first call to `Hook`
that does not return. -/
def hookRun : List HookCall → HookState → List (Option (Addr × Addr))
  | [], _ => []
  | call :: calls, st =>
    match hook call.env st call.symbol call.callback call.doTrampoline with
    | .ok (_,st') => call.alloc st++hookRun calls st'
    | .error _ => call.alloc st

/-- Every slot handed out is inside the pool, at one offset of both views; no two overlap; and
once no whole slot is left there is none. -/
structure PoolSafe (jit : Claim) (allocs : List (Option (Addr × Addr))) : Prop where
  contained : ∀ (k : ℕ) rx rw, allocs[k]? = some (some (rx,rw)) →
    ∃ offset, offset+4*trampolineSize ≤ jitSize ∧ rx = jit.ro+BitVec.ofNat 64 offset ∧
      rw = jit.rw+BitVec.ofNat 64 offset
  disjoint : ∀ (k l : ℕ) rx rw rx' rw', k ≠ l → allocs[k]? = some (some (rx,rw)) →
    allocs[l]? = some (some (rx',rw')) → Sep rx (4*trampolineSize) rx' (4*trampolineSize) ∧
      Sep rw (4*trampolineSize) rw' (4*trampolineSize)
  exhausted : ∀ (k : ℕ) r, allocs[k]? = some r →
    jitSize < 4*trampolineSize*(((allocs.take k).filter Option.isSome).length+1) → r = none

/-- The answer to the `k`-th request. -/
def kthAlloc (jit : Claim) (k : ℕ) : Option (Addr × Addr) :=
  if hookMax < k then none
  else some (wordAt jit.ro (trampolineSize*k),wordAt jit.rw (trampolineSize*k))

/-- The counter before the `k`-th request. -/
def kthIndex (k : ℕ) : BitVec 32 := BitVec.ofNat 32 k-1

theorem kthIndex_succ (k : ℕ) : kthIndex k+1 = kthIndex (k+1) := by
  unfold kthIndex
  bv_omega

theorem allocForTrampoline_kth (jit : Claim) {k : ℕ} (hk : k < 2^32) :
    allocForTrampoline jit (kthIndex k) = (kthIndex (k+1),kthAlloc jit k) := by
  have hn := kthIndex_succ k
  have hi : (kthIndex (k+1)).toNat = k := by
    unfold kthIndex
    bv_omega
  simp only [allocForTrampoline, hn, hi, kthAlloc]
  split_ifs <;> rfl

theorem hookInto_index {env : HookEnv} {m : Machine} {symbol callback rx rw r : Addr}
    {index : BitVec 32} {st' : HookState}
    (h : hookInto env m symbol callback index rx rw = .ok (r,st')) : st'.index = index := by
  unfold hookInto at h
  cases hf : hookFuncImpl env m symbol callback rx rw with
  | error f => simp [hf] at h
  | ok v =>
    obtain ⟨b,m'⟩ := v
    cases b with
    | false => simp [hf] at h
    | true =>
      simp only [hf, Except.ok.injEq, Prod.mk.injEq] at h
      rw [← h.2]

/-- A call that returns got the slot it asked for, and the counter has counted the request. -/
theorem hook_returns {call : HookCall} {st st' : HookState} {r : Addr}
    (h : hook call.env st call.symbol call.callback call.doTrampoline = .ok (r,st')) :
    (∀ a ∈ call.alloc st, a ≠ none) ∧
      st'.index = st.index+BitVec.ofNat 32 (call.alloc st).length := by
  obtain ⟨hs,hc,h⟩ := hook_ok h
  unfold HookCall.alloc
  by_cases hd : call.doTrampoline = true
  · rw [if_pos hd] at h
    rw [if_pos ⟨hs,hc,hd⟩]
    have hindex : (allocForTrampoline call.env.jit st.index).1 = st.index+1 := by
      unfold allocForTrampoline
      dsimp only
      split_ifs <;> rfl
    cases ha : allocForTrampoline call.env.jit st.index with
    | mk index a =>
      cases a with
      | none =>
        rw [ha] at h
        cases h
      | some v =>
        rw [ha] at h hindex
        exact ⟨by simp,(hookInto_index h).trans hindex⟩
  · rw [if_neg hd] at h
    rw [if_neg fun hall => hd hall.2.2]
    exact ⟨by simp,by simp [hookInto_index h]⟩

theorem alloc_kth {call : HookCall} {st : HookState} {k : ℕ} (hst : st.index = kthIndex k)
    (hk : k < 2^32) : call.alloc st = [] ∨ call.alloc st = [kthAlloc call.env.jit k] := by
  unfold HookCall.alloc
  rw [hst, allocForTrampoline_kth _ hk]
  split_ifs
  · exact Or.inr rfl
  · exact Or.inl rfl

theorem kthAlloc_some {jit : Claim} {k : ℕ} (h : kthAlloc jit k ≠ none) : k ≤ hookMax := by
  by_contra hk
  exact h (by simp only [kthAlloc, not_le.mp hk, ↓reduceIte])

/-- Over a run the requests are answered in order, from where the counter stands. -/
theorem hookRun_getElem? {jit : Claim} {calls : List HookCall}
    (hjit : ∀ call ∈ calls, call.env.jit = jit) {st : HookState} {k : ℕ}
    (hst : st.index = kthIndex k) (hk : k ≤ hookMax+1) (i : ℕ)
    (hi : i < (hookRun calls st).length) : (hookRun calls st)[i]? = some (kthAlloc jit (k+i)) := by
  have hmax : hookMax = 20 := rfl
  -- induction on the calls, with `k` requests behind the counter
  induction calls generalizing st k i with
  | nil => simp [hookRun] at hi
  | cons call calls ih =>
    have hj : call.env.jit = jit := hjit call (by simp)
    have ha := @alloc_kth call st k hst (by omega)
    rw [hj] at ha
    unfold hookRun at hi ⊢
    cases hh : hook call.env st call.symbol call.callback call.doTrampoline with
    | error e =>
      -- the run ends here, with at most the one request of this call
      rw [hh] at hi
      rcases ha with ha | ha
      · simp [ha] at hi
      · simp only [ha, List.length_singleton, Nat.lt_one_iff] at hi ⊢
        subst hi
        rfl
    | ok v =>
      obtain ⟨r,st'⟩ := v
      obtain ⟨hsome,hindex⟩ := hook_returns hh
      rw [hh] at hi
      dsimp only at hi ⊢
      rcases ha with ha | ha
      · rw [ha, List.nil_append] at hi ⊢
        rw [ha, hst] at hindex
        exact ih (fun c hc => hjit c (by simp [hc])) (by simpa using hindex) hk i hi
      · -- the call returned, so its request was answered, and the counter moves on
        have hle := kthAlloc_some (hsome _ (by rw [ha]; exact List.mem_singleton_self _))
        have hnext : st'.index = kthIndex (k+1) := by
          rw [hindex, ha, hst]
          unfold kthIndex
          simp only [List.length_singleton]
          bv_omega
        rw [ha, List.singleton_append] at hi ⊢
        cases i with
        | zero => rfl
        | succ i =>
          rw [List.length_cons] at hi
          rw [List.getElem?_cons_succ, Nat.add_comm i 1, ← Nat.add_assoc]
          exact ih (fun c hc => hjit c (by simp [hc])) hnext (by omega) i (by omega)

theorem regions_sep (a : Addr) {x y n : ℕ} (h : x+n ≤ y) (hy : y+n < 2^60) :
    Sep (wordAt a x) (4*n) (wordAt a y) (4*n) := by
  refine ⟨?_,?_⟩ <;> rw [wordAt_sub] <;> bv_omega

theorem slots_sep (a : Addr) {k l : ℕ} (hk : k < 20) (hl : l < 20) (h : k ≠ l) :
    Sep (wordAt a (trampolineSize*k)) 200 (wordAt a (trampolineSize*l)) 200 := by
  have ht : trampolineSize = 50 := rfl
  rw [ht]
  rcases Nat.lt_or_gt_of_ne h with hlt | hgt
  · exact @regions_sep a (50*k) (50*l) 50 (by omega) (by omega)
  · exact (@regions_sep a (50*l) (50*k) 50 (by omega) (by omega)).symm

/-- A run within the capacity hands out separate slots of the pool. -/
theorem poolSafe_of_le {jit : Claim} {allocs : List (Option (Addr × Addr))}
    (h : ∀ i < allocs.length, allocs[i]? = some (kthAlloc jit i)) (hl : allocs.length ≤ hookMax) :
    PoolSafe jit allocs := by
  have hmax : hookMax = 20 := rfl
  have hsize : 4*trampolineSize = 200 := rfl
  have hjitSize : jitSize = 4096 := rfl
  -- every request is answered with the slot of its number
  have hget (k : ℕ) (a : Option (Addr × Addr)) (hk : allocs[k]? = some a) :
      k < 20 ∧ a = some (wordAt jit.ro (trampolineSize*k),wordAt jit.rw (trampolineSize*k)) := by
    have hlt := (List.getElem?_eq_some_iff.mp hk).1
    rw [h k hlt, Option.some.injEq] at hk
    refine ⟨by omega,?_⟩
    rw [← hk, kthAlloc, if_neg (by omega)]
  refine ⟨?_,?_,?_⟩
  · intro k rx rw hk
    obtain ⟨hlt,ha⟩ := hget k _ hk
    rw [Option.some.injEq, Prod.mk.injEq] at ha
    refine ⟨4*(trampolineSize*k),?_,ha.1,ha.2⟩
    rw [← Nat.mul_assoc, hsize]
    omega
  · intro k l rx rw rx' rw' hne hk hl
    obtain ⟨hk20,hak⟩ := hget k _ hk
    obtain ⟨hl20,hal⟩ := hget l _ hl
    rw [Option.some.injEq, Prod.mk.injEq] at hak hal
    rw [hak.1, hak.2, hal.1, hal.2, hsize]
    exact ⟨slots_sep _ hk20 hl20 hne,slots_sep _ hk20 hl20 hne⟩
  · intro k r hk hfull
    obtain ⟨hlt,-⟩ := hget k _ hk
    have hcount : ((allocs.take k).filter Option.isSome).length ≤ k :=
      (List.length_filter_le _ _).trans (List.length_take_le _ _)
    rw [hsize] at hfull
    omega

/-- The request after the last slot is answered with words past the end of the pool. -/
theorem not_poolSafe_of_lt {jit : Claim} {allocs : List (Option (Addr × Addr))}
    (h : ∀ i < allocs.length, allocs[i]? = some (kthAlloc jit i)) (hl : hookMax < allocs.length) :
    ¬PoolSafe jit allocs := by
  intro hs
  have hlast := h hookMax hl
  rw [kthAlloc, if_neg (Nat.lt_irrefl _)] at hlast
  obtain ⟨offset,hoff,hro,-⟩ := hs.contained _ _ _ hlast
  have hsize : 4*trampolineSize = 200 := rfl
  have hjitSize : jitSize = 4096 := rfl
  have hpos : trampolineSize*hookMax = 1000 := rfl
  rw [hpos, wordAt] at hro
  have he : BitVec.ofNat 64 (4*1000) = BitVec.ofNat 64 offset := add_left_cancel hro
  bv_omega

theorem hookRun_initial {jit : Claim} {calls : List HookCall}
    (hjit : ∀ call ∈ calls, call.env.jit = jit) (m : Machine) (i : ℕ)
    (hi : i < (hookRun calls (HookState.initial m)).length) :
    (hookRun calls (HookState.initial m))[i]? = some (kthAlloc jit i) := by
  have h := @hookRun_getElem? jit calls hjit (HookState.initial m) 0 rfl (Nat.zero_le _) i hi
  rwa [Nat.zero_add] at h

/-- A run keeps to the pool exactly when it asks for no more slots than the pool has. -/
theorem poolSafe_iff {jit : Claim} {calls : List HookCall}
    (hjit : ∀ call ∈ calls, call.env.jit = jit) (m : Machine) :
    PoolSafe jit (hookRun calls (HookState.initial m)) ↔
      (hookRun calls (HookState.initial m)).length ≤ hookMax := by
  have h := hookRun_initial hjit m
  constructor
  · intro hs
    by_contra hl
    exact not_poolSafe_of_lt h (not_le.mp hl) hs
  · exact poolSafe_of_le h

section Mirror

theorem mirrorEnv_tr {l : ℕ} (hl : l < 2^20) :
    mirrorEnv.tr (wordAt 0x10020000 l) = wordAt 0x20000 l ∧
      mirrorEnv.tr (wordAt 0x20000 l) = wordAt 0x20000 l := by
  have h (a : Addr) := and_mask_toNat a 0x0fffffff 28 rfl
  refine ⟨BitVec.eq_of_toNat_eq ?_,BitVec.eq_of_toNat_eq ?_⟩ <;> refine (h _).trans ?_ <;>
    unfold wordAt <;> bv_omega

theorem slot_word_lt {k l : ℕ} (hk : k ≤ hookMax) (hl : l ≤ trampolineSize) :
    trampolineSize*k+l < 2^11 := by
  have hs : trampolineSize = 50 := rfl
  have hm : hookMax = 20 := rfl
  rw [hs] at hl ⊢
  omega

theorem wordAt_ne_zero {l : ℕ} (hl : l < 2^11) :
    wordAt 0x20000 l ≠ 0 ∧ wordAt 0x10020000 l ≠ 0 := by
  unfold wordAt
  exact ⟨by bv_omega,by bv_omega⟩

/-- The slot of the `k`-th request in the pool of `mirrorEnv`. -/
def mirrorSlotAt (k : ℕ) (hk : k ≤ hookMax) : Slot mirrorEnv.tr where
  rw := wordAt 0x10020000 (trampolineSize*k)
  rx := wordAt 0x20000 (trampolineSize*k)
  aligned := wordAt_aligned rfl _
  aliased l hl := by
    rw [wordAt_add, wordAt_add]
    exact (mirrorEnv_tr ((slot_word_lt hk hl.le).trans (by decide))).1
  executed l hl := by
    rw [wordAt_add]
    exact (mirrorEnv_tr ((slot_word_lt hk hl.le).trans (by decide))).2
  nonnull l hl := by
    rw [wordAt_add]
    exact (wordAt_ne_zero (slot_word_lt hk hl.le)).2
  placed := (wordAt_ne_zero (slot_word_lt hk (Nat.zero_le _))).1

/-- A near hook that asks for a trampoline. -/
def nearCall : HookCall := ⟨mirrorEnv,0x1000,0x2000,true⟩

theorem mirror_apart {k : ℕ} (hk : k ≤ hookMax) :
    Sep 0x1000 20 (wordAt 0x20000 (trampolineSize*k)) 200 := by
  have hlt := slot_word_lt hk (Nat.zero_le _)
  generalize trampolineSize*k = l at hlt
  unfold wordAt
  refine ⟨?_,?_⟩ <;> bv_omega

/-- In `mirrorEnv` a call for the `k`-th slot returns it. -/
theorem mirror_returns {h c : Addr} (m : Machine) {k : ℕ} (hk : k ≤ hookMax) (hh : h.toNat%4 = 0)
    (h0 : h ≠ 0) (c0 : c ≠ 0) (halias : mirrorEnv.Aliases h c)
    (hap : Sep h (4*patchCount h c) (mirrorSlotAt k hk).rx (4*trampolineSize)) :
    (allocForTrampoline mirrorEnv.jit (kthIndex k)).2 =
        some ((mirrorSlotAt k hk).rx,(mirrorSlotAt k hk).rw) ∧
      ∃ m', hook mirrorEnv ⟨m,kthIndex k⟩ h c true =
        .ok ((mirrorSlotAt k hk).rx,⟨m',kthIndex (k+1)⟩) := by
  have hm : hookMax = 20 := rfl
  have halloc : (allocForTrampoline mirrorEnv.jit (kthIndex k)).2 =
      some ((mirrorSlotAt k hk).rx,(mirrorSlotAt k hk).rw) := by
    rw [allocForTrampoline_kth _ (by omega), kthAlloc, if_neg (by omega)]
    rfl
  obtain ⟨m1,hfix,-⟩ := fixInstructions_overlay (halias.source hh (mirrorSlotAt k hk) hap) m
  have hhook := @hook_with mirrorEnv h c ⟨m,kthIndex k⟩ (mirrorSlotAt k hk) m1 h0 c0 halloc hfix
  rw [kthIndex_succ] at hhook
  exact ⟨halloc,_,hhook⟩

theorem nearCall_returns (m : Machine) {k : ℕ} (hk : k ≤ hookMax) :
    ∃ r m', hook mirrorEnv ⟨m,kthIndex k⟩ 0x1000 0x2000 true = .ok (r,⟨m',kthIndex (k+1)⟩) := by
  obtain ⟨-,m',h⟩ := @mirror_returns 0x1000 0x2000 m k hk (by decide) (by decide) (by decide)
    (fun i hi => by
      have hw : (windowSize 0x1000 0x2000).toNat = 4 := by decide
      obtain rfl : i = 0 := by omega
      decide)
    ((mirror_apart hk).mono (by decide) le_rfl)
  exact ⟨_,m',h⟩

theorem nearCall_alloc (m : Machine) {k : ℕ} (hk : k ≤ hookMax) :
    nearCall.alloc ⟨m,kthIndex k⟩ = [kthAlloc mirrorEnv.jit k] := by
  have hm : hookMax = 20 := rfl
  unfold HookCall.alloc
  rw [if_pos ⟨by decide,by decide,rfl⟩]
  exact congrArg (fun a => [Prod.snd a]) (@allocForTrampoline_kth mirrorEnv.jit k (by omega))

theorem hookRun_nearCall (n : ℕ) {k : ℕ} (m : Machine) (hk : k+n ≤ hookMax+1) :
    (hookRun (List.replicate n nearCall) ⟨m,kthIndex k⟩).length = n := by
  induction n generalizing k m with
  | zero => rfl
  | succ n ih =>
    have hk' : k ≤ hookMax := by omega
    have halloc := nearCall_alloc m hk'
    obtain ⟨r,m',hv⟩ := nearCall_returns m hk'
    have hnext := @ih (k+1) m' (by omega)
    rw [List.replicate_succ, hookRun, halloc]
    change (match hook mirrorEnv ⟨m,kthIndex k⟩ 0x1000 0x2000 true with
      | .ok (_,st') => [kthAlloc mirrorEnv.jit k]++hookRun (List.replicate n nearCall) st'
      | .error _ => [kthAlloc mirrorEnv.jit k]).length = n+1
    rw [hv]
    simp only [List.singleton_append, List.length_cons, hnext]

theorem replicate_jit (n : ℕ) : ∀ call ∈ List.replicate n nearCall, call.env.jit = mirrorEnv.jit := by
  intro call hc
  rw [List.eq_of_mem_replicate hc]
  rfl

/-- The pool serves a run that takes every slot. -/
theorem poolSafe_iff_full : PoolSafe mirrorEnv.jit
    (hookRun (List.replicate 20 nearCall) (HookState.initial ⟨fun _ => 0,[]⟩)) := by
  apply (poolSafe_iff (replicate_jit 20) _).mpr
  have hl := @hookRun_nearCall 20 0 ⟨fun _ => 0,[]⟩ (by decide)
  exact le_of_eq hl

/-- The twenty-first trampoline of a run is answered with words past the end of the pool. -/
theorem pool_overrun : ¬PoolSafe mirrorEnv.jit
    (hookRun (List.replicate 21 nearCall) (HookState.initial ⟨fun _ => 0,[]⟩)) := by
  apply not_poolSafe_of_lt (hookRun_initial (replicate_jit 21) _)
  have hl := @hookRun_nearCall 21 0 ⟨fun _ => 0,[]⟩ (by decide)
  exact lt_of_lt_of_eq (by decide) hl.symm

end Mirror

end Zeldar
