import Zeldar.HookInstall
import Zeldar.HookReplay
import Zeldar.Kernel

namespace Zeldar

/-- The events are stores, each at an address of the kind `P`. -/
def StoresAt (P : Addr → Prop) (log : List Event) : Prop :=
  ∀ e ∈ log, ∃ a, e = .write a ∧ P a

section StoresAt
variable {P Q : Addr → Prop} {log log' : List Event}

theorem storesAt_nil : StoresAt P [] := fun _ he => by cases he

theorem StoresAt.cons {a : Addr} (ha : P a) (h : StoresAt P log) :
    StoresAt P (.write a :: log) := by
  intro e he
  rcases List.mem_cons.mp he with rfl | he
  · exact ⟨a,rfl,ha⟩
  · exact h e he

theorem StoresAt.append (h : StoresAt P log) (h' : StoresAt P log') :
    StoresAt P (log++log') := by
  intro e he
  exact (List.mem_append.mp he).elim (h e) (h' e)

theorem StoresAt.mono (h : StoresAt P log) (hPQ : ∀ a, P a → Q a) : StoresAt Q log := by
  intro e he
  obtain ⟨a,rfl,ha⟩ := h e he
  exact ⟨a,rfl,hPQ a ha⟩

end StoresAt

/-- The words of a list are stored one after the other. -/
theorem storeWords_log (tr : Addr → Addr) (m : Machine) (a : Addr) (ws : List Word) :
    ∃ new, (m.storeWords tr a ws).log = new++m.log ∧
      StoresAt (fun b => ∃ k < ws.length, b = wordAt a k) new ∧
      ∀ w rest, ws = w :: rest → ∃ later, new = later++[.write a] := by
  induction ws generalizing m a with
  | nil => exact ⟨[],rfl,storesAt_nil,by simp⟩
  | cons w ws ih =>
    obtain ⟨new,hlog,hnew,-⟩ := ih (m.store32 tr a w) (wordAt a 1)
    refine ⟨new++[.write a],?_,?_,fun _ _ _ => ⟨new,rfl⟩⟩
    · rw [Machine.storeWords, hlog, List.append_assoc]
      rfl
    · apply StoresAt.append
      · apply hnew.mono
        rintro b ⟨k,hk,rfl⟩
        refine ⟨1+k,?_,wordAt_add ..⟩
        rw [List.length_cons]
        omega
      · refine storesAt_nil.cons ⟨0,?_,(wordAt_zero a).symm⟩
        rw [List.length_cons]
        omega

/-- Both output cursors have moved by `k` words, only stores have been made, and if the cursors
have moved, one of them where they were. -/
structure Emits (s s' : FixState) (k : ℕ) : Prop where
  outprw : s'.outprw = wordAt s.outprw k
  outprx : s'.outprx = wordAt s.outprx k
  log : ∃ new, s'.m.log = new++s.m.log ∧ StoresAt (fun _ => True) new ∧
    (0 < k → .write s.outprw ∈ new)

section Emits
variable {tr : Addr → Addr} {s s' s'' : FixState} {k l : ℕ}

theorem emits_of_eq (hm : s'.m = s.m) (hrw : s'.outprw = s.outprw) (hrx : s'.outprx = s.outprx) :
    Emits s s' 0 := by
  refine ⟨?_,?_,[],?_,storesAt_nil,fun h => absurd h (Nat.lt_irrefl 0)⟩
  · rw [hrw, wordAt_zero]
  · rw [hrx, wordAt_zero]
  · rw [hm, List.nil_append]

theorem Emits.trans (h : Emits s s' k) (h' : Emits s' s'' l) : Emits s s'' (k+l) := by
  obtain ⟨hrw,hrx,new,hlog,hstores,hat⟩ := h
  obtain ⟨hrw',hrx',new',hlog',hstores',hat'⟩ := h'
  refine ⟨?_,?_,new'++new,?_,hstores'.append hstores,?_⟩
  · rw [hrw', hrw, wordAt_add]
  · rw [hrx', hrx, wordAt_add]
  · rw [hlog', hlog, List.append_assoc]
  · intro hpos
    rcases Nat.eq_zero_or_pos k with rfl | hk
    · -- the first half has not moved, so the second starts at the same place
      rw [wordAt_zero] at hrw
      rw [← hrw]
      exact List.mem_append_left new (hat' (by omega))
    · exact List.mem_append_right new' (hat hk)

theorem emits_put (w : Word) : Emits s ((s.put tr 0 w).advance 1) 1 := by
  refine ⟨rfl,rfl,[.write s.outprw],?_,storesAt_nil.cons trivial,fun _ => List.mem_cons_self⟩
  show .write (wordAt s.outprw 0) :: s.m.log = _
  rw [wordAt_zero]
  rfl

theorem emits_emitWords (ws : List Word) : Emits s (s.emitWords tr ws) ws.length := by
  induction ws generalizing s with
  | nil => exact emits_of_eq rfl rfl rfl
  | cons w ws ih =>
    rw [emitWords_cons, List.length_cons, Nat.add_comm]
    exact (emits_put w).trans ih

theorem processEntries_log (ins : Addr) (fs : List FixInfo) (m : Machine) :
    ∃ new, (processEntries tr ins fs m).2.log = new++m.log ∧ StoresAt (fun _ => True) new := by
  induction fs generalizing m with
  | nil => exact ⟨[],rfl,storesAt_nil⟩
  | cons f fs ih =>
    rw [processEntries]
    split
    · exact ⟨[],rfl,storesAt_nil⟩
    · obtain ⟨new,hlog,hnew⟩ :=
        ih (m.store32 tr f.bprw (fixedWord (m.load32 tr f.bprx) ins f))
      refine ⟨new++[.write f.bprw],?_,hnew.append (storesAt_nil.cons trivial)⟩
      dsimp only
      rw [hlog, List.append_assoc]
      rfl

theorem emits_processFixMap (idx : Fin maxInstructions) : Emits s (s.processFixMap tr idx) 0 := by
  obtain ⟨new,hlog,hnew⟩ := @processEntries_log tr (s.ctx.dat idx).ins (s.ctx.dat idx).fmap s.m
  refine ⟨?_,?_,new,hlog,hnew,fun h => absurd h (Nat.lt_irrefl 0)⟩
  · rw [wordAt_zero]
    rfl
  · rw [wordAt_zero]
    rfl

/-- A plan emits its words. -/
theorem emits_perform (idx : Fin maxInstructions) (p : Plan) :
    Emits s (s.perform tr idx p) p.words.length := by
  have hrecord : Emits s (s.record idx p) 0 := by
    unfold FixState.record
    dsimp only
    split
    · exact emits_of_eq rfl rfl rfl
    · exact emits_of_eq rfl rfl rfl
  have hnext (t : FixState) : Emits t t.nextIn 0 := emits_of_eq rfl rfl rfl
  have h := ((hrecord.trans (@emits_emitWords tr _ p.words)).trans (hnext _)).trans
    (@emits_processFixMap tr _ idx)
  rwa [Nat.zero_add] at h

theorem emits_copyInstruction (idx : Fin maxInstructions) :
    Emits s (copyInstruction tr s idx) 1 := by
  have hreset : Emits s (s.resetCurrentIns idx s.outprx) 0 := emits_of_eq rfl rfl rfl
  have hfix := hreset.trans (@emits_processFixMap tr _ idx)
  have hnext (t : FixState) : Emits t t.nextIn 0 := emits_of_eq rfl rfl rfl
  exact (hfix.trans (@emits_put tr _ _)).trans (hnext _)

end Emits

section Lengths
variable {tr : Addr → Addr} {s : FixState} {idx : Fin maxInstructions} {p : Plan}

theorem length_of_ok {words : List Word} {ins : Addr} {forward : Option Forward} {n : ℕ}
    (h : (.ok ⟨words,ins,forward⟩ : Except Fault Plan) = .ok p) (hl : words.length ≤ n) :
    p.words.length ≤ n := by
  injection h with h
  rw [← h]
  exact hl

theorem referencePlan_length {target : Addr} {encode : Addr → Word} {ls : ℕ} {ad : Word}
    (h : referencePlan s idx target encode ls ad = .ok p) : p.words.length ≤ 1 := by
  obtain ⟨refIdx,_,h⟩ := bind_ok h
  split at h
  · exact length_of_ok h le_rfl
  · exact length_of_ok h le_rfl

theorem branchPlan_length {opc ins : Word} (h : branchPlan s idx opc ins = .ok p) :
    p.words.length ≤ 6 := by
  unfold branchPlan at h
  dsimp only at h
  split at h
  · exact (referencePlan_length h).trans (by decide)
  split at h
  · split at h
    · apply length_of_ok h
      simp only [List.length_append, nops_length, absoluteJump, List.length_cons, List.length_nil]
      split <;> omega
    · apply length_of_ok h
      simp only [List.length_append, nops_length, List.length_cons, List.length_nil]
      split <;> omega
  · apply length_of_ok h
    exact Nat.le_add_left 1 5

theorem condPlan_length {lmask ins : Word} (h : condPlan s idx lmask ins = .ok p) :
    p.words.length ≤ 7 := by
  unfold condPlan at h
  dsimp only at h
  split at h
  · exact (referencePlan_length h).trans (by decide)
  split at h
  · apply length_of_ok h
    simp only [List.length_append, nops_length, absoluteJump, List.length_cons, List.length_nil]
    split <;> omega
  · apply length_of_ok h
    exact Nat.le_add_left 1 6

theorem litMask_le {ins mask : Word} {faligned : BitVec 64}
    (h : litMask ins = some (mask,faligned)) : faligned.toNat ≤ 15 := by
  unfold litMask at h
  dsimp only at h
  split_ifs at h <;> injection h with h <;> rw [← (Prod.mk.inj h).2] <;> decide

theorem litPlan_length {mask : Word} {faligned : BitVec 64} {ins : Word}
    (hf : faligned.toNat ≤ 15) (h : litPlan tr s mask faligned ins = .ok p) :
    p.words.length ≤ 9 := by
  unfold litPlan at h
  dsimp only at h
  split at h
  · obtain ⟨pad,hpad,h⟩ := bind_ok h
    have hle := padCount_le hpad
    apply length_of_ok h
    simp only [List.length_append, nops_length, List.length_cons, List.length_nil, List.length_map,
      List.length_range]
    omega
  · obtain ⟨pad,hpad,h⟩ := bind_ok h
    have hle := padCount_le hpad
    apply length_of_ok h
    simp only [List.length_append, nops_length, List.length_cons, List.length_nil]
    omega

theorem adrPlan_length {ins : Word} (h : adrPlan s idx ins = .ok p) : p.words.length ≤ 5 := by
  unfold adrPlan at h
  dsimp only at h
  split at h
  · exact (referencePlan_length h).trans (by decide)
  split at h
  · apply length_of_ok h
    simp only [List.length_append, nops_length, addressLoad, List.length_cons, List.length_nil]
    split <;> omega
  · apply length_of_ok h
    exact Nat.le_add_left 1 4

theorem adrpPlan_length (ins : Word) : (adrpPlan s ins).words.length ≤ 5 := by
  unfold adrpPlan
  dsimp only
  split
  · exact Nat.le_add_left 1 4
  · split <;> simp only [List.length_append, nops_length, addressLoad, List.length_cons,
      List.length_nil] <;> omega

theorem instructionPlan_length (hplan : instructionPlan tr s idx = some (.ok p)) :
    p.words.length ≤ 9 := by
  unfold instructionPlan at hplan
  dsimp only at hplan
  split at hplan
  · injection hplan with hplan
    exact (branchPlan_length hplan).trans (by decide)
  split at hplan
  · injection hplan with hplan
    exact (condPlan_length hplan).trans (by decide)
  -- a literal load, or else an address computation
  rcases Option.or_eq_some_iff.mp hplan with hlit | ⟨-,hadr⟩
  · unfold loadlitPlan at hlit
    split at hlit
    · injection hlit with hlit
      exact length_of_ok hlit (Nat.zero_le 9)
    · obtain ⟨⟨mask,faligned⟩,hk,hlit⟩ := Option.map_eq_some_iff.mp hlit
      exact litPlan_length (litMask_le hk) hlit
  · unfold pcreladdrPlan at hadr
    split_ifs at hadr
    · injection hadr with hadr
      exact (adrPlan_length hadr).trans (by decide)
    · injection hadr with hadr
      injection hadr with hadr
      rw [← hadr]
      exact (adrpPlan_length _).trans (by decide)

end Lengths

section Loop
variable {tr : Addr → Addr} {s s' : FixState}

/-- The word is relocated by the first handler that knows it. -/
theorem fixInstruction_cases (h : fixInstruction tr s = .ok s') :
    fixBranchImm tr s = .ok (some s') ∨ fixCondCompTestBranch tr s = .ok (some s') ∨
      fixLoadlit tr s = .ok (some s') ∨ fixPcreladdr tr s = .ok (some s') ∨
      fixOther tr s = .ok s' := by
  -- a handler that does not know the word passes it on to the next
  obtain ⟨r,hbranch,h⟩ := bind_ok h
  cases r with
  | some t =>
    injection h with h
    rw [← h]
    exact Or.inl hbranch
  | none =>
    obtain ⟨r,hcond,h⟩ := bind_ok h
    cases r with
    | some t =>
      injection h with h
      rw [← h]
      exact Or.inr (Or.inl hcond)
    | none =>
      obtain ⟨r,hlit,h⟩ := bind_ok h
      cases r with
      | some t =>
        injection h with h
        rw [← h]
        exact Or.inr (Or.inr (Or.inl hlit))
      | none =>
        obtain ⟨r,hadr,h⟩ := bind_ok h
        cases r with
        | some t =>
          injection h with h
          rw [← h]
          exact Or.inr (Or.inr (Or.inr (Or.inl hadr)))
        | none => exact Or.inr (Or.inr (Or.inr (Or.inr h)))

/-- Every handler that relocates a word has asked for the index of its instruction. -/
theorem index_of_fixInstruction (h : fixInstruction tr s = .ok s') :
    ∃ idx, Context.index (s.ctx.getRefInsIndex s.inprx) = .ok idx := by
  cases hi : Context.index (s.ctx.getRefInsIndex s.inprx) with
  | ok idx => exact ⟨idx,rfl⟩
  | error e =>
    -- without an index no handler relocates the word
    have hset (outp : Addr) : s.getAndSetCurrentIndex s.inprx outp = .error e := by
      simp only [FixState.getAndSetCurrentIndex, Context.getAndSetCurrentIndex, hi]
      rfl
    rcases fixInstruction_cases h with h | h | h | h | h
    · unfold fixBranchImm at h
      simp only [hset, bind, Except.bind] at h
      split at h <;> cases h
    · unfold fixCondCompTestBranch at h
      simp only [hset, bind, Except.bind] at h
      split at h <;> cases h
    · unfold fixLoadlit at h
      simp only [hset, bind, Except.bind] at h
      split at h
      · cases h
      · split at h <;> cases h
    · unfold fixPcreladdr at h
      simp only [hset, bind, Except.bind] at h
      split_ifs at h
      all_goals cases h
    · unfold fixOther at h
      simp only [hset, bind, Except.bind] at h
      cases h

/-- One iteration emits nine words at most. -/
theorem emits_fixInstruction (h : fixInstruction tr s = .ok s') : ∃ k ≤ 9, Emits s s' k := by
  obtain ⟨idx,hidx⟩ := index_of_fixInstruction h
  rw [fixInstruction_eq s hidx] at h
  cases hplan : instructionPlan tr s idx with
  | none =>
    rw [hplan] at h
    injection h with h
    rw [← h]
    exact ⟨1,by decide,emits_copyInstruction idx⟩
  | some plan =>
    rw [hplan] at h
    cases plan with
    | error e => cases h
    | ok p =>
      injection h with h
      rw [← h]
      exact ⟨p.words.length,instructionPlan_length hplan,emits_perform idx p⟩

theorem emits_fixLoop {n : ℕ} (h : fixLoop tr n s = .ok s') : ∃ k ≤ 9*n, Emits s s' k := by
  induction n generalizing s with
  | zero =>
    injection h with h
    rw [← h]
    exact ⟨0,le_rfl,emits_of_eq rfl rfl rfl⟩
  | succ n ih =>
    obtain ⟨t,ht,h⟩ := bind_ok h
    obtain ⟨k,hk,hfirst⟩ := emits_fixInstruction ht
    obtain ⟨l,hl,hrest⟩ := ih h
    exact ⟨k+l,by omega,hfirst.trans hrest⟩

theorem jumpWords_pos (target a : Addr) : 0 < (jumpWords target a).length := by
  unfold jumpWords
  split_ifs <;> simp [nops, absoluteJump]

/-- The relocation stores at the start of the slot, and at its end cleans what it emitted. -/
theorem fixInstructions_log {m m' : Machine} {inprw inprx outrwp outrxp : Addr} {count : ℕ}
    (h : fixInstructions tr m inprw inprx count outrwp outrxp = .ok m') :
    ∃ k ≤ trampolineSize, ∃ new, m'.log = .clearCache outrwp (BitVec.ofNat 64 (4*k)) :: new++m.log ∧
      StoresAt (fun _ => True) new ∧ .write outrwp ∈ new := by
  unfold fixInstructions at h
  split at h
  · cases h
  rename_i hcount
  obtain ⟨t,ht,h⟩ := bind_ok h
  injection h with h
  obtain ⟨k,hk,hloop⟩ := emits_fixLoop ht
  have hlen := jumpWords_length t.inprx t.outprx
  have hback := @emits_emitWords tr t (jumpWords t.inprx t.outprx)
  obtain ⟨-,hrx,new,hlog,hnew,hat⟩ := hloop.trans hback
  refine ⟨k+(jumpWords t.inprx t.outprx).length,?_,new,?_,hnew,?_⟩
  · unfold trampolineSize maxInstructions at *
    omega
  · -- what is cleaned is as long as all that was emitted, but starts at the RW address
    rw [← h, fixJumpBack_eq]
    show Event.clearCache outrwp (FixState.outprx _-outrxp) :: Machine.log _ = _
    rw [hlog, hrx]
    show Event.clearCache outrwp (wordAt outrxp _-outrxp) :: (new++m.log) = _
    rw [wordAt, add_sub_cancel_left]
    rfl
  · exact hat (Nat.add_pos_right k (jumpWords_pos ..))

end Loop

section Call
variable {env : HookEnv} {m : Machine} {st st' : HookState} {symbol callback r : Addr}

/-- The maintenance at the end of a call, newest first. -/
def hookMaintenance (env : HookEnv) (symbol callback : Addr) : List Event :=
  let size := windowSize symbol callback
  [.icacheInvalidate env.jit.getAlignedRw env.jit.getAlignedSize,
    .dcacheFlush env.jit.getAlignedRw env.jit.getAlignedSize,
    .icacheInvalidate symbol size,.dcacheFlush (env.window symbol size) size,
    .clearCache symbol size]

/-- The patch is stored through the window before any of it. -/
theorem installed_log (env : HookEnv) (m : Machine) (symbol callback : Addr) :
    ∃ new, ((installed env m symbol callback).flushPages env.jit).log =
        hookMaintenance env symbol callback++(new++m.log) ∧
      StoresAt (fun a => ∃ k < patchCount symbol callback,
        a = wordAt (env.window symbol (windowSize symbol callback)) k) new := by
  obtain ⟨new,hlog,hnew,-⟩ := storeWords_log env.tr m
    (env.window symbol (windowSize symbol callback)) (jumpWords callback symbol)
  rw [jumpWords_length_eq] at hnew
  refine ⟨new,?_,hnew⟩
  rw [← hlog]
  rfl

/-- A call that returns has patched the machine that the relocation left, if there was one. -/
theorem hookInto_ok {index : BitVec 32} {rx rw : Addr}
    (h : hookInto env m symbol callback index rx rw = .ok (r,st')) :
    ∃ m1, st'.m = (installed env m1 symbol callback).flushPages env.jit ∧
      (rx = 0 → rw = 0 → m1 = m) ∧
      (rx ≠ 0 → rw ≠ 0 → fixInstructions env.tr m
        (env.window symbol (windowSize symbol callback)) symbol (patchCount symbol callback) rw rx =
          .ok m1) := by
  unfold hookInto at h
  rw [hookFuncImpl_eq] at h
  dsimp only at h
  have htramp (hrx : rx ≠ 0) (hrw : rw ≠ 0) :
      (if isFar symbol callback then rx else rw) ≠ 0 := by
    split
    · exact hrx
    · exact hrw
  generalize htr : (if isFar symbol callback then rx else rw) = tramp at h htramp
  unfold relocate at h
  by_cases h0 : tramp = 0
  · -- no slot, no relocation
    rw [if_pos h0] at h
    simp only [pure, Except.pure, Except.map, Except.ok.injEq, Prod.mk.injEq] at h
    rw [← h.2]
    exact ⟨m,rfl,fun _ _ => rfl,fun hrx hrw => absurd h0 (htramp hrx hrw)⟩
  · have hroom : ¬trampolineSize < patchCount symbol callback*10 := by
      have hc := patchCount_le symbol callback
      unfold trampolineSize
      omega
    rw [if_neg h0, if_neg hroom] at h
    -- the call returned, so the relocation did
    cases hfix : fixInstructions env.tr m (env.window symbol (windowSize symbol callback)) symbol
        (patchCount symbol callback) rw rx with
    | error e =>
      simp only [HookEnv.rwPages, hfix, bind, Except.bind, Except.map] at h
      cases h
    | ok m1 =>
      simp only [HookEnv.rwPages, hfix, bind, Except.bind, pure, Except.pure, Except.map,
        Except.ok.injEq, Prod.mk.injEq] at h
      rw [← h.2]
      refine ⟨m1,rfl,?_,fun _ _ => rfl⟩
      intro hrx hrw
      rw [hrx, hrw, ite_self] at htr
      exact absurd htr.symm h0

theorem hook_log_plain (h : hook env st symbol callback false = .ok (r,st')) :
    ∃ new, st'.m.log = hookMaintenance env symbol callback++(new++st.m.log) ∧
      StoresAt (fun a => ∃ k < patchCount symbol callback,
        a = wordAt (env.window symbol (windowSize symbol callback)) k) new := by
  have h := (hook_ok h).2.2
  rw [if_neg Bool.false_ne_true] at h
  obtain ⟨m1,hm,hplain,-⟩ := hookInto_ok h
  rw [hm, hplain rfl rfl]
  exact installed_log env st.m symbol callback

/-- Before the maintenance of a call that takes a slot come the stores of the patch, the cleaning
of the slot, and the stores of the relocation. -/
theorem hook_log_trampoline (h : hook env st symbol callback true = .ok (r,st')) :
    ∃ rx rw, (allocForTrampoline env.jit st.index).2 = some (rx,rw) ∧
      (rx ≠ 0 → rw ≠ 0 → ∃ k ≤ trampolineSize, ∃ patch reloc,
        st'.m.log = hookMaintenance env symbol callback++
          (patch++.clearCache rw (BitVec.ofNat 64 (4*k)) :: (reloc++st.m.log)) ∧
        StoresAt (fun _ => True) patch ∧ StoresAt (fun _ => True) reloc ∧ .write rw ∈ reloc) := by
  have h := (hook_ok h).2.2
  rw [if_pos rfl] at h
  cases halloc : allocForTrampoline env.jit st.index with
  | mk index slot =>
    rw [halloc] at h
    cases slot with
    | none => cases h
    | some v =>
      obtain ⟨rx,rw⟩ := v
      refine ⟨rx,rw,rfl,?_⟩
      intro hrx hrw
      obtain ⟨m1,hm,-,hfix⟩ := hookInto_ok h
      obtain ⟨k,hk,reloc,hreloc,hstores,hat⟩ := fixInstructions_log (hfix hrx hrw)
      obtain ⟨patch,hpatch,hpstores⟩ := installed_log env m1 symbol callback
      refine ⟨k,hk,patch,reloc,?_,hpstores.mono fun _ _ => trivial,hstores,hat⟩
      rw [hm, hpatch, hreloc]
      rfl

end Call

end Zeldar
