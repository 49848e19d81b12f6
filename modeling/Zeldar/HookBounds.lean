import Zeldar.HookLog

namespace Zeldar

/-- `insert_fix_map` finds a free entry. -/
def HasRoom (fmap : List FixInfo) : Prop := ∃ f ∈ fmap, f.bprw = 0

/-- No fix-up waits in the list. -/
def AllFree (fmap : List FixInfo) : Prop := ∀ f ∈ fmap, f.bprw = 0

/-- A list of fix-ups with at most `u` entries in use, each for one of the first `k` words that
are stored from `outrw` on. The free entries come last. -/
structure Entries (outrw : Addr) (k u : ℕ) (fmap : List FixInfo) : Prop where
  length : fmap.length = maxReferences
  used : fmap.countP (fun f => f.bprw != 0) ≤ u
  placed : ∀ f ∈ fmap, f.bprw ≠ 0 → ∃ p < k, f.bprw = wordAt outrw p
  ordered : fmap.Pairwise fun f g => f.bprw = 0 → g.bprw = 0

section Entries
variable {outrw : Addr} {k k' u : ℕ} {fmap : List FixInfo} {g : FixInfo}

theorem Entries.mono (h : Entries outrw k u fmap) (hk : k ≤ k') {u' : ℕ} (hu : u ≤ u') :
    Entries outrw k' u' fmap := by
  refine ⟨h.length,h.used.trans hu,?_,h.ordered⟩
  intro f hf hne
  obtain ⟨p,hp,he⟩ := h.placed f hf hne
  exact ⟨p,by omega,he⟩

theorem AllFree.entries (h : AllFree fmap) (hl : fmap.length = maxReferences) :
    Entries outrw k u fmap where
  length := hl
  used := by
    have hzero : fmap.countP (fun f => f.bprw != 0) = 0 := by
      apply List.countP_eq_zero.mpr
      intro f hf
      simp [h f hf]
    rw [hzero]
    exact Nat.zero_le u
  placed f hf hne := absurd (h f hf) hne
  ordered := List.pairwise_of_forall_mem_list fun _ _ g hg _ => h g hg

theorem Entries.hasRoom (h : Entries outrw k u fmap) (hu : u < maxReferences) : HasRoom fmap := by
  by_contra hfull
  have hall : ∀ f ∈ fmap, (fun f : FixInfo => f.bprw != 0) f = true := by
    intro f hf
    by_contra hne
    exact hfull ⟨f,hf,by simpa using hne⟩
  have hcount := List.countP_eq_length.mpr hall
  have hused := h.used
  rw [hcount, h.length] at hused
  omega

theorem mem_insertEntry {f : FixInfo} (h : f ∈ Context.insertEntry g fmap) :
    f = g ∨ f ∈ fmap := by
  induction fmap with
  | nil => cases h
  | cons e fs ih =>
    rw [Context.insertEntry] at h
    split_ifs at h
    · rcases List.mem_cons.mp h with rfl | h
      · exact Or.inl rfl
      · exact Or.inr (List.mem_cons_of_mem e h)
    · rcases List.mem_cons.mp h with rfl | h
      · exact Or.inr List.mem_cons_self
      · exact (ih h).imp_right (List.mem_cons_of_mem e)

theorem insertEntry_length : (Context.insertEntry g fmap).length = fmap.length := by
  induction fmap with
  | nil => rfl
  | cons e fs ih =>
    rw [Context.insertEntry]
    split_ifs
    · rfl
    · rw [List.length_cons, List.length_cons, ih]

/-- One more entry is in use at most. -/
theorem insertEntry_used : (Context.insertEntry g fmap).countP (fun f => f.bprw != 0) ≤
    fmap.countP (fun f => f.bprw != 0)+1 := by
  induction fmap with
  | nil => exact Nat.zero_le 1
  | cons e fs ih =>
    rw [Context.insertEntry]
    split_ifs
    · rw [List.countP_cons, List.countP_cons]
      split_ifs <;> omega
    · rw [List.countP_cons, List.countP_cons]
      omega

theorem insertEntry_ordered (h : fmap.Pairwise fun f g => f.bprw = 0 → g.bprw = 0) :
    (Context.insertEntry g fmap).Pairwise fun f g => f.bprw = 0 → g.bprw = 0 := by
  induction fmap with
  | nil => exact h
  | cons e fs ih =>
    obtain ⟨hhead,htail⟩ := List.pairwise_cons.mp h
    rw [Context.insertEntry]
    split_ifs with he
    · -- what follows the first free entry is free
      exact List.pairwise_cons.mpr ⟨fun f hf _ => hhead f hf he,htail⟩
    · exact List.pairwise_cons.mpr ⟨fun f _ h0 => absurd h0 he,ih htail⟩

theorem Entries.insert (h : Entries outrw k u fmap) (hk : k ≤ k') {p : ℕ} (hp : p < k')
    (hg : g.bprw = wordAt outrw p) : Entries outrw k' (u+1) (Context.insertEntry g fmap) := by
  refine ⟨insertEntry_length.trans h.length,?_,?_,insertEntry_ordered h.ordered⟩
  · have hused := h.used
    have hins := @insertEntry_used fmap g
    omega
  · intro f hf hne
    rcases mem_insertEntry hf with rfl | hf
    · exact ⟨p,hp,hg⟩
    · exact (h.mono hk le_rfl).placed f hf hne

/-- What is requested is recorded, where there is room. -/
theorem HasRoom.recorded (h : HasRoom fmap) : g ∈ Context.insertEntry g fmap := by
  induction fmap with
  | nil =>
    obtain ⟨f,hf,-⟩ := h
    cases hf
  | cons e fs ih =>
    obtain ⟨f,hf,h0⟩ := h
    rw [Context.insertEntry]
    split_ifs with he
    · exact List.mem_cons_self
    · apply List.mem_cons_of_mem
      apply ih
      rcases List.mem_cons.mp hf with rfl | hf
      · exact absurd h0 he
      · exact ⟨f,hf,h0⟩

theorem processEntries_length (tr : Addr → Addr) (ins : Addr) (m : Machine) :
    (processEntries tr ins fmap m).1.length = fmap.length := by
  induction fmap generalizing m with
  | nil => rfl
  | cons f fs ih =>
    rw [processEntries]
    split_ifs
    · rfl
    · rw [List.length_cons, List.length_cons, ih]

/-- Processing stops at the first free entry, so it frees them all. -/
theorem processEntries_allFree (tr : Addr → Addr) (ins : Addr) (m : Machine)
    (h : fmap.Pairwise fun f g => f.bprw = 0 → g.bprw = 0) :
    AllFree (processEntries tr ins fmap m).1 := by
  induction fmap generalizing m with
  | nil =>
    intro f hf
    cases hf
  | cons f fs ih =>
    obtain ⟨hhead,htail⟩ := List.pairwise_cons.mp h
    rw [processEntries]
    split_ifs with h0
    · intro e he
      rcases List.mem_cons.mp he with rfl | he
      · exact h0
      · exact hhead e he h0
    · intro e he
      rcases List.mem_cons.mp he with rfl | he
      · rfl
      · exact ih _ htail e he

/-- Processing stores at the words that the entries in use are for. -/
theorem processEntries_stores (tr : Addr → Addr) (ins : Addr) (m : Machine) {P : Addr → Prop}
    (hp : ∀ f ∈ fmap, f.bprw ≠ 0 → P f.bprw) :
    ∃ new, (processEntries tr ins fmap m).2.log = new++m.log ∧ StoresAt P new := by
  induction fmap generalizing m with
  | nil => exact ⟨[],rfl,storesAt_nil⟩
  | cons f fs ih =>
    rw [processEntries]
    split_ifs with h0
    · exact ⟨[],rfl,storesAt_nil⟩
    · obtain ⟨new,hlog,hnew⟩ := ih (m.store32 tr f.bprw (fixedWord (m.load32 tr f.bprx) ins f))
        fun e he => hp e (List.mem_cons_of_mem f he)
      refine ⟨new++[.write f.bprw],?_,?_⟩
      · dsimp only
        rw [hlog, List.append_assoc]
        rfl
      · apply hnew.append
        exact storesAt_nil.cons (hp f List.mem_cons_self h0)

end Entries

section Forward
variable {tr : Addr → Addr} {rx : Addr} {n i : ℕ} {s : FixState} {idx : Fin maxInstructions}
  {p : Plan}

/-- The plan waits for a word of the range, if for any. -/
def Plan.Within (p : Plan) (n : ℕ) : Prop := ∀ f ∈ p.forward, (f.refIdx : ℕ) < n

theorem within_of_none {words : List Word} {ins : Addr}
    (h : (.ok ⟨words,ins,none⟩ : Except Fault Plan) = .ok p) : p.Within n := by
  injection h with h
  rw [← h]
  intro f hf
  cases hf

theorem referencePlan_within {target : Addr} {encode : Addr → Word} {ls : ℕ} {ad : Word}
    (ht : s.ctx.getRefInsIndex target < n)
    (h : referencePlan s idx target encode ls ad = .ok p) : p.Within n := by
  obtain ⟨refIdx,hidx,h⟩ := bind_ok h
  split at h
  · exact within_of_none h
  · injection h with h
    rw [← h]
    intro f hf
    cases hf
    unfold Context.index at hidx
    split_ifs at hidx
    injection hidx with hidx
    rw [← hidx]
    exact ht

variable (h : Located rx n i s)
include h

theorem Located.refIndex_lt {t : Addr} (ht : s.ctx.isInFixingRange t = true) :
    s.ctx.getRefInsIndex t < n := by
  have hr := h.range ht
  unfold Context.getRefInsIndex
  rw [h.basep]
  omega

theorem Located.instructionPlan_within
    (hplan : instructionPlan tr s idx = some (.ok p)) : p.Within n := by
  unfold instructionPlan at hplan
  dsimp only at hplan
  split at hplan
  · injection hplan with hplan
    unfold branchPlan at hplan
    dsimp only at hplan
    split at hplan
    · rename_i hr
      exact referencePlan_within (h.refIndex_lt hr) hplan
    · split_ifs at hplan <;> exact within_of_none hplan
  split at hplan
  · injection hplan with hplan
    unfold condPlan at hplan
    dsimp only at hplan
    split at hplan
    · rename_i hr
      exact referencePlan_within (h.refIndex_lt hr) hplan
    · split_ifs at hplan <;> exact within_of_none hplan
  -- no literal load refers to a later word, and of the address computations only `ADR` does
  rcases Option.or_eq_some_iff.mp hplan with hlit | ⟨-,hadr⟩
  · unfold loadlitPlan at hlit
    split at hlit
    · injection hlit with hlit
      exact within_of_none hlit
    · obtain ⟨⟨mask,faligned⟩,-,hlit⟩ := Option.map_eq_some_iff.mp hlit
      unfold litPlan at hlit
      dsimp only at hlit
      split at hlit
      · obtain ⟨pad,-,hlit⟩ := bind_ok hlit
        exact within_of_none hlit
      · obtain ⟨pad,-,hlit⟩ := bind_ok hlit
        exact within_of_none hlit
  · unfold pcreladdrPlan at hadr
    split_ifs at hadr
    · injection hadr with hadr
      unfold adrPlan at hadr
      dsimp only at hadr
      split at hadr
      · rename_i hr
        have hb : s.ctx.basep.toNat%4 = 0 := by
          rw [h.basep]
          exact h.base_aligned
        apply referencePlan_within _ hadr
        rw [refIndex_align hb]
        exact h.refIndex_lt hr
      · split_ifs at hadr <;> exact within_of_none hadr
    · injection hadr with hadr
      unfold adrpPlan at hadr
      dsimp only at hadr
      split_ifs at hadr <;> exact within_of_none hadr

/-- What an iteration performs refers to words of the range only. -/
theorem Located.stepPlan_within (hp : stepPlan tr s idx = .ok p) : p.Within n := by
  unfold stepPlan at hp
  split at hp
  · rename_i plan hplan
    rw [hp] at hplan
    exact h.instructionPlan_within hplan
  · exact within_of_none hp

end Forward

/-- The loop after `i` of `n` words, with `k` words emitted and the log `old` at its start. The
fix-ups that wait are for later words. -/
structure Bounded (inprw inprx outrw outrx : Addr) (old : List Event) (n i k : ℕ)
    (s : FixState) : Prop where
  located : Located inprx n i s
  inprw : s.inprw = wordAt inprw i
  outprw : s.outprw = wordAt outrw k
  outprx : s.outprx = wordAt outrx k
  small : k ≤ 9*i
  entries : ∀ j, Entries outrw k i (s.ctx.dat j).fmap
  waiting : ∀ j : Fin maxInstructions, j < i ∨ n ≤ j → AllFree (s.ctx.dat j).fmap
  log : ∃ new, s.m.log = new++old ∧ StoresAt (fun a => ∃ p < k, a = wordAt outrw p) new

section Step
variable {tr : Addr → Addr} {inprw inprx outrw outrx : Addr} {old : List Event} {n i k : ℕ}
  {s : FixState}

/-- Emitting words stores at the words that follow the cursor. -/
theorem emitWords_log (ws : List Word) (s : FixState) : ∃ new,
    (s.emitWords tr ws).m.log = new++s.m.log ∧
      StoresAt (fun a => ∃ p < ws.length, a = wordAt s.outprw p) new := by
  induction ws generalizing s with
  | nil => exact ⟨[],rfl,storesAt_nil⟩
  | cons w ws ih =>
    obtain ⟨new,hlog,hnew⟩ := ih ((s.put tr 0 w).advance 1)
    rw [emitWords_cons, List.length_cons]
    refine ⟨new++[.write s.outprw],?_,?_⟩
    · rw [hlog, List.append_assoc]
      change new++.write (wordAt s.outprw 0) :: s.m.log = _
      rw [wordAt_zero]
      rfl
    · apply StoresAt.append
      · apply hnew.mono
        rintro a ⟨p,hp,rfl⟩
        refine ⟨1+p,by omega,?_⟩
        exact wordAt_add s.outprw 1 p
      · exact storesAt_nil.cons ⟨0,by omega,(wordAt_zero _).symm⟩

theorem storesAt_shift {b : Addr} {p q : ℕ} {new : List Event} (hs : b = wordAt outrw p)
    (h : StoresAt (fun a => ∃ j < q, a = wordAt b j) new) :
    StoresAt (fun a => ∃ j < p+q, a = wordAt outrw j) new := by
  apply h.mono
  rintro a ⟨j,hj,rfl⟩
  exact ⟨p+j,by omega,by rw [hs, wordAt_add]⟩

theorem storesAt_le {p q : ℕ} {new : List Event} (hpq : p ≤ q)
    (h : StoresAt (fun a => ∃ j < p, a = wordAt outrw j) new) :
    StoresAt (fun a => ∃ j < q, a = wordAt outrw j) new := by
  apply h.mono
  rintro a ⟨j,hj,rfl⟩
  exact ⟨j,by omega,rfl⟩

theorem allFree_replicate : AllFree (List.replicate maxReferences FixInfo.null) := by
  intro f hf
  rw [List.eq_of_mem_replicate hf]
  rfl

theorem bounded_start (m : Machine) (hn : n ≤ maxInstructions) (hin : inprx.toNat%4 = 0)
    (hout : outrx.toNat%4 = 0) : Bounded inprw inprx outrw outrx m.log n 0 0
      (fixStart m inprw inprx n outrw outrx) where
  located := ⟨rfl,rfl,(wordAt_zero _).symm,hin,hout,hn⟩
  inprw := (wordAt_zero _).symm
  outprw := (wordAt_zero _).symm
  outprx := (wordAt_zero _).symm
  small := le_rfl
  entries _ := allFree_replicate.entries List.length_replicate
  waiting _ _ := allFree_replicate
  log := ⟨[],rfl,storesAt_nil⟩

/-- The fix-ups of a state whose next word has been recorded: as many words and fix-ups as
after it, but those that wait for it are still there. -/
structure Recorded (outrw : Addr) (n i k : ℕ) (t : FixState) : Prop where
  entries : ∀ j, Entries outrw k (i+1) (t.ctx.dat j).fmap
  waiting : ∀ j : Fin maxInstructions, j < i ∨ n ≤ j → AllFree (t.ctx.dat j).fmap

/-- `process_fix_map` fills in what waits for word `i`. -/
theorem Recorded.process {t : FixState} (h : Recorded outrw n i k t) (hi : i < maxInstructions) :
    (∀ j, Entries outrw k (i+1) ((t.processFixMap tr ⟨i,hi⟩).ctx.dat j).fmap) ∧
      (∀ j : Fin maxInstructions, j < i+1 ∨ n ≤ j →
        AllFree ((t.processFixMap tr ⟨i,hi⟩).ctx.dat j).fmap) ∧
      ∃ new, (t.processFixMap tr ⟨i,hi⟩).m.log = new++t.m.log ∧
        StoresAt (fun a => ∃ p < k, a = wordAt outrw p) new := by
  rw [processFixMap_eq]
  dsimp only
  have hfree := processEntries_allFree tr (t.ctx.dat ⟨i,hi⟩).ins t.m (h.entries ⟨i,hi⟩).ordered
  have hlen := (processEntries_length tr (t.ctx.dat ⟨i,hi⟩).ins t.m).trans
    (h.entries ⟨i,hi⟩).length
  -- the entries of the word itself are used up, those of the others stay
  refine ⟨?_,?_,processEntries_stores tr _ _ (h.entries ⟨i,hi⟩).placed⟩
  · intro j
    by_cases hj : j = ⟨i,hi⟩
    · subst hj
      rw [Function.update_self]
      exact hfree.entries hlen
    · rw [Function.update_of_ne hj]
      exact h.entries j
  · intro j hlt
    by_cases hj : j = ⟨i,hi⟩
    · subst hj
      rw [Function.update_self]
      exact hfree
    · rw [Function.update_of_ne hj]
      apply h.waiting j
      have hne : (j : ℕ) ≠ i := fun he => hj (Fin.ext he)
      omega

theorem dat_resetCurrentIns (s : FixState) (idx j : Fin maxInstructions) (a : Addr) :
    ((s.resetCurrentIns idx a).ctx.dat j).fmap = (s.ctx.dat j).fmap := by
  by_cases hj : j = idx
  · subst hj
    simp [FixState.resetCurrentIns, Context.resetCurrentIns]
  · simp [FixState.resetCurrentIns, Context.resetCurrentIns, hj]

/-- Recording a plan keeps the lists within their bounds: the word that is to be filled in is
the first one that the plan emits. -/
theorem Bounded.record (h : Bounded inprw inprx outrw outrx old n i k s)
    (hi : i < maxInstructions) {p : Plan} (hv : p.Valid ⟨i,hi⟩) (hw : p.Within n) :
    Recorded outrw n i (k+p.words.length) (s.record ⟨i,hi⟩ p) := by
  obtain ⟨words,ins,forward⟩ := p
  cases forward with
  | none =>
    refine ⟨?_,?_⟩
    · intro j
      dsimp only [FixState.record]
      rw [dat_resetCurrentIns]
      exact (h.entries j).mono (Nat.le_add_right k _) (Nat.le_succ i)
    · intro j hj
      dsimp only [FixState.record]
      rw [dat_resetCurrentIns]
      exact h.waiting j hj
  | some f =>
    -- the entry goes into the list of an instruction that is still to come
    obtain ⟨hlater,hone⟩ := hv.forward f rfl
    have hrange := hw f rfl
    dsimp only at hone
    refine ⟨?_,?_⟩
    · intro j
      dsimp only [FixState.record, FixState.insertFixMap, Context.insertFixMap]
      by_cases hj : j = f.refIdx
      · subst hj
        rw [Function.update_self]
        dsimp only
        rw [dat_resetCurrentIns]
        apply (h.entries f.refIdx).insert (Nat.le_add_right k _)
        · show k < k+words.length
          omega
        · exact h.outprw
      · rw [Function.update_of_ne hj, dat_resetCurrentIns]
        exact (h.entries j).mono (Nat.le_add_right k _) (Nat.le_succ i)
    · intro j hj
      -- a list that has to be empty is not the one that grows
      have hne : j ≠ f.refIdx := by
        rintro rfl
        have hlt : i < (f.refIdx : ℕ) := hlater
        omega
      dsimp only [FixState.record, FixState.insertFixMap, Context.insertFixMap]
      rw [Function.update_of_ne hne, dat_resetCurrentIns]
      exact h.waiting j hj

/-- What an iteration has to leave, whichever way it does it. -/
theorem Bounded.next (h : Bounded inprw inprx outrw outrx old n i k s) {t : FixState} {l : ℕ}
    (hl : l ≤ 9) (hinprw : t.inprw = wordAt s.inprw 1) (hinprx : t.inprx = wordAt s.inprx 1)
    (houtprw : t.outprw = wordAt s.outprw l) (houtprx : t.outprx = wordAt s.outprx l)
    (hbasep : t.ctx.basep = s.ctx.basep) (hendp : t.ctx.endp = s.ctx.endp)
    (hentries : ∀ j, Entries outrw (k+l) (i+1) (t.ctx.dat j).fmap)
    (hwaiting : ∀ j : Fin maxInstructions, j < i+1 ∨ n ≤ j → AllFree (t.ctx.dat j).fmap)
    (hlog : ∃ new, t.m.log = new++s.m.log ∧ StoresAt (fun a => ∃ p < k+l, a = wordAt outrw p) new) :
    Bounded inprw inprx outrw outrx old n (i+1) (k+l) t where
  located := {
    basep := hbasep.trans h.located.basep
    endp := hendp.trans h.located.endp
    inprx := by rw [hinprx, h.located.inprx, wordAt_add]
    base_aligned := h.located.base_aligned
    outprx_aligned := by
      rw [houtprx]
      exact wordAt_aligned h.located.outprx_aligned l
    count := h.located.count }
  inprw := by rw [hinprw, h.inprw, wordAt_add]
  outprw := by rw [houtprw, h.outprw, wordAt_add]
  outprx := by rw [houtprx, h.outprx, wordAt_add]
  small := by
    have hs := h.small
    omega
  entries := hentries
  waiting := hwaiting
  log := by
    obtain ⟨new,hnew,hstores⟩ := hlog
    obtain ⟨before,hbefore,hstored⟩ := h.log
    -- the newest entry of the log comes first
    refine ⟨new++before,?_,?_⟩
    · rw [hnew, hbefore, List.append_assoc]
    · exact hstores.append (storesAt_le (Nat.le_add_right k l) hstored)

/-- A plan is performed within the words it adds. -/
theorem Bounded.perform (h : Bounded inprw inprx outrw outrx old n i k s)
    (hi : i < maxInstructions) {p : Plan} (hv : p.Valid ⟨i,hi⟩) (hw : p.Within n) :
    Bounded inprw inprx outrw outrx old n (i+1) (k+p.words.length)
      (s.perform tr ⟨i,hi⟩ p) := by
  obtain ⟨hm,hinrw,hinrx,houtrw,houtrx,hbase,hend⟩ := record_fields s ⟨i,hi⟩ p
  obtain ⟨emitted,hlog,hwords⟩ := @emitWords_log tr p.words (s.record ⟨i,hi⟩ p)
  obtain ⟨heinrw,heinrx,hectx,heoutrw⟩ := @emitWords_fields tr (s.record ⟨i,hi⟩ p) p.words
  have heoutrx := @emitWords_outprx tr (s.record ⟨i,hi⟩ p) p.words
  rw [houtrw, h.outprw] at hwords
  unfold FixState.perform
  generalize (s.record ⟨i,hi⟩ p).emitWords tr p.words = e at hlog heinrw heinrx hectx heoutrw heoutrx
  -- the lists are those of the recorded state, since emitting does not touch them
  have hrec : Recorded outrw n i (k+p.words.length) e.nextIn := by
    obtain ⟨hentries,hwaiting⟩ := h.record hi hv hw
    rw [← hectx] at hentries hwaiting
    exact ⟨hentries,hwaiting⟩
  obtain ⟨hentries,hwaiting,filled,hflog,hfilled⟩ := @Recorded.process tr _ _ _ _ _ hrec hi
  apply h.next hv.length
  · show wordAt e.inprw 1 = _
    rw [heinrw, hinrw]
  · show wordAt e.inprx 1 = _
    rw [heinrx, hinrx]
  · show e.outprw = _
    rw [heoutrw, houtrw]
  · show e.outprx = _
    rw [heoutrx, houtrx]
  · show e.ctx.basep = _
    rw [hectx, hbase]
  · show e.ctx.endp = _
    rw [hectx, hend]
  · exact hentries
  · exact hwaiting
  · refine ⟨filled++emitted,?_,?_⟩
    · rw [hflog, List.append_assoc, ← hm, ← hlog]
      rfl
    · exact hfilled.append (storesAt_shift rfl hwords)

/-- A copied word is one word more. -/
theorem Bounded.copyInstruction (h : Bounded inprw inprx outrw outrx old n i k s)
    (hi : i < maxInstructions) :
    Bounded inprw inprx outrw outrx old n (i+1) (k+1) (copyInstruction tr s ⟨i,hi⟩) := by
  have hrec : Recorded outrw n i k (s.resetCurrentIns ⟨i,hi⟩ s.outprx) := by
    refine ⟨?_,?_⟩
    · intro j
      rw [dat_resetCurrentIns]
      exact (h.entries j).mono le_rfl (Nat.le_succ i)
    · intro j hj
      rw [dat_resetCurrentIns]
      exact h.waiting j hj
  obtain ⟨hentries,hwaiting,filled,hflog,hfilled⟩ := @Recorded.process tr _ _ _ _ _ hrec hi
  -- one word is emitted, after the fix-ups that wait for it
  unfold Zeldar.copyInstruction
  apply h.next (by decide : 1 ≤ 9)
  · rfl
  · rfl
  · rfl
  · rfl
  · rfl
  · rfl
  · intro j
    exact (hentries j).mono (Nat.le_succ k) le_rfl
  · exact hwaiting
  · refine ⟨.write s.outprw :: filled,?_,?_⟩
    · show Event.write (wordAt s.outprw 0) :: Machine.log _ = _
      rw [hflog, wordAt_zero]
      rfl
    · apply (storesAt_le (Nat.le_succ k) hfilled).cons
      exact ⟨k,Nat.lt_succ_self k,h.outprw⟩

/-- One iteration returns, within its plan. -/
theorem Bounded.step (h : Bounded inprw inprx outrw outrx old n i k s) (hi : i < maxInstructions) :
    ∃ l s', fixInstruction tr s = .ok s' ∧
      Bounded inprw inprx outrw outrx old n (i+1) (k+l) s' := by
  obtain ⟨p,hp,hv⟩ := @Located.stepPlan_ok tr _ _ _ _ h.located hi
  have hw := h.located.stepPlan_within hp
  rw [fixInstruction_eq s (h.located.index hi)]
  unfold stepPlan at hp
  cases hplan : instructionPlan tr s ⟨i,hi⟩ with
  | some plan =>
    simp only [hplan] at hp
    rw [hp]
    exact ⟨_,_,rfl,h.perform hi hv hw⟩
  | none => exact ⟨1,_,rfl,h.copyInstruction hi⟩

end Step

section Run
variable {tr : Addr → Addr} {m : Machine} {inprw inprx outrw outrx : Addr} {n : ℕ}

/-- The loop reaches every word within its bounds. -/
theorem loopState_bounded (hn : n ≤ maxInstructions) (hin : inprx.toNat%4 = 0)
    (hout : outrx.toNat%4 = 0) {i : ℕ} (hi : i ≤ n) :
    fixLoop tr i (fixStart m inprw inprx n outrw outrx) =
        .ok (loopState tr (fixStart m inprw inprx n outrw outrx) i) ∧
      ∃ k, Bounded inprw inprx outrw outrx m.log n i k
        (loopState tr (fixStart m inprw inprx n outrw outrx) i) := by
  induction i with
  | zero => exact ⟨rfl,0,bounded_start m hn hin hout⟩
  | succ i ih =>
    obtain ⟨hs,k,hb⟩ := ih (by omega)
    obtain ⟨l,s',hstep,hb'⟩ := @Bounded.step tr _ _ _ _ _ _ _ _ _ hb (by omega)
    have hs' : fixLoop tr (i+1) (fixStart m inprw inprx n outrw outrx) = .ok s' := by
      rw [fixLoop_succ, hs]
      exact hstep
    have hstate : loopState tr (fixStart m inprw inprx n outrw outrx) (i+1) = s' := by
      rw [loopState, hs']
    rw [hstate]
    exact ⟨hs',k+l,hb'⟩

/-- The jump back stays within five words more. -/
theorem Bounded.jumpBack {old : List Event} {i k : ℕ} {s : FixState}
    (h : Bounded inprw inprx outrw outrx old n i k s) :
    ∃ total ≤ k+5, (fixJumpBack tr s).outprw = wordAt outrw total ∧
      (fixJumpBack tr s).outprx = wordAt outrx total ∧
      ∃ new, (fixJumpBack tr s).m.log = new++old ∧
        StoresAt (fun a => ∃ p < total, a = wordAt outrw p) new := by
  have hlen := jumpWords_length s.inprx s.outprx
  obtain ⟨emitted,hlog,hwords⟩ := @emitWords_log tr (jumpWords s.inprx s.outprx) s
  obtain ⟨before,hbefore,hstored⟩ := h.log
  have hrw := (@emitWords_fields tr s (jumpWords s.inprx s.outprx)).2.2.2
  have hrx := @emitWords_outprx tr s (jumpWords s.inprx s.outprx)
  rw [fixJumpBack_eq]
  generalize jumpWords s.inprx s.outprx = ws at hlen hlog hwords hrw hrx
  refine ⟨k+ws.length,by omega,?_,?_,emitted++before,?_,?_⟩
  · rw [hrw, h.outprw, wordAt_add]
  · rw [hrx, h.outprx, wordAt_add]
  · rw [hlog, hbefore, List.append_assoc]
  · apply (storesAt_shift h.outprw hwords).append
    exact storesAt_le (Nat.le_add_right k ws.length) hstored

/-- A relocation of at most `MaxInstructions` words returns. Both output cursors move together;
every fix-up that is asked for finds a free entry, and none waits when the loop ends; what is
stored, the jump back included, are words of the slot. -/
theorem relocation_bounded (tr : Addr → Addr) (m : Machine) {inprw inprx outrw outrx : Addr}
    {count : ℕ} (hcount : count ≤ maxInstructions) (hin : inprx.toNat%4 = 0)
    (hout : outrx.toNat%8 = 0) :
    ∃ (st : ℕ → FixState) (m' : Machine) (total : ℕ),
      (∀ i ≤ count, fixLoop tr i (fixStart m inprw inprx count outrw outrx) = .ok (st i) ∧
        (st i).inprw = wordAt inprw i ∧ (st i).inprx = wordAt inprx i ∧
        ∃ k, (st i).outprw = wordAt outrw k ∧ (st i).outprx = wordAt outrx k) ∧
      (∀ i < count, ∀ idx a j, HasRoom (((st i).resetCurrentIns idx a).ctx.dat j).fmap) ∧
      (∀ j, AllFree ((st count).ctx.dat j).fmap) ∧
      fixInstructions tr m inprw inprx count outrw outrx = .ok m' ∧
      (fixJumpBack tr (st count)).outprw = wordAt outrw total ∧
      (fixJumpBack tr (st count)).outprx = wordAt outrx total ∧
      total ≤ trampolineSize ∧
      ∃ new, m'.log = .clearCache outrw (BitVec.ofNat 64 (4*total)) :: new++m.log ∧
        StoresAt (fun a => ∃ p < total, a = wordAt outrw p) new := by
  have hloop {i : ℕ} (hi : i ≤ count) :=
    @loopState_bounded tr m inprw inprx outrw outrx count hcount hin (by omega) i hi
  obtain ⟨hend,k,hbounded⟩ := hloop le_rfl
  obtain ⟨total,htotal,hrw,hrx,new,hlog,hnew⟩ := @Bounded.jumpBack tr _ _ _ _ _ _ _ _ _ hbounded
  have hrun : fixInstructions tr m inprw inprx count outrw outrx =
      .ok ((fixJumpBack tr (loopState tr (fixStart m inprw inprx count outrw outrx) count)).m.record
        (.clearCache outrw (BitVec.ofNat 64 (4*total)))) := by
    have hc : ¬maxInstructions < count := by omega
    unfold fixInstructions
    rw [if_neg hc, hend]
    show Except.ok (Machine.record _ (.clearCache outrw (FixState.outprx _-outrx))) = _
    rw [hrx, wordAt, add_sub_cancel_left]
  refine ⟨loopState tr (fixStart m inprw inprx count outrw outrx),_,total,?_,?_,?_,hrun,hrw,hrx,
    ?_,new,?_,hnew⟩
  · intro i hi
    obtain ⟨hs,l,hb⟩ := hloop hi
    exact ⟨hs,hb.inprw,hb.located.inprx,l,hb.outprw,hb.outprx⟩
  · intro i hi idx a j
    -- each word before this one uses one entry at most
    obtain ⟨-,l,hb⟩ := hloop hi.le
    rw [dat_resetCurrentIns]
    apply (hb.entries j).hasRoom
    unfold maxReferences
    omega
  · intro j
    apply hbounded.waiting j
    omega
  · have hs := hbounded.small
    unfold trampolineSize maxInstructions at *
    omega
  · show Event.clearCache _ _ :: Machine.log _ = _
    rw [hlog, List.cons_append]

/-- Words at 0x8000 that are written through a view 8 GiB up. -/
def highView : Addr → Addr := fun a => if a < 0x200000000 then a else a-0x200000000

/-- `CBZ X0` and `TBZ W0` to the last of the words, a literal load, a `B.EQ` out of them, and an
`ADR`. -/
def paddedMem : Mem :=
  overlay (fun _ => 0) 0x8000 [0xb4000080,0x58000101,0x54000800,0x36000020,0x10000802]

def paddedStart : FixState :=
  fixStart ⟨paddedMem,[]⟩ 0x200008000 0x8000 5 0x300000000 0x100000000

/-- Before the last word two fix-ups wait for it; at the end none does, and 22 words are stored:
the words with their literals and padding, and a far jump back. -/
theorem relocation_bounded_padded : ∃ (st : ℕ → FixState) (m' : Machine),
    fixLoop highView 4 paddedStart = .ok (st 4) ∧
    ((st 4).ctx.dat ⟨4,by decide⟩).fmap.countP (fun f => f.bprw != 0) = 2 ∧
    fixLoop highView 5 paddedStart = .ok (st 5) ∧ (∀ j, AllFree ((st 5).ctx.dat j).fmap) ∧
    fixInstructions highView ⟨paddedMem,[]⟩ 0x200008000 0x8000 5 0x300000000 0x100000000 =
      .ok m' ∧
    ∃ new, m'.log = [.clearCache 0x300000000 88]++new ∧
      StoresAt (fun a => ∃ p < 22, a = wordAt 0x300000000 p) new := by
  obtain ⟨st,m',total,hloop,-,hfree,hrun,-,hrx,htotal,new,hlog,hnew⟩ :=
    @relocation_bounded highView ⟨paddedMem,[]⟩ 0x200008000 0x8000 0x300000000 0x100000000
      maxInstructions le_rfl (by decide) (by decide)
  have h4 : fixLoop highView 4 paddedStart = .ok (st 4) := (hloop 4 (by decide)).1
  have h5 : fixLoop highView 5 paddedStart = .ok (st 5) := (hloop 5 (by decide)).1
  -- the loop is evaluated twice; the end of the output gives the total
  have hwait : (fixLoop highView 4 paddedStart).toOption.map
      (fun s => (s.ctx.dat ⟨4,by decide⟩).fmap.countP fun f => f.bprw != 0) = some 2 := by
    decide +kernel
  have hend : (fixLoop highView 5 paddedStart).toOption.map
      (fun s => (fixJumpBack highView s).outprx) = some 0x100000058 := by decide +kernel
  rw [h4] at hwait
  rw [h5] at hend
  have hlast : wordAt 0x100000000 total = 0x100000058 :=
    hrx.symm.trans (Option.some.inj hend)
  obtain rfl : total = 22 := by
    have hsize : trampolineSize = 50 := rfl
    unfold wordAt at hlast
    bv_omega
  rw [List.append_nil] at hlog
  exact ⟨st,m',h4,Option.some.inj hwait,h5,hfree,hrun,new,hlog,hnew⟩

end Run

end Zeldar
