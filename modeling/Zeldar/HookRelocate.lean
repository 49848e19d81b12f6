import Zeldar.HookPlan

/-! The relocation as a transformation of a list of words. A `Reloc` is what
the loop has emitted and still has to patch; the machine state of the loop
represents one, and performing a plan is applying it to the list. -/
namespace Zeldar

/-- A trampoline slot, written at `rw` and executed at `rx`. -/
structure Slot (tr : Addr → Addr) where
  rw : Addr
  rx : Addr
  aligned : rx.toNat%4 = 0
  aliased : ∀ k < trampolineSize, tr (wordAt rw k) = wordAt rx k
  executed : ∀ k < trampolineSize, tr (wordAt rx k) = wordAt rx k
  nonnull : ∀ k < trampolineSize, wordAt rw k ≠ 0
  placed : rx ≠ 0

/-- The `n` words to relocate, read at `rw`, executed at `rx`, and apart from the slot. -/
structure Source (tr : Addr → Addr) (n : ℕ) (slot : Slot tr) where
  rw : Addr
  rx : Addr
  aligned : rx.toNat%4 = 0
  aliased : ∀ k < n, tr (wordAt rw k) = wordAt rx k
  apart : Sep rx (4*n) slot.rx (4*trampolineSize)
  count : n ≤ maxInstructions

structure Pending where
  pos : ℕ
  ls : ℕ
  ad : Word

structure Reloc where
  out : List Word
  ins : Fin maxInstructions → Addr
  pend : Fin maxInstructions → List Pending

section Reloc
variable {tr : Addr → Addr} (slot : Slot tr)

def Pending.info (p : Pending) : FixInfo := ⟨wordAt slot.rx p.pos,wordAt slot.rw p.pos,p.ls,p.ad⟩

def fixUp (ins : Addr) (out : List Word) (p : Pending) : List Word :=
  out.modify p.pos fun w => fixedWord w ins (p.info slot)

def Reloc.start : Reloc := ⟨[],fun _ => 0,fun _ => []⟩

/-- What waits for instruction `j` once the forward reference of a plan is recorded. -/
def Reloc.waiting (r : Reloc) (p : Plan) (j : Fin maxInstructions) : List Pending :=
  match p.forward with
  | some f => if f.refIdx = j then r.pend j++[⟨r.out.length,f.ls,f.ad⟩] else r.pend j
  | none => r.pend j

def Reloc.apply (r : Reloc) (idx : Fin maxInstructions) (p : Plan) : Reloc where
  out := (r.pend idx).foldl (fixUp slot p.ins) r.out++p.words
  ins := Function.update r.ins idx p.ins
  pend j := if j = idx then [] else r.waiting p j

/-- The entries in use come first; the entries after them are free. -/
def Holds (fmap : List FixInfo) (pend : List Pending) : Prop :=
  ∃ free, fmap = pend.map (Pending.info slot)++free ∧ (∀ f ∈ free, f.bprw = 0) ∧
    fmap.length = maxReferences

structure Represents (n : ℕ) (src : Source tr n slot) (m : Mem) (i : ℕ) (s : FixState)
    (r : Reloc) : Prop where
  inprw : s.inprw = wordAt src.rw i
  inprx : s.inprx = wordAt src.rx i
  outprw : s.outprw = wordAt slot.rw r.out.length
  outprx : s.outprx = wordAt slot.rx r.out.length
  mem : s.m.mem = overlay m slot.rx r.out
  basep : s.ctx.basep = src.rx
  endp : s.ctx.endp = wordAt src.rx n
  ins : ∀ j, (s.ctx.dat j).ins = r.ins j
  fmap : ∀ j, Holds slot (s.ctx.dat j).fmap (r.pend j)
  pos : ∀ j, ∀ p ∈ r.pend j, p.pos < r.out.length
  few : ∀ j, (r.pend j).length ≤ i
  small : r.out.length ≤ 9*i

variable {slot}

theorem fixUp_length (ins : Addr) (out : List Word) (p : Pending) :
    (fixUp slot ins out p).length = out.length := List.length_modify ..

theorem foldl_fixUp_length (ins : Addr) (out : List Word) (ps : List Pending) :
    (ps.foldl (fixUp slot ins) out).length = out.length := by
  induction ps generalizing out with
  | nil => rfl
  | cons p ps ih => rw [List.foldl_cons, ih, fixUp_length]

theorem apply_length (r : Reloc) (idx : Fin maxInstructions) (p : Plan) :
    (r.apply slot idx p).out.length = r.out.length+p.words.length := by
  simp only [Reloc.apply, List.length_append, foldl_fixUp_length]

theorem represents_start {n : ℕ} (src : Source tr n slot) (m : Machine) :
    Represents slot n src m.mem 0 (fixStart m src.rw src.rx n slot.rw slot.rx) Reloc.start where
  inprw := (wordAt_zero _).symm
  inprx := (wordAt_zero _).symm
  outprw := (wordAt_zero _).symm
  outprx := (wordAt_zero _).symm
  mem := (overlay_nil _ _).symm
  basep := rfl
  endp := rfl
  ins _ := rfl
  fmap _ := ⟨List.replicate maxReferences FixInfo.null,rfl,
    fun f hf => by rw [List.eq_of_mem_replicate hf]; rfl,List.length_replicate⟩
  pos _ p hp := by cases hp
  few _ := Nat.le_refl 0
  small := Nat.le_refl 0

theorem overlay_store {m : Mem} {out : List Word} {s : FixState} {w : Word}
    (hm : s.m.mem = overlay m slot.rx out) (ho : s.outprw = wordAt slot.rw out.length)
    (hl : out.length < trampolineSize) :
    (s.put tr 0 w).m.mem = overlay m slot.rx (out++[w]) := by
  have hb : out.length < 2^60 := by
    unfold trampolineSize maxInstructions at hl
    omega
  simp only [FixState.put, Machine.store32, hm, ho, wordAt_add, Nat.add_zero,
    slot.aliased _ hl, write32_overlay_append _ _ _ _ hb]

/-- Emitting words appends them to the list. -/
theorem emitWords_overlay {m : Mem} (ws out : List Word) (s : FixState)
    (hm : s.m.mem = overlay m slot.rx out) (hrw : s.outprw = wordAt slot.rw out.length)
    (hl : out.length+ws.length ≤ trampolineSize) :
    (s.emitWords tr ws).m.mem = overlay m slot.rx (out++ws) := by
  induction ws generalizing s out with
  | nil => simpa using hm
  | cons w ws ih =>
    rw [List.length_cons] at hl
    rw [emitWords_cons, show out++w :: ws = (out++[w])++ws by simp]
    apply ih
    · exact overlay_store hm hrw (by omega)
    · simp only [FixState.advance, FixState.put, hrw, wordAt_add, List.length_append,
        List.length_singleton]
    · simp only [List.length_append, List.length_singleton]
      omega

theorem emitWords_fields (s : FixState) (ws : List Word) :
    (s.emitWords tr ws).inprw = s.inprw ∧ (s.emitWords tr ws).inprx = s.inprx ∧
      (s.emitWords tr ws).ctx = s.ctx ∧
      (s.emitWords tr ws).outprw = wordAt s.outprw ws.length := by
  induction ws generalizing s with
  | nil => simp
  | cons w ws ih =>
    have h := ih ((s.put tr 0 w).advance 1)
    rw [emitWords_cons, List.length_cons, Nat.add_comm, ← wordAt_add]
    exact h

/-- Patching the entries in use is `fixUp` on the list, and frees them all. -/
theorem processEntries_overlay (m : Mem) (ins : Addr) (pend : List Pending)
    (free : List FixInfo) (out : List Word) (mach : Machine)
    (hm : mach.mem = overlay m slot.rx out) (hl : out.length ≤ trampolineSize)
    (hpos : ∀ p ∈ pend, p.pos < out.length) (hfree : ∀ f ∈ free, f.bprw = 0) :
    (processEntries tr ins (pend.map (Pending.info slot)++free) mach).2.mem =
        overlay m slot.rx (pend.foldl (fixUp slot ins) out) ∧
      (∀ f ∈ (processEntries tr ins (pend.map (Pending.info slot)++free) mach).1, f.bprw = 0) ∧
      (processEntries tr ins (pend.map (Pending.info slot)++free) mach).1.length =
        pend.length+free.length := by
  -- entries are taken until the first free one, which ends the used ones
  induction pend generalizing out mach with
  | nil =>
    cases free with
    | nil => exact ⟨hm,by simp [processEntries],rfl⟩
    | cons f fs =>
      have hf : f.bprw = 0 := hfree f (by simp)
      simp only [List.map_nil, List.nil_append, processEntries, hf, ↓reduceIte, List.foldl_nil]
      exact ⟨hm,hfree,by simp⟩
  | cons p ps ih =>
    have hp : p.pos < out.length := hpos p (by simp)
    have hs : p.pos < trampolineSize := by omega
    have hb : p.pos < 2^60 := by
      unfold trampolineSize maxInstructions at hs
      omega
    have hw : out[p.pos]? = some out[p.pos] := List.getElem?_eq_getElem hp
    have hne : (p.info slot).bprw ≠ 0 := slot.nonnull _ hs
    have hload : mach.load32 tr (p.info slot).bprx = out[p.pos] := by
      simp only [Machine.load32, Pending.info, slot.executed _ hs, hm, read32_overlay _ _ _ hb hw]
    have hstore : (mach.store32 tr (p.info slot).bprw
        (fixedWord out[p.pos] ins (p.info slot))).mem =
          overlay m slot.rx (fixUp slot ins out p) := by
      have hset := write32_overlay_modify m slot.rx out
        (fun w => fixedWord w ins (p.info slot)) hb hw
      simpa only [Machine.store32, Pending.info, slot.aliased _ hs, hm, fixUp] using hset
    have h := ih (fixUp slot ins out p) _ hstore (by rw [fixUp_length]; exact hl)
      (fun q hq => by rw [fixUp_length]; exact hpos q (by simp [hq]))
    simp only [List.map_cons, List.cons_append, processEntries, hne, ↓reduceIte, hload,
      List.foldl_cons]
    refine ⟨h.1,?_,by rw [List.length_cons, h.2.2, List.length_cons]; omega⟩
    intro f hf
    rcases List.mem_cons.mp hf with rfl | hf
    · rfl
    · exact h.2.1 f hf

/-- With a free entry left, a request is recorded after those already waiting. -/
theorem insertEntry_holds {fmap : List FixInfo} {pend : List Pending} (q : Pending)
    (h : Holds slot fmap pend) (hl : pend.length < maxReferences)
    (hpos : ∀ p ∈ pend, p.pos < trampolineSize) :
    Holds slot (Context.insertEntry (q.info slot) fmap) (pend++[q]) := by
  obtain ⟨free,rfl,hfree,hlen⟩ := h
  cases free with
  | nil =>
    simp only [List.append_nil, List.length_map] at hlen
    omega
  | cons f fs =>
    -- the entries in use are passed over: none of them has a null address
    have hins (ps : List Pending) (hps : ∀ p ∈ ps, p.pos < trampolineSize) :
        Context.insertEntry (q.info slot) (ps.map (Pending.info slot)++f :: fs) =
          ps.map (Pending.info slot)++q.info slot :: fs := by
      induction ps with
      | nil => simp only [List.map_nil, List.nil_append, Context.insertEntry, hfree f (by simp),
          ↓reduceIte]
      | cons p ps ih =>
        have hne : (p.info slot).bprw ≠ 0 := slot.nonnull _ (hps p (by simp))
        simp only [List.map_cons, List.cons_append, Context.insertEntry, hne, ↓reduceIte,
          ih fun r hr => hps r (by simp [hr])]
    refine ⟨fs,?_,fun g hg => hfree g (by simp [hg]),?_⟩
    · rw [hins pend hpos]
      simp
    · rw [hins pend hpos]
      simpa using hlen

theorem holds_nil_of_free {fmap : List FixInfo} (hfree : ∀ f ∈ fmap, f.bprw = 0)
    (hl : fmap.length = maxReferences) : Holds slot fmap [] := ⟨fmap,rfl,hfree,hl⟩

theorem processFixMap_eq (s : FixState) (idx : Fin maxInstructions) :
    s.processFixMap tr idx =
      let done := processEntries tr (s.ctx.dat idx).ins (s.ctx.dat idx).fmap s.m
      { s with
        m := done.2
        ctx := { s.ctx with
          dat := Function.update s.ctx.dat idx { s.ctx.dat idx with fmap := done.1 } } } := rfl

/-- What `process_fix_map` does to a state that represents `out` and `pend`. -/
theorem processFixMap_overlay {m : Mem} {out : List Word} {pend : Fin maxInstructions → List Pending}
    (s : FixState) (idx : Fin maxInstructions) (hm : s.m.mem = overlay m slot.rx out)
    (hl : out.length ≤ trampolineSize) (hf : ∀ j, Holds slot (s.ctx.dat j).fmap (pend j))
    (hpos : ∀ p ∈ pend idx, p.pos < out.length) :
    (s.processFixMap tr idx).m.mem =
        overlay m slot.rx ((pend idx).foldl (fixUp slot (s.ctx.dat idx).ins) out) ∧
      (∀ j, Holds slot ((s.processFixMap tr idx).ctx.dat j).fmap (if j = idx then [] else pend j)) ∧
      ∀ j, ((s.processFixMap tr idx).ctx.dat j).ins = (s.ctx.dat j).ins := by
  obtain ⟨free,hfmap,hfree,hlen⟩ := hf idx
  have h := processEntries_overlay m (s.ctx.dat idx).ins (pend idx) free out s.m hm hl hpos hfree
  rw [← hfmap] at h
  -- only the list of `idx` is touched, and all of it is freed
  refine ⟨h.1,?_,?_⟩
  · intro j
    by_cases hj : j = idx
    · subst hj
      simp only [processFixMap_eq, Function.update_self, ↓reduceIte]
      refine holds_nil_of_free h.2.1 (h.2.2.trans ?_)
      rw [← hlen, hfmap, List.length_append, List.length_map]
    · simp only [processFixMap_eq, Function.update_of_ne hj, hj, ↓reduceIte]
      exact hf j
  · intro j
    by_cases hj : j = idx
    · subst hj
      simp only [processFixMap_eq, Function.update_self]
    · simp only [processFixMap_eq, Function.update_of_ne hj]

/-- A plan the loop can perform: bounded, and referring forward only. -/
structure Plan.Valid (p : Plan) (idx : Fin maxInstructions) : Prop where
  length : p.words.length ≤ 9
  forward : ∀ f ∈ p.forward, idx < f.refIdx ∧ p.words.length = 1

theorem fixUp_append (ins : Addr) (p : Pending) (out ws : List Word) (hp : p.pos < out.length) :
    fixUp slot ins (out++ws) p = fixUp slot ins out p++ws := by
  apply List.ext_getElem?
  intro i
  by_cases hi : i < out.length
  · rw [List.getElem?_append_left (by rwa [fixUp_length])]
    simp only [fixUp, List.getElem?_modify, List.getElem?_append_left hi]
  · have hne : p.pos ≠ i := by omega
    rw [List.getElem?_append_right (by rw [fixUp_length]; omega), fixUp_length]
    simp only [fixUp, List.getElem?_modify, hne, ↓reduceIte, Option.map_eq_map, Option.map_id_fun',
      id_eq, List.getElem?_append_right (Nat.le_of_not_lt hi)]

/-- Patches touch the words already there, so words may be appended before or after them. -/
theorem foldl_fixUp_append (ins : Addr) (ps : List Pending) (out ws : List Word)
    (hpos : ∀ p ∈ ps, p.pos < out.length) :
    ps.foldl (fixUp slot ins) (out++ws) = ps.foldl (fixUp slot ins) out++ws := by
  induction ps generalizing out with
  | nil => rfl
  | cons p ps ih =>
    rw [List.foldl_cons, fixUp_append _ _ _ _ (hpos p (by simp)), ih, List.foldl_cons]
    intro q hq
    rw [fixUp_length]
    exact hpos q (by simp [hq])

theorem record_fields (s : FixState) (idx : Fin maxInstructions) (p : Plan) :
    (s.record idx p).m = s.m ∧ (s.record idx p).inprw = s.inprw ∧
      (s.record idx p).inprx = s.inprx ∧ (s.record idx p).outprw = s.outprw ∧
      (s.record idx p).outprx = s.outprx ∧ (s.record idx p).ctx.basep = s.ctx.basep ∧
      (s.record idx p).ctx.endp = s.ctx.endp := by
  unfold FixState.record
  cases p.forward <;> exact ⟨rfl,rfl,rfl,rfl,rfl,rfl,rfl⟩

theorem overlay_source {n i : ℕ} (src : Source tr n slot) (hi : i < n) (m : Mem) {out : List Word}
    (hl : out.length ≤ trampolineSize) :
    (overlay m slot.rx out).read32 (wordAt src.rx i) = m.read32 (wordAt src.rx i) := by
  apply read32_overlay_of_sep
  exact (src.apart.word hi).mono le_rfl (by omega)

section Step
variable {n i : ℕ} {src : Source tr n slot} {m : Mem} {s : FixState} {r : Reloc}
  (h : Represents slot n src m i s r) (hi : i < maxInstructions)
include h

theorem Represents.room : r.out.length+9 ≤ trampolineSize ∨ maxInstructions ≤ i := by
  have hs := h.small
  unfold trampolineSize maxInstructions
  omega

theorem Represents.pos_lt {j : Fin maxInstructions} (hi : i ≤ maxInstructions) (p : Pending)
    (hp : p ∈ r.pend j) : p.pos < trampolineSize := by
  have h1 := h.pos j p hp
  have h2 := h.small
  unfold trampolineSize maxInstructions at *
  omega

/-- The context after a plan is recorded: its address, and its forward reference if any. -/
theorem Represents.record (p : Plan) (hv : p.Valid ⟨i,hi⟩) :
    (∀ j, (((s.record ⟨i,hi⟩ p).ctx.dat j).ins = Function.update r.ins ⟨i,hi⟩ p.ins j)) ∧
      ∀ j, Holds slot ((s.record ⟨i,hi⟩ p).ctx.dat j).fmap (r.waiting p j) := by
  obtain ⟨words,ins,forward⟩ := p
  have hreset (j : Fin maxInstructions) :
      ((s.resetCurrentIns ⟨i,hi⟩ ins).ctx.dat j).ins = Function.update r.ins ⟨i,hi⟩ ins j ∧
        ((s.resetCurrentIns ⟨i,hi⟩ ins).ctx.dat j).fmap = (s.ctx.dat j).fmap := by
    by_cases hj : j = ⟨i,hi⟩
    · subst hj
      simp [FixState.resetCurrentIns, Context.resetCurrentIns]
    · simp [FixState.resetCurrentIns, Context.resetCurrentIns, hj, h.ins j]
  -- a forward reference waits with the instruction it refers to
  cases forward with
  | none =>
    refine ⟨fun j => (hreset j).1,fun j => ?_⟩
    have hf := h.fmap j
    rwa [← (hreset j).2] at hf
  | some f =>
    refine ⟨fun j => ?_,fun j => ?_⟩
    · by_cases hj : j = f.refIdx
      · subst hj
        simpa [FixState.record, FixState.insertFixMap, Context.insertFixMap] using (hreset f.refIdx).1
      · simpa [FixState.record, FixState.insertFixMap, Context.insertFixMap, hj] using (hreset j).1
    · by_cases hj : f.refIdx = j
      · subst hj
        simp only [Reloc.waiting, FixState.record, FixState.insertFixMap, Context.insertFixMap,
          Function.update_self, ↓reduceIte, (hreset f.refIdx).2, h.outprw, h.outprx]
        refine insertEntry_holds ⟨r.out.length,f.ls,f.ad⟩ (h.fmap _) ?_
          (h.pos_lt (by omega))
        have hfew := h.few f.refIdx
        unfold maxReferences
        omega
      · simp only [Reloc.waiting, FixState.record, FixState.insertFixMap, Context.insertFixMap,
          Function.update_of_ne (Ne.symm hj), hj, ↓reduceIte, (hreset j).2]
        exact h.fmap j

/-- The bookkeeping of `Represents` that does not depend on how the words got there. -/
theorem Represents.apply (p : Plan) (hv : p.Valid ⟨i,hi⟩) {t : FixState}
    (hinprw : t.inprw = wordAt src.rw (i+1)) (hinprx : t.inprx = wordAt src.rx (i+1))
    (houtprw : t.outprw = wordAt slot.rw (r.out.length+p.words.length))
    (houtprx : t.outprx = wordAt slot.rx (r.out.length+p.words.length))
    (hmem : t.m.mem = overlay m slot.rx (r.apply slot ⟨i,hi⟩ p).out)
    (hbasep : t.ctx.basep = src.rx) (hendp : t.ctx.endp = wordAt src.rx n)
    (hins : ∀ j, (t.ctx.dat j).ins = Function.update r.ins ⟨i,hi⟩ p.ins j)
    (hfmap : ∀ j, Holds slot (t.ctx.dat j).fmap ((r.apply slot ⟨i,hi⟩ p).pend j)) :
    Represents slot n src m (i+1) t (r.apply slot ⟨i,hi⟩ p) := by
  -- a request either waited before or is about the first word of this plan
  have hpend (j : Fin maxInstructions) (q : Pending) (hq : q ∈ (r.apply slot ⟨i,hi⟩ p).pend j) :
      q ∈ r.pend j ∨ q.pos = r.out.length ∧ p.words.length = 1 := by
    simp only [Reloc.apply, Reloc.waiting] at hq
    by_cases hj : j = ⟨i,hi⟩
    · simp [hj] at hq
    · cases hf : p.forward with
      | none =>
        simp only [hj, hf, ↓reduceIte] at hq
        exact Or.inl hq
      | some f =>
        simp only [hj, hf, ↓reduceIte] at hq
        split_ifs at hq with hr
        · rcases List.mem_append.mp hq with hq | hq
          · exact Or.inl hq
          · rw [List.mem_singleton.mp hq]
            exact Or.inr ⟨rfl,(hv.forward f hf).2⟩
        · exact Or.inl hq
  refine ⟨hinprw,hinprx,?_,?_,hmem,hbasep,hendp,hins,hfmap,?_,?_,?_⟩
  · rw [apply_length]
    exact houtprw
  · rw [apply_length]
    exact houtprx
  · intro j q hq
    rw [apply_length]
    rcases hpend j q hq with hq | ⟨he,hw⟩
    · have hlt := h.pos j q hq
      omega
    · omega
  · intro j
    have hfew := h.few j
    simp only [Reloc.apply, Reloc.waiting]
    by_cases hj : j = ⟨i,hi⟩
    · simp [hj]
    · cases p.forward with
      | none =>
        simp only [hj, ↓reduceIte]
        omega
      | some f =>
        simp only [hj, ↓reduceIte]
        split_ifs
        · rw [List.length_append, List.length_singleton]
          omega
        · omega
  · have hs := h.small
    have hl := hv.length
    rw [apply_length]
    omega

/-- Performing a plan is applying it to the list of words. -/
theorem Represents.perform (p : Plan) (hv : p.Valid ⟨i,hi⟩) :
    Represents slot n src m (i+1) (s.perform tr ⟨i,hi⟩ p) (r.apply slot ⟨i,hi⟩ p) := by
  obtain ⟨fm,frw,frx,forw,forx,fbase,fend⟩ := record_fields s ⟨i,hi⟩ p
  obtain ⟨gins,gfmap⟩ := h.record hi p hv
  obtain ⟨eirw,eirx,ectx,eorw⟩ := @emitWords_fields tr (s.record ⟨i,hi⟩ p) p.words
  have hroom : r.out.length+p.words.length ≤ trampolineSize := by
    have hl := hv.length
    rcases h.room with hr | hr <;> omega
  have hmem := @emitWords_overlay tr slot m p.words r.out (s.record ⟨i,hi⟩ p)
    (by rw [fm, h.mem]) (by rw [forw, h.outprw]) hroom
  -- a plan refers to later instructions only, so no entry is added to the list processed
  have hwait : r.waiting p ⟨i,hi⟩ = r.pend ⟨i,hi⟩ := by
    unfold Reloc.waiting
    cases hf : p.forward with
    | none => rfl
    | some f => simp only [ne_of_gt (hv.forward f hf).1, ↓reduceIte]
  have hpos : ∀ q ∈ r.waiting p ⟨i,hi⟩, q.pos < (r.out++p.words).length := by
    intro q hq
    rw [hwait] at hq
    have hlt := h.pos _ q hq
    rw [List.length_append]
    omega
  obtain ⟨pmem,pfmap,pins⟩ := processFixMap_overlay
    (((s.record ⟨i,hi⟩ p).emitWords tr p.words).nextIn) ⟨i,hi⟩ hmem (by simpa using hroom)
    (fun j => by simpa only [FixState.nextIn, ectx] using gfmap j) hpos
  have hins : ((((s.record ⟨i,hi⟩ p).emitWords tr p.words).nextIn).ctx.dat ⟨i,hi⟩).ins = p.ins := by
    simp only [FixState.nextIn, ectx, gins, Function.update_self]
  have hout := @emitWords_outprx tr (s.record ⟨i,hi⟩ p) p.words
  -- the fields, in the order of `Represents.apply`
  apply h.apply hi p hv
  · simp only [FixState.perform, processFixMap_eq, FixState.nextIn, eirw, frw, h.inprw, wordAt_add]
  · simp only [FixState.perform, processFixMap_eq, FixState.nextIn, eirx, frx, h.inprx, wordAt_add]
  · simp only [FixState.perform, processFixMap_eq, FixState.nextIn, eorw, forw, h.outprw, wordAt_add]
  · simp only [FixState.perform, processFixMap_eq, FixState.nextIn, hout, forx, h.outprx, wordAt_add]
  · rw [FixState.perform, pmem, hins, hwait, foldl_fixUp_append _ _ _ _ (h.pos _)]
    rfl
  · simp only [FixState.perform, processFixMap_eq, FixState.nextIn, ectx, fbase, h.basep]
  · simp only [FixState.perform, processFixMap_eq, FixState.nextIn, ectx, fend, h.endp]
  · intro j
    rw [FixState.perform, pins]
    simp only [FixState.nextIn, ectx, gins]
  · exact pfmap

/-- The words to relocate are read unchanged until the end. -/
theorem Represents.load_source (hn : i < n) :
    s.m.load32 tr s.inprw = m.read32 (wordAt src.rx i) := by
  rw [h.inprw, Machine.load32, src.aliased i hn, h.mem]
  apply overlay_source src hn
  have hs := h.small
  have hc := src.count
  unfold trampolineSize maxInstructions at *
  omega

/-- An instruction that is copied performs the plan of its own word: the fix-ups come first, but
they patch other words, and the word read is not in the slot. -/
theorem Represents.copyInstruction (hn : i < n) :
    Represents slot n src m (i+1) (copyInstruction tr s ⟨i,hi⟩)
      (r.apply slot ⟨i,hi⟩ ⟨[m.read32 (wordAt src.rx i)],s.outprx,none⟩) := by
  set p : Plan := ⟨[m.read32 (wordAt src.rx i)],s.outprx,none⟩ with hp
  have hv : p.Valid ⟨i,hi⟩ := ⟨by simp [hp],by simp [hp]⟩
  have hsmall : r.out.length+9 ≤ trampolineSize := by
    have hs := h.small
    unfold trampolineSize maxInstructions at *
    omega
  obtain ⟨gins,gfmap⟩ := h.record hi p hv
  obtain ⟨pmem,pfmap,pins⟩ := processFixMap_overlay (s.resetCurrentIns ⟨i,hi⟩ s.outprx) ⟨i,hi⟩
    h.mem (by omega) gfmap (h.pos _)
  have hinprw : ((s.resetCurrentIns ⟨i,hi⟩ s.outprx).processFixMap tr ⟨i,hi⟩).inprw =
      wordAt src.rw i := h.inprw
  have houtprw : ((s.resetCurrentIns ⟨i,hi⟩ s.outprx).processFixMap tr ⟨i,hi⟩).outprw =
      wordAt slot.rw r.out.length := h.outprw
  have hlen := @foldl_fixUp_length tr slot
    ((s.resetCurrentIns ⟨i,hi⟩ s.outprx).ctx.dat ⟨i,hi⟩).ins r.out (r.waiting p ⟨i,hi⟩)
  -- the word is loaded after the fix-ups, and no fix-up is on it
  have hword : ((s.resetCurrentIns ⟨i,hi⟩ s.outprx).processFixMap tr ⟨i,hi⟩).m.load32 tr
      (wordAt src.rw i) = m.read32 (wordAt src.rx i) := by
    rw [Machine.load32, src.aliased i hn, pmem]
    apply overlay_source src hn
    omega
  have hmem := @overlay_store tr slot m _ _ (m.read32 (wordAt src.rx i)) pmem
    (by rw [houtprw, hlen]) (by omega)
  simp only [Zeldar.copyInstruction, hinprw, hword]
  apply h.apply hi p hv
  · simp only [FixState.nextIn, FixState.advance, FixState.put, processFixMap_eq,
      FixState.resetCurrentIns, h.inprw, wordAt_add]
  · simp only [FixState.nextIn, FixState.advance, FixState.put, processFixMap_eq,
      FixState.resetCurrentIns, h.inprx, wordAt_add]
  · simp only [FixState.nextIn, FixState.advance, FixState.put, processFixMap_eq,
      FixState.resetCurrentIns, h.outprw, wordAt_add, hp, List.length_singleton]
  · simp only [FixState.nextIn, FixState.advance, FixState.put, processFixMap_eq,
      FixState.resetCurrentIns, h.outprx, wordAt_add, hp, List.length_singleton]
  · have hi' := gins ⟨i,hi⟩
    rw [Function.update_self] at hi'
    simp only [FixState.record, hp] at hi'
    rw [hi'] at hmem
    exact hmem
  · exact h.basep
  · exact h.endp
  · intro j
    exact (pins j).trans (gins j)
  · exact pfmap

end Step

end Reloc

end Zeldar
