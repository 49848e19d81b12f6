import Zeldar.HookLoop

/-! Where an emitted word ends up. A word is settled when no fix-up waits for
it: the rest of the loop keeps it. A forward reference waits with one entry in
the list of the instruction it refers to, and that instruction settles it. -/
namespace Zeldar

section Settle
variable {tr : Addr → Addr} {slot : Slot tr}

structure Settled (r : Reloc) (pos : ℕ) (w : Word) : Prop where
  word : r.out[pos]? = some w
  free : ∀ j, ∀ q ∈ r.pend j, q.pos ≠ pos

structure Waiting (r : Reloc) (j : Fin maxInstructions) (e : Pending) (w : Word) : Prop where
  word : r.out[e.pos]? = some w
  once : ∃ A B, r.pend j = A++e :: B ∧ (∀ q ∈ A, q.pos ≠ e.pos) ∧ ∀ q ∈ B, q.pos ≠ e.pos
  free : ∀ j' ≠ j, ∀ q ∈ r.pend j', q.pos ≠ e.pos

theorem foldl_fixUp_of_free (ins : Addr) (ps : List Pending) (out : List Word) {pos : ℕ}
    (h : ∀ q ∈ ps, q.pos ≠ pos) : (ps.foldl (fixUp slot ins) out)[pos]? = out[pos]? := by
  induction ps generalizing out with
  | nil => rfl
  | cons p ps ih =>
    rw [List.foldl_cons, ih _ fun q hq => h q (by simp [hq]), fixUp, List.getElem?_modify]
    simp [h p (by simp)]

/-- A list with one entry for a word patches it once. -/
theorem foldl_fixUp_of_once (ins : Addr) {A B : List Pending} {e : Pending} (out : List Word)
    (hA : ∀ q ∈ A, q.pos ≠ e.pos) (hB : ∀ q ∈ B, q.pos ≠ e.pos) {w : Word}
    (hw : out[e.pos]? = some w) :
    ((A++e :: B).foldl (fixUp slot ins) out)[e.pos]? = some (fixedWord w ins (e.info slot)) := by
  rw [List.foldl_append, List.foldl_cons, foldl_fixUp_of_free _ _ _ hB, fixUp,
    List.getElem?_modify, foldl_fixUp_of_free _ _ _ hA, hw]
  simp

theorem waiting_subset {r : Reloc} {p : Plan} {j : Fin maxInstructions} {q : Pending}
    (hq : q ∈ r.waiting p j) : q ∈ r.pend j ∨ q.pos = r.out.length := by
  unfold Reloc.waiting at hq
  cases hf : p.forward with
  | none =>
    simp only [hf] at hq
    exact Or.inl hq
  | some f =>
    simp only [hf] at hq
    split_ifs at hq
    · rcases List.mem_append.mp hq with hq | hq
      · exact Or.inl hq
      · rw [List.mem_singleton.mp hq]
        exact Or.inr rfl
    · exact Or.inl hq

theorem apply_free {r : Reloc} {idx : Fin maxInstructions} {p : Plan} {pos : ℕ}
    {j : Fin maxInstructions} (hlt : pos < r.out.length) (h : ∀ q ∈ r.pend j, q.pos ≠ pos) :
    ∀ q ∈ (r.apply slot idx p).pend j, q.pos ≠ pos := by
  intro q hq
  simp only [Reloc.apply] at hq
  split_ifs at hq
  · cases hq
  · rcases waiting_subset hq with hq | hq
    · exact h q hq
    · omega

theorem apply_getElem? (r : Reloc) (idx : Fin maxInstructions) (p : Plan) {pos : ℕ}
    (hlt : pos < r.out.length) :
    (r.apply slot idx p).out[pos]? = ((r.pend idx).foldl (fixUp slot p.ins) r.out)[pos]? := by
  simp only [Reloc.apply]
  rw [List.getElem?_append_left (by rwa [foldl_fixUp_length])]

theorem Settled.apply {r : Reloc} {pos : ℕ} {w : Word} (h : Settled r pos w)
    (idx : Fin maxInstructions) (p : Plan) : Settled (r.apply slot idx p) pos w := by
  have hlt := (List.getElem?_eq_some_iff.mp h.word).1
  refine ⟨?_,fun j => apply_free hlt (h.free j)⟩
  rw [apply_getElem? _ _ _ hlt, foldl_fixUp_of_free _ _ _ (h.free idx), h.word]

theorem Waiting.apply_of_ne {r : Reloc} {j idx : Fin maxInstructions} {e : Pending} {w : Word}
    (h : Waiting r j e w) (hne : idx ≠ j) (p : Plan) : Waiting (r.apply slot idx p) j e w := by
  have hlt := (List.getElem?_eq_some_iff.mp h.word).1
  refine ⟨?_,?_,fun j' hj' => apply_free hlt (h.free j' hj')⟩
  · rw [apply_getElem? _ _ _ hlt, foldl_fixUp_of_free _ _ _ (h.free idx hne), h.word]
  · obtain ⟨A,B,hp,hA,hB⟩ := h.once
    simp only [Reloc.apply, Ne.symm hne, ↓reduceIte, Reloc.waiting]
    cases p.forward with
    | none => exact ⟨A,B,hp,hA,hB⟩
    | some f =>
      dsimp only
      split_ifs
      · refine ⟨A,B++[⟨r.out.length,f.ls,f.ad⟩],by simp [hp],hA,?_⟩
        intro q hq
        rcases List.mem_append.mp hq with hq | hq
        · exact hB q hq
        · rw [List.mem_singleton.mp hq]
          exact ne_of_gt hlt
      · exact ⟨A,B,hp,hA,hB⟩

/-- The instruction referred to settles the reference, with the address it recorded. -/
theorem Waiting.settle {r : Reloc} {j : Fin maxInstructions} {e : Pending} {w : Word}
    (h : Waiting r j e w) (p : Plan) :
    Settled (r.apply slot j p) e.pos (fixedWord w p.ins (e.info slot)) := by
  have hlt := (List.getElem?_eq_some_iff.mp h.word).1
  obtain ⟨A,B,hp,hA,hB⟩ := h.once
  refine ⟨?_,?_⟩
  · rw [apply_getElem? _ _ _ hlt, hp, foldl_fixUp_of_once _ _ hA hB h.word]
  · intro j'
    by_cases hj : j' = j
    · subst hj
      intro q hq
      simp [Reloc.apply] at hq
    · exact apply_free hlt (h.free j' hj)

theorem apply_getElem?_emitted (r : Reloc) (idx : Fin maxInstructions) (p : Plan) (k : ℕ) :
    (r.apply slot idx p).out[r.out.length+k]? = p.words[k]? := by
  simp only [Reloc.apply]
  rw [List.getElem?_append_right (by rw [foldl_fixUp_length]; omega), foldl_fixUp_length]
  congr 1
  omega

variable {n i : ℕ} {src : Source tr n slot} {m : Mem} {s : FixState} {r : Reloc}

/-- The words of a plan without a forward reference are settled at once. -/
theorem Represents.settled (h : Represents slot n src m i s r) (idx : Fin maxInstructions)
    {p : Plan} (hf : p.forward = none) {k : ℕ} {w : Word} (hw : p.words[k]? = some w) :
    Settled (r.apply slot idx p) (r.out.length+k) w := by
  refine ⟨by rw [apply_getElem?_emitted, hw],?_⟩
  intro j q hq
  simp only [Reloc.apply, Reloc.waiting, hf] at hq
  split_ifs at hq
  · cases hq
  · have hlt := h.pos j q hq
    omega

/-- A forward reference waits for the instruction it refers to. -/
theorem Represents.waits (h : Represents slot n src m i s r) {idx : Fin maxInstructions}
    {p : Plan} (hv : p.Valid idx) {f : Forward} (hf : p.forward = some f) {w : Word}
    (hw : p.words[0]? = some w) :
    Waiting (r.apply slot idx p) f.refIdx ⟨r.out.length,f.ls,f.ad⟩ w := by
  have hne : f.refIdx ≠ idx := ne_of_gt (hv.forward f hf).1
  refine ⟨?_,?_,?_⟩
  · have he := @apply_getElem?_emitted tr slot r idx p 0
    rw [Nat.add_zero] at he
    exact he.trans hw
  · refine ⟨r.pend f.refIdx,[],?_,fun q hq => ne_of_lt (h.pos _ q hq),by simp⟩
    simp only [Reloc.apply, hne, ↓reduceIte, Reloc.waiting, hf]
  · intro j hj q hq
    simp only [Reloc.apply, Reloc.waiting, hf, Ne.symm hj, ↓reduceIte] at hq
    split_ifs at hq
    · cases hq
    · exact ne_of_lt (h.pos j q hq)

end Settle

section Loop
variable {tr : Addr → Addr} {slot : Slot tr} {start : FixState}

theorem loopReloc_succ {k : ℕ} (hk : k < maxInstructions) :
    loopReloc slot start (k+1) =
      (loopReloc slot start k).apply slot ⟨k,hk⟩ (loopPlan tr start ⟨k,hk⟩) := by
  simp only [loopReloc, hk, ↓reduceDIte]

/-- What is settled stays. -/
theorem settled_of_le {k l : ℕ} {pos : ℕ} {w : Word} (hkl : k ≤ l) (hl : l ≤ maxInstructions)
    (h : Settled (loopReloc slot start k) pos w) : Settled (loopReloc slot start l) pos w := by
  induction l, hkl using Nat.le_induction with
  | base => exact h
  | succ l hkl ih =>
    rw [loopReloc_succ (by omega)]
    exact (ih (by omega)).apply _ _

/-- A reference waits until the loop comes to its instruction. -/
theorem waiting_of_le {k l : ℕ} {j : Fin maxInstructions} {e : Pending} {w : Word} (hkl : k ≤ l)
    (hl : l ≤ j.val) (h : Waiting (loopReloc slot start k) j e w) :
    Waiting (loopReloc slot start l) j e w := by
  induction l, hkl using Nat.le_induction with
  | base => exact h
  | succ l hkl ih =>
    have hj := j.isLt
    rw [loopReloc_succ (by omega)]
    apply (ih (by omega)).apply_of_ne
    intro he
    rw [← he] at hl
    exact Nat.lt_irrefl l hl

/-- The address recorded for an instruction is the one of its plan from then on. -/
theorem ins_of_lt {k l : ℕ} (hk : k < maxInstructions) (hkl : k < l) (hl : l ≤ maxInstructions) :
    (loopReloc slot start l).ins ⟨k,hk⟩ = (loopPlan tr start ⟨k,hk⟩).ins := by
  induction l, hkl using Nat.le_induction with
  | base =>
    rw [loopReloc_succ hk]
    exact Function.update_self ..
  | succ l hkl ih =>
    rw [loopReloc_succ (by omega)]
    simp only [Reloc.apply]
    rw [Function.update_of_ne, ih (by omega)]
    intro he
    have hv := congrArg Fin.val he
    simp only at hv
    omega

variable {n : ℕ} {src : Source tr n slot}

/-- A word that is settled at some point is in the trampoline at the end. -/
theorem read_settled {mach mach' : Machine} {k pos : ℕ} {w : Word} (hk : k ≤ n)
    (h : Settled (loopReloc slot (src.start mach) k) pos w)
    (hrun : fixInstructions tr mach src.rw src.rx n slot.rw slot.rx = .ok mach') :
    mach'.mem.read32 (wordAt slot.rx pos) = w := by
  have hc := src.count
  obtain ⟨m1,hm1,hmem⟩ := fixInstructions_overlay src mach
  rw [hrun] at hm1
  cases hm1
  have hlast := (settled_of_le hk hc h).word
  have hlt := (List.getElem?_eq_some_iff.mp hlast).1
  have hsmall := (@loop_represents tr slot n src mach n le_rfl).2.small
  rw [hmem]
  apply read32_overlay
  · unfold maxInstructions at hc
    omega
  · rw [List.getElem?_append_left hlt, hlast]

end Loop

end Zeldar
