import Zeldar.RtldResolved
import Mathlib.Logic.Relation

/-! Lazy binding under way: calls through the PLT slots of a module, in any number
and interleaved in any way, after `ResolveSymbols` has made the slots lead to the
stub. A slot is read, and stored, at once; between the two the resolver looks the
symbol up while other calls go on. -/
namespace Zeldar.Rtld

section Model

/-- What `__rtld_runtime_resolve` has in `x0` when `__rtld_lazy_bind_symbol` has returned. -/
def runtimeTarget (resolve : ModuleObject → Resolver) (objectAt : Addr → ModuleObject)
    (ip0 slot : Addr) (m : Mem) : Except Halt Addr :=
  let module := objectAt (m.read64 (ip0-8))
  rtldLazyBindSymbol (resolve module) module m ((slot-ip0-8) >>> 3)

/-- The store of `__rtld_runtime_resolve` comes after the lookup. -/
theorem rtldRuntimeResolve_split (resolve : ModuleObject → Resolver)
    (objectAt : Addr → ModuleObject) (ip0 slot : Addr) (m : Mem) :
    rtldRuntimeResolve resolve objectAt ip0 slot m =
      (runtimeTarget resolve objectAt ip0 slot m).map fun target =>
        (m.write64 slot target,target) := by
  rw [rtldRuntimeResolve, runtimeTarget]
  cases rtldLazyBindSymbol (resolve (objectAt (m.read64 (ip0-8)))) (objectAt (m.read64 (ip0-8))) m
    ((slot-ip0-8) >>> 3) <;> rfl

/-- Where a call through a slot is. -/
inductive Phase
  | calling
  | binding
  | storing (target : Addr)
  | arrived (target : Addr)
  deriving DecidableEq, Repr

structure LazyState (ι : Type) where
  mem : Mem
  phase : ι → Phase

/-- The code around the calls. -/
structure LazyEnv (ι : Type) where
  resolve : ModuleObject → Resolver
  objectAt : Addr → ModuleObject
  ip0 : Addr
  stub : Addr
  slot : ι → Addr

variable {ι : Type} [DecidableEq ι]

/-- A step of one of the calls. A slot that leads to the stub leads on to
`__rtld_runtime_resolve`, with its own address on the stack. -/
inductive LazyStep (env : LazyEnv ι) : LazyState ι → LazyState ι → Prop
  | direct {s : LazyState ι} (i : ι) (h : s.phase i = .calling)
      (hslot : s.mem.read64 (env.slot i) ≠ env.stub) :
      LazyStep env s
        { s with phase := Function.update s.phase i (.arrived (s.mem.read64 (env.slot i))) }
  | enter {s : LazyState ι} (i : ι) (h : s.phase i = .calling)
      (hslot : s.mem.read64 (env.slot i) = env.stub) :
      LazyStep env s { s with phase := Function.update s.phase i .binding }
  | bind {s : LazyState ι} (i : ι) (h : s.phase i = .binding) {target : Addr}
      (htarget : runtimeTarget env.resolve env.objectAt env.ip0 (env.slot i) s.mem = .ok target) :
      LazyStep env s { s with phase := Function.update s.phase i (.storing target) }
  | store {s : LazyState ι} (i : ι) {target : Addr} (h : s.phase i = .storing target) :
      LazyStep env s
        ⟨s.mem.write64 (env.slot i) target,Function.update s.phase i (.arrived target)⟩

/-- What is left of a call. -/
def Phase.rank : Phase → ℕ
  | .calling => 3
  | .binding => 2
  | .storing _ => 1
  | .arrived _ => 0

/-- The calls through the slots of the relocations `index`. -/
def ModuleObject.lazyEnv (o : ModuleObject) (resolve : ModuleObject → Resolver)
    (objectAt : Addr → ModuleObject) (stub : Addr) (index : ι → BitVec 32) : LazyEnv ι where
  resolve := resolve
  objectAt := objectAt
  ip0 := o.got+16
  stub := stub
  slot i := o.got+24+8*(index i).setWidth 64

/-- Where lazy binding leads: an unknown symbol leads to 0. -/
def lazyTarget (o : ModuleObject) (m : Mem) (found : ResolveEntry → Option Addr) (k : BitVec 32) :
    Addr :=
  match found (o.pltEntry k) with
  | some symbol => lazyValue o m (o.pltEntry k) symbol
  | none => 0

/-- A relocation that a call can go through: it is of the slot of its index, and that slot leads
to a stub. -/
structure Callable (o : ModuleObject) (m : Mem) (k : BitVec 32) : Prop where
  bound : k.toNat < o.counts.pltEntries
  writes : (o.pltEntry k).Writes m
  slot : (o.pltEntry k).slot o m = o.got+24+8*k.setWidth 64
  stub : (o.pltEntry k).stub o m ≠ 0

end Model

section Lookup
variable {resolve : Resolver} {o : ModuleObject} {m : Mem} {found : ResolveEntry → Option Addr}
  {k : BitVec 32}

/-- The lookup of a callable slot, whatever the slots hold by then. -/
theorem lazyBind_eq (hplaced : WellPlaced o m) (hfound : LooksUp o m resolve found)
    (hk : Callable o m k) {m' : Mem} (hsame : SameElsewhere o m m') :
    rtldLazyBindSymbol resolve o m' (k.setWidth 64) = .ok (lazyTarget o m found k) := by
  have he := pltEntry_mem hk.bound
  have hlookup := hfound _ he hk.writes
  cases hf : found (o.pltEntry k) with
  | some symbol =>
    rw [lazyTarget, hf]
    rw [hf] at hlookup
    exact lazy_value hplaced hk.bound hlookup hsame
  | none =>
    rw [lazyTarget, hf]
    -- the entry names the same symbol as before, and that is not found
    have hinfo := record_same hplaced hsame he (d := 8) (by cases (o.pltEntry k).kind <;> decide)
    have hnone : resolve m' (entrySymbol o m' (o.pltEntry k).addr) = .ok none := by
      rw [entrySymbol, hinfo, ← hf]
      exact hlookup m' hsame
    rw [rtldLazyBindSymbol]
    by_cases hr : o.isRela = true
    · have haddr : (o.pltEntry k).addr = entryAt o.relaOrRelPlt sizeofRela (k.setWidth 64) := by
        rw [ModuleObject.pltEntry, ModuleObject.pltKind, if_pos hr]
        rfl
      rw [haddr] at hnone
      rw [if_pos hr]
      dsimp only
      rw [hnone]
      rfl
    · have haddr : (o.pltEntry k).addr = entryAt o.relaOrRelPlt sizeofRel (k.setWidth 64) := by
        rw [ModuleObject.pltEntry, ModuleObject.pltKind, if_neg hr]
        rfl
      rw [haddr] at hnone
      rw [if_neg hr]
      dsimp only
      rw [hnone]
      rfl

theorem slot_index (o : ModuleObject) (k : BitVec 32) :
    (o.got+24+8*k.setWidth 64-(o.got+16)-8) >>> 3 = k.setWidth 64 := by
  have hk := k.isLt
  have hdist : o.got+24+8*k.setWidth 64-(o.got+16)-8 = 8*k.setWidth 64 := by bv_omega
  apply BitVec.eq_of_toNat_eq
  rw [hdist, BitVec.toNat_ushiftRight, Nat.shiftRight_eq_div_pow]
  bv_omega

/-- Different slots are apart. -/
theorem slots_sep (o : ModuleObject) {k l : BitVec 32} (h : k ≠ l) :
    Sep (o.got+24+8*k.setWidth 64) 8 (o.got+24+8*l.setWidth 64) 8 := by
  have hne : k.toNat ≠ l.toNat := fun he => h (BitVec.eq_of_toNat_eq he)
  constructor <;> bv_omega

theorem self_sep (o : ModuleObject) (k : BitVec 32) :
    Sep (o.got+8) 8 (o.got+24+8*k.setWidth 64) 8 := by
  constructor <;> bv_omega

end Lookup

section Calls
variable {ι : Type} {index : ι → BitVec 32} {phase : ι → Phase} {k : BitVec 32}

/-- A call through the slot `k` has arrived. -/
def Done (index : ι → BitVec 32) (phase : ι → Phase) (k : BitVec 32) : Prop :=
  ∃ i t, index i = k ∧ phase i = .arrived t

variable [DecidableEq ι]

theorem done_update_arrived (i : ι) (t : Addr) :
    Done index (Function.update phase i (.arrived t)) k ↔ index i = k ∨ Done index phase k := by
  constructor
  · rintro ⟨j,u,hj,hu⟩
    by_cases h : j = i
    · exact Or.inl (h ▸ hj)
    · rw [Function.update_of_ne h] at hu
      exact Or.inr ⟨j,u,hj,hu⟩
  · rintro (hi | ⟨j,u,hj,hu⟩)
    · exact ⟨i,t,hi,Function.update_self _ _ _⟩
    · by_cases h : j = i
      · exact ⟨i,t,h ▸ hj,Function.update_self _ _ _⟩
      · exact ⟨j,u,hj,(Function.update_of_ne h _ _).trans hu⟩

/-- Until it arrives, a call changes nothing about which slots are bound. -/
theorem done_update {i : ι} {p : Phase} (hold : ∀ t, phase i ≠ .arrived t)
    (hnew : ∀ t, p ≠ .arrived t) :
    Done index (Function.update phase i p) k ↔ Done index phase k := by
  constructor
  · rintro ⟨j,u,hj,hu⟩
    by_cases h : j = i
    · rw [h, Function.update_self] at hu
      exact absurd hu (hnew u)
    · rw [Function.update_of_ne h] at hu
      exact ⟨j,u,hj,hu⟩
  · rintro ⟨j,u,hj,hu⟩
    have h : j ≠ i := fun h => hold u (h ▸ hu)
    exact ⟨j,u,hj,(Function.update_of_ne h _ _).trans hu⟩

end Calls

section Invariant
variable {ι : Type} {resolve : ModuleObject → Resolver} {objectAt : Addr → ModuleObject}
  {o : ModuleObject} {m m₀ : Mem} {found : ResolveEntry → Option Addr} {me stub : Addr}
  {index : ι → BitVec 32} {s s' : LazyState ι}

/-- A slot leads to the stub until a call through it has arrived, and to its target from then on.
Nothing else changes. -/
structure LazyInv (o : ModuleObject) (m m₀ : Mem) (found : ResolveEntry → Option Addr)
    (me stub : Addr) (index : ι → BitVec 32) (s : LazyState ι) : Prop where
  rest : SameElsewhere o m s.mem
  object : s.mem.read64 (o.got+8) = me
  bound : ∀ i, Done index s.phase (index i) →
    s.mem.read64 (o.got+24+8*(index i).setWidth 64) = lazyTarget o m found (index i)
  unbound : ∀ i, ¬Done index s.phase (index i) →
    s.mem.read64 (o.got+24+8*(index i).setWidth 64) = stub
  storing : ∀ i t, s.phase i = .storing t → t = lazyTarget o m found (index i)
  arrived : ∀ i t, s.phase i = .arrived t → t = lazyTarget o m found (index i)
  frame : ∀ x, (∀ i, 8 ≤ (x-(o.got+24+8*(index i).setWidth 64)).toNat) → s.mem x = m₀ x

variable [DecidableEq ι]

/-- What a phase other than those two does not say anything about. -/
theorem LazyInv.advance (h : LazyInv o m m₀ found me stub index s) {i : ι} {p : Phase}
    (hold : ∀ t, s.phase i ≠ .arrived t) (hnew : ∀ t, p ≠ .arrived t)
    (hstoring : ∀ t, p = .storing t → t = lazyTarget o m found (index i)) :
    LazyInv o m m₀ found me stub index { s with phase := Function.update s.phase i p } := by
  refine ⟨h.rest,h.object,fun j hj => ?_,fun j hj => ?_,fun j t hj => ?_,fun j t hj => ?_,h.frame⟩
  · exact h.bound j ((done_update hold hnew).mp hj)
  · exact h.unbound j fun hd => hj ((done_update hold hnew).mpr hd)
  · by_cases hi : j = i
    · rw [hi] at hj ⊢
      exact hstoring t ((Function.update_self i p s.phase).symm.trans hj)
    · exact h.storing j t ((Function.update_of_ne hi p s.phase).symm.trans hj)
  · by_cases hi : j = i
    · rw [hi] at hj
      exact absurd ((Function.update_self i p s.phase).symm.trans hj) (hnew t)
    · exact h.arrived j t ((Function.update_of_ne hi p s.phase).symm.trans hj)

/-- A call arrives at its target, the slot leading there. -/
theorem LazyInv.arrive {mem : Mem} (h : LazyInv o m m₀ found me stub index s) {i : ι}
    (hrest : SameElsewhere o m mem) (hself : mem.read64 (o.got+8) = me)
    (hslot : mem.read64 (o.got+24+8*(index i).setWidth 64) = lazyTarget o m found (index i))
    (hother : ∀ j, index j ≠ index i → mem.read64 (o.got+24+8*(index j).setWidth 64) =
      s.mem.read64 (o.got+24+8*(index j).setWidth 64))
    (hframe : ∀ x, (∀ i, 8 ≤ (x-(o.got+24+8*(index i).setWidth 64)).toNat) → mem x = m₀ x) :
    LazyInv o m m₀ found me stub index
      ⟨mem,Function.update s.phase i (.arrived (lazyTarget o m found (index i)))⟩ := by
  refine ⟨hrest,hself,fun j hj => ?_,fun j hj => ?_,fun j t hj => ?_,fun j t hj => ?_,hframe⟩
  · by_cases hi : index j = index i
    · rw [hi]
      exact hslot
    · refine (hother j hi).trans (h.bound j ?_)
      exact ((done_update_arrived i _).mp hj).resolve_left fun he => hi he.symm
  · have hnot := mt (done_update_arrived i _).mpr hj
    rw [not_or] at hnot
    exact (hother j fun he => hnot.1 he.symm).trans (h.unbound j hnot.2)
  · by_cases hi : j = i
    · rw [hi] at hj
      exact nomatch (Function.update_self i _ s.phase).symm.trans hj
    · exact h.storing j t ((Function.update_of_ne hi _ s.phase).symm.trans hj)
  · by_cases hi : j = i
    · rw [hi] at hj ⊢
      have ht := (Function.update_self i _ s.phase).symm.trans hj
      cases ht
      rfl
    · exact h.arrived j t ((Function.update_of_ne hi _ s.phase).symm.trans hj)

end Invariant

section Steps
variable {ι : Type} [DecidableEq ι] {resolve : ModuleObject → Resolver}
  {objectAt : Addr → ModuleObject} {o : ModuleObject} {m m₀ : Mem}
  {found : ResolveEntry → Option Addr} {me stub : Addr} {index : ι → BitVec 32}
  {s s' : LazyState ι} (hplaced : WellPlaced o m) (hfound : LooksUp o m (resolve o) found)
  (hobject : objectAt me = o) (hcalls : ∀ i, Callable o m (index i))
include hplaced hfound hobject hcalls

omit [DecidableEq ι] in
/-- The resolver finds the target of its slot at any time. -/
theorem LazyInv.target (h : LazyInv o m m₀ found me stub index s) (i : ι) :
    runtimeTarget resolve objectAt (o.got+16) (o.got+24+8*(index i).setWidth 64) s.mem =
      .ok (lazyTarget o m found (index i)) := by
  have hself : o.got+16-8 = o.got+8 := by bv_omega
  rw [runtimeTarget, hself, h.object, hobject, slot_index]
  exact lazyBind_eq hplaced hfound (hcalls i) h.rest

theorem LazyInv.step (h : LazyInv o m m₀ found me stub index s)
    (hstep : LazyStep (o.lazyEnv resolve objectAt stub index) s s') :
    LazyInv o m m₀ found me stub index s' := by
  cases hstep with
  | direct i hi hslot =>
    change s.mem.read64 (o.got+24+8*(index i).setWidth 64) ≠ stub at hslot
    -- a slot that does not lead to the stub has been bound by a call that went before
    have hdone : Done index s.phase (index i) := by
      by_contra hnot
      exact hslot (h.unbound i hnot)
    have hread := h.bound i hdone
    have harrive := h.arrive h.rest h.object hread (fun _ _ => rfl) h.frame
    rw [← hread] at harrive
    exact harrive
  | enter i hi hslot =>
    exact h.advance (fun t ht => nomatch hi.symm.trans ht) (fun t ht => nomatch ht)
      fun t ht => nomatch ht
  | @bind i hi target htarget =>
    have heq := (h.target hplaced hfound hobject hcalls i).symm.trans htarget
    refine h.advance (fun t ht => nomatch hi.symm.trans ht) (fun t ht => nomatch ht)
      fun t ht => ?_
    cases ht
    exact (Except.ok.inj heq).symm
  | @store i target hi =>
    have ht := h.storing i target hi
    rw [ht]
    -- the store goes to the slot of this call alone
    refine h.arrive ?_ ?_ (Mem.read64_write64_self _ _ _) ?_ ?_
    · intro x hx
      rw [← h.rest x hx]
      apply Mem.write64_apply_of_le
      by_contra hlt
      refine hx (Or.inl ⟨_,pltEntry_mem (hcalls i).bound,(hcalls i).writes,?_⟩)
      rw [(hcalls i).slot]
      exact not_le.mp hlt
    · exact (Mem.read64_write64_of_sep _ _ (self_sep o (index i))).trans h.object
    · exact fun j hj => Mem.read64_write64_of_sep _ _ (slots_sep o hj)
    · intro x hx
      rw [← h.frame x hx]
      exact Mem.write64_apply_of_le _ _ (hx i)

/-- A call that has not arrived can go on. -/
theorem LazyInv.progress (h : LazyInv o m m₀ found me stub index s) {i : ι}
    (hi : ∀ t, s.phase i ≠ .arrived t) :
    ∃ s', LazyStep (o.lazyEnv resolve objectAt stub index) s s' ∧
      (s'.phase i).rank < (s.phase i).rank := by
  have hrank {p q : Phase} (hq : s.phase i = q) (hlt : p.rank < q.rank) :
      (Function.update s.phase i p i).rank < (s.phase i).rank := by
    rw [Function.update_self, hq]
    exact hlt
  cases hp : s.phase i with
  | calling =>
    by_cases hslot : s.mem.read64 (o.got+24+8*(index i).setWidth 64) = stub
    · exact ⟨_,LazyStep.enter i hp hslot,hp ▸ hrank hp (Nat.lt_succ_self 2)⟩
    · exact ⟨_,LazyStep.direct i hp hslot,hp ▸ hrank hp (Nat.zero_lt_succ 2)⟩
  | binding =>
    exact ⟨_,LazyStep.bind i hp (h.target hplaced hfound hobject hcalls i),
      hp ▸ hrank hp Nat.one_lt_two⟩
  | storing t => exact ⟨_,LazyStep.store i hp,hp ▸ hrank hp Nat.zero_lt_one⟩
  | arrived t => exact absurd hp (hi t)

end Steps

section Runs
variable {ι : Type} [DecidableEq ι] {resolve : ModuleObject → Resolver}
  {objectAt : Addr → ModuleObject} {o : ModuleObject} {m : Mem}
  {found : ResolveEntry → Option Addr} {env : ResolveEnv} {index : ι → BitVec 32}
  {s₀ : ResolveState}

/-- Every slot that a call can go through leads to the stub that `ResolveSymbols` recorded. -/
theorem callable_stub (hresolved : Resolved o m env true found 0 s₀)
    (hone : OneStub (0 :: o.entries.flatMap (ResolveEntry.stubs o m))) {k : BitVec 32}
    (hk : Callable o m k) :
    s₀.mem.read64 (o.got+24+8*k.setWidth 64) = s₀.gotStubPtr := by
  have he := pltEntry_mem hk.bound
  have hread := hresolved.slots _ he hk.writes
  have hmem : (o.pltEntry k).stub o m ∈ 0 :: o.entries.flatMap (ResolveEntry.stubs o m) := by
    refine List.mem_cons_of_mem _ (List.mem_flatMap.mpr ⟨_,he,?_⟩)
    rw [ResolveEntry.stubs, if_pos ⟨rfl,hk.writes⟩]
    exact List.mem_singleton_self _
  rw [hresolved.stub, firstStub_eq hone hmem hk.stub, ← hk.slot, hread, ResolveEntry.final,
    ResolveEntry.stored, if_neg (not_not_intro hk.writes)]
  rfl

/-- Calls that are under way at once, in any order: each arrives at the address that the lookup of
its symbol gives, by the stub or not; its slot leads there from the first arrival on; no other
byte changes; and a call that has not arrived is never held up by the other ones. -/
theorem lazy_binding_interleaved (hplaced : WellPlaced o m) (hgot : o.got ≠ 0)
    (hfound : LooksUp o m (resolve o) found) (hobject : objectAt env.self = o)
    (hcalls : ∀ i, Callable o m (index i)) {steps : ℕ}
    (hlazy : resolveSymbols (resolve o) o env steps true ⟨0,m⟩ = .ok s₀) {s : LazyState ι}
    (hrun : Relation.ReflTransGen (LazyStep (o.lazyEnv resolve objectAt s₀.gotStubPtr index))
      ⟨s₀.mem,fun _ => .calling⟩ s) :
    (∀ i t, s.phase i = .arrived t → t = lazyTarget o m found (index i)) ∧
      (∀ i, s.mem.read64 (o.got+24+8*(index i).setWidth 64) = s₀.gotStubPtr ∧
          ¬Done index s.phase (index i) ∨
        s.mem.read64 (o.got+24+8*(index i).setWidth 64) = lazyTarget o m found (index i) ∧
          Done index s.phase (index i)) ∧
      (∀ x, (∀ i, 8 ≤ (x-(o.got+24+8*(index i).setWidth 64)).toNat) → s.mem x = s₀.mem x) ∧
      ∀ i, (∀ t, s.phase i ≠ .arrived t) →
        ∃ s', LazyStep (o.lazyEnv resolve objectAt s₀.gotStubPtr index) s s' ∧
          (s'.phase i).rank < (s.phase i).rank := by
  obtain ⟨hresolved,-,hone⟩ := resolved_of_ok hplaced hfound hlazy
  -- before the first call every slot leads to the stub
  have hinit : LazyInv o m s₀.mem found env.self s₀.gotStubPtr index
      ⟨s₀.mem,fun _ => .calling⟩ := by
    refine ⟨hresolved.rest,hresolved.object hgot,?_,fun i _ => ?_,?_,?_,fun _ _ => rfl⟩
    · rintro i ⟨j,t,-,ht⟩
      cases ht
    · exact callable_stub hresolved hone (hcalls i)
    · intro i t ht
      cases ht
    · intro i t ht
      cases ht
  have hinv : LazyInv o m s₀.mem found env.self s₀.gotStubPtr index s := by
    induction hrun with
    | refl => exact hinit
    | tail _ hstep ih => exact ih.step hplaced hfound hobject hcalls hstep
  refine ⟨hinv.arrived,fun i => ?_,hinv.frame,fun i hi =>
    hinv.progress hplaced hfound hobject hcalls hi⟩
  by_cases hdone : Done index s.phase (index i)
  · exact Or.inr ⟨hinv.bound i hdone,hdone⟩
  · exact Or.inl ⟨hinv.unbound i hdone,hdone⟩

theorem relModule_looksUp :
    LooksUp relModule relMem (tryResolveSymbol oneAddress 2 relModule) fun _ => some 0x5000 := by
  intro e he _ m' hsame
  rw [relModule_entries] at he
  rw [List.mem_singleton.mp he]
  exact relModule_lookup hsame

def lazyRelMem : Mem := setGot relModule ⟨0x6000,0x7000⟩ (relMem.write64 0x2018 0x2100)

/-- Two threads call through one slot; both enter the resolver before either of them stores. -/
theorem lazy_binding_interleaved_two :
    let index : Bool → BitVec 32 := fun _ => 0
    let env := relModule.lazyEnv (tryResolveSymbol oneAddress 2) (fun _ => relModule) 0x2100 index
    ∃ s : LazyState Bool, Relation.ReflTransGen (LazyStep env) ⟨lazyRelMem,fun _ => .calling⟩ s ∧
      s.phase true = .binding ∧ s.phase false = .arrived 0x5000 ∧
      (∀ t, s.phase false = .arrived t →
        t = lazyTarget relModule relMem (fun _ => some 0x5000) 0) := by
  intro index env
  have hlazy : resolveSymbols (tryResolveSymbol oneAddress 2 relModule) relModule ⟨0x6000,0x7000⟩ 3
      true ⟨0,relMem⟩ = .ok ⟨0x2100,lazyRelMem⟩ := rfl
  have hstub : lazyRelMem.read64 0x2018 = 0x2100 := by decide
  have htarget : runtimeTarget (tryResolveSymbol oneAddress 2) (fun _ => relModule) 0x2010 0x2018
      lazyRelMem = .ok 0x5000 := rfl
  have hcallable : Callable relModule relMem 0 := ⟨by decide,rfl,rfl,by decide⟩
  let both : Bool → Phase := Function.update (Function.update (fun _ => .calling) true .binding)
    false .binding
  let stored : Bool → Phase := Function.update both false (.storing 0x5000)
  have hfirst : LazyStep env ⟨lazyRelMem,fun _ => .calling⟩
      ⟨lazyRelMem,Function.update (fun _ => .calling) true .binding⟩ :=
    LazyStep.enter true rfl hstub
  have hsecond : LazyStep env ⟨lazyRelMem,Function.update (fun _ => .calling) true .binding⟩
      ⟨lazyRelMem,both⟩ := LazyStep.enter false rfl hstub
  have hbind : LazyStep env ⟨lazyRelMem,both⟩ ⟨lazyRelMem,stored⟩ :=
    LazyStep.bind false rfl htarget
  have hstore : LazyStep env ⟨lazyRelMem,stored⟩ ⟨lazyRelMem.write64 0x2018 0x5000,
      Function.update stored false (.arrived 0x5000)⟩ := LazyStep.store false rfl
  have hrun := (((Relation.ReflTransGen.single hfirst).tail hsecond).tail hbind).tail hstore
  refine ⟨_,hrun,rfl,rfl,?_⟩
  exact (lazy_binding_interleaved relModule_placed (by decide) relModule_looksUp rfl
    (fun _ => hcallable) hlazy hrun).1 false

end Runs

end Zeldar.Rtld
