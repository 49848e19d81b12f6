import Zeldar.ModuleScan

namespace Zeldar

section FindModules

variable {l : MemoryMap} {query : Addr → Except Result Region} {fuel : ℕ}

/-- A scan with room for all modules ends with the last assertions. -/
theorem findModules_of_room (hans : l.Answers query) (moduleStart : Addr)
    (hfuel : l.regions.length+1 ≤ fuel)
    (hroom : (recognised l.regions).length < maxModules) :
    ∃ s, findModules query moduleStart fuel = (s.assertions,s) ∧
      s.recorded = recognised l.regions ∧ ∃ p, s.Open moduleStart p := by
  have hends := findModules_ends hans moduleStart hfuel
  obtain ⟨hok,p,hopen⟩ := hends.room hroom
  have hrecorded := hends.recorded
  rw [List.take_of_length_le (Nat.le_of_lt hroom)] at hrecorded
  generalize hout : findModulesLoop query moduleStart fuel .initial = out at *
  obtain ⟨e,s⟩ := out
  dsimp only at hok hrecorded hopen
  subst hok
  refine ⟨s,?_,hrecorded,p,hopen⟩
  rw [findModules, hout]

theorem findModules_of_full (hans : l.Answers query) (moduleStart : Addr)
    (hfuel : l.regions.length+1 ≤ fuel)
    (hfull : maxModules ≤ (recognised l.regions).length) :
    ∃ s, findModules query moduleStart fuel = (.error (.abort tooManyStaticModules),s) ∧
      s.recorded = (recognised l.regions).take maxModules := by
  have hends := findModules_ends hans moduleStart hfuel
  have habort := hends.full hfull
  have hrecorded := hends.recorded
  generalize hout : findModulesLoop query moduleStart fuel .initial = out at *
  obtain ⟨e,s⟩ := out
  dsimp only at habort hrecorded
  subst habort
  refine ⟨s,?_,hrecorded⟩
  rw [findModules, hout]

/-- The last assertions can only fail, and hold when the own module is stored. -/
theorem Scan.assertions_cases (s : Scan) :
    s.assertions = .ok () ∨ s.assertions = .error .assertion := by
  simp only [Scan.assertions, exlAssert]
  split_ifs <;> first | exact Or.inl rfl | exact Or.inr rfl

theorem Scan.Open.assertions {s : Scan} {p : List Region} {moduleStart : Addr}
    (h : s.Open moduleStart p)
    (hown : ∃ m ∈ s.recorded, m.total.start = moduleStart) :
    s.assertions = .ok () ∧ s.moduleCount = s.recorded.length := by
  have hself := h.self hown
  have hpos : s.nextModIdx ≠ 0 := by
    intro h0
    obtain ⟨m,hm,_⟩ := hown
    rw [Scan.recorded, h0, List.take_zero] at hm
    exact List.not_mem_nil hm
  have hcount := h.count
  rw [if_neg hpos] at hcount
  have hle := h.index_le
  have hlt := h.self_lt
  constructor
  · have h1 : (s.selfModuleIdx != -1) = true := bne_iff_ne.mpr hself
    have h2 : decide (s.selfModuleIdx < (maxModules:ℤ)) = true := decide_eq_true hlt
    have h3 : (s.moduleCount != -1) = true := bne_iff_ne.mpr (by omega)
    have h4 : decide (s.moduleCount ≤ (maxModules:ℤ)) = true := decide_eq_true (by omega)
    rw [Scan.assertions, h1, h2, h3, h4]
    rfl
  · rw [hcount, Scan.recorded_length hle]

/-- What is promised of a scan of a map with `k` modules to recognise. -/
structure AbortsOnlyWhenFull (k : ℕ) (own : Prop) (out : Except Halt Unit × Scan) : Prop where
  abort_iff : out.1 = .error (.abort tooManyStaticModules) ↔ maxModules < k
  completes : k ≤ maxModules → own → out.1 = .ok () ∧ out.2.moduleCount = k
  inBounds : out.1 ≠ .error .fault

/-- The scan keeps the promise of its capacity unless the array would be exactly full. -/
theorem findModules_capacity_iff (hans : l.Answers query) (moduleStart : Addr)
    (hfuel : l.regions.length+1 ≤ fuel) :
    AbortsOnlyWhenFull (recognised l.regions).length
        (∃ m ∈ recognised l.regions, m.total.start = moduleStart)
        (findModules query moduleStart fuel) ↔
      (recognised l.regions).length ≠ maxModules := by
  -- at the capacity and above it the scan aborts, below it the scan completes
  by_cases hfull : maxModules ≤ (recognised l.regions).length
  · obtain ⟨s,hs,-⟩ := findModules_of_full hans moduleStart hfuel hfull
    rw [hs]
    constructor
    · intro h
      exact Nat.ne_of_gt (h.abort_iff.mp rfl)
    · intro hne
      refine ⟨iff_of_true rfl (by omega),fun hle => absurd hle (by omega),nofun⟩
  · have hroom := Nat.not_le.mp hfull
    obtain ⟨s,hs,hrecorded,p,hopen⟩ :=
      findModules_of_room hans moduleStart hfuel hroom
    rw [hs]
    refine ⟨fun _ => Nat.ne_of_lt hroom,fun _ => ⟨?_,?_,?_⟩⟩
    · rcases s.assertions_cases with h | h
      · simp only [h, reduceCtorEq, false_iff, not_lt]
        exact Nat.le_of_lt hroom
      · simp only [h, Except.error.injEq, reduceCtorEq, false_iff, not_lt]
        exact Nat.le_of_lt hroom
    · intro _ hown
      rw [← hrecorded] at hown ⊢
      exact hopen.assertions hown
    · rcases s.assertions_cases with h | h <;> simp [h]

end FindModules

/-- Modules one after another, each of three pages. -/
def modulePages (n : ℕ) : List (Word × Word) :=
  (List.replicate n [pageText,pageRodata,pageData]).flatten

def oneModule : MemoryMap := pageMap (modulePages 1) (by decide)

def thirteenModules : MemoryMap := pageMap (modulePages 13) (by decide)

theorem findModules_capacity_iff_one :
    AbortsOnlyWhenFull (recognised oneModule.regions).length
        (∃ m ∈ recognised oneModule.regions, m.total.start = 0x1000)
        (findModules oneModule.query 0x1000 6) ↔
      (recognised oneModule.regions).length ≠ maxModules :=
  findModules_capacity_iff oneModule.query_answers 0x1000 (by decide)

/-- With exactly as many modules as the array holds, the scan aborts. -/
theorem findModules_aborts_full :
    (recognised thirteenModules.regions).length = maxModules ∧
      (∃ m ∈ recognised thirteenModules.regions, m.total.start = 0x1000) ∧
      (findModules thirteenModules.query 0x1000 42).1 = .error (.abort tooManyStaticModules) := by
  have hlength : (recognised thirteenModules.regions).length = maxModules := by decide
  obtain ⟨s,hs,-⟩ := findModules_of_full thirteenModules.query_answers 0x1000
    (by decide : _ ≤ 42) (Nat.le_of_eq hlength.symm)
  exact ⟨hlength,by decide,congrArg Prod.fst hs⟩

structure ModuleInfo.WellFormed (m : ModuleInfo) (regions : List Region) : Prop where
  regions : ∃ a b c, [a,b,c] <:+: regions ∧ a.IsText ∧ b.IsRodata ∧ c.IsData ∧
    m.text = a.range ∧ m.rodata = b.range ∧ m.data = c.range
  text_rodata : m.text.getEnd = m.rodata.start
  rodata_data : m.rodata.getEnd = m.data.start
  total_start : m.total.start = m.text.start
  total_end : m.total.getEnd = m.data.getEnd

/-- Where a module lies. -/
def ModuleInfo.span (m : ModuleInfo) : Span ℕ := ⟨m.total.start.toNat,m.total.getEnd.toNat⟩

theorem moduleOf_getEnd (a b c : Region) : (moduleOf a b c).total.getEnd = c.range.getEnd := by
  show a.addr+(c.range.getEnd-a.addr) = c.range.getEnd
  rw [BitVec.add_comm, BitVec.sub_add_cancel]

theorem Region.getEnd_toNat {r : Region} (h : r.span.hi < 2^64) :
    r.range.getEnd.toNat = r.span.hi := by
  rw [Region.range, Range.getEnd, BitVec.toNat_add]
  exact Nat.mod_eq_of_lt h

/-- A region that follows another one starts where that one ends. -/
theorem Region.getEnd_eq {a b : Region} (h : b.span.lo = a.span.hi) (ha : a.span.hi < 2^64) :
    a.range.getEnd = b.range.start := by
  apply BitVec.eq_of_toNat_eq
  rw [getEnd_toNat ha]
  exact h.symm

theorem ModuleInfo.WellFormed.mono {m : ModuleInfo} {rs rs' : List Region} (h : m.WellFormed rs)
    (hsub : rs <:+: rs') : m.WellFormed rs' := by
  obtain ⟨a,b,c,habc,hrest⟩ := h.regions
  exact ⟨⟨a,b,c,habc.trans hsub,hrest⟩,h.text_rodata,h.rodata_data,h.total_start,h.total_end⟩

/-- Modules of the regions `rs`, from the address `lo` on and in increasing order. -/
structure InOrder (rs : List Region) (lo : ℕ) (ms : List ModuleInfo) : Prop where
  wellFormed : ∀ m ∈ ms, m.WellFormed rs
  above : ∀ m ∈ ms, lo ≤ m.span.lo
  nonempty : ∀ m ∈ ms, m.span.lo < m.span.hi
  ordered : ms.Pairwise fun m m' => m.span.hi ≤ m'.span.lo

theorem InOrder.mono {rs rs' : List Region} {lo lo' : ℕ} {ms : List ModuleInfo}
    (h : InOrder rs lo ms) (hsub : rs <:+: rs') (hlo : lo' ≤ lo) : InOrder rs' lo' ms :=
  ⟨fun m hm => (h.wellFormed m hm).mono hsub,fun m hm => hlo.trans (h.above m hm),h.nonempty,
    h.ordered⟩

theorem inOrder_nil (rs : List Region) (lo : ℕ) : InOrder rs lo [] :=
  ⟨nofun,nofun,nofun,List.Pairwise.nil⟩

/-- A module in front of others that start where it ends. -/
theorem InOrder.cons {a b c : Region} {rest : List Region} {hi : ℕ} {ms : List ModuleInfo}
    (h : InOrder rest c.span.hi ms) (ha : a.IsText) (hb : b.IsRodata) (hc : c.IsData)
    (htiles : Tiles a.span.lo ((a::b::c::rest).map Region.span) hi) (hhi : hi < 2^64) :
    InOrder (a::b::c::rest) a.span.lo (moduleOf a b c :: ms) := by
  obtain ⟨_,haa,hb1,hbb,hc1,hcc,hrest⟩ := htiles
  have hle := hrest.le
  have hend : c.range.getEnd.toNat = c.span.hi := Region.getEnd_toNat (lt_of_le_of_lt hle hhi)
  have hspan : (moduleOf a b c).span = ⟨a.span.lo,c.span.hi⟩ := by
    rw [ModuleInfo.span, moduleOf_getEnd, hend]
    rfl
  have hmod : (moduleOf a b c).WellFormed (a::b::c::rest) := by
    refine ⟨⟨a,b,c,?_,ha,hb,hc,rfl,rfl,rfl⟩,?_,?_,rfl,moduleOf_getEnd a b c⟩
    · exact (List.prefix_append [a,b,c] rest).isInfix
    · exact Region.getEnd_eq hb1 (by omega)
    · exact Region.getEnd_eq hc1 (by omega)
  -- what is well formed among the later regions is so among all of them
  have hmono := h.mono (List.suffix_append [a,b,c] rest).isInfix (by omega : a.span.lo ≤ c.span.hi)
  constructor
  · intro m hm
    rcases List.mem_cons.mp hm with rfl | hm
    · exact hmod
    · exact hmono.wellFormed m hm
  · intro m hm
    rcases List.mem_cons.mp hm with rfl | hm
    · rw [hspan]
    · exact hmono.above m hm
  · intro m hm
    rcases List.mem_cons.mp hm with rfl | hm
    · rw [hspan]
      dsimp only
      omega
    · exact h.nonempty m hm
  · apply List.Pairwise.cons _ h.ordered
    intro m hm
    rw [hspan]
    exact h.above m hm

/-- The modules recognised in a stretch of regions. -/
theorem recognised_inOrder (rs : List Region) {lo hi : ℕ}
    (h : Tiles lo (rs.map Region.span) hi) (hhi : hi < 2^64) :
    InOrder rs lo (recognised rs) := by
  -- the cases of the scan: an attempt that ends skips the regions it has read
  induction rs using recognised.induct generalizing lo with
  | case1 a b c rest ha ih =>
    obtain ⟨hlo,hlt,hrest⟩ := h
    rw [recognised, if_pos ha]
    exact (ih hrest).mono (List.suffix_cons a _).isInfix (by omega)
  | case2 a b c rest ha hb ih =>
    obtain ⟨hlo,hlt,hb1,hbb,hrest⟩ := h
    rw [recognised, if_neg ha, if_pos hb]
    exact (ih hrest).mono (List.suffix_append [a,b] _).isInfix (by omega)
  | case3 a b c rest ha hb hc ih =>
    have h0 := h
    obtain ⟨rfl,hlt,hb1,hbb,hc1,hcc,hrest⟩ := h
    rw [recognised, if_neg ha, if_neg hb, if_pos hc]
    exact (ih hrest).cons (not_not.mp ha) (not_not.mp hb) hc h0 hhi
  | case4 a b c rest ha hb hc ih =>
    obtain ⟨hlo,hlt,hb1,hbb,hc1,hcc,hrest⟩ := h
    rw [recognised, if_neg ha, if_neg hb, if_neg hc]
    exact (ih hrest).mono (List.suffix_append [a,b,c] _).isInfix (by omega)
  | case5 rs hshort =>
    have hnil : recognised rs = [] := by
      rw [recognised]
      exact hshort
    rw [hnil]
    exact inOrder_nil rs lo

/-- The last region is of no module, so no module reaches the end of the addresses. -/
theorem MemoryMap.recognised_inOrder (l : MemoryMap) :
    InOrder l.regions 0 (recognised l.regions) := by
  have htiles : Tiles 0 ((l.first :: l.middle).map Region.span++[l.last.span]) (2^64) := by
    rw [← List.map_singleton, ← List.map_append]
    exact l.tiles
  obtain ⟨hbelow,hlt⟩ := htiles.of_concat
  rw [MemoryMap.regions, recognised_append_plain l.last_plain]
  exact (Zeldar.recognised_inOrder _ hbelow hlt).mono (List.prefix_append _ _).isInfix (le_refl 0)

/-- A scan ends, and what it has stored by then is well formed and in order. -/
structure WellScanned (regions : List Region) (out : Except Halt Unit × Scan) : Prop where
  ends : out.1 = .ok () ∨ out.1 = .error .assertion ∨
    out.1 = .error (.abort tooManyStaticModules)
  wellFormed : ∀ m ∈ out.2.recorded, m.WellFormed regions
  nonempty : ∀ m ∈ out.2.recorded, m.span.lo < m.span.hi
  ordered : out.2.recorded.Pairwise fun m m' => m.span.hi ≤ m'.span.lo

theorem InOrder.wellScanned {rs : List Region} {ms : List ModuleInfo} (h : InOrder rs 0 ms)
    {out : Except Halt Unit × Scan} (hends : out.1 = .ok () ∨ out.1 = .error .assertion ∨
      out.1 = .error (.abort tooManyStaticModules)) (hsub : out.2.recorded.Sublist ms) :
    WellScanned rs out :=
  ⟨hends,fun m hm => h.wellFormed m (hsub.subset hm),fun m hm => h.nonempty m (hsub.subset hm),
    h.ordered.sublist hsub⟩

/-- Whatever the map, the scan ends, with well-formed modules in increasing order. -/
theorem findModules_wellScanned {l : MemoryMap} {query : Addr → Except Result Region}
    (hans : l.Answers query) (moduleStart : Addr) {fuel : ℕ}
    (hfuel : l.regions.length+1 ≤ fuel) :
    WellScanned l.regions (findModules query moduleStart fuel) := by
  by_cases hfull : maxModules ≤ (recognised l.regions).length
  · obtain ⟨s,hs,hrecorded⟩ := findModules_of_full hans moduleStart hfuel hfull
    rw [hs]
    apply l.recognised_inOrder.wellScanned (Or.inr (Or.inr rfl))
    rw [hrecorded]
    exact List.take_sublist _ _
  · obtain ⟨s,hs,hrecorded,-⟩ :=
      findModules_of_room hans moduleStart hfuel (Nat.not_le.mp hfull)
    rw [hs]
    apply l.recognised_inOrder.wellScanned
    · rcases s.assertions_cases with h | h
      · exact Or.inl h
      · exact Or.inr (Or.inl h)
    · exact hrecorded ▸ List.Sublist.refl _

def threeModules : MemoryMap := pageMap (modulePages 3) (by decide)

/-- Three modules, one after the other. -/
theorem findModules_wellScanned_three :
    (findModules threeModules.query 0x1000 12).2.recorded.map ModuleInfo.span =
        [⟨0x1000,0x4000⟩,⟨0x4000,0x7000⟩,⟨0x7000,0xa000⟩] ∧
      WellScanned threeModules.regions (findModules threeModules.query 0x1000 12) :=
  ⟨by decide,findModules_wellScanned threeModules.query_answers 0x1000 (by decide)⟩

end Zeldar
