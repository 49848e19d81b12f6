import Zeldar.MemLayout
import Zeldar.VirtmemSpec

namespace Zeldar

/-- `s_Alias`, `s_Heap`, `s_Aslr` and `s_Stack`. -/
structure LayoutRegions where
  aliasRange : Range
  heapRange : Range
  aslrRange : Range
  stackRange : Range
  deriving DecidableEq, Repr

section Find
variable {σ : Type} (k : Kernel σ) (s : σ)

def tryGetAddressFromInfo (type : InfoType) : Except Result (BitVec 64) := k.svcGetInfo s type

def getAddressFromInfo (type : InfoType) : Except Halt (BitVec 64) :=
  abortUnless (tryGetAddressFromInfo k s type)

/-- The aslr and stack regions of a kernel that does not report them, by what it says to an
`svcUnmapMemory` that cannot succeed. -/
def inferAslrAndStack (r : LayoutRegions) : Except Result LayoutRegions :=
  let rc := rValue (k.svcUnmapMemory s 0xFFFFFFFFFFFFE000 0xFFFFFE000 0x1000)
  if rc = kernelInvalidMemoryState then
    .ok { r with aslrRange := ⟨0x200000,0x100000000⟩, stackRange := ⟨0x200000,0x40000000⟩ }
  else if rc = kernelInvalidMemoryRange then
    .ok { r with aslrRange := ⟨0x8000000,0x1000000000⟩, stackRange := ⟨0x8000000,0x80000000⟩ }
  else .error libnxWeirdKernel

/-- The condition of the `if` in `FindRegions`, without its negations: each query that succeeds
stores its value, and the first that fails is the last. -/
def queryAslrAndStack (r : LayoutRegions) : LayoutRegions × Bool :=
  match tryGetAddressFromInfo k s .aslrRegionAddress with
  | .error _ => (r,false)
  | .ok start =>
    let r := { r with aslrRange := { r.aslrRange with start := start } }
    match tryGetAddressFromInfo k s .aslrRegionSize with
    | .error _ => (r,false)
    | .ok size =>
      let r := { r with aslrRange := { r.aslrRange with size := size } }
      match tryGetAddressFromInfo k s .stackRegionAddress with
      | .error _ => (r,false)
      | .ok start =>
        let r := { r with stackRange := { r.stackRange with start := start } }
        match tryGetAddressFromInfo k s .stackRegionSize with
        | .error _ => (r,false)
        | .ok size => ({ r with stackRange := { r.stackRange with size := size } },true)

def findRegions (r : LayoutRegions) : Except Halt LayoutRegions := do
  let aliasStart ← getAddressFromInfo k s .aliasRegionAddress
  let aliasSize ← getAddressFromInfo k s .aliasRegionSize
  let heapStart ← getAddressFromInfo k s .heapRegionAddress
  let heapSize ← getAddressFromInfo k s .heapRegionSize
  let r := { r with aliasRange := ⟨aliasStart,aliasSize⟩, heapRange := ⟨heapStart,heapSize⟩ }
  match queryAslrAndStack k s r with
  | (r,true) => return r
  | (r,false) =>
    match inferAslrAndStack k s r with
    | .ok r => return r
    | .error _ => throw .assertion

end Find

def Range.span (r : Range) : Span ℕ := ⟨r.start.toNat,r.getEnd.toNat⟩

/-- Both discoveries have found the same half-open ranges. -/
def LayoutRegions.Agree (l : LayoutRegions) (vm : Virtmem) : Prop :=
  l.aliasRange.span = vm.aliasRegion.span ∧ l.heapRange.span = vm.heapRegion.span ∧
    l.aslrRange.span = vm.aslrRegion.span ∧ l.stackRange.span = vm.stackRegion.span

section Spec
variable {σ : Type} {k : Kernel σ} {s : σ}

/-- The kernel reports this start and this size. -/
def Kernel.Reports (k : Kernel σ) (s : σ) (addr sz : InfoType) (r : Range) : Prop :=
  k.svcGetInfo s addr = .ok r.start ∧ k.svcGetInfo s sz = .ok r.size

/-- A reported range has one start and one size. -/
theorem Kernel.Reports.unique {addr sz : InfoType} {r r' : Range} (h : k.Reports s addr sz r)
    (h' : k.Reports s addr sz r') : r = r' := by
  obtain ⟨hstart,hsize⟩ := h
  obtain ⟨hstart',hsize'⟩ := h'
  have hs := Except.ok.inj (hstart.symm.trans hstart')
  have hz := Except.ok.inj (hsize.symm.trans hsize')
  cases r
  cases r'
  simp only [Range.mk.injEq]
  exact ⟨hs,hz⟩

/-- The two shapes of the answer to the probe, and what `mem_layout` makes of them. -/
theorem inferAslrAndStack_ok {r l : LayoutRegions} (h : inferAslrAndStack k s r = .ok l) :
    l.aliasRange = r.aliasRange ∧ l.heapRange = r.heapRange ∧
      (l.aslrRange = ⟨0x200000,0x100000000⟩ ∨ l.aslrRange = ⟨0x8000000,0x1000000000⟩) := by
  unfold inferAslrAndStack at h
  dsimp only at h
  split_ifs at h
  · injection h with h
    rw [← h]
    exact ⟨rfl,rfl,Or.inl rfl⟩
  · injection h with h
    rw [← h]
    exact ⟨rfl,rfl,Or.inr rfl⟩

/-- The four queries store their values if all of them succeed, and they leave the other two
ranges as they are. -/
theorem queryAslrAndStack_spec (r : LayoutRegions) :
    ((queryAslrAndStack k s r).1.aliasRange = r.aliasRange ∧
      (queryAslrAndStack k s r).1.heapRange = r.heapRange) ∧
    ((queryAslrAndStack k s r).2 = true →
      k.Reports s .aslrRegionAddress .aslrRegionSize (queryAslrAndStack k s r).1.aslrRange ∧
      k.Reports s .stackRegionAddress .stackRegionSize (queryAslrAndStack k s r).1.stackRange) ∧
    ((queryAslrAndStack k s r).2 = false →
      (∀ a, ¬k.Reports s .aslrRegionAddress .aslrRegionSize a) ∨
      ∀ a, ¬k.Reports s .stackRegionAddress .stackRegionSize a) := by
  unfold queryAslrAndStack tryGetAddressFromInfo Kernel.Reports
  cases haddr : k.svcGetInfo s .aslrRegionAddress with
  | error e => exact ⟨⟨rfl,rfl⟩,by simp,fun _ => Or.inl fun a ha => by cases ha.1⟩
  | ok start =>
    cases hsize : k.svcGetInfo s .aslrRegionSize with
    | error e => exact ⟨⟨rfl,rfl⟩,by simp,fun _ => Or.inl fun a ha => by cases ha.2⟩
    | ok size =>
      cases hstack : k.svcGetInfo s .stackRegionAddress with
      | error e => exact ⟨⟨rfl,rfl⟩,by simp,fun _ => Or.inr fun a ha => by cases ha.1⟩
      | ok sstart =>
        cases hssize : k.svcGetInfo s .stackRegionSize with
        | error e => exact ⟨⟨rfl,rfl⟩,by simp,fun _ => Or.inr fun a ha => by cases ha.2⟩
        | ok ssize => exact ⟨⟨rfl,rfl⟩,fun _ => ⟨⟨rfl,rfl⟩,rfl,rfl⟩,by simp⟩

/-- What `FindRegions` has found when it returns. -/
theorem findRegions_ok {r l : LayoutRegions} (h : findRegions k s r = .ok l) :
    k.Reports s .aliasRegionAddress .aliasRegionSize l.aliasRange ∧
      k.Reports s .heapRegionAddress .heapRegionSize l.heapRange ∧
      ((k.Reports s .aslrRegionAddress .aslrRegionSize l.aslrRange ∧
          k.Reports s .stackRegionAddress .stackRegionSize l.stackRange) ∨
        ((∀ a, ¬k.Reports s .aslrRegionAddress .aslrRegionSize a) ∨
          ∀ a, ¬k.Reports s .stackRegionAddress .stackRegionSize a) ∧
        (l.aslrRange = ⟨0x200000,0x100000000⟩ ∨ l.aslrRange = ⟨0x8000000,0x1000000000⟩)) := by
  obtain ⟨as,has,h⟩ := bind_ok h
  obtain ⟨az,haz,h⟩ := bind_ok h
  obtain ⟨hs,hhs,h⟩ := bind_ok h
  obtain ⟨hz,hhz,h⟩ := bind_ok h
  have halias : k.Reports s .aliasRegionAddress .aliasRegionSize ⟨as,az⟩ :=
    ⟨abortUnless_ok has,abortUnless_ok haz⟩
  have hheap : k.Reports s .heapRegionAddress .heapRegionSize ⟨hs,hz⟩ :=
    ⟨abortUnless_ok hhs,abortUnless_ok hhz⟩
  obtain ⟨⟨hqa,hqh⟩,hok,hfail⟩ :=
    @queryAslrAndStack_spec σ k s { r with aliasRange := ⟨as,az⟩, heapRange := ⟨hs,hz⟩ }
  dsimp only at h hqa hqh
  generalize queryAslrAndStack k s { r with aliasRange := ⟨as,az⟩, heapRange := ⟨hs,hz⟩ } = q at *
  obtain ⟨q,b⟩ := q
  cases b with
  | true =>
    -- all four queries have succeeded
    injection h with h
    rw [← h, hqa, hqh]
    exact ⟨halias,hheap,Or.inl (hok rfl)⟩
  | false =>
    dsimp only at h hqa hqh hfail
    cases hinfer : inferAslrAndStack k s q with
    | error e =>
      rw [hinfer] at h
      cases h
    | ok l' =>
      rw [hinfer] at h
      injection h with h
      obtain ⟨hla,hlh,hl⟩ := inferAslrAndStack_ok hinfer
      rw [← h, hla, hlh, hqa, hqh]
      exact ⟨halias,hheap,Or.inr ⟨hfail rfl,hl⟩⟩

theorem memregionInitWithInfo_ok {addr sz : InfoType} {r : MemRegion}
    (h : memregionInitWithInfo k s addr sz = .ok r) :
    ∃ a, k.Reports s addr sz a ∧ r = ⟨a.start,a.getEnd⟩ := by
  obtain ⟨base,hbase,h⟩ := bind_ok h
  obtain ⟨size,hsize,h⟩ := bind_ok h
  injection h with h
  exact ⟨⟨base,size⟩,⟨hbase,hsize⟩,h.symm⟩

theorem memregionInitWithInfo_error {addr sz : InfoType} {e : Result}
    (h : memregionInitWithInfo k s addr sz = .error e) : ∀ a, ¬k.Reports s addr sz a := by
  rintro a ⟨hstart,hsize⟩
  unfold memregionInitWithInfo at h
  rw [hstart] at h
  change (k.svcGetInfo s sz >>= _) = _ at h
  rw [hsize] at h
  cases h

theorem virtmemSetupLegacy_ok {vm vm' : Virtmem} (h : virtmemSetupLegacy k s vm = .ok vm') :
    vm'.aliasRegion = vm.aliasRegion ∧ vm'.heapRegion = vm.heapRegion ∧
      (vm'.aslrRegion = ⟨0x200000,0x100000000⟩ ∨ vm'.aslrRegion = ⟨0x8000000,0x1000000000⟩) := by
  unfold virtmemSetupLegacy at h
  dsimp only at h
  split_ifs at h
  · injection h with h
    rw [← h]
    exact ⟨rfl,rfl,Or.inl rfl⟩
  · injection h with h
    rw [← h]
    exact ⟨rfl,rfl,Or.inr rfl⟩

/-- What `virtmemSetup` has found when it returns: unlike `FindRegions` it takes a stack region
that the kernel does not report for a failure. -/
theorem virtmemSetup_regions {vm : Virtmem} (h : virtmemSetup k s = .ok vm) :
    (∃ a, k.Reports s .aliasRegionAddress .aliasRegionSize a ∧
      vm.aliasRegion = ⟨a.start,a.getEnd⟩) ∧
    (∃ a, k.Reports s .heapRegionAddress .heapRegionSize a ∧ vm.heapRegion = ⟨a.start,a.getEnd⟩) ∧
    ((∃ a, k.Reports s .aslrRegionAddress .aslrRegionSize a ∧
        vm.aslrRegion = ⟨a.start,a.getEnd⟩ ∧
        ∃ b, k.Reports s .stackRegionAddress .stackRegionSize b ∧
          vm.stackRegion = ⟨b.start,b.getEnd⟩) ∨
      (∀ a, ¬k.Reports s .aslrRegionAddress .aslrRegionSize a) ∧
        (vm.aslrRegion = ⟨0x200000,0x100000000⟩ ∨ vm.aslrRegion = ⟨0x8000000,0x1000000000⟩)) := by
  unfold virtmemSetup at h
  -- the first two regions have no fallback
  cases halias : memregionInitWithInfo k s .aliasRegionAddress .aliasRegionSize with
  | error e =>
    rw [halias] at h
    cases h
  | ok aliasRegion =>
    cases hheap : memregionInitWithInfo k s .heapRegionAddress .heapRegionSize with
    | error e =>
      rw [halias, hheap] at h
      cases h
    | ok heapRegion =>
      rw [halias, hheap] at h
      dsimp only at h
      cases haslr : memregionInitWithInfo k s .aslrRegionAddress .aslrRegionSize with
      | error e =>
        rw [haslr] at h
        obtain ⟨ha,hh,hl⟩ := virtmemSetupLegacy_ok h
        rw [ha, hh]
        exact ⟨memregionInitWithInfo_ok halias,memregionInitWithInfo_ok hheap,
          Or.inr ⟨memregionInitWithInfo_error haslr,hl⟩⟩
      | ok aslrRegion =>
        rw [haslr] at h
        dsimp only at h
        cases hstack : memregionInitWithInfo k s .stackRegionAddress .stackRegionSize with
        | error e =>
          rw [hstack] at h
          cases h
        | ok stackRegion =>
          rw [hstack] at h
          injection h with h
          rw [← h]
          obtain ⟨a,ha,hr⟩ := memregionInitWithInfo_ok haslr
          exact ⟨memregionInitWithInfo_ok halias,memregionInitWithInfo_ok hheap,
            Or.inl ⟨a,ha,hr,memregionInitWithInfo_ok hstack⟩⟩

/-- A region kept by its size spans what it spans kept by its end. -/
theorem Kernel.Reports.span {addr sz : InfoType} {a b : Range} {m : MemRegion}
    (h : k.Reports s addr sz a) (h' : k.Reports s addr sz b) (hm : m = ⟨b.start,b.getEnd⟩) :
    a.span = m.span := by
  rw [h.unique h', hm]
  rfl

/-- No fixed range of `mem_layout` ends where one of `virtmem` does: its size is the other's
end. -/
theorem legacy_span_ne {a : Range} {m : MemRegion}
    (ha : a = ⟨0x200000,0x100000000⟩ ∨ a = ⟨0x8000000,0x1000000000⟩)
    (hm : m = ⟨0x200000,0x100000000⟩ ∨ m = ⟨0x8000000,0x1000000000⟩) : a.span ≠ m.span := by
  intro h
  have hstop := congrArg Span.hi h
  rcases ha with rfl | rfl <;> rcases hm with rfl | rfl <;> exact absurd hstop (by decide)

/-- Where both discoveries return, they agree exactly if the kernel reports an aslr region. -/
theorem regions_agree_iff {r l : LayoutRegions} {vm : Virtmem} (hf : findRegions k s r = .ok l)
    (hv : virtmemSetup k s = .ok vm) :
    l.Agree vm ↔ ∃ a, k.Reports s .aslrRegionAddress .aslrRegionSize a := by
  obtain ⟨halias,hheap,hrest⟩ := findRegions_ok hf
  obtain ⟨⟨a,ha,hma⟩,⟨h,hh,hmh⟩,hvrest⟩ := virtmemSetup_regions hv
  constructor
  · rintro ⟨-,-,haslr,-⟩
    rcases hvrest with ⟨b,hb,-⟩ | ⟨hnone,hvl⟩
    · exact ⟨b,hb⟩
    · -- without a report both fall back to their fixed ranges
      rcases hrest with ⟨hr,-⟩ | ⟨-,hl⟩
      · exact absurd hr (hnone _)
      · exact absurd haslr (legacy_span_ne hl hvl)
  · rintro ⟨b,hb⟩
    rcases hvrest with ⟨c,hc,hmc,d,hd,hmd⟩ | ⟨hnone,-⟩
    · rcases hrest with ⟨haslr,hstack⟩ | ⟨hno | hno,-⟩
      · exact ⟨halias.span ha hma,hheap.span hh hmh,haslr.span hc hmc,hstack.span hd hmd⟩
      · exact absurd hb (hno b)
      · exact absurd hd (hno d)
    · exact absurd hb (hnone b)

end Spec

/-- A kernel that reports every region, or none but the alias and heap regions. -/
def reportingKernel (aslr : Bool) : Kernel Unit where
  svcQueryMemory _ _ := .error 0xD401
  svcMapProcessMemory _ _ _ _ := .error 0xD401
  svcUnmapProcessMemory _ _ _ _ := .error 0xD401
  svcGetInfo _ type := match type with
    | .aliasRegionAddress => .ok 0x1000000000
    | .aliasRegionSize => .ok 0x1000000000
    | .heapRegionAddress => .ok 0x2000000000
    | .heapRegionSize => .ok 0x180000000
    | .aslrRegionAddress => if aslr then .ok 0x8000000 else .error 0xF001
    | .aslrRegionSize => if aslr then .ok 0x7FF8000000 else .error 0xF001
    | .stackRegionAddress => if aslr then .ok 0x3000000000 else .error 0xF001
    | .stackRegionSize => if aslr then .ok 0x80000000 else .error 0xF001
  svcUnmapMemory _ _ _ _ := kernelInvalidMemoryRange

/-- What `FindRegions` finds on a kernel with this aslr range and this stack range. -/
def foundRegions (aslr stack : Range) : LayoutRegions :=
  ⟨⟨0x1000000000,0x1000000000⟩,⟨0x2000000000,0x180000000⟩,aslr,stack⟩

theorem regions_agree_reported : ∃ vm,
    virtmemSetup (reportingKernel true) () = .ok vm ∧
      (foundRegions ⟨0x8000000,0x7FF8000000⟩ ⟨0x3000000000,0x80000000⟩).Agree vm := by
  have hf : findRegions (reportingKernel true) () (foundRegions ⟨0,0⟩ ⟨0,0⟩) =
      .ok (foundRegions ⟨0x8000000,0x7FF8000000⟩ ⟨0x3000000000,0x80000000⟩) := rfl
  exact ⟨_,rfl,(regions_agree_iff hf rfl).mpr ⟨⟨0x8000000,0x7FF8000000⟩,rfl,rfl⟩⟩

/-- Without a report the aslr range of `mem_layout` ends 128 MiB after the one of `virtmem`. -/
theorem regions_disagree_legacy : ∃ l vm,
    findRegions (reportingKernel false) () (foundRegions ⟨0,0⟩ ⟨0,0⟩) = .ok l ∧
      virtmemSetup (reportingKernel false) () = .ok vm ∧
      l.aslrRange.span = ⟨0x8000000,0x1008000000⟩ ∧
      vm.aslrRegion.span = ⟨0x8000000,0x1000000000⟩ ∧ ¬l.Agree vm := by
  refine ⟨_,_,rfl,rfl,rfl,rfl,?_⟩
  rintro ⟨-,-,haslr,-⟩
  exact legacy_span_ne (Or.inr rfl) (Or.inr rfl) haslr

end Zeldar
