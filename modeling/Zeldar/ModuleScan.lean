import Zeldar.MemLayout

/-! The scan of a memory map as a recogniser of its list of regions. An attempt
consumes the region that ends it, whatever that region is. -/
namespace Zeldar

/-- The module of three regions. -/
def moduleOf (a b c : Region) : ModuleInfo where
  total := ⟨a.addr,c.range.getEnd-a.addr⟩
  text := a.range
  rodata := b.range
  data := c.range

/-- The modules that the scan recognises, had it room for all of them. -/
def recognised : List Region → List ModuleInfo
  | a::b::c::rest =>
    if ¬a.IsText then recognised (b::c::rest)
    else if ¬b.IsRodata then recognised (c::rest)
    else if c.IsData then moduleOf a b c :: recognised rest
    else recognised rest
  | _ => []

/-- The scan over a list of regions, without the addresses it queries. -/
def scanRegions (moduleStart : Addr) : List Region → Scan → Except Halt Unit × Scan
  | [],s => (.ok (),s)
  | r::rs,s =>
    if maxModules ≤ s.nextModIdx then (.error (.abort tooManyStaticModules),s)
    else
      let s := { s with prevOffset := s.offset, meminfo := r, offset := r.addr }
      match s.region moduleStart with
      | .error e => (.error e,s)
      | .ok s => scanRegions moduleStart rs s

theorem Region.IsText.not_isRodata {r : Region} (h : r.IsText) : ¬r.IsRodata := by
  intro h'
  have := h.2.symm.trans h'.2
  revert this
  decide

/-- A region that belongs to no module. -/
def Region.Plain (r : Region) : Prop := ¬r.IsText ∧ ¬r.IsRodata ∧ ¬r.IsData

theorem Region.plain_of_memtype {r : Region} (h : r.memtype ≠ memTypeCodeStatic)
    (h' : r.memtype ≠ memTypeCodeMutable) : r.Plain :=
  ⟨fun ht => h ht.1,fun ht => h ht.1,fun ht => h' ht.1⟩

namespace MemoryMap

variable (l : MemoryMap)

theorem first_plain : l.first.Plain := by
  apply Region.plain_of_memtype <;> rw [l.first_unmapped] <;> decide

theorem last_plain : l.last.Plain := by
  apply Region.plain_of_memtype <;> rw [l.last_reserved] <;> decide

end MemoryMap

/-- A region that belongs to no module completes none. -/
theorem recognised_append_plain {r : Region} (hr : r.Plain) (rs : List Region) :
    recognised (rs++[r]) = recognised rs := by
  induction rs using recognised.induct with
  | case1 a b c rest ha ih =>
    simp only [List.cons_append, recognised, ha, not_false_eq_true, ↓reduceIte]
    exact ih
  | case2 a b c rest ha hb ih =>
    simp only [List.cons_append, recognised, ha, hb, not_false_eq_true, ↓reduceIte]
    exact ih
  | case3 a b c rest ha hb hc ih =>
    simp only [List.cons_append, recognised, ha, hb, hc, ↓reduceIte, ih]
  | case4 a b c rest ha hb hc ih =>
    simp only [List.cons_append, recognised, ha, hb, hc, ↓reduceIte, ih]
  | case5 rs hshort =>
    -- fewer than three regions
    match rs, hshort with
    | [],_ => rfl
    | [a],_ => rfl
    | [a,b],_ =>
      simp only [List.cons_append, List.nil_append, recognised, hr.2.2, ↓reduceIte, ite_self]
    | a::b::c::rest,h => exact absurd rfl (h a b c rest)

theorem recognised_cons {a : Region} (ha : ¬a.IsText) (rest : List Region) :
    recognised (a::rest) = recognised rest := by
  match rest with
  | [] => rfl
  | [b] => rfl
  | b::c::rest => rw [recognised, if_pos ha]

theorem recognised_cons_cons {a b : Region} (ha : a.IsText) (hb : ¬b.IsRodata)
    (rest : List Region) : recognised (a::b::rest) = recognised rest := by
  match rest with
  | [] => rfl
  | c::rest => rw [recognised, if_neg (not_not_intro ha), if_pos hb]

/-- A store extends the modules stored. -/
theorem take_ofFn_update {α : Type} {n : ℕ} (f : Fin n → α) {i : ℕ} (h : i < n) (m : α) :
    (List.ofFn (Function.update f ⟨i,h⟩ m)).take (i+1) = (List.ofFn f).take i++[m] := by
  have hi : i < (List.ofFn (Function.update f ⟨i,h⟩ m)).length := by
    rw [List.length_ofFn]
    exact h
  rw [List.take_succ_eq_append_getElem hi, List.getElem_ofFn, Function.update_self]
  congr 1
  apply List.ext_getElem
  · simp
  · intro j hj _
    have hji : j < i := by
      rw [List.length_take] at hj
      omega
    rw [List.getElem_take, List.getElem_take, List.getElem_ofFn, List.getElem_ofFn,
      Function.update_of_ne]
    exact fun he => absurd (Fin.mk.inj he) (Nat.ne_of_lt hji)

section Scan

variable {moduleStart : Addr}

/-- The regions of the attempt that is open, and what has been stored so far. -/
structure Scan.Open (moduleStart : Addr) (s : Scan) (p : List Region) : Prop where
  attempt : match p with
    | [] => s.state = .lookingForCodeStatic ∧ s.curModInfo = .empty
    | [a] => s.state = .expectingRodata ∧ a.IsText ∧
      s.curModInfo = { ModuleInfo.empty with total := ⟨a.addr,0⟩, text := a.range }
    | [a,b] => s.state = .expectingData ∧ a.IsText ∧ b.IsRodata ∧
      s.curModInfo = { ModuleInfo.empty with
        total := ⟨a.addr,0⟩, text := a.range, rodata := b.range }
    | _ => False
  index_le : s.nextModIdx ≤ maxModules
  count : s.moduleCount = if s.nextModIdx = 0 then (-1:ℤ) else s.nextModIdx
  self_lt : s.selfModuleIdx < maxModules
  self : (∃ m ∈ s.recorded, m.total.start = moduleStart) → s.selfModuleIdx ≠ -1

theorem Scan.recorded_length {s : Scan} (h : s.nextModIdx ≤ maxModules) :
    s.recorded.length = s.nextModIdx := by
  rw [Scan.recorded, List.length_take, List.length_ofFn]
  exact Nat.min_eq_left h

theorem Scan.open_initial : Scan.initial.Open moduleStart [] := by
  refine ⟨⟨rfl,rfl⟩,Nat.zero_le _,rfl,by decide,?_⟩
  rintro ⟨m,hm,_⟩
  exact absurd hm List.not_mem_nil

/-- What one region does to the scan. -/
structure Scan.Reads (moduleStart : Addr) (s s' : Scan) (p : List Region) (r : Region) : Prop where
  meminfo : s'.meminfo = r
  prevOffset : s'.prevOffset = s.offset
  offset : s'.offset = r.addr
  goes : ∃ p' found, s'.Open moduleStart p' ∧ s'.recorded = s.recorded++found ∧
    ∀ rest, recognised (p++r::rest) = found++recognised (p'++rest)

/-- A region is read while there is room, whatever it is: it opens, extends or
completes an attempt, or ends it. -/
theorem Scan.Open.region {s : Scan} {p : List Region} (h : s.Open moduleStart p)
    (hroom : s.nextModIdx < maxModules) (r : Region) :
    ∃ s', ({ s with prevOffset := s.offset, meminfo := r, offset := r.addr }).region moduleStart =
      .ok s' ∧ s.Reads moduleStart s' p r := by
  -- one case for each state: nothing held, a text, a text and a rodata
  match p, h.attempt with
  | [],⟨hstate,hcur⟩ =>
    by_cases hr : r.IsText
    · have hyes := fun hno => not_and_or.mpr hno hr
      simp only [Scan.region, hstate, if_neg hyes, Except.ok.injEq, exists_eq_left']
      refine ⟨rfl,rfl,rfl,[r],[],⟨⟨rfl,hr,?_⟩,h.index_le,h.count,h.self_lt,h.self⟩,?_,?_⟩
      · rw [hcur]
        rfl
      · exact (List.append_nil _).symm
      · intro rest
        rfl
    · simp only [Scan.region, hstate, if_pos (not_and_or.mp hr), Except.ok.injEq, exists_eq_left']
      refine ⟨rfl,rfl,rfl,[],[],⟨⟨rfl,hcur⟩,h.index_le,h.count,h.self_lt,h.self⟩,?_,?_⟩
      · exact (List.append_nil _).symm
      · intro rest
        exact recognised_cons hr rest
  | [a],⟨hstate,ha,hcur⟩ =>
    by_cases hr : r.IsRodata
    · have hyes := fun hno => not_and_or.mpr hno hr
      simp only [Scan.region, hstate, if_neg hyes, Except.ok.injEq, exists_eq_left']
      refine ⟨rfl,rfl,rfl,[a,r],[],⟨⟨rfl,ha,hr,?_⟩,h.index_le,h.count,h.self_lt,h.self⟩,?_,?_⟩
      · rw [hcur]
        rfl
      · exact (List.append_nil _).symm
      · intro rest
        rfl
    · -- the region ends the attempt, even where it could open one
      simp only [Scan.region, hstate, if_pos (not_and_or.mp hr), Except.ok.injEq, exists_eq_left']
      refine ⟨rfl,rfl,rfl,[],[],⟨⟨rfl,rfl⟩,h.index_le,h.count,h.self_lt,h.self⟩,?_,?_⟩
      · exact (List.append_nil _).symm
      · intro rest
        exact recognised_cons_cons ha hr rest
  | [a,b],⟨hstate,ha,hb,hcur⟩ =>
    by_cases hr : r.IsData
    · -- the third region completes a module, and there is room for it
      have hyes := fun hno => not_and_or.mpr hno hr
      simp only [Scan.region, hstate, if_neg hyes, hcur, Scan.storeModule, dif_pos hroom]
      have hstored := take_ofFn_update s.moduleInfos hroom (moduleOf a b r)
      refine ⟨_,rfl,rfl,rfl,rfl,[],[moduleOf a b r],⟨⟨rfl,rfl⟩,?_,?_,?_,?_⟩,hstored,?_⟩
      · exact hroom
      · exact (if_neg (Nat.succ_ne_zero _)).symm
      · show (if _ then _ else _) < (maxModules:ℤ)
        split_ifs
        · exact_mod_cast hroom
        · exact h.self_lt
      · rintro ⟨m,hm,hstart⟩
        show (if a.addr = moduleStart then (s.nextModIdx:ℤ) else s.selfModuleIdx) ≠ -1
        split_ifs with hself
        · omega
        · apply h.self
          have hm : m ∈ s.recorded++[moduleOf a b r] := by
            rw [Scan.recorded, ← hstored]
            exact hm
          rcases List.mem_append.mp hm with hm | hm
          · exact ⟨m,hm,hstart⟩
          · rw [List.mem_singleton.mp hm] at hstart
            exact absurd hstart hself
      · intro rest
        show recognised (a::b::r::rest) = _
        rw [recognised, if_neg (not_not_intro ha), if_neg (not_not_intro hb), if_pos hr]
        rfl
    · simp only [Scan.region, hstate, if_pos (not_and_or.mp hr), Except.ok.injEq, exists_eq_left']
      refine ⟨rfl,rfl,rfl,[],[],⟨⟨rfl,rfl⟩,h.index_le,h.count,h.self_lt,h.self⟩,?_,?_⟩
      · exact (List.append_nil _).symm
      · intro rest
        show recognised (a::b::r::rest) = _
        rw [recognised, if_neg (not_not_intro ha), if_neg (not_not_intro hb), if_neg hr]
        rfl

theorem Scan.Open.recognised_nil {s : Scan} {p : List Region} (h : s.Open moduleStart p) :
    recognised p = [] := by
  match p, h.attempt with
  | [],_ => rfl
  | [_],_ => rfl
  | [_,_],_ => rfl

/-- With the array full, the next region is not read. -/
theorem scanRegions_full {s : Scan} (hfull : maxModules ≤ s.nextModIdx) (r : Region)
    (rs : List Region) :
    scanRegions moduleStart (r::rs) s = (.error (.abort tooManyStaticModules),s) := by
  rw [scanRegions, if_pos hfull]

theorem scanRegions_step {s s' : Scan} (hroom : s.nextModIdx < maxModules) {r : Region}
    (hr : ({ s with prevOffset := s.offset, meminfo := r, offset := r.addr }).region moduleStart =
      .ok s') (rs : List Region) :
    scanRegions moduleStart (r::rs) s = scanRegions moduleStart rs s' := by
  rw [scanRegions, if_neg (Nat.not_le.mpr hroom)]
  dsimp only
  rw [hr]

/-- How a scan ends that would find the modules `all`: where the array is full, or
with all of them stored. -/
structure ScanEnds (moduleStart : Addr) (all : List ModuleInfo) (out : Except Halt Unit × Scan) :
    Prop where
  recorded : out.2.recorded = all.take maxModules
  full : maxModules ≤ all.length → out.1 = .error (.abort tooManyStaticModules)
  room : all.length < maxModules → out.1 = .ok () ∧ ∃ p, out.2.Open moduleStart p

/-- A run over regions of which the last is of no module. -/
theorem scanRegions_ends {last : Region} (hlast : last.Plain) (rs : List Region) {s : Scan}
    {p : List Region} (h : s.Open moduleStart p) :
    ScanEnds moduleStart (s.recorded++recognised (p++rs))
      (scanRegions moduleStart (rs++[last]) s) := by
  induction rs generalizing s p with
  | nil =>
    have hlength := Scan.recorded_length h.index_le
    rw [List.append_nil, h.recognised_nil, List.append_nil, List.nil_append]
    by_cases hfull : maxModules ≤ s.nextModIdx
    · rw [scanRegions_full hfull]
      exact ⟨(List.take_of_length_le (hlength.trans_le h.index_le)).symm,fun _ => rfl,
        fun hroom => absurd hroom (Nat.not_lt.mpr (hfull.trans_eq hlength.symm))⟩
    · -- the last region completes nothing: it is of no module
      obtain ⟨s',hs,hreads⟩ := h.region (Nat.not_le.mp hfull) last
      obtain ⟨p',found,hopen,hrecorded,hfound⟩ := hreads.goes
      have hnone : found = [] := by
        have := hfound []
        rw [recognised_append_plain hlast, h.recognised_nil] at this
        exact (List.append_eq_nil_iff.mp this.symm).1
      rw [hnone, List.append_nil] at hrecorded
      rw [scanRegions_step (Nat.not_le.mp hfull) hs, ← hrecorded]
      have hlength' := Scan.recorded_length hopen.index_le
      exact ⟨(List.take_of_length_le (hlength'.trans_le hopen.index_le)).symm,
        fun hmany => absurd hmany (by rw [hrecorded]; omega),fun _ => ⟨rfl,p',hopen⟩⟩
  | cons r rs ih =>
    rw [List.cons_append]
    by_cases hfull : maxModules ≤ s.nextModIdx
    · -- the rest of the modules is not looked at
      have hlen : s.recorded.length = maxModules := by
        rw [Scan.recorded_length h.index_le]
        exact Nat.le_antisymm h.index_le hfull
      rw [scanRegions_full hfull]
      refine ⟨?_,fun _ => rfl,fun hroom => ?_⟩
      · rw [← hlen, List.take_left]
      · rw [List.length_append, hlen] at hroom
        exact absurd hroom (Nat.not_lt.mpr (Nat.le_add_right _ _))
    · -- what one region adds is taken from the front of what is to be recognised
      obtain ⟨s1,hs,hreads⟩ := h.region (Nat.not_le.mp hfull) r
      obtain ⟨p1,found,hopen,hrecorded,hfound⟩ := hreads.goes
      have hall : s.recorded++recognised (p++r::rs) = s1.recorded++recognised (p1++rs) := by
        rw [hrecorded, hfound, List.append_assoc]
      rw [hall, scanRegions_step (Nat.not_le.mp hfull) hs]
      exact ih hopen

section Loop

variable {l : MemoryMap} {query : Addr → Except Result Region} {s : Scan} {p : List Region}
  {fuel : ℕ}

theorem MemoryMap.first_addr (l : MemoryMap) : l.first.addr.toNat = 0 := l.tiles.1

theorem findModulesLoop_full (hfull : maxModules ≤ s.nextModIdx) :
    findModulesLoop query moduleStart (fuel+1) s =
      (.error (.abort tooManyStaticModules),s) := by
  rw [findModulesLoop, if_pos hfull]

/-- One pass of the loop, up to its condition. -/
theorem findModulesLoop_step {s' : Scan} (hroom : s.nextModIdx < maxModules) {r : Region}
    (hquery : query (s.meminfo.addr+s.meminfo.size) = .ok r)
    (hr : ({ s with prevOffset := s.offset, meminfo := r, offset := r.addr }).region moduleStart =
      .ok s') :
    findModulesLoop query moduleStart (fuel+1) s =
      if s'.prevOffset ≤ s'.offset then findModulesLoop query moduleStart fuel s'
        else (.ok (),s') := by
  rw [findModulesLoop, if_neg (Nat.not_le.mpr hroom)]
  simp only [hquery]
  rw [hr]

/-- The loop reads the regions from the address `lo` it has reached to the last one,
and once more the first, where it finds that the address has wrapped. -/
theorem findModulesLoop_eq (hans : l.Answers query) (rs : List Region)
    (hsub : ∀ r ∈ rs, r ∈ l.regions) {lo : ℕ} (htiles : Tiles lo (rs.map Region.span) (2^64))
    (h : s.Open moduleStart p) (hlo : (s.meminfo.addr+s.meminfo.size).toNat = lo%2^64)
    (hoffset : s.offset.toNat ≤ lo)
    (hleft : 2 ≤ rs.length ∨ 0 < s.offset.toNat ∨ (rs.length = 1 ∧ 0 < lo))
    (hfuel : rs.length+1 ≤ fuel) :
    findModulesLoop query moduleStart fuel s = scanRegions moduleStart (rs++[l.first]) s := by
  induction rs generalizing lo s p fuel with
  | nil =>
    obtain ⟨fuel,rfl⟩ := Nat.exists_eq_add_of_le' hfuel
    by_cases hfull : maxModules ≤ s.nextModIdx
    · exact (findModulesLoop_full hfull).trans (scanRegions_full hfull _ _).symm
    · have hroom := Nat.not_le.mp hfull
      obtain ⟨s',hs,hreads⟩ := h.region hroom l.first
      have hzero := l.first_addr
      have hquery : query (s.meminfo.addr+s.meminfo.size) = .ok l.first := by
        apply hans l.first List.mem_cons_self
        have hpos := l.tiles.2.1
        have hend : lo = 2^64 := htiles
        rw [hlo, hend, Nat.mod_self]
        simp only [Span.Mem, Region.span, MemoryInfo.span] at hpos ⊢
        omega
      -- past the last region the query starts over, and the offset falls
      have hwrap : ¬s'.prevOffset ≤ s'.offset := by
        rw [hreads.prevOffset, hreads.offset, BitVec.le_def, hzero]
        simp only [List.length_nil] at hleft
        omega
      rw [List.length_nil, Nat.zero_add, findModulesLoop_step hroom hquery hs, if_neg hwrap,
        List.nil_append, scanRegions_step hroom hs]
      rfl
  | cons r rs ih =>
    obtain ⟨fuel,rfl⟩ := Nat.exists_eq_add_of_le' hfuel
    rw [List.cons_append]
    by_cases hfull : maxModules ≤ s.nextModIdx
    · exact (findModulesLoop_full hfull).trans (scanRegions_full hfull _ _).symm
    · have hroom := Nat.not_le.mp hfull
      obtain ⟨s',hs,hreads⟩ := h.region hroom r
      obtain ⟨p',found,hopen,-,-⟩ := hreads.goes
      obtain ⟨hstart,hlt,hrest⟩ := htiles
      have hhi := hrest.le
      simp only [Region.span, MemoryInfo.span] at hstart hlt hhi
      have hquery : query (s.meminfo.addr+s.meminfo.size) = .ok r := by
        apply hans r (hsub r List.mem_cons_self)
        rw [hlo, Nat.mod_eq_of_lt (by omega)]
        simp only [Span.Mem, Region.span, MemoryInfo.span]
        omega
      have hgo : s'.prevOffset ≤ s'.offset := by
        rw [hreads.prevOffset, hreads.offset, BitVec.le_def, hstart]
        exact hoffset
      rw [List.length_cons] at hleft
      rw [← Nat.add_assoc, findModulesLoop_step hroom hquery hs, if_pos hgo,
        scanRegions_step hroom hs]
      apply ih (fun r hr => hsub r (List.mem_cons_of_mem _ hr)) hrest hopen
      · rw [hreads.meminfo, BitVec.toNat_add]
        rfl
      · rw [hreads.offset, hstart]
        show lo ≤ r.addr.toNat+r.size.toNat
        omega
      · rw [hreads.offset, hstart]
        simp only [Region.span, MemoryInfo.span]
        omega
      · simp only [List.length_cons] at hfuel ⊢
        omega

end Loop

/-- The whole scan. -/
theorem findModules_ends {l : MemoryMap} {query : Addr → Except Result Region}
    (hans : l.Answers query) (moduleStart : Addr) {fuel : ℕ} (hfuel : l.regions.length+1 ≤ fuel) :
    ScanEnds moduleStart (recognised l.regions)
      (findModulesLoop query moduleStart fuel .initial) := by
  have hrun := @findModulesLoop_eq moduleStart l query .initial [] fuel hans l.regions
    (fun r hr => hr) 0 l.tiles Scan.open_initial rfl (Nat.zero_le _) ?_ hfuel
  · rw [hrun]
    exact scanRegions_ends l.first_plain l.regions Scan.open_initial
  · left
    simp [MemoryMap.regions]

end Scan

end Zeldar
