import Zeldar.Virtmem
import Zeldar.RwClaim

namespace Zeldar

def MemRegion.span (r : MemRegion) : Span ℕ := ⟨r.start.toNat,r.stop.toNat⟩

/-- The window of `size` bytes at an address. -/
def windowAt (a : Addr) (size : BitVec 64) : Span ℕ := ⟨a.toNat,a.toNat+size.toNat⟩

namespace Virtmem

def links (vm : Virtmem) (a : Addr) : Option (Link Addr) :=
  (vm.nodes a).map (fun r => ⟨r.next,r.prev⟩)

def regionOf (vm : Virtmem) (a : Addr) : Option MemRegion :=
  (vm.nodes a).map VirtmemReservation.region

/-- The reservations form a well-formed doubly linked list of exactly these nodes. -/
def Holds (vm : Virtmem) (xs : List Addr) : Prop := DList vm.links 0 vm.reservations xs

/-- The aslr region starts on a page and does not wrap. -/
def AslrOk (vm : Virtmem) : Prop :=
  vm.aslrRegion.start.toNat%4096 = 0 ∧ vm.aslrRegion.start.toNat ≤ vm.aslrRegion.stop.toNat

end Virtmem

/-- A range fit for a window: on a page, inside the aslr region, off the alias
and heap regions, and within one unmapped region. -/
structure Chosen {σ : Type} (k : Kernel σ) (s : σ) (vm : Virtmem) (a : Addr) (size : BitVec 64) :
    Prop where
  aligned : a.toNat%4096 = 0
  inside : vm.aslrRegion.start.toNat ≤ a.toNat ∧
    a.toNat+size.toNat ≤ vm.aslrRegion.stop.toNat
  offAlias : vm.aliasRegion.span.Apart (windowAt a size)
  offHeap : vm.heapRegion.span.Apart (windowAt a size)
  unmapped : ∃ r, k.svcQueryMemory s a = .ok r ∧ r.type = memTypeUnmapped ∧
    r.span.lo ≤ a.toNat ∧ a.toNat+size.toNat ≤ r.span.hi

theorem memregionOverlaps_false {r : MemRegion} {start stop : Addr}
    (h : ¬memregionOverlaps r start stop = true) :
    r.span.Apart ⟨start.toNat,stop.toNat⟩ := by
  simp only [memregionOverlaps, Bool.and_eq_true, decide_eq_true_eq, BitVec.lt_def] at h
  apply Span.apart_of_le
  simp only [MemRegion.span]
  omega

section Find

variable {σ : Type} {p : Platform σ} {s : σ} {vm : Virtmem} {fuel : ℕ} {r : MemRegion}

/-- What an inner loop that ends has drawn. -/
theorem memregionPick_ok {size maxOffset : BitVec 64} {n d d' : ℕ} {c : Addr}
    (h : memregionPick p vm r size maxOffset n d = .ok (c,d')) :
    (∃ i, c = r.start+((p.exlRandom i % (maxOffset+1)) <<< 12)) ∧
      vm.aliasRegion.span.Apart ⟨c.toNat,(c+size).toNat⟩ ∧
      vm.heapRegion.span.Apart ⟨c.toNat,(c+size).toNat⟩ := by
  induction n generalizing d with
  | zero => cases h
  | succ n ih =>
    simp only [memregionPick] at h
    split at h
    · exact ih h
    · rename_i halias
      split at h
      · exact ih h
      · rename_i hheap
        injection h with h
        obtain ⟨rfl,rfl⟩ := Prod.mk.inj h
        exact ⟨⟨d,rfl⟩,memregionOverlaps_false halias,memregionOverlaps_false hheap⟩

/-- The offset leaves room for the size, in whole pages. -/
theorem pageOffset_inside {start stop : Addr} {size x : BitVec 64}
    (hle : start.toNat ≤ stop.toNat) (hsize : ¬stop-start < size) :
    let c := start+((x % (((stop-start)-size) >>> 12+1)) <<< 12)
    start.toNat ≤ c.toNat ∧ c.toNat+size.toNat ≤ stop.toNat ∧
      c.toNat%4096 = start.toNat%4096 := by
  intro c
  have hsub : (stop-start).toNat = stop.toNat-start.toNat := by
    have h1 := stop.isLt
    rw [BitVec.toNat_sub]
    omega
  have hsz : size.toNat ≤ stop.toNat-start.toNat := by
    have hge : ¬(stop-start).toNat < size.toNat := hsize
    omega
  have hroom : ((stop-start)-size).toNat = stop.toNat-start.toNat-size.toNat := by
    have h1 := (stop-start).isLt
    rw [BitVec.toNat_sub, hsub]
    omega
  have hmax : (((stop-start)-size) >>> 12).toNat =
      (stop.toNat-start.toNat-size.toNat)/4096 := by
    rw [BitVec.toNat_ushiftRight, hroom, Nat.shiftRight_eq_div_pow]
  have hsucc : (((stop-start)-size) >>> 12+1).toNat =
      (stop.toNat-start.toNat-size.toNat)/4096+1 := by
    have h1 := stop.isLt
    have hone : (1 : BitVec 64).toNat = 1 := rfl
    rw [BitVec.toNat_add, hmax, hone]
    omega
  generalize hoff : x % (((stop-start)-size) >>> 12+1) = off
  -- the offset is drawn modulo one more than the largest that fits
  have hofflt : off.toNat ≤ (stop.toNat-start.toNat-size.toNat)/4096 := by
    rw [← hoff, BitVec.toNat_umod, hsucc]
    exact Nat.le_of_lt_succ (Nat.mod_lt _ (Nat.succ_pos _))
  have hshift : (off <<< 12).toNat = off.toNat*4096 := by
    have h1 := stop.isLt
    rw [BitVec.toNat_shiftLeft, Nat.shiftLeft_eq]
    omega
  have hc : c.toNat = start.toNat+off.toNat*4096 := by
    have h1 := stop.isLt
    have hc' : c = start+(off <<< 12) := by rw [← hoff]
    rw [hc', BitVec.toNat_add, hshift]
    omega
  omega

/-- A range that is not mapped lies in one unmapped region. -/
theorem memregionIsMapped_none {k : Kernel σ} (hk : k.QuerySound) {c : Addr} {size : BitVec 64}
    (hsum : (c+size).toNat = c.toNat+size.toNat)
    (h : memregionIsMapped k s c (c+size) 0 = .ok none) :
    ∃ r, k.svcQueryMemory s c = .ok r ∧ r.type = memTypeUnmapped ∧
      r.span.lo ≤ c.toNat ∧ c.toNat+size.toNat ≤ r.span.hi := by
  have hsub : c-(0 : BitVec 64) = c := BitVec.sub_zero c
  have hadd : c+size+(0 : BitVec 64) = c+size := BitVec.add_zero _
  simp only [memregionIsMapped, hsub, hadd] at h
  cases hq : k.svcQueryMemory s c with
  | error e =>
    rw [hq] at h
    cases h
  | ok r =>
    rw [hq] at h
    obtain ⟨hmem,hhi⟩ := hk s c r hq
    have hlo : r.span.lo ≤ c.toNat := hmem.1
    have hlt : c.toNat < r.span.hi := hmem.2
    simp only at h
    split at h
    · cases h
    · rename_i hcond
      simp only [not_or, not_not] at hcond
      refine ⟨r,rfl,hcond.1,hlo,?_⟩
      have hend : ¬(r.addr+r.size).toNat < (c+size).toNat := hcond.2
      rw [hsum, BitVec.toNat_add] at hend
      simp only [MemoryInfo.span] at hhi hlt ⊢
      -- an end that wraps to zero is below every nonempty range
      omega

/-- A walk that finds nothing has passed every reservation. -/
theorem memregionIsReservedFrom_none {nodes : Addr → Option VirtmemReservation}
    {start stop guard prev rv last : Addr} {xs : List Addr} {n : ℕ}
    (hs : DSeg (fun a => (nodes a).map (fun r => (⟨r.next,r.prev⟩ : Link Addr)))
      prev rv xs last 0) (hxs : 0 ∉ xs)
    (h : memregionIsReservedFrom nodes start stop guard n rv = .ok none) :
    ∀ x ∈ xs, ∀ node, nodes x = some node →
      node.region.span.Apart ⟨start.toNat,stop.toNat⟩ := by
  -- induction on the fuel: one node of the list for each step of the walk
  induction n generalizing prev rv xs with
  | zero => cases h
  | succ n ih =>
    cases xs with
    | nil => exact fun x hx => absurd hx List.not_mem_nil
    | cons y ys =>
      obtain ⟨rfl,next,hy,hs'⟩ := hs
      have hne : rv ≠ 0 := fun e => hxs (e ▸ List.mem_cons_self)
      simp only [memregionIsReservedFrom, if_neg hne] at h
      cases hnode : nodes rv with
      | none =>
        simp only [hnode] at h
        cases h
      | some node =>
        simp only [hnode, Option.map_some, Option.some.injEq, Link.mk.injEq] at hy
        simp only [hnode] at h
        split at h
        · cases h
        · rename_i hoverlap
          intro x hx node' hnode'
          rcases List.mem_cons.mp hx with rfl | hmem
          · rw [hnode] at hnode'
            injection hnode' with e
            rw [← e]
            exact memregionOverlaps_false hoverlap
          · rw [hy.1] at h
            exact ih hs' (fun hz => hxs (List.mem_cons_of_mem _ hz)) h x hmem node' hnode'

/-- An attempt that returns an address has checked it against the memory map
and the reservations. -/
theorem memregionAttempt_ok {size guard maxOffset : BitVec 64} {n d d' : ℕ} {c : Addr}
    (h : memregionAttempt p s vm fuel r size guard maxOffset n d = .ok (c,d')) (hc : c ≠ 0) :
    (∃ m i, memregionPick p vm r size maxOffset fuel m = .ok (c,i)) ∧
      memregionIsMapped p.toKernel s c (c+size) guard = .ok none ∧
      memregionIsReserved vm fuel c (c+size) guard = .ok none := by
  induction n generalizing d with
  | zero =>
    injection h with h
    exact absurd (Prod.mk.inj h).1.symm hc
  | succ n ih =>
    obtain ⟨⟨c1,d1⟩,hpick,h⟩ := bind_ok h
    obtain ⟨m,hmapped,h⟩ := bind_ok h
    cases m with
    | some e => exact ih h
    | none =>
      obtain ⟨m,hreserved,h⟩ := bind_ok h
      cases m with
      | some e => exact ih h
      | none =>
        injection h with h
        obtain ⟨rfl,rfl⟩ := Prod.mk.inj h
        exact ⟨⟨d,d1,hpick⟩,hmapped,hreserved⟩

/-- What the search has drawn and checked for the address it returns. -/
theorem virtmemFindAslr_drawn {size : BitVec 64} {c : Addr} {vm' : Virtmem}
    (h : virtmemFindAslr p s vm fuel size 0 = .ok (c,vm')) (hc : c ≠ 0) :
    let rounded := alignUp size pageSize
    ¬vm.aslrRegion.stop-vm.aslrRegion.start < rounded ∧
      (∃ m i, memregionPick p vm vm.aslrRegion rounded
        (((vm.aslrRegion.stop-vm.aslrRegion.start)-rounded) >>> 12) fuel m = .ok (c,i)) ∧
      memregionIsMapped p.toKernel s c (c+rounded) 0 = .ok none ∧
      memregionIsReserved vm fuel c (c+rounded) 0 = .ok none ∧
      ∃ d, vm' = { vm with draws := d } := by
  intro rounded
  have hguard : ((0 : BitVec 64)+0xFFF) &&& ~~~0xFFF = 0 := by decide
  have hround : (size+0xFFF) &&& ~~~0xFFF = rounded := rfl
  simp only [virtmemFindAslr, memregionFindRandom, hguard, hround] at h
  split at h
  · injection h with h
    exact absurd (Prod.mk.inj h).1.symm hc
  rename_i hsize
  obtain ⟨⟨c1,d⟩,hatt,h⟩ := bind_ok h
  injection h with h
  obtain ⟨rfl,rfl⟩ := Prod.mk.inj h
  obtain ⟨hpick,hmapped,hreserved⟩ := memregionAttempt_ok hatt hc
  exact ⟨hsize,hpick,hmapped,hreserved,d,rfl⟩

/-- Whatever the memory map, the window is on a page of the aslr region. -/
theorem virtmemFindAslr_inside (haslr : vm.AslrOk) {size : BitVec 64} {c : Addr} {vm' : Virtmem}
    (h : virtmemFindAslr p s vm fuel size 0 = .ok (c,vm')) (hc : c ≠ 0) :
    c.toNat%4096 = 0 ∧ vm.aslrRegion.start.toNat ≤ c.toNat ∧
      c.toNat+(alignUp size pageSize).toNat ≤ vm.aslrRegion.stop.toNat := by
  obtain ⟨hsize,⟨m,i,hpick⟩,_⟩ := virtmemFindAslr_drawn h hc
  obtain ⟨⟨j,hj⟩,_⟩ := memregionPick_ok hpick
  obtain ⟨hlo,hhi,hmod⟩ := @pageOffset_inside vm.aslrRegion.start vm.aslrRegion.stop
    (alignUp size pageSize) (p.exlRandom j) haslr.2 hsize
  rw [← hj] at hlo hhi hmod
  exact ⟨hmod.trans haslr.1,hlo,hhi⟩

/-- The window that `virtmemFindAslr` finds, and that it keeps off every
reservation. -/
theorem virtmemFindAslr_ok (hk : p.toKernel.QuerySound) (haslr : vm.AslrOk) {xs : List Addr}
    (hl : vm.Holds xs) {size : BitVec 64} {c : Addr} {vm' : Virtmem}
    (h : virtmemFindAslr p s vm fuel size 0 = .ok (c,vm')) (hc : c ≠ 0) :
    Chosen p.toKernel s vm c (alignUp size pageSize) ∧
      ∀ x ∈ xs, ∀ reg, vm.regionOf x = some reg →
        reg.span.Apart (windowAt c (alignUp size pageSize)) := by
  obtain ⟨hal,hlo,hhi⟩ := virtmemFindAslr_inside haslr h hc
  obtain ⟨_,⟨m,i,hpick⟩,hmapped,hreserved,_⟩ := virtmemFindAslr_drawn h hc
  obtain ⟨_,halias,hheap⟩ := memregionPick_ok hpick
  -- the end does not wrap: the window lies in the aslr region
  have hsum : (c+alignUp size pageSize).toNat = c.toNat+(alignUp size pageSize).toNat := by
    have h1 := vm.aslrRegion.stop.isLt
    rw [BitVec.toNat_add, Nat.mod_eq_of_lt (lt_of_le_of_lt hhi h1)]
  have hwin : (⟨c.toNat,(c+alignUp size pageSize).toNat⟩ : Span ℕ) =
      windowAt c (alignUp size pageSize) := by rw [hsum, windowAt]
  rw [hwin] at halias hheap
  refine ⟨⟨hal,⟨hlo,hhi⟩,halias,hheap,memregionIsMapped_none hk hsum hmapped⟩,?_⟩
  obtain ⟨hnm,_,l,hseg⟩ := hl
  intro x hx reg hreg
  have hsub : c-(0 : BitVec 64) = c := BitVec.sub_zero c
  have hadd : c+alignUp size pageSize+(0 : BitVec 64) = c+alignUp size pageSize :=
    BitVec.add_zero _
  simp only [memregionIsReserved, hsub, hadd] at hreserved
  obtain ⟨node,hnode,rfl⟩ := Option.map_eq_some_iff.mp hreg
  rw [← hwin]
  exact memregionIsReservedFrom_none hseg hnm hreserved x hx node hnode

end Find

section Reservations

/-- The reported regions are those of before. -/
structure Virtmem.SameRegions (vm vm' : Virtmem) : Prop where
  alias_eq : vm'.aliasRegion = vm.aliasRegion
  heap_eq : vm'.heapRegion = vm.heapRegion
  aslr_eq : vm'.aslrRegion = vm.aslrRegion

theorem Virtmem.SameRegions.trans {vm vm' vm'' : Virtmem} (h : vm.SameRegions vm')
    (h' : vm'.SameRegions vm'') : vm.SameRegions vm'' :=
  ⟨h'.alias_eq.trans h.alias_eq,h'.heap_eq.trans h.heap_eq,h'.aslr_eq.trans h.aslr_eq⟩

theorem Virtmem.AslrOk.congr {vm vm' : Virtmem} (h : vm.AslrOk) (hsame : vm.SameRegions vm') :
    vm'.AslrOk := by
  rw [Virtmem.AslrOk, ← hsame.aslr_eq] at h
  exact h

theorem modifyNode_eq {nodes : Addr → Option VirtmemReservation} {a : Addr}
    {r : VirtmemReservation} (h : nodes a = some r)
    (f : VirtmemReservation → VirtmemReservation) :
    modifyNode nodes a f = .ok (Function.update nodes a (some (f r))) := by
  simp only [modifyNode, readNode, h]
  rfl

theorem setPrev_ok {nodes : Addr → Option VirtmemReservation} {next : Addr} (v : Addr)
    (h : next ≠ 0 → ∃ r, nodes next = some r) :
    ∃ nodes', setPrev nodes next v = .ok nodes' ∧
      (next ≠ 0 → nodes' next = (nodes next).map (fun r => { r with prev := v })) ∧
      ∀ z, (next ≠ 0 → z ≠ next) → nodes' z = nodes z := by
  by_cases hn : next = 0
  · refine ⟨nodes,?_,fun e => absurd hn e,fun _ _ => rfl⟩
    rw [setPrev, if_neg (not_not.mpr hn)]
  · obtain ⟨r,hr⟩ := h hn
    refine ⟨Function.update nodes next (some { r with prev := v }),?_,?_,?_⟩
    · rw [setPrev, if_pos hn, modifyNode_eq hr]
    · intro _
      rw [Function.update_self, hr, Option.map_some]
    · intro z hz
      rw [Function.update_of_ne (hz hn)]

variable {vm : Virtmem} {xs ys : List Addr}

theorem Virtmem.Holds.node {x : Addr} (hl : vm.Holds xs) (hx : x ∈ xs) :
    ∃ r, vm.nodes x = some r := by
  have h := DList.get_isSome hl hx
  rw [Virtmem.links, Option.isSome_map] at h
  exact Option.isSome_iff_exists.mp h

/-- An insertion puts a fresh node with the given region in front. -/
theorem virtmemAddReservation_ok {σ : Type} {p : Platform σ} (hp : p.Fresh) {s : σ}
    (hl : vm.Holds xs) {mem rv : Addr} {size : BitVec 64} {vm' : Virtmem}
    (h : virtmemAddReservation p s vm mem size = .ok (rv,vm')) (hrv : rv ≠ 0) :
    vm'.Holds (rv::xs) ∧ rv ∉ xs ∧ vm'.regionOf rv = some ⟨mem,mem+size⟩ ∧
      (∀ z, z ≠ rv → vm'.regionOf z = vm.regionOf z) ∧ vm.SameRegions vm' := by
  unfold virtmemAddReservation at h
  cases hm : p.malloc s vm.nodes with
  | none =>
    rw [hm] at h
    injection h with h
    exact absurd (Prod.mk.inj h).1.symm hrv
  | some a =>
    rw [hm] at h
    obtain ⟨hane,hfree⟩ := hp s vm.nodes a hm
    obtain ⟨nodes,hnodes,h⟩ := bind_ok h
    injection h with h
    obtain ⟨rfl,rfl⟩ := Prod.mk.inj h
    have hfresh : a ∉ xs := by
      intro hmem
      obtain ⟨r,hr⟩ := hl.node hmem
      rw [hfree] at hr
      cases hr
    -- the old head is linked back to the new node, which is another one
    have hhead : vm.reservations ≠ 0 → vm.reservations ≠ a := fun hne e =>
      hfresh (e ▸ DList.head_mem hl hne)
    obtain ⟨nodes',heq,hback,hrest⟩ := @setPrev_ok
      (Function.update vm.nodes a (some ⟨vm.reservations,0,⟨mem,mem+size⟩⟩)) vm.reservations
      a (fun hne => by
        obtain ⟨r,hr⟩ := hl.node (DList.head_mem hl hne)
        exact ⟨r,by rw [Function.update_of_ne (hhead hne), hr]⟩)
    rw [heq] at hnodes
    injection hnodes with hnodes
    subst hnodes
    have hnew := hrest a (fun hne => (hhead hne).symm)
    rw [Function.update_self] at hnew
    refine ⟨DList.pushFront hl hane hfresh ⟨?_,?_,?_⟩,hfresh,?_,?_,⟨rfl,rfl,rfl⟩⟩
    · simp only [Virtmem.links, hnew, Option.map_some]
    · intro hne
      simp only [Virtmem.links, hback hne, Function.update_of_ne (hhead hne), Option.map_map]
      rfl
    · intro z hz hzh
      simp only [Virtmem.links, hrest z hzh, Function.update_of_ne hz]
    · simp only [Virtmem.regionOf, hnew, Option.map_some]
    · -- only links change on the nodes that were there
      intro z hz
      by_cases hzh : vm.reservations ≠ 0 ∧ z = vm.reservations
      · simp only [Virtmem.regionOf, hzh.2, hback hzh.1, Function.update_of_ne (hhead hzh.1),
          Option.map_map]
        rfl
      · simp only [Virtmem.regionOf, hrest z (fun hne e => hzh ⟨hne,e⟩), Function.update_of_ne hz]

/-- Taking a node out of the table and joining its neighbours takes it out of the list, and keeps
the regions of the others. -/
theorem Virtmem.Holds.unlink {rv : Addr} {node : VirtmemReservation}
    (hl : vm.Holds (xs++rv::ys)) (hnode : vm.nodes rv = some node)
    {nodes : Addr → Option VirtmemReservation} {head : Addr} (hgone : nodes rv = none)
    (hnext : node.next ≠ 0 → nodes node.next =
      (vm.nodes node.next).map (fun r => { r with prev := node.prev }))
    (hprev : node.prev ≠ 0 → nodes node.prev =
      (vm.nodes node.prev).map (fun r => { r with next := node.next }))
    (hrest : ∀ z, z ≠ rv → (node.next ≠ 0 → z ≠ node.next) → (node.prev ≠ 0 → z ≠ node.prev) →
      nodes z = vm.nodes z)
    (hhead : head = if node.prev = 0 then node.next else vm.reservations) :
    ({ vm with reservations := head, nodes := nodes } : Virtmem).Holds (xs++ys) ∧
      ∀ z, z ≠ rv → (nodes z).map VirtmemReservation.region = vm.regionOf z := by
  have hlinks : vm.links rv = some ⟨node.next,node.prev⟩ := by
    rw [Virtmem.links, hnode]
    rfl
  constructor
  · subst hhead
    -- the links of the table are those of the list with the node taken out
    refine DList.unlink hl hlinks ⟨?_,?_,?_,?_⟩
    · simp only [Virtmem.links, hgone, Option.map_none]
    · intro h
      simp only [Virtmem.links, hnext h, Option.map_map]
      rfl
    · intro h
      simp only [Virtmem.links, hprev h, Option.map_map]
      rfl
    · intro z hz hz1 hz2
      simp only [Virtmem.links, hrest z hz hz1 hz2]
  · -- the neighbours get new links and keep their regions
    intro z hz
    by_cases hz1 : node.next ≠ 0 ∧ z = node.next
    · rw [hz1.2, hnext hz1.1, Option.map_map]
      rfl
    by_cases hz2 : node.prev ≠ 0 ∧ z = node.prev
    · rw [hz2.2, hprev hz2.1, Option.map_map]
      rfl
    rw [hrest z hz (fun h e => hz1 ⟨h,e⟩) (fun h e => hz2 ⟨h,e⟩)]
    rfl

/-- The removal of any node of the list succeeds, frees that node, and leaves the
other reservations as they were. -/
theorem virtmemRemoveReservation_eq {rv : Addr} (hl : vm.Holds (xs++rv::ys)) :
    ∃ vm', virtmemRemoveReservation vm rv = .ok vm' ∧ vm'.Holds (xs++ys) ∧
      vm'.nodes rv = none ∧ (∀ z, z ≠ rv → vm'.regionOf z = vm.regionOf z) ∧
      vm.SameRegions vm' := by
  obtain ⟨n,k,l,hlinks,hfront,hback⟩ := DList.links hl
  obtain ⟨node,hnode,hnk⟩ := Option.map_eq_some_iff.mp hlinks
  obtain ⟨rfl,rfl⟩ := Link.mk.inj hnk
  obtain ⟨hndx,hndxy,hdisj⟩ := List.nodup_append.mp hl.2.1
  obtain ⟨hrvy,_⟩ := List.nodup_cons.mp hndxy
  -- neither neighbour is the node itself or the other neighbour
  have hn : node.next ≠ 0 → node.next ∈ ys := fun h => hback.entry_mem h
  have hk : node.prev ≠ 0 → node.prev ∈ xs := fun h => hfront.last_mem h
  have hnrv : node.next ≠ 0 → node.next ≠ rv := fun h e => hrvy (e ▸ hn h)
  have hkrv : node.prev ≠ 0 → node.prev ≠ rv := fun h =>
    hdisj _ (hk h) rv List.mem_cons_self
  have hkn : node.next ≠ 0 → node.prev ≠ 0 → node.prev ≠ node.next := fun h h' =>
    hdisj _ (hk h') _ (List.mem_cons_of_mem _ (hn h))
  obtain ⟨nodes1,hset,hnext,hrest⟩ := setPrev_ok node.prev
    (fun hne => hl.node (List.mem_append_right _ (List.mem_cons_of_mem _ (hn hne))))
  have hrv1 : nodes1 rv = some node := by
    rw [hrest rv (fun hne => (hnrv hne).symm), hnode]
  have hread : readNode vm.nodes rv = .ok node := by rw [readNode, hnode]
  have hread1 : readNode nodes1 rv = .ok node := by rw [readNode, hrv1]
  by_cases hk0 : node.prev = 0
  · -- the node was the first one
    obtain ⟨hholds,hregions⟩ := @Virtmem.Holds.unlink vm xs ys rv node hl hnode
      (Function.update nodes1 rv none) node.next (Function.update_self ..)
      (fun hne => by rw [Function.update_of_ne (hnrv hne), hnext hne])
      (fun hne => absurd hk0 hne)
      (fun z hz hz1 _ => by rw [Function.update_of_ne hz, hrest z hz1]) (if_pos hk0).symm
    refine ⟨_,?_,hholds,Function.update_self ..,hregions,⟨rfl,rfl,rfl⟩⟩
    simp only [virtmemRemoveReservation, hread, hset, hread1, bind, Except.bind]
    rw [if_neg (not_not.mpr hk0)]
    rfl
  · obtain ⟨r,hr⟩ := hl.node (List.mem_append_left _ (hk hk0))
    have hr1 : nodes1 node.prev = some r := by rw [hrest _ (fun hne => hkn hne hk0), hr]
    obtain ⟨hholds,hregions⟩ := @Virtmem.Holds.unlink vm xs ys rv node hl hnode
      (Function.update (Function.update nodes1 node.prev (some { r with next := node.next }))
        rv none) vm.reservations (Function.update_self ..)
      (fun hne => by
        rw [Function.update_of_ne (hnrv hne), Function.update_of_ne (hkn hne hk0).symm,
          hnext hne])
      (fun hne => by
        rw [Function.update_of_ne (hkrv hne), Function.update_self, hr, Option.map_some])
      (fun z hz hz1 hz2 => by
        rw [Function.update_of_ne hz, Function.update_of_ne (hz2 hk0), hrest z hz1])
      (if_neg hk0).symm
    refine ⟨_,?_,hholds,Function.update_self ..,hregions,⟨rfl,rfl,rfl⟩⟩
    simp only [virtmemRemoveReservation, hread, hset, hread1, modifyNode_eq hr1, bind, Except.bind]
    rw [if_pos hk0]
    rfl

end Reservations

/-- The aslr region the kernel reports starts on a page and does not wrap. -/
def Kernel.AslrSound {σ : Type} (k : Kernel σ) (s : σ) : Prop :=
  ∀ base size, k.svcGetInfo s .aslrRegionAddress = .ok base →
    k.svcGetInfo s .aslrRegionSize = .ok size →
      base.toNat%4096 = 0 ∧ base.toNat+size.toNat < 2^64

/-- Set up from reported or from hardcoded regions, there are no reservations. -/
theorem virtmemSetup_ok {σ : Type} {k : Kernel σ} {s : σ} (hk : k.AslrSound s) {vm : Virtmem}
    (h : virtmemSetup k s = .ok vm) :
    vm.AslrOk ∧ vm.Holds [] ∧ ∀ a, vm.nodes a = none := by
  unfold virtmemSetup at h
  split at h
  · cases h
  split at h
  · cases h
  -- regions that the kernel does not report come from one of two fixed layouts
  split at h
  · simp only [virtmemSetupLegacy] at h
    split at h
    · injection h with h
      subst h
      exact ⟨by simp [Virtmem.AslrOk],DList.nil _ _,fun _ => rfl⟩
    split at h
    · injection h with h
      subst h
      exact ⟨by simp [Virtmem.AslrOk],DList.nil _ _,fun _ => rfl⟩
    · cases h
  · rename_i aslr haslr
    split at h
    · cases h
    injection h with h
    subst h
    refine ⟨?_,DList.nil _ _,fun _ => rfl⟩
    obtain ⟨base,hbase,haslr⟩ := bind_ok haslr
    obtain ⟨size,hsize,haslr⟩ := bind_ok haslr
    injection haslr with haslr
    subst haslr
    obtain ⟨hal,hlt⟩ := hk base size hbase hsize
    refine ⟨hal,?_⟩
    change base.toNat ≤ (base+size).toNat
    rw [BitVec.toNat_add, Nat.mod_eq_of_lt hlt]
    exact Nat.le_add_right _ _

end Zeldar
