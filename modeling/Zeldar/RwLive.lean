import Mathlib.Data.List.Perm.Basic
import Zeldar.RwPages

namespace Zeldar

def Claim.window (c : Claim) : Span ℕ := windowAt c.getAlignedRw c.getAlignedSize

namespace Act

variable {σ : Type}

def builtClaim : Act σ → Option Claim
  | .mapWindow c _ => some c
  | _ => none

def releasedClaim : Act σ → Option Claim
  | .unmapWindow c _ => some c
  | _ => none

def addedRv : Act σ → Option Addr
  | .addReservation rv => some rv
  | _ => none

def removedRv : Act σ → Option Addr
  | .removeReservation rv => some rv
  | _ => none

end Act

namespace World

variable {σ : Type} (w : World σ)

/-- The claims whose windows have been mapped, with repetitions. -/
def built : List Claim := w.log.filterMap Act.builtClaim

/-- The claims whose windows have been unmapped. -/
def released : List Claim := w.log.filterMap Act.releasedClaim

def added : List Addr := w.log.filterMap Act.addedRv

def removed : List Addr := w.log.filterMap Act.removedRv

/-- The windows in `live` are those mapped and not unmapped. The reservations are
exactly theirs, no two of them meet, and each was fit for a window when
the search returned it. -/
structure Live (p : Platform σ) (w : World σ) (live : List Claim) : Prop where
  aslr : w.vm.AslrOk
  holds : w.vm.Holds (live.map Claim.rwReserve)
  exact : ∀ a r, w.vm.nodes a = some r → a ∈ live.map Claim.rwReserve
  region : ∀ c ∈ live, w.vm.regionOf c.rwReserve =
    some ⟨c.getAlignedRw,c.getAlignedRw+c.getAlignedSize⟩
  apart : live.Pairwise (fun c d => c.window.Apart d.window)
  chosen : ∀ c ∈ live, ∃ k, .findAslr k c.getAlignedRw c.getAlignedSize ∈ w.log ∧
    Chosen p.toKernel k w.vm c.getAlignedRw c.getAlignedSize
  balance : w.built.Perm (live++w.released)
  reservations : w.added.Perm (live.map Claim.rwReserve++w.removed)

variable {w}

/-- What is done next comes last. -/
theorem log_append {w' : World σ} {new : List (Act σ)} (hlog : w'.log = w.log++new) :
    w'.built = w.built++new.filterMap Act.builtClaim ∧
      w'.released = w.released++new.filterMap Act.releasedClaim ∧
      w'.added = w.added++new.filterMap Act.addedRv ∧
      w'.removed = w.removed++new.filterMap Act.removedRv := by
  unfold built released added removed
  rw [hlog]
  exact ⟨List.filterMap_append,List.filterMap_append,List.filterMap_append,
    List.filterMap_append⟩

end World

theorem Chosen.congr {σ : Type} {k : Kernel σ} {s : σ} {vm vm' : Virtmem} {a : Addr}
    {size : BitVec 64} (h : Chosen k s vm a size) (hsame : vm.SameRegions vm') :
    Chosen k s vm' a size := by
  obtain ⟨h1,h2,h3,h4,h5⟩ := h
  rw [← hsame.aslr_eq] at h2
  rw [← hsame.alias_eq] at h3
  rw [← hsame.heap_eq] at h4
  exact ⟨h1,h2,h3,h4,h5⟩

theorem Chosen.region_span {σ : Type} {k : Kernel σ} {s : σ} {vm : Virtmem} {a : Addr}
    {size : BitVec 64} (h : Chosen k s vm a size) :
    (⟨a,a+size⟩ : MemRegion).span = windowAt a size := by
  have hlt := vm.aslrRegion.stop.isLt
  simp only [MemRegion.span, windowAt]
  rw [BitVec.toNat_add, Nat.mod_eq_of_lt (lt_of_le_of_lt h.inside.2 hlt)]

namespace World.Live

variable {σ : Type} {p : Platform σ} {fuel : ℕ} {w w' : World σ} {live : List Claim}

theorem reserve_ne_zero (h : w.Live p live) {c : Claim} (hc : c ∈ live) : c.rwReserve ≠ 0 :=
  fun e => h.holds.1 (e ▸ List.mem_map_of_mem hc)

theorem ne_empty (h : w.Live p live) {c : Claim} (hc : c ∈ live) : c ≠ Claim.empty :=
  fun e => h.reserve_ne_zero hc (by rw [e]; rfl)

theorem nodup (h : w.Live p live) : live.Nodup := List.Nodup.of_map _ h.holds.2.1

/-- The rest of the process and the kernel do not touch what is recorded here. -/
theorem elsewhere (h : w.Live p live) (s : σ) : ({ w with kernel := s } : World σ).Live p live :=
  ⟨h.aslr,h.holds,h.exact,h.region,h.apart,h.chosen,h.balance,h.reservations⟩

/-- Whatever is reserved is reserved for a live window. -/
theorem mem_of_region (h : w.Live p live) {a : Addr} {g : MemRegion}
    (hreg : w.vm.regionOf a = some g) : a ∈ live.map Claim.rwReserve := by
  obtain ⟨r,hr,_⟩ := Option.map_eq_some_iff.mp hreg
  exact h.exact a r hr

/-- A constructor adds one window, apart from all others. -/
theorem build (hk : p.toKernel.QuerySound) (hp : p.Fresh) (h : w.Live p live) {ro : Addr}
    {size : BitVec 64} {obj : RwPages} (hmake : rwPages p fuel ro size w = .ok (obj,w')) :
    w'.Live p (obj.claim::live) ∧ obj.owner = true ∧ obj.claim ∉ live := by
  obtain ⟨howner,alignedRw,vm,pieces,hm⟩ := rwPagesMap_ok (rwPages_ok hmake)
  have hrw : obj.claim.getAlignedRw = alignedRw := hm.getAlignedRw_eq h.aslr
  have hsize : obj.claim.getAlignedSize = alignUp size pageSize := by
    rw [Claim.getAlignedSize, hm.size_eq]
  obtain ⟨hchosen,hapart⟩ := virtmemFindAslr_ok hk h.aslr h.holds hm.found hm.found_ne
  obtain ⟨_,_,_,_,d,hvm⟩ := virtmemFindAslr_drawn hm.found hm.found_ne
  rw [alignUp_alignUp] at hchosen hapart
  -- the search only draws numbers
  have hholds : vm.Holds (live.map Claim.rwReserve) := by
    rw [hvm]
    exact h.holds
  have hregion : ∀ z, vm.regionOf z = w.vm.regionOf z := by
    intro z
    rw [hvm]
    rfl
  have hsame0 : w.vm.SameRegions vm := by
    rw [hvm]
    exact ⟨rfl,rfl,rfl⟩
  obtain ⟨hholds',hfresh,hnew,hrest,hsame1⟩ :=
    virtmemAddReservation_ok hp hholds hm.reserved hm.reserved_ne
  have hsame : w.vm.SameRegions w'.vm := hsame0.trans hsame1
  have hnot : obj.claim ∉ live := fun hmem => hfresh (List.mem_map_of_mem hmem)
  have hold : ∀ c ∈ live, w'.vm.regionOf c.rwReserve =
      some ⟨c.getAlignedRw,c.getAlignedRw+c.getAlignedSize⟩ := by
    intro c hc
    have hne : c.rwReserve ≠ obj.claim.rwReserve :=
      fun e => hfresh (e ▸ List.mem_map_of_mem hc)
    rw [hrest _ hne, hregion]
    exact h.region c hc
  have hlog := hm.log_eq
  obtain ⟨hb,hr,ha,hd⟩ := World.log_append hlog
  refine ⟨⟨h.aslr.congr hsame,hholds',?_,?_,?_,?_,?_,?_⟩,howner,hnot⟩
  · -- what is reserved is the new window or was reserved before
    intro a r hr
    by_cases ha : a = obj.claim.rwReserve
    · rw [ha]
      exact List.mem_cons_self
    · apply List.mem_cons_of_mem
      apply h.mem_of_region
      rw [← hregion, ← hrest a ha, Virtmem.regionOf, hr]
      rfl
  · -- each window keeps the region it reserved
    intro c hc
    rcases List.mem_cons.mp hc with rfl | hc
    · rw [hrw, hsize]
      exact hnew
    · exact hold c hc
  · -- the search avoids what is reserved, and that is the live windows
    refine List.Pairwise.cons ?_ h.apart
    intro c hc
    obtain ⟨k,_,hcc⟩ := h.chosen c hc
    have hreg := hapart _ (List.mem_map_of_mem hc) _ (h.region c hc)
    rw [hcc.region_span] at hreg
    rw [Claim.window, hrw, hsize]
    exact hreg.symm
  · -- the new window was drawn against the kernel state of the call, the others as before
    intro c hc
    rcases List.mem_cons.mp hc with rfl | hc
    · refine ⟨w.kernel,?_,?_⟩
      · rw [hlog, hrw, hsize]
        exact List.mem_append_right _ List.mem_cons_self
      · rw [hrw, hsize]
        exact hchosen.congr hsame
    · obtain ⟨k,hk,hcc⟩ := h.chosen c hc
      refine ⟨k,?_,hcc.congr hsame⟩
      rw [hlog]
      exact List.mem_append_left _ hk
  · -- the new window counts as built and is not released
    have hb : w'.built = w.built++[obj.claim] := hb
    have hr : w'.released = w.released := hr.trans (List.append_nil _)
    rw [hb, hr]
    exact (List.perm_append_singleton _ _).trans (h.balance.cons _)
  · have ha : w'.added = w.added++[obj.claim.rwReserve] := ha
    have hd : w'.removed = w.removed := hd.trans (List.append_nil _)
    rw [ha, hd]
    exact (List.perm_append_singleton _ _).trans (h.reservations.cons _)

/-- The destructor of an owner releases exactly its own window. -/
theorem release {before after : List Claim} {obj : RwPages}
    (h : w.Live p (before++obj.claim::after)) (howner : obj.owner = true)
    (hdestroy : rwPagesDestroy p fuel obj w = .ok w') :
    w'.Live p (before++after) := by
  obtain ⟨pieces,hu⟩ := rwPagesDestroy_ok howner hdestroy
  have hremove := hu.removed
  have hholds := h.holds
  rw [List.map_append, List.map_cons] at hholds
  obtain ⟨vm,heq,hholds',hgone,hrest,hsame⟩ := virtmemRemoveReservation_eq hholds
  rw [hremove] at heq
  injection heq with heq
  subst heq
  have hsub : ∀ c ∈ before++after, c ∈ before++obj.claim::after := by
    intro c hc
    rcases List.mem_append.mp hc with hc | hc
    · exact List.mem_append_left _ hc
    · exact List.mem_append_right _ (List.mem_cons_of_mem _ hc)
  obtain ⟨_,hnd,hdisj⟩ := List.nodup_append.mp hholds.2.1
  -- no other live window stands under the reservation that goes
  have hne : ∀ c ∈ before++after, c.rwReserve ≠ obj.claim.rwReserve := by
    intro c hc e
    rcases List.mem_append.mp hc with hc | hc
    · exact hdisj _ (List.mem_map_of_mem hc) _ List.mem_cons_self e
    · exact (List.nodup_cons.mp hnd).1 (e ▸ List.mem_map_of_mem hc)
  obtain ⟨hb,hr,ha,hd⟩ := World.log_append hu.log_eq
  refine ⟨h.aslr.congr hsame,?_,?_,?_,?_,?_,?_,?_⟩
  · rw [List.map_append]
    exact hholds'
  · -- a reservation that is left is of a live window other than the released one
    intro a r hr
    have ha : a ≠ obj.claim.rwReserve := by
      intro e
      rw [e, hgone] at hr
      cases hr
    have hreg : w.vm.regionOf a = some r.region := by
      rw [← hrest a ha, Virtmem.regionOf, hr]
      rfl
    obtain ⟨c,hc,rfl⟩ := List.mem_map.mp (h.mem_of_region hreg)
    refine List.mem_map_of_mem ?_
    rcases List.mem_append.mp hc with hc | hc
    · exact List.mem_append_left _ hc
    · rcases List.mem_cons.mp hc with rfl | hc
      · exact absurd rfl ha
      · exact List.mem_append_right _ hc
  · intro c hc
    rw [hrest _ (hne c hc)]
    exact h.region c (hsub c hc)
  · exact h.apart.sublist (List.Sublist.append_left (List.sublist_cons_self _ _) _)
  · intro c hc
    obtain ⟨k,hk,hcc⟩ := h.chosen c (hsub c hc)
    refine ⟨k,?_,hcc.congr hsame⟩
    rw [hu.log_eq]
    exact List.mem_append_left _ hk
  · -- the window moves from the live ones to the released ones
    have hb : w'.built = w.built := hb.trans (List.append_nil _)
    have hr : w'.released = w.released++[obj.claim] := hr
    rw [hb, hr]
    refine h.balance.trans ?_
    rw [List.append_assoc, List.append_assoc, List.cons_append, ← List.append_assoc after]
    exact List.Perm.append_left _ (List.perm_append_singleton _ _).symm
  · have ha : w'.added = w.added := ha.trans (List.append_nil _)
    have hd : w'.removed = w.removed++[obj.claim.rwReserve] := hd
    rw [ha, hd]
    refine h.reservations.trans ?_
    rw [List.map_append, List.map_append, List.map_cons, List.append_assoc, List.append_assoc,
      List.cons_append, ← List.append_assoc (after.map Claim.rwReserve)]
    exact List.Perm.append_left _ (List.perm_append_singleton _ _).symm

/-- Only the claim of a live window names a reservation to remove. -/
theorem release_mem (h : w.Live p live) {obj : RwPages} (howner : obj.owner = true)
    (hdestroy : rwPagesDestroy p fuel obj w = .ok w') :
    obj.claim.rwReserve ∈ live.map Claim.rwReserve := by
  obtain ⟨_,hu⟩ := rwPagesDestroy_ok howner hdestroy
  obtain ⟨r,hread,_⟩ := bind_ok hu.removed
  cases hnode : w.vm.nodes obj.claim.rwReserve with
  | none =>
    rw [readNode, hnode] at hread
    cases hread
  | some r => exact h.exact _ r hnode

end World.Live

end Zeldar
