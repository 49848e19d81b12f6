import Zeldar.InlineImpl
import Zeldar.PatcherFlush

namespace Zeldar

open A64

namespace Intent

/-- The bytes serve the intent at the address `a` they are executed at. -/
def Realises (a : Addr) (v : List (BitVec 8)) : Intent → Prop
  | .bytes u => v = u
  | .branch link target => ∃ inst imm, v = instBytes inst ∧ decode inst = .b link imm ∧
      (InReach (target-a) → a+wordOffset imm = target)

end Intent

/-- A module is a function of the offset. -/
def PatchPages.image (pages : PatchPages) (mem : Mem) (k : Addr) : BitVec 8 := mem (pages.ro+k)

def overwrite (img : Addr → BitVec 8) (pos : Addr) (v : List (BitVec 8)) (k : Addr) : BitVec 8 :=
  (v[(k-pos).toNat]?).getD (img k)

/-- The module `img'` is `img` overwritten, in order, with bytes that serve the intents. -/
inductive Patched (ro : Addr) :
    (Addr → BitVec 8) → List (Addr × Intent) → (Addr → BitVec 8) → Prop
  | nil (img : Addr → BitVec 8) : Patched ro img [] img
  | cons {img img' : Addr → BitVec 8} {pos : Addr} {i : Intent} {v : List (BitVec 8)}
      {rest : List (Addr × Intent)} (hv : i.Realises (ro+pos) v)
      (hrest : Patched ro (overwrite img pos v) rest img') : Patched ro img ((pos,i)::rest) img'

theorem Intent.Realises.length {a : Addr} {v : List (BitVec 8)} {i : Intent}
    (h : i.Realises a v) : v.length = i.size := by
  cases i with
  | bytes u => exact congrArg List.length h
  | branch link target =>
    obtain ⟨inst,imm,rfl,_,_⟩ := h
    rfl

/-- The word that the builder of a branch makes for a distance. -/
theorem branch_realises (link : Bool) {a d target : Addr} (hd : a+d = target) :
    (Intent.branch link target).Realises a (instBytes (branchWord
      (if link then 0x94000000 else 0x14000000) d)) := by
  have hdist : target-a = d := by
    rw [← hd, BitVec.add_comm, BitVec.add_sub_cancel]
  refine ⟨_,(d.sshiftRight 2).setWidth 26,rfl,?_,?_⟩
  · cases link with
    | false =>
      have hopc : (0x14000000:Word) &&& fieldMask 0 26 = 0 := by decide
      rw [if_neg Bool.false_ne_true, decode_b (branchWord_opcode d hopc), branchWord_imm d hopc]
    | true =>
      have hopc : (0x94000000:Word) &&& fieldMask 0 26 = 0 := by decide
      rw [if_pos rfl, decode_bl (branchWord_opcode d hopc), branchWord_imm d hopc]
  · intro h
    rw [hdist] at h
    rw [h.wordOffset, hd]

section Step

variable {pages : PatchPages} {s s' : StreamPatcher}

/-- What one operation does to memory and to the cursor. -/
structure Performs (pages : PatchPages) (s s' : StreamPatcher) (op : PatchOp) : Prop where
  cursor : s'.current = op.next pages s.current
  stays : op.intent pages s.current = none → s'.m.mem = s.m.mem
  lays : ∀ i, op.intent pages s.current = some i → ∃ v, i.Realises (pages.ro+s.current) v ∧
    (∀ j < v.length, pages.writable (pages.rw+s.current+BitVec.ofNat 64 j) = true) ∧
    s'.m.mem = layBytes pages.tr s.m.mem (pages.rw+s.current) v

theorem performs_write {v : List (BitVec 8)} {op : PatchOp} {i : Intent}
    (hs : s.write pages v = some s') (hi : op.intent pages s.current = some i)
    (hv : i.Realises (pages.ro+s.current) v)
    (hnext : op.next pages s.current = s.current+BitVec.ofNat 64 i.size) :
    Performs pages s s' op := by
  obtain ⟨m,hm,hs⟩ := Option.bind_eq_some_iff.mp hs
  injection hs with hs
  subst hs
  obtain ⟨hall,-,hmem⟩ := PatchPages.store_ok hm
  refine ⟨?_,?_,?_⟩
  · rw [hnext, ← hv.length]
  · intro hn
    rw [hi] at hn
    cases hn
  · intro i' hi'
    rw [hi] at hi'
    injection hi' with hi'
    subst hi'
    exact ⟨v,hv,hall,hmem⟩

theorem flush_mem : (s.flush pages).m.mem = s.m.mem := by
  rw [StreamPatcher.flush]
  split_ifs <;> rfl

theorem performs_seekRel {op : PatchOp} {address : Addr}
    (hi : op.intent pages s.current = none) (hnext : op.next pages s.current = address+s.current) :
    Performs pages s (s.seekRel pages address) op := by
  refine ⟨?_,?_,fun i h => by rw [hi] at h; cases h⟩
  · rw [hnext]
    exact StreamPatcher.seekRel_current address
  · intro _
    rw [StreamPatcher.seekRel]
    by_cases h0 : address = 0
    · rw [if_pos h0]
    · rw [if_neg h0]
      exact flush_mem

theorem performs_branch {op : PatchOp} (link : Bool) {d target : Addr}
    (hs : s.writeInst pages (branchWord (if link then 0x94000000 else 0x14000000) d) = some s')
    (hi : op.intent pages s.current = some (.branch link target))
    (hnext : op.next pages s.current = s.current+BitVec.ofNat 64 4)
    (hd : pages.ro+s.current+d = target) : Performs pages s s' op :=
  performs_write hs hi (branch_realises link hd) hnext

theorem performs_step (op : PatchOp) (hs : op.step pages s = some s') :
    Performs pages s s' op := by
  -- the displacement is taken from the stream position, so adding that gives the target
  have hbase : ∀ address : Addr,
      pages.ro+s.current+s.relativeAddressFromBase address = pages.ro+address := by
    intro address
    rw [StreamPatcher.relativeAddressFromBase]
    bv_omega
  have hpointer : ∀ ptr : Addr,
      pages.ro+s.current+s.relativeAddressFromPointer pages ptr = ptr := by
    intro ptr
    rw [StreamPatcher.relativeAddressFromPointer, PatchPages.addrFromRo]
    bv_omega
  cases op with
  | write v => exact performs_write hs rfl rfl rfl
  | writeInst inst => exact performs_write hs rfl rfl rfl
  | branchInstRel address =>
    rw [PatchOp.step, StreamPatcher.branchInstRel, Armv8.branch_eq] at hs
    exact performs_branch false hs rfl rfl rfl
  | branchLinkInstRel address =>
    rw [PatchOp.step, StreamPatcher.branchLinkInstRel, Armv8.branchLink_eq] at hs
    exact performs_branch true hs rfl rfl rfl
  | branchInst address =>
    rw [PatchOp.step, StreamPatcher.branchInst, StreamPatcher.branchInstRel, Armv8.branch_eq] at hs
    exact performs_branch false hs rfl rfl (hbase address)
  | branchLinkInst address =>
    rw [PatchOp.step, StreamPatcher.branchLinkInst, StreamPatcher.branchLinkInstRel,
      Armv8.branchLink_eq] at hs
    exact performs_branch true hs rfl rfl (hbase address)
  | branchInstPointer ptr =>
    rw [PatchOp.step, StreamPatcher.branchInstPointer, StreamPatcher.branchInstRel,
      Armv8.branch_eq] at hs
    exact performs_branch false hs rfl rfl (hpointer ptr)
  | branchLinkInstPointer ptr =>
    rw [PatchOp.step, StreamPatcher.branchLinkInstPointer, StreamPatcher.branchLinkInstRel,
      Armv8.branchLink_eq] at hs
    exact performs_branch true hs rfl rfl (hpointer ptr)
  | seekRel address =>
    injection hs with hs
    subst hs
    exact performs_seekRel rfl (BitVec.add_comm _ _)
  | seek address =>
    -- an absolute seek is a relative one by the difference
    injection hs with hs
    subst hs
    apply performs_seekRel rfl
    show address = address-s.current+s.current
    rw [BitVec.sub_add_cancel]
  | seekPointer ptr =>
    injection hs with hs
    subst hs
    apply performs_seekRel rfl
    show ptr-pages.ro = ptr-pages.ro-s.current+s.current
    rw [BitVec.sub_add_cancel]

end Step

section Image

variable {pages : PatchPages}

/-- One byte stored through the window. -/
theorem image_update (mem : Mem) {pos k : Addr} (b : BitVec 8)
    (hw : pages.writable (pages.rw+pos) = true) (hk : k < pages.size) :
    pages.image (Function.update mem (pages.tr (pages.rw+pos)) b) k =
      if k = pos then b else pages.image mem k := by
  rw [PatchPages.image, Function.update_apply]
  -- inside the window a store at `pos` is a store to byte `pos` of the module
  by_cases hp : pos < pages.size
  · rw [pages.aliases pos hp]
    have hiff : pages.ro+k = pages.ro+pos ↔ k = pos := by
      constructor
      · intro h
        bv_omega
      · rintro rfl
        rfl
    simp only [hiff, PatchPages.image]
  · -- a store outside the window does not reach the module
    have hout := pages.apart pos hw (BitVec.not_lt.mp hp)
    have hne : pages.ro+k ≠ pages.tr (pages.rw+pos) := by
      intro he
      rw [← he] at hout
      bv_omega
    have hkp : k ≠ pos := fun he => hp (he ▸ hk)
    rw [if_neg hne, if_neg hkp, PatchPages.image]

theorem overwrite_cons (img : Addr → BitVec 8) (pos k : Addr) (b : BitVec 8)
    (bs : List (BitVec 8)) (hl : (b::bs).length < 2^64) :
    overwrite img pos (b::bs) k =
      overwrite (fun k => if k = pos then b else img k) (pos+1) bs k := by
  rw [overwrite, overwrite]
  -- the first byte is not overwritten again: `k-(k+1)` wraps past the end of the list
  by_cases hk : k = pos
  · subst hk
    have hfar : (k-(k+1)).toNat = 2^64-1 := by bv_omega
    have hnone : bs[(k-(k+1)).toNat]? = none := by
      apply List.getElem?_eq_none
      rw [List.length_cons] at hl
      omega
    rw [hnone, BitVec.sub_self]
    simp
  · have hsucc : (k-pos).toNat = (k-(pos+1)).toNat+1 := by bv_omega
    rw [hsucc, List.getElem?_cons_succ, if_neg hk]

theorem image_layBytes (v : List (BitVec 8)) (mem : Mem) {pos k : Addr}
    (hw : ∀ j < v.length, pages.writable (pages.rw+pos+BitVec.ofNat 64 j) = true)
    (hk : k < pages.size) :
    pages.image (layBytes pages.tr mem (pages.rw+pos) v) k =
      overwrite (pages.image mem) pos v k := by
  have hl := pages.lt_of_writable hw
  -- induction on the bytes, each stored in the image that the ones before it left
  induction v generalizing mem pos with
  | nil => rfl
  | cons b bs ih =>
    have h0 : pages.writable (pages.rw+pos) = true := by
      have := hw 0 (Nat.succ_pos _)
      rwa [BitVec.add_zero] at this
    have hrest : ∀ j < bs.length,
        pages.writable (pages.rw+(pos+1)+BitVec.ofNat 64 j) = true := by
      intro j hj
      have := hw (j+1) (Nat.succ_lt_succ hj)
      have he : pages.rw+pos+BitVec.ofNat 64 (j+1) = pages.rw+(pos+1)+BitVec.ofNat 64 j := by
        bv_omega
      rwa [he] at this
    have hstep := ih (Function.update mem (pages.tr (pages.rw+pos)) b) hrest
      (Nat.lt_of_succ_lt hl)
    rw [layBytes, BitVec.add_assoc, hstep, overwrite_cons _ _ _ _ _ hl, overwrite, overwrite]
    rw [image_update mem b h0 hk]

/-- Only the bytes that the stored ones alias change. -/
theorem layBytes_apply (tr : Addr → Addr) (v : List (BitVec 8)) (mem : Mem) (a x : Addr)
    (h : ∀ j < v.length, tr (a+BitVec.ofNat 64 j) ≠ x) : layBytes tr mem a v x = mem x := by
  induction v generalizing mem a with
  | nil => rfl
  | cons b bs ih =>
    have h0 : x ≠ tr a := by
      have := h 0 (Nat.succ_pos _)
      rw [BitVec.add_zero] at this
      exact this.symm
    rw [layBytes, ih]
    · exact Function.update_of_ne h0 b mem
    · intro j hj
      have := h (j+1) (Nat.succ_lt_succ hj)
      have he : a+BitVec.ofNat 64 (j+1) = a+1+BitVec.ofNat 64 j := by bv_omega
      rwa [he] at this

/-- Modules that agree inside the window stay so. -/
theorem Patched.congr {ro : Addr} {size : BitVec 64} {img img1 img' : Addr → BitVec 8}
    {is : List (Addr × Intent)} (h : Patched ro img is img') (he : ∀ k < size, img1 k = img k) :
    ∃ img1', Patched ro img1 is img1' ∧ ∀ k < size, img1' k = img' k := by
  induction h generalizing img1 with
  | nil img => exact ⟨img1,.nil img1,he⟩
  | @cons img img' pos i v rest hv _ ih =>
    have hover : ∀ k < size, overwrite img1 pos v k = overwrite img pos v k := by
      intro k hk
      rw [overwrite, overwrite, he k hk]
    obtain ⟨img1',hp,hsame⟩ := ih hover
    exact ⟨img1',.cons hv hp,hsame⟩

/-- The frame and the module after a run. -/
theorem run_patched (ops : List PatchOp) {s s' : StreamPatcher}
    (h : ops.foldlM (PatchOp.step pages) s = some s') :
    (∃ img, Patched pages.ro (pages.image s.m.mem) (intents pages s.current ops) img ∧
      ∀ k < pages.size, pages.image s'.m.mem k = img k) ∧
    ∀ x, (∀ p ∈ intents pages s.current ops, ∀ j < p.2.size,
      pages.tr (pages.rw+p.1+BitVec.ofNat 64 j) ≠ x) → s'.m.mem x = s.m.mem x := by
  induction ops generalizing s with
  | nil =>
    injection h with h
    subst h
    exact ⟨⟨_,.nil _,fun _ _ => rfl⟩,fun _ _ => rfl⟩
  | cons op ops ih =>
    rw [List.foldlM_cons] at h
    obtain ⟨s1,hs,h⟩ := Option.bind_eq_some_iff.mp h
    obtain ⟨hcursor,hstays,hlays⟩ := performs_step op hs
    obtain ⟨⟨img,hpatched,hsame⟩,hframe⟩ := ih h
    rw [hcursor] at hpatched hframe
    rw [intents]
    cases hi : op.intent pages s.current with
    | none =>
      -- the operation only moves the cursor
      rw [hstays hi] at hpatched hframe
      exact ⟨⟨img,hpatched,hsame⟩,hframe⟩
    | some i =>
      obtain ⟨v,hv,hw,hmem⟩ := hlays i hi
      constructor
      · have hagree : ∀ k < pages.size, overwrite (pages.image s.m.mem) s.current v k =
            pages.image s1.m.mem k := by
          intro k hk
          rw [hmem, image_layBytes v s.m.mem hw hk]
        obtain ⟨img1,hp,heq⟩ := hpatched.congr hagree
        exact ⟨img1,.cons hv hp,fun k hk => (hsame k hk).trans (heq k hk).symm⟩
      · intro x hx
        have hhead : ∀ j < v.length, pages.tr (pages.rw+s.current+BitVec.ofNat 64 j) ≠ x := by
          intro j hj
          rw [hv.length] at hj
          exact hx (s.current,i) List.mem_cons_self j hj
        have htail : s'.m.mem x = s1.m.mem x :=
          hframe x fun p hp => hx p (List.mem_cons_of_mem _ hp)
        rw [htail, hmem, layBytes_apply _ _ _ _ _ hhead]

end Image

/-- A code patch leaves the module overwritten, in order, at the positions of the
stream: with the data written, and with branches that reach the address asked for
wherever a branch can. Nothing else in memory changes. -/
theorem code_patch_writes_intents {pages : PatchPages} {m m' : Machine} {start : Addr}
    {ops : List PatchOp} (h : codePatch pages m start ops = some m') :
    (∃ img, Patched pages.ro (pages.image m.mem) (intents pages start ops) img ∧
      ∀ k < pages.size, pages.image m'.mem k = img k) ∧
    ∀ x, (∀ p ∈ intents pages start ops, ∀ j < p.2.size,
      pages.tr (pages.rw+p.1+BitVec.ofNat 64 j) ≠ x) → m'.mem x = m.mem x := by
  obtain ⟨s,hs,h⟩ := Option.bind_eq_some_iff.mp h
  injection h with h
  subst h
  rw [flush_mem]
  exact run_patched ops hs

theorem code_patch_writes_intents_page : ∃ m',
    codePatch pagePatch ⟨fun _ => 0,[]⟩ 0x10 [.write [1,2],.seek 0x20,.branchInst 0x40] = some m' ∧
    (∃ img, Patched 0x1000 (pagePatch.image fun _ => 0)
      [(0x10,.bytes [1,2]),(0x20,.branch false 0x1040)] img ∧
      ∀ k < pagePatch.size, pagePatch.image m'.mem k = img k) := by
  have hrun := fun m' h => And.intro h
    (@code_patch_writes_intents pagePatch ⟨fun _ => 0,[]⟩ m' 0x10
      [.write [1,2],.seek 0x20,.branchInst 0x40] h)
  obtain ⟨h,hpatched,_⟩ := hrun _ rfl
  exact ⟨_,h,hpatched⟩

/-- An address that is not a whole number of words away, or 128 MiB ahead, is not reached. -/
theorem branch_misses_target :
    (∃ m', codePatch pagePatch ⟨fun _ => 0,[]⟩ 0 [.branchInst 2] = some m' ∧
      decode (m'.mem.read32 0x1000) = .b false 0 ∧
      0x1000+wordOffset (0:BitVec 26) ≠ 0x1000+2) ∧
    (∃ m', codePatch pagePatch ⟨fun _ => 0,[]⟩ 0 [.branchInst 0x8000000] = some m' ∧
      decode (m'.mem.read32 0x1000) = .b false 0x2000000 ∧
      0x1000+wordOffset (0x2000000:BitVec 26) ≠ 0x1000+0x8000000) :=
  ⟨⟨_,rfl,by decide,by decide⟩,⟨_,rfl,by decide,by decide⟩⟩

end Zeldar
