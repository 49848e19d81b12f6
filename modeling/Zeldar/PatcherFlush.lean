import Zeldar.HookContext
import Zeldar.Patcher
import Zeldar.Tiling

namespace Zeldar

namespace Event

/-- The bytes of `size` from `a`, in order. -/
def bytesFrom (a : Addr) (size : ℕ) : List Addr :=
  (List.range size).map fun i => a+BitVec.ofNat 64 i

def written : Event → List Addr
  | .write a => [a]
  | _ => []

def flushed : Event → List Addr
  | .dcacheFlush a size => bytesFrom a size.toNat
  | .clearCache a size => bytesFrom a size.toNat
  | _ => []

def invalidated : Event → List Addr
  | .icacheInvalidate a size => bytesFrom a size.toNat
  | .clearCache a size => bytesFrom a size.toNat
  | _ => []

end Event

/-- What the events of a log are about, from the oldest on. -/
def inOrder (f : Event → List Addr) (log : List Event) : List Addr := log.reverse.flatMap f

/-- What is asked for at a position: data, or a branch to an address. -/
inductive Intent
  | bytes (v : List (BitVec 8))
  | branch (link : Bool) (target : Addr)
  deriving DecidableEq, Repr

namespace Intent

def size : Intent → ℕ
  | .bytes v => v.length
  | .branch _ _ => 4

end Intent

namespace PatchOp

/-- The intent of an operation at the offset `pos` of the module. -/
def intent (pages : PatchPages) (pos : Addr) : PatchOp → Option Intent
  | .write v => some (.bytes v)
  | .writeInst inst => some (.bytes (instBytes inst))
  | .branchInstRel address => some (.branch false (pages.ro+pos+address))
  | .branchLinkInstRel address => some (.branch true (pages.ro+pos+address))
  | .branchInst address => some (.branch false (pages.ro+address))
  | .branchLinkInst address => some (.branch true (pages.ro+address))
  | .branchInstPointer ptr => some (.branch false ptr)
  | .branchLinkInstPointer ptr => some (.branch true ptr)
  | .seekRel _ => none
  | .seek _ => none
  | .seekPointer _ => none

/-- The position after an operation. -/
def next (pages : PatchPages) (pos : Addr) (op : PatchOp) : Addr :=
  match op with
  | .seekRel address => pos+address
  | .seek address => address
  | .seekPointer ptr => ptr-pages.ro
  | op => pos+BitVec.ofNat 64 ((op.intent pages pos).elim 0 Intent.size)

end PatchOp

/-- What a stream asks for, position by position. -/
def intents (pages : PatchPages) : Addr → List PatchOp → List (Addr × Intent)
  | _,[] => []
  | pos,op::ops =>
    (op.intent pages pos).toList.map (pos,·)++intents pages (op.next pages pos) ops

/-- The bytes that a stream asks for, in order, at the view that is written to. -/
def askedBytes (pages : PatchPages) (pos : Addr) (ops : List PatchOp) : List Addr :=
  (intents pages pos ops).flatMap fun p => Event.bytesFrom (pages.rw+p.1) p.2.size

/-- Where the byte that is written at `a` is executed. -/
def PatchPages.exec (pages : PatchPages) (a : Addr) : Addr := pages.ro+(a-pages.rw)

/-- The `bytes` are written, every one is flushed and then invalidated, and the flushes and
invalidations are of just these bytes, in the order of the writes. -/
structure StreamFlushed (pages : PatchPages) (bytes : List Addr) (log : List Event) : Prop where
  written : inOrder Event.written log = bytes
  coherent : Provided (Event.Coherent pages.exec 1) log
  flushed : inOrder Event.flushed log = bytes
  invalidated : inOrder Event.invalidated log = bytes.map pages.exec

theorem inOrder_append (f : Event → List Addr) (newer older : List Event) :
    inOrder f (newer++older) = inOrder f older++inOrder f newer := by
  rw [inOrder, List.reverse_append, List.flatMap_append]
  rfl

theorem inOrder_cons (f : Event → List Addr) (e : Event) (log : List Event) :
    inOrder f (e :: log) = inOrder f log++f e := by
  rw [inOrder, List.reverse_cons, List.flatMap_append]
  simp [inOrder]

theorem inOrder_storeEvents (f : Event → List Addr) (hf : ∀ a, f (.write a) = []) (a : Addr)
    (n : ℕ) : inOrder f (storeEvents a n) = [] := by
  induction n with
  | zero => rfl
  | succ n ih => rw [storeEvents, inOrder_cons, ih, hf, List.append_nil]

theorem written_storeEvents (a : Addr) (n : ℕ) :
    inOrder Event.written (storeEvents a n) = Event.bytesFrom a n := by
  induction n with
  | zero => rfl
  | succ n ih =>
    rw [storeEvents, inOrder_cons, ih, Event.bytesFrom, Event.bytesFrom, List.range_succ,
      List.map_append]
    rfl

theorem bytesFrom_exec (pages : PatchPages) (k : Addr) (n : ℕ) :
    (Event.bytesFrom (pages.rw+k) n).map pages.exec = Event.bytesFrom (pages.ro+k) n := by
  rw [Event.bytesFrom, Event.bytesFrom, List.map_map]
  apply List.map_congr_left
  intro i _
  simp only [Function.comp, PatchPages.exec]
  bv_omega

theorem bytesFrom_add (a : Addr) (n k : ℕ) : Event.bytesFrom a (n+k) =
    Event.bytesFrom a n++Event.bytesFrom (a+BitVec.ofNat 64 n) k := by
  rw [Event.bytesFrom, List.range_add, List.map_append, List.map_map]
  congr 1
  apply List.map_congr_left
  intro i _
  rw [Function.comp, BitVec.ofNat_add, BitVec.add_assoc]

theorem streamFlushed_nil (pages : PatchPages) : StreamFlushed pages [] [] :=
  ⟨rfl,provided_nil,rfl,rfl⟩

/-- A flush at both views of a range makes the stores to the range coherent. -/
theorem provided_flush {pages : PatchPages} {stores log : List Event} (k : Addr)
    (size : BitVec 64) (hstores : ∀ a, .write a ∈ stores → a-(pages.rw+k) < size)
    (hlog : Provided (Event.Coherent pages.exec 1) log) :
    Provided (Event.Coherent pages.exec 1) (.icacheInvalidate (pages.ro+k) size ::
      .dcacheFlush (pages.rw+k) size :: (stores++log)) := by
  have hpersist := Event.coherent_persistent pages.exec 1
  have hpair : Provided (Event.Coherent pages.exec 1)
      [.icacheInvalidate (pages.ro+k) size,.dcacheFlush (pages.rw+k) size] := by
    apply Provided.cons (fun a ha => by cases ha) hpersist
    exact Provided.cons (fun a ha => by cases ha) hpersist provided_nil
  show Provided _ ([.icacheInvalidate (pages.ro+k) size,.dcacheFlush (pages.rw+k) size]++
    (stores++log))
  rw [← List.append_assoc]
  apply Provided.append _ hpersist hlog
  -- the pair of operations comes after each of the stores
  apply provided_append hpair
  intro later e earlier hsplit a ha
  have hmem : Event.write a ∈ stores := by
    rw [hsplit, ha]
    exact List.mem_append_right later List.mem_cons_self
  have hlt := hstores a hmem
  have hrx : pages.exec a-(pages.ro+k) = a-(pages.rw+k) := by
    rw [PatchPages.exec]
    bv_omega
  apply coherent_of_flush [] later _ _ a rfl
  · intro i hi
    obtain rfl : i = 0 := by omega
    rwa [BitVec.add_zero]
  · intro i hi
    obtain rfl : i = 0 := by omega
    rwa [BitVec.add_zero, hrx]

/-- A stretch of stores and the flush of just these bytes. -/
theorem StreamFlushed.flush {pages : PatchPages} {bytes : List Addr} {log : List Event}
    (h : StreamFlushed pages bytes log) (k : Addr) {n : ℕ} {size : BitVec 64}
    (hsize : size.toNat = n) :
    StreamFlushed pages (bytes++Event.bytesFrom (pages.rw+k) n)
      (.icacheInvalidate (pages.ro+k) size :: .dcacheFlush (pages.rw+k) size ::
        (storeEvents (pages.rw+k) n++log)) := by
  constructor
  · simp only [inOrder_cons, inOrder_append, written_storeEvents, h.written, Event.written,
      List.append_nil]
  · apply provided_flush k size _ h.coherent
    intro a ha
    obtain ⟨i,hi,he⟩ := mem_storeEvents.mp ha
    injection he with he
    have hlt := size.isLt
    rw [he]
    bv_omega
  · simp only [inOrder_cons, inOrder_append, inOrder_storeEvents Event.flushed (fun _ => rfl),
      h.flushed, Event.flushed, hsize, List.append_nil]
  · simp only [inOrder_cons, inOrder_append, inOrder_storeEvents Event.invalidated (fun _ => rfl),
      h.invalidated, Event.invalidated, hsize, List.append_nil, List.map_append, bytesFrom_exec]

/-- Between two flushes: the last `n` bytes are written from the start on and not flushed yet. -/
structure StreamPatcher.Pending (pages : PatchPages) (s : StreamPatcher) (n : ℕ)
    (bytes : List Addr) (done : List Event) : Prop where
  current : s.current = s.start+BitVec.ofNat 64 n
  writable : ∀ i < n, pages.writable (pages.rw+s.start+BitVec.ofNat 64 i) = true
  log : s.m.log = storeEvents (pages.rw+s.start) n++done
  flushed : StreamFlushed pages bytes done

/-- The patcher has written `bytes`, and all but the last stretch of them is flushed. -/
def StreamPatcher.Streamed (pages : PatchPages) (s : StreamPatcher) (bytes : List Addr) : Prop :=
  ∃ n done flushed, s.Pending pages n flushed done ∧
    flushed++Event.bytesFrom (pages.rw+s.start) n = bytes

/-- An operation writes the bytes of its intent at the position, or it seeks. -/
theorem PatchOp.step_cases {pages : PatchPages} {s s' : StreamPatcher} {op : PatchOp}
    (hs : op.step pages s = some s') :
    (∃ v i, s.write pages v = some s' ∧ op.intent pages s.current = some i ∧
      v.length = i.size ∧ op.next pages s.current = s.current+BitVec.ofNat 64 i.size) ∨
    ∃ address, s' = s.seekRel pages address ∧ op.intent pages s.current = none ∧
      op.next pages s.current = address+s.current := by
  cases op with
  | write v => exact Or.inl ⟨v,.bytes v,hs,rfl,rfl,rfl⟩
  | writeInst inst => exact Or.inl ⟨_,_,hs,rfl,rfl,rfl⟩
  | branchInstRel address => exact Or.inl ⟨_,_,hs,rfl,rfl,rfl⟩
  | branchLinkInstRel address => exact Or.inl ⟨_,_,hs,rfl,rfl,rfl⟩
  | branchInst address => exact Or.inl ⟨_,_,hs,rfl,rfl,rfl⟩
  | branchLinkInst address => exact Or.inl ⟨_,_,hs,rfl,rfl,rfl⟩
  | branchInstPointer ptr => exact Or.inl ⟨_,_,hs,rfl,rfl,rfl⟩
  | branchLinkInstPointer ptr => exact Or.inl ⟨_,_,hs,rfl,rfl,rfl⟩
  | seekRel address =>
    injection hs with hs
    exact Or.inr ⟨address,hs.symm,rfl,BitVec.add_comm _ _⟩
  | seek address =>
    -- an absolute seek is a relative one by the difference
    injection hs with hs
    refine Or.inr ⟨_,hs.symm,rfl,?_⟩
    show address = address-s.current+s.current
    rw [BitVec.sub_add_cancel]
  | seekPointer ptr =>
    injection hs with hs
    refine Or.inr ⟨_,hs.symm,rfl,?_⟩
    show ptr-pages.ro = ptr-pages.ro-s.current+s.current
    rw [BitVec.sub_add_cancel]

namespace StreamPatcher

variable {pages : PatchPages} {s s' : StreamPatcher} {n : ℕ} {bytes : List Addr}
  {done : List Event}

theorem seekRel_current (address : Addr) :
    (s.seekRel pages address).current = address+s.current := by
  rw [StreamPatcher.seekRel]
  by_cases h0 : address = 0
  · rw [if_pos h0, h0]
    exact (BitVec.zero_add _).symm
  · rw [if_neg h0]

theorem Pending.flush (h : s.Pending pages n bytes done) :
    StreamFlushed pages (bytes++Event.bytesFrom (pages.rw+s.start) n) (s.flush pages).m.log := by
  have hlt := pages.lt_of_writable h.writable
  have hsize : (s.current-s.start).toNat = n := by
    rw [h.current]
    bv_omega
  rw [StreamPatcher.flush]
  by_cases hd : s.doneNothing = true
  · rw [if_pos hd]
    have he : s.start = s.current := by simpa [doneNothing] using hd
    have hn : n = 0 := by
      rw [← hsize, he]
      simp
    rw [h.log, hn]
    exact (List.append_nil bytes).symm ▸ h.flushed
  · rw [if_neg hd]
    have := h.flushed.flush s.start hsize
    rw [← h.log] at this
    exact this

theorem Pending.write {v : List (BitVec 8)} (h : s.Pending pages n bytes done)
    (hw : s.write pages v = some s') :
    s'.Pending pages (n+v.length) bytes done ∧ s'.start = s.start := by
  obtain ⟨m,hm,hw⟩ := Option.bind_eq_some_iff.mp hw
  injection hw with hw
  subst hw
  have hat : pages.rwFromAddr s.current = pages.rw+s.start+BitVec.ofNat 64 n := by
    rw [PatchPages.rwFromAddr, h.current, BitVec.add_assoc]
  rw [hat] at hm
  obtain ⟨hall,hlog,-⟩ := PatchPages.store_ok hm
  refine ⟨⟨?_,?_,?_,h.flushed⟩,rfl⟩
  · show s.current+BitVec.ofNat 64 v.length = s.start+BitVec.ofNat 64 (n+v.length)
    rw [h.current]
    bv_omega
  · -- a byte before the cursor was checked by an earlier write, the others by this one
    intro i hi
    by_cases hin : i < n
    · exact h.writable i hin
    · have he : pages.rw+s.start+BitVec.ofNat 64 i =
          pages.rw+s.start+BitVec.ofNat 64 n+BitVec.ofNat 64 (i-n) := by
        rw [BitVec.add_assoc, BitVec.add_assoc, BitVec.add_assoc, ← BitVec.ofNat_add,
          Nat.add_sub_cancel' (by omega)]
      show pages.writable (pages.rw+s.start+BitVec.ofNat 64 i) = true
      rw [he]
      exact hall (i-n) (by omega)
  · show m.log = storeEvents (pages.rw+s.start) (n+v.length)++done
    rw [hlog, h.log, storeEvents_add, List.append_assoc]

theorem Streamed.flush (h : s.Streamed pages bytes) :
    StreamFlushed pages bytes (s.flush pages).m.log := by
  obtain ⟨n,done,flushed,hpending,rfl⟩ := h
  exact hpending.flush

theorem Streamed.write {v : List (BitVec 8)} (h : s.Streamed pages bytes)
    (hw : s.write pages v = some s') :
    s'.Streamed pages (bytes++Event.bytesFrom (pages.rw+s.current) v.length) := by
  obtain ⟨n,done,flushed,hpending,rfl⟩ := h
  obtain ⟨hnext,hstart⟩ := hpending.write hw
  refine ⟨n+v.length,done,flushed,hnext,?_⟩
  rw [hstart, bytesFrom_add, hpending.current, List.append_assoc, BitVec.add_assoc]

/-- A seek leaves nothing pending, unless it does not move. -/
theorem Streamed.seekRel (address : Addr) (h : s.Streamed pages bytes) :
    (s.seekRel pages address).Streamed pages bytes := by
  rw [StreamPatcher.seekRel]
  by_cases h0 : address = 0
  · rw [if_pos h0]
    exact h
  · rw [if_neg h0]
    refine ⟨0,(s.flush pages).m.log,bytes,⟨?_,?_,rfl,h.flush⟩,List.append_nil bytes⟩
    · exact (BitVec.add_zero _).symm
    · exact fun i hi => absurd hi (Nat.not_lt_zero i)

/-- One operation writes the bytes it asks for, and moves the position. -/
theorem Streamed.step {op : PatchOp} (h : s.Streamed pages bytes)
    (hs : op.step pages s = some s') :
    s'.Streamed pages (bytes++(op.intent pages s.current).toList.flatMap fun i =>
        Event.bytesFrom (pages.rw+s.current) i.size) ∧
      s'.current = op.next pages s.current := by
  rcases PatchOp.step_cases hs with ⟨v,i,hw,hi,hlen,hnext⟩ | ⟨address,rfl,hi,hnext⟩
  · have hafter := h.write hw
    obtain ⟨m,-,hw⟩ := Option.bind_eq_some_iff.mp hw
    injection hw with hw
    rw [hlen] at hafter
    rw [hi, hnext, ← hlen, ← hw]
    rw [← hw] at hafter
    refine ⟨?_,rfl⟩
    rw [Option.toList_some, List.flatMap_singleton]
    exact hafter
  · rw [hi, hnext, Option.toList_none, List.flatMap_nil, List.append_nil]
    exact ⟨h.seekRel address,seekRel_current address⟩

theorem askedBytes_cons (pos : Addr) (op : PatchOp) (ops : List PatchOp) :
    askedBytes pages pos (op :: ops) = ((op.intent pages pos).toList.flatMap fun i =>
        Event.bytesFrom (pages.rw+pos) i.size)++askedBytes pages (op.next pages pos) ops := by
  rw [askedBytes, intents, List.flatMap_append, List.flatMap_map]
  rfl

theorem Streamed.run (ops : List PatchOp) (h : s.Streamed pages bytes)
    (hr : ops.foldlM (PatchOp.step pages) s = some s') :
    s'.Streamed pages (bytes++askedBytes pages s.current ops) := by
  induction ops generalizing s bytes with
  | nil =>
    injection hr with hr
    rw [← hr]
    exact (List.append_nil bytes).symm ▸ h
  | cons op ops ih =>
    rw [List.foldlM_cons] at hr
    obtain ⟨s1,hs,hr⟩ := Option.bind_eq_some_iff.mp hr
    obtain ⟨h1,hcurrent⟩ := h.step hs
    have hrest := ih h1 hr
    rwa [hcurrent, List.append_assoc, ← askedBytes_cons] at hrest

end StreamPatcher

theorem codePatch_flushed {pages : PatchPages} {mem : Mem} {m' : Machine} {start : Addr}
    {ops : List PatchOp} (h : codePatch pages ⟨mem,[]⟩ start ops = some m') :
    StreamFlushed pages (askedBytes pages start ops) m'.log := by
  obtain ⟨s,hs,h⟩ := Option.bind_eq_some_iff.mp h
  injection h with h
  subst h
  have hnew : (StreamPatcher.new ⟨mem,[]⟩ start).Streamed pages [] := by
    refine ⟨0,[],[],⟨(BitVec.add_zero _).symm,?_,rfl,streamFlushed_nil pages⟩,rfl⟩
    exact fun i hi => absurd hi (Nat.not_lt_zero i)
  exact (hnew.run ops hs).flush

namespace RandomWrite

/-- The first byte of a write and the one past its last. -/
def span (w : RandomWrite) : Span ℕ := ⟨w.addr.toNat,w.addr.toNat+w.v.length⟩

end RandomWrite

/-- Every byte written is flushed and then invalidated, by one pair of operations
on the smallest interval around the writes. -/
structure HullFlushed (pages : PatchPages) (ws : List RandomWrite) (log : List Event) : Prop where
  coherent : Provided (Event.Coherent pages.exec 1) log
  none : ws = [] → log = []
  hull : ws ≠ [] → ∃ lo size stores, log = .icacheInvalidate (pages.ro+lo) size ::
      .dcacheFlush (pages.rw+lo) size :: stores ∧ (∀ e ∈ stores, ∃ a, e = .write a) ∧
      Hull (ws.map RandomWrite.span) ⟨lo.toNat,lo.toNat+size.toNat⟩

/-- After the writes `ws`. -/
structure RandomAccessPatcher.Covers (pages : PatchPages) (s : RandomAccessPatcher)
    (ws : List RandomWrite) : Prop where
  stores : ∀ e ∈ s.m.log, ∃ w ∈ ws, ∃ i < w.v.length,
    e = .write (pages.rw+w.addr+BitVec.ofNat 64 i)
  unset : ws = [] → s.lowest = uintptrMax ∧ s.highest = uintptrMax ∧ s.m.log = []
  hull : ws ≠ [] → s.lowest ≠ uintptrMax ∧ s.highest ≠ uintptrMax ∧
    Hull (ws.map RandomWrite.span) ⟨s.lowest.toNat,s.highest.toNat⟩

namespace RandomAccessPatcher

variable {pages : PatchPages} {s s' : RandomAccessPatcher} {ws : List RandomWrite}

/-- The bounds after a write: the first one sets them, the others widen them. -/
theorem bounds_write (w : RandomWrite) (hw : w.addr.toNat+w.v.length < 2^64-1)
    (h : s.Covers pages ws) {t : RandomAccessPatcher}
    (ht : t = (s.setLowest w.addr).setHighest (w.addr+BitVec.ofNat 64 w.v.length)) :
    t.m = s.m ∧ t.lowest ≠ uintptrMax ∧ t.highest ≠ uintptrMax ∧
      Hull ((ws++[w]).map RandomWrite.span) ⟨t.lowest.toNat,t.highest.toNat⟩ := by
  have hpos : 0 < w.v.length := List.length_pos_iff.mpr w.nonempty
  have haddr : w.addr ≠ uintptrMax := by
    intro he
    rw [he, uintptrMax] at hw
    bv_omega
  have hendeq : (w.addr+BitVec.ofNat 64 w.v.length).toNat = w.addr.toNat+w.v.length := by
    bv_omega
  -- the sentinel is the last address, which no write reaches
  have hend : w.addr+BitVec.ofNat 64 w.v.length ≠ uintptrMax := by
    intro he
    rw [he, uintptrMax] at hendeq
    bv_omega
  by_cases hws : ws = []
  · -- both bounds are unset at first, and the upper one still after the lower one is set
    obtain ⟨hlo,hhi,-⟩ := h.unset hws
    have hset : t = ⟨s.m,w.addr,w.addr+BitVec.ofNat 64 w.v.length⟩ := by
      simp [ht, setLowest, setHighest, isUnset, hlo, hhi]
    rw [hset, hws]
    refine ⟨rfl,haddr,hend,?_⟩
    show Hull [w.span] ⟨w.addr.toNat,(w.addr+BitVec.ofNat 64 w.v.length).toNat⟩
    rw [hendeq]
    exact hull_singleton w.span
  · -- both are set, and no bound that a write sets is the sentinel
    obtain ⟨hlo,hhi,hhull⟩ := h.hull hws
    have hmin : (if w.addr < s.lowest then w.addr else s.lowest) ≠ uintptrMax := by
      split_ifs <;> assumption
    have hset : t = ⟨s.m,if w.addr < s.lowest then w.addr else s.lowest,
        if s.highest < w.addr+BitVec.ofNat 64 w.v.length then w.addr+BitVec.ofNat 64 w.v.length
        else s.highest⟩ := by
      simp [ht, setLowest, setHighest, isUnset, hlo, hhi, hmin]
    rw [hset]
    refine ⟨rfl,hmin,by split_ifs <;> assumption,?_⟩
    have hlast := hhull.append w.span
    rw [List.map_append, List.map_singleton]
    -- the hull grows by a minimum and a maximum, which the code writes as comparisons
    convert hlast using 2
    · simp only [RandomWrite.span]
      split_ifs with hlt
      · rw [min_eq_right]
        bv_omega
      · rw [min_eq_left]
        bv_omega
    · simp only [RandomWrite.span]
      split_ifs with hlt
      · rw [hendeq, max_eq_right]
        bv_omega
      · rw [max_eq_left]
        bv_omega

theorem Covers.write (w : RandomWrite) (hw : w.addr.toNat+w.v.length < 2^64-1)
    (h : s.Covers pages ws) (hs : s.write pages w.addr w.v = some s') :
    s'.Covers pages (ws++[w]) := by
  obtain ⟨m,hm,hs⟩ := Option.bind_eq_some_iff.mp hs
  injection hs with hs
  obtain ⟨hsame,hlo,hhi,hhull⟩ := bounds_write w hw h rfl
  rw [hsame] at hm
  obtain ⟨-,hlog,-⟩ := PatchPages.store_ok hm
  subst hs
  refine ⟨?_,fun he => absurd he (by simp),fun _ => ⟨hlo,hhi,hhull⟩⟩
  intro e he
  have he : e ∈ m.log := he
  rw [hlog] at he
  rcases List.mem_append.mp he with he | he
  · obtain ⟨i,hi,he⟩ := mem_storeEvents.mp he
    exact ⟨w,List.mem_append_right ws (List.mem_singleton_self w),i,hi,he⟩
  · obtain ⟨u,hu,i,hi,he⟩ := h.stores e he
    exact ⟨u,List.mem_append_left _ hu,i,hi,he⟩

theorem Covers.run (vs : List RandomWrite) (hvs : ∀ w ∈ vs, w.addr.toNat+w.v.length < 2^64-1)
    (h : s.Covers pages ws)
    (hr : vs.foldlM (fun s (w : RandomWrite) => s.write pages w.addr w.v) s = some s') :
    s'.Covers pages (ws++vs) := by
  induction vs generalizing s ws with
  | nil =>
    injection hr with hr
    rw [← hr, List.append_nil]
    exact h
  | cons w vs ih =>
    rw [List.foldlM_cons] at hr
    obtain ⟨s1,hs,hr⟩ := Option.bind_eq_some_iff.mp hr
    have h1 := h.write w (hvs w List.mem_cons_self) hs
    have := ih (fun u hu => hvs u (List.mem_cons_of_mem w hu)) h1 hr
    rwa [List.append_assoc] at this

/-- The destructor after the writes `ws`. -/
theorem Covers.flush (h : s.Covers pages ws) : HullFlushed pages ws (s.flush pages).m.log := by
  -- without a write the sentinel is still there, and nothing is flushed
  by_cases hws : ws = []
  · obtain ⟨hlo,hhi,hlog⟩ := h.unset hws
    have hunset : s.isUnset = true := by simp [isUnset, hlo]
    rw [RandomAccessPatcher.flush, if_pos hunset, hlog]
    exact ⟨provided_nil,fun _ => rfl,fun hne => absurd hws hne⟩
  · obtain ⟨hlo,hhi,hhull⟩ := h.hull hws
    have hunset : ¬s.isUnset = true := by simp [isUnset, hlo, hhi]
    rw [RandomAccessPatcher.flush, if_neg hunset]
    -- a write lies between the two bounds, so they are in order
    obtain ⟨w,hw⟩ := List.exists_mem_of_ne_nil ws hws
    have hle := hhull.contains w.span (List.mem_map_of_mem hw)
    have hsize : (s.highest-s.lowest).toNat = s.highest.toNat-s.lowest.toNat := by
      simp only [RandomWrite.span] at hle
      bv_omega
    refine ⟨?_,fun he => absurd he hws,fun _ => ⟨s.lowest,s.highest-s.lowest,s.m.log,rfl,?_,?_⟩⟩
    · have hall := @provided_flush pages s.m.log [] s.lowest (s.highest-s.lowest) ?_ provided_nil
      · rwa [List.append_nil] at hall
      · intro a ha
        obtain ⟨u,hu,i,hi,he⟩ := h.stores _ ha
        injection he with he
        have hin := hhull.contains u.span (List.mem_map_of_mem hu)
        simp only [RandomWrite.span] at hin
        rw [he]
        bv_omega
    · intro e he
      obtain ⟨w,_,i,_,he⟩ := h.stores e he
      exact ⟨_,he⟩
    · rw [hsize, Nat.add_sub_cancel']
      · exact hhull
      · simp only [RandomWrite.span] at hle
        omega

end RandomAccessPatcher

theorem randomPatch_flushed {pages : PatchPages} {mem : Mem} {m' : Machine}
    {ws : List RandomWrite} (hws : ∀ w ∈ ws, w.addr.toNat+w.v.length < 2^64-1)
    (h : randomPatch pages ⟨mem,[]⟩ ws = some m') : HullFlushed pages ws m'.log := by
  obtain ⟨s,hs,h⟩ := Option.bind_eq_some_iff.mp h
  injection h with h
  subst h
  have hnew : (RandomAccessPatcher.new ⟨mem,[]⟩).Covers pages [] :=
    ⟨fun e he => absurd he List.not_mem_nil,fun _ => ⟨rfl,rfl,rfl⟩,fun he => absurd rfl he⟩
  have hcovers := hnew.run ws hws hs
  rw [List.nil_append] at hcovers
  exact hcovers.flush

/-- A patcher that is destroyed has flushed everything it wrote: a stream or code
patcher exactly these bytes, a random-access patcher the smallest interval
around them. -/
theorem patchers_flush_writes (pages : PatchPages) (mem : Mem) :
    (∀ start ops m', codePatch pages ⟨mem,[]⟩ start ops = some m' →
      StreamFlushed pages (askedBytes pages start ops) m'.log) ∧
    (∀ ws m', (∀ w ∈ ws, w.addr.toNat+w.v.length < 2^64-1) →
      randomPatch pages ⟨mem,[]⟩ ws = some m' → HullFlushed pages ws m'.log) :=
  ⟨fun _ _ _ h => codePatch_flushed h,fun _ _ hws h => randomPatch_flushed hws h⟩

/-- A page of the module at `0x1000`, patched at `0x10000000`. -/
def pagePatch : PatchPages where
  ro := 0x1000
  rw := 0x10000000
  size := 0x1000
  tr := fun a => if a-0x10000000 < 0x1000 then a-0x10000000+0x1000 else a
  writable := fun a => (a-0x10000000).ult 0x1000
  hole := ⟨0,rfl⟩
  aliases := by
    intro k hk
    rw [BitVec.add_comm, BitVec.add_sub_cancel, if_pos hk, BitVec.add_comm]
  apart := by
    intro k hw hk
    rw [BitVec.add_comm, BitVec.add_sub_cancel, BitVec.ult_iff_lt] at hw
    exact absurd hw (BitVec.not_lt.mpr hk)

theorem patchers_flush_writes_page :
    (∃ m', codePatch pagePatch ⟨fun _ => 0,[]⟩ 0x10 [.write [1,2],.seek 0x20,.branchInst 0x40] =
      some m' ∧ StreamFlushed pagePatch [0x10000010,0x10000011,0x10000020,0x10000021,0x10000022,
        0x10000023] m'.log) ∧
    (∃ m', randomPatch pagePatch ⟨fun _ => 0,[]⟩ [⟨0x40,[1,2],nofun⟩,⟨0x20,[3],nofun⟩] =
      some m' ∧ HullFlushed pagePatch [⟨0x40,[1,2],nofun⟩,⟨0x20,[3],nofun⟩] m'.log) := by
  obtain ⟨hstream,hrandom⟩ := patchers_flush_writes pagePatch fun _ => 0
  have hcode := fun m' h => And.intro h
    (hstream 0x10 [.write [1,2],.seek 0x20,.branchInst 0x40] m' h)
  have hwrites := fun m' h => And.intro h
    (hrandom [⟨0x40,[1,2],nofun⟩,⟨0x20,[3],nofun⟩] m' (by decide) h)
  exact ⟨⟨_,hcode _ rfl⟩,⟨_,hwrites _ rfl⟩⟩

end Zeldar
