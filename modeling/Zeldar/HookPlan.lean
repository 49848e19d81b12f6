import Zeldar.HookFix

/-! What a handler does, apart from where it keeps it: the words it emits at
the cursor, the address it records for its instruction, and the forward
reference it leaves to be patched. Every handler performs such a plan. -/
namespace Zeldar

/-- A reference to a later instruction, waiting at the first emitted word. -/
structure Forward where
  refIdx : Fin maxInstructions
  ls : ℕ
  ad : Word

structure Plan where
  words : List Word
  ins : Addr
  forward : Option Forward

def absoluteJump (target : Addr) : List Word :=
  [0x58000051,0xd61f0220,target.extractLsb' 0 32,target.extractLsb' 32 32]

def nops (n : ℕ) : List Word := List.replicate n aarch64Nop

namespace FixState

def emitWords (tr : Addr → Addr) (s : FixState) (ws : List Word) : FixState :=
  ws.foldl (fun s w => (s.put tr 0 w).advance 1) s

def record (s : FixState) (idx : Fin maxInstructions) (p : Plan) : FixState :=
  let t := s.resetCurrentIns idx p.ins
  match p.forward with
  | none => t
  | some f => t.insertFixMap f.refIdx s.outprw s.outprx f.ls f.ad

def perform (tr : Addr → Addr) (s : FixState) (idx : Fin maxInstructions) (p : Plan) : FixState :=
  (((s.record idx p).emitWords tr p.words).nextIn).processFixMap tr idx

end FixState

section Plans
variable (tr : Addr → Addr) (s : FixState) (idx : Fin maxInstructions)

/-- The plan for a target inside the range: a backward one is encoded from the recorded
address, a forward one is left to its fix-up. -/
def referencePlan (target : Addr) (encode : Addr → Word) (ls : ℕ) (ad : Word) :
    Except Fault Plan := do
  let refIdx ← Context.index (s.ctx.getRefInsIndex target)
  if refIdx ≤ idx then
    let ins := ((s.resetCurrentIns idx s.outprx).ctx.dat refIdx).ins
    return ⟨[encode (ins-s.outprx)],s.outprx,none⟩
  else
    return ⟨[encode 0],s.outprx,some ⟨refIdx,ls,ad⟩⟩

def branchPlan (opc ins : Word) : Except Fault Plan :=
  let target := branchTarget s.inprx ins
  let pad := if wordAt s.outprx 2 &&& 7 = 0 then 0 else 1
  if s.ctx.isInFixingRange target then
    referencePlan s idx target (branchWord opc) 0 0x03ffffff
  else if (0x1ffffff:BitVec 64).sle (llabs ((target-s.outprx).sshiftRight 2)) then
    if opc = 0x14000000 then
      return ⟨nops pad++absoluteJump target,wordAt s.outprx pad,none⟩
    else
      return ⟨nops (1-pad)++[0x58000071,0x1000009e,0xd61f0220,target.extractLsb' 0 32,
        target.extractLsb' 32 32],wordAt s.outprx (1-pad),none⟩
  else
    return ⟨[branchWord opc (target-s.outprx)],s.outprx,none⟩

def condPlan (lmask ins : Word) : Except Fault Plan :=
  let target := condTarget s.inprx lmask ins
  let pad := if wordAt s.outprx 4 &&& 7 = 0 then 0 else 1
  if s.ctx.isInFixingRange target then
    referencePlan s idx target (condWord lmask ins) 5 (~~~lmask)
  else if ((~~~lmask >>> 6).setWidth 64).sle (llabs ((target-s.outprx).sshiftRight 2)) then
    return ⟨nops pad++((0x40 &&& ~~~lmask) ||| (ins &&& lmask)) :: 0x14000005 ::
      absoluteJump target,s.outprx,none⟩
  else
    return ⟨[condWord lmask ins (target-s.outprx)],s.outprx,none⟩

/-- How many NOPs a padding loop emits from a cursor. -/
def padCount (more : Addr → Bool) : ℕ → Addr → Except Fault ℕ
  | 0, a => if more a then .error .diverges else .ok 0
  | n+1, a => if more a then (padCount more n (wordAt a 1)).map (·+1) else .ok 0

/-- The copied literal is read after the words before it are written. -/
def litPlan (mask : Word) (faligned : BitVec 64) (ins : Word) : Except Fault Plan :=
  let target := litTarget s.inprx ins
  let distance (a : Addr) := (target-a).sshiftRight 2
  if s.ctx.isInFixingRange target ∨
      (0x3ffff:BitVec 64).ule (llabs (distance s.outprx)+(faligned+1-4)/4) then do
    let pad ← padCount (fun a => wordAt a 2 &&& faligned != 0) 3 s.outprx
    let ns := (faligned.toNat+1)/4
    let head := nops pad++[(0x40 &&& ~~~mask) ||| (ins &&& 0xff00001f),
      0x14000001+BitVec.ofNat 32 ns]
    let literal := (List.range ns).map fun i =>
      (s.emitWords tr head).m.load32 tr (wordAt target i)
    return ⟨head++literal,wordAt s.outprx pad,none⟩
  else do
    let pad ← padCount (fun a => distance a &&& (faligned >>> 2) != 0) 3 s.outprx
    let out := wordAt s.outprx pad
    return ⟨nops pad++[litWord mask ins (target-out)],out,none⟩

def addressLoad (rt : Word) (target : Addr) : List Word :=
  [0x58000040 ||| rt,0x14000003,target.extractLsb' 0 32,target.extractLsb' 32 32]

def adrPlan (ins : Word) : Except Fault Plan :=
  let target := adrTarget s.inprx ins
  let pad := if wordAt s.outprx 2 &&& 7 = 0 then 0 else 1
  if s.ctx.isInFixingRange target then
    referencePlan s idx (target &&& ~~~(3:Addr)) (adrWord ins) 5 0x00ffffff
  else if (0xfffff:BitVec 64).sle (llabs (target-s.outprx)) then
    return ⟨nops pad++addressLoad (ins &&& 0x1f) target,wordAt s.outprx pad,none⟩
  else
    return ⟨[adrWord ins (target-s.outprx)],s.outprx,none⟩

/-- Without an alignment NOP the recorded address is the one of the read-write view. -/
def adrpPlan (ins : Word) : Plan :=
  let target := adrpTarget s.inprx ins
  if s.ctx.isInFixingRange target then ⟨[ins],s.outprw,none⟩
  else if wordAt s.outprx 2 &&& 7 = 0 then ⟨addressLoad (ins &&& 0x1f) target,s.outprw,none⟩
  else ⟨nops 1++addressLoad (ins &&& 0x1f) target,wordAt s.outprx 1,none⟩

end Plans

section Equations
variable {tr : Addr → Addr}

theorem nops_length (n : ℕ) : (nops n).length = n := List.length_replicate

@[simp] theorem emitWords_nil (s : FixState) : s.emitWords tr [] = s := rfl

@[simp] theorem emitWords_cons (s : FixState) (w : Word) (ws : List Word) :
    s.emitWords tr (w :: ws) = ((s.put tr 0 w).advance 1).emitWords tr ws := rfl

theorem emitWords_append (s : FixState) (ws vs : List Word) :
    s.emitWords tr (ws++vs) = (s.emitWords tr ws).emitWords tr vs :=
  List.foldl_append

theorem advance_zero (s : FixState) : s.advance 0 = s := by
  simp only [FixState.advance, wordAt_zero]

theorem advance_advance (s : FixState) (k l : ℕ) : (s.advance k).advance l = s.advance (k+l) := by
  simp only [FixState.advance, wordAt_add]

theorem advance_put (s : FixState) (k l : ℕ) (w : Word) :
    (s.advance k).put tr l w = (s.put tr (k+l) w).advance k := by
  simp only [FixState.advance, FixState.put, wordAt_add]

theorem putWords_append (s : FixState) (k : ℕ) (ws vs : List Word) :
    s.putWords tr k (ws++vs) = (s.putWords tr k ws).putWords tr (k+ws.length) vs := by
  induction ws generalizing s k with
  | nil => rfl
  | cons w ws ih =>
    rw [List.cons_append, FixState.putWords, ih, FixState.putWords, List.length_cons]
    congr 1
    omega

/-- Writing ahead of the cursor and then moving it is emitting word by word. -/
theorem putWords_advance (s : FixState) (k : ℕ) (ws : List Word) :
    (s.putWords tr k ws).advance (k+ws.length) = (s.advance k).emitWords tr ws := by
  induction ws generalizing s k with
  | nil => rfl
  | cons w ws ih =>
    have h := ih (s.put tr k w) (k+1)
    rw [emitWords_cons, advance_put, Nat.add_zero, advance_advance, ← h, FixState.putWords,
      List.length_cons]
    congr 1
    omega

theorem putWords_advance_zero (s : FixState) (ws : List Word) :
    (s.putWords tr 0 ws).advance ws.length = s.emitWords tr ws := by
  have h := @putWords_advance tr s 0 ws
  rwa [advance_zero, Nat.zero_add] at h

theorem put64_eq (s : FixState) (k : ℕ) (v : BitVec 64) :
    s.put64 tr k v = s.putWords tr k [v.extractLsb' 0 32,v.extractLsb' 32 32] := by
  simp only [FixState.put64, FixState.putWords, FixState.put, Machine.store64,
    BitVec.ofNat_eq_ofNat, wordAt_four]

theorem putAbsoluteJump_advance (s : FixState) (target : Addr) :
    (s.putAbsoluteJump tr target).advance 4 = s.emitWords tr (absoluteJump target) := by
  rw [FixState.putAbsoluteJump, put64_eq]
  exact putWords_advance_zero s (absoluteJump target)

theorem getAndSet_eq (s : FixState) (outp : Addr) {idx : Fin maxInstructions}
    (h : Context.index (s.ctx.getRefInsIndex s.inprx) = .ok idx) :
    s.getAndSetCurrentIndex s.inprx outp = .ok (idx,s.resetCurrentIns idx outp) := by
  simp only [FixState.getAndSetCurrentIndex, Context.getAndSetCurrentIndex, h]
  rfl

end Equations

section ResetCurrentIns
variable (s : FixState) (idx : Fin maxInstructions) (a : Addr)

@[simp] theorem resetCurrentIns_m : (s.resetCurrentIns idx a).m = s.m := rfl
@[simp] theorem resetCurrentIns_inprw : (s.resetCurrentIns idx a).inprw = s.inprw := rfl
@[simp] theorem resetCurrentIns_inprx : (s.resetCurrentIns idx a).inprx = s.inprx := rfl
@[simp] theorem resetCurrentIns_outprw : (s.resetCurrentIns idx a).outprw = s.outprw := rfl
@[simp] theorem resetCurrentIns_outprx : (s.resetCurrentIns idx a).outprx = s.outprx := rfl
@[simp] theorem resetCurrentIns_range (t : Addr) :
    (s.resetCurrentIns idx a).ctx.isInFixingRange t = s.ctx.isInFixingRange t := rfl
@[simp] theorem resetCurrentIns_refIndex (t : Addr) :
    (s.resetCurrentIns idx a).ctx.getRefInsIndex t = s.ctx.getRefInsIndex t := rfl

/-- A later reset replaces an earlier one. -/
@[simp] theorem resetCurrentIns_twice (b : Addr) :
    (s.resetCurrentIns idx a).resetCurrentIns idx b = s.resetCurrentIns idx b := by
  simp [FixState.resetCurrentIns, Context.resetCurrentIns]

theorem resetCurrentIns_emitNop (tr : Addr → Addr) :
    (s.emitNop tr).resetCurrentIns idx a = (s.resetCurrentIns idx a).emitNop tr := rfl

end ResetCurrentIns

section Handlers
variable {tr : Addr → Addr} (s : FixState) {idx : Fin maxInstructions}

theorem refer_eq (target : Addr) (encode : Addr → Word) (ls : ℕ) (ad : Word) :
    ((s.resetCurrentIns idx s.outprx).refer idx target ls ad).map
      (fun v => some (((v.2.put tr 0 (encode v.1)).advance 1).nextIn.processFixMap tr idx)) =
    (referencePlan s idx target encode ls ad).map fun p => some (s.perform tr idx p) := by
  unfold referencePlan FixState.refer
  rw [resetCurrentIns_refIndex]
  cases Context.index (s.ctx.getRefInsIndex target) with
  | error e => rfl
  | ok r =>
    simp only [bind, Except.bind, pure, Except.pure]
    by_cases hr : r ≤ idx
    · simp only [hr, ↓reduceIte, Except.map]
      rfl
    · simp only [hr, ↓reduceIte, Except.map]
      rfl

theorem perform_none (words : List Word) (ins : Addr) :
    s.perform tr idx ⟨words,ins,none⟩ =
      (((s.resetCurrentIns idx ins).emitWords tr words).nextIn).processFixMap tr idx := by
  simp only [FixState.perform, FixState.record]

theorem emitNop_emitWords (ws : List Word) :
    (s.emitNop tr).emitWords tr ws = s.emitWords tr (nops 1++ws) := rfl

theorem put_resetCurrentIns_advance (a : Addr) :
    ((s.put tr 0 aarch64Nop).resetCurrentIns idx a).advance 1 =
      (s.resetCurrentIns idx a).emitNop tr := rfl

theorem putBranchLink_advance (target : Addr) :
    (((((s.put tr 0 0x58000071).put tr 1 0x1000009e).put tr 2 0xd61f0220).put64 tr 3
      target).advance 5) = s.emitWords tr [0x58000071,0x1000009e,0xd61f0220,
        target.extractLsb' 0 32,target.extractLsb' 32 32] := by
  rw [put64_eq, ← putWords_advance_zero]
  simp only [FixState.putWords, List.length_cons, List.length_nil]

theorem fixBranchImm_eq (h : Context.index (s.ctx.getRefInsIndex s.inprx) = .ok idx) :
    fixBranchImm tr s =
      let ins := s.m.load32 tr s.inprw
      let opc := ins &&& 0xfc000000
      if opc = 0x14000000 ∨ opc = 0x94000000 then
        (branchPlan s idx opc ins).map fun p => some (s.perform tr idx p)
      else .ok none := by
  have hlimit : ((0x03ffffff:Word) >>> 1).setWidth 64 = 0x1ffffff := by decide
  simp only [fixBranchImm, getAndSet_eq s _ h, branchPlan, hlimit]
  generalize s.m.load32 tr s.inprw = ins
  by_cases hopc : ins &&& 0xfc000000 = 0x14000000 ∨ ins &&& 0xfc000000 = 0x94000000
  · simp only [hopc, ↓reduceIte, bind, Except.bind, pure, Except.pure, resetCurrentIns_range,
      resetCurrentIns_inprx, resetCurrentIns_outprx]
    -- inside the range, far outside it, and near: the three branches of the source
    by_cases hs : s.ctx.isInFixingRange (branchTarget s.inprx ins) = true
    · simp only [hs, not_true_eq_false, false_and, ↓reduceIte, ← refer_eq]
      cases (s.resetCurrentIns idx s.outprx).refer idx (branchTarget s.inprx ins) 0 67108863 <;>
        simp only [Except.map]
    · simp only [hs, Bool.false_eq_true, not_false_eq_true, true_and, ↓reduceIte]
      by_cases hfar : (0x1ffffff:BitVec 64).sle
          (llabs ((branchTarget s.inprx ins-s.outprx).sshiftRight 2)) = true
      · simp only [hfar, ↓reduceIte]
        by_cases hb : ins &&& 0xfc000000 = 0x14000000 <;>
          by_cases hp : wordAt s.outprx 2 &&& 7 = 0 <;>
          simp only [hb, hp, ↓reduceIte, Except.map, perform_none, putAbsoluteJump_advance,
            putBranchLink_advance, resetCurrentIns_emitNop, resetCurrentIns_twice,
            emitNop_emitWords, wordAt_zero, Nat.sub_self, Nat.sub_zero] <;> rfl
      · simp only [hfar, Bool.false_eq_true, ↓reduceIte, Except.map, perform_none, emitWords_cons,
          emitWords_nil]
  · simp only [hopc, ↓reduceIte]
    rfl

theorem fixCondCompTestBranch_eq (h : Context.index (s.ctx.getRefInsIndex s.inprx) = .ok idx) :
    fixCondCompTestBranch tr s =
      let ins := s.m.load32 tr s.inprw
      match condLmask ins with
      | some lmask => (condPlan s idx lmask ins).map fun p => some (s.perform tr idx p)
      | none => .ok none := by
  have hoffset : (8:Word) >>> 2 <<< 5 = 0x40 := by decide
  simp only [fixCondCompTestBranch, getAndSet_eq s _ h, condPlan, hoffset]
  generalize s.m.load32 tr s.inprw = ins
  cases condLmask ins with
  | none => rfl
  | some lmask =>
    simp only [bind, Except.bind, pure, Except.pure, resetCurrentIns_range,
      resetCurrentIns_inprx, resetCurrentIns_outprx]
    have hput (t : FixState) (a b c d : Word) (target : Addr) :
        (((((t.put tr 0 a).put tr 1 b).put tr 2 c).put tr 3 d).put64 tr 4 target).advance 6 =
          t.emitWords tr [a,b,c,d,target.extractLsb' 0 32,target.extractLsb' 32 32] := by
      rw [put64_eq, ← putWords_advance_zero]
      simp only [FixState.putWords, List.length_cons, List.length_nil]
    by_cases hs : s.ctx.isInFixingRange (condTarget s.inprx lmask ins) = true
    · simp only [hs, not_true_eq_false, false_and, ↓reduceIte, ← refer_eq]
      cases (s.resetCurrentIns idx s.outprx).refer idx (condTarget s.inprx lmask ins) 5 (~~~lmask) <;>
        simp only [Except.map]
    · simp only [hs, Bool.false_eq_true, not_false_eq_true, true_and, ↓reduceIte]
      by_cases hfar : ((~~~lmask >>> 6).setWidth 64).sle
          (llabs ((condTarget s.inprx lmask ins-s.outprx).sshiftRight 2)) = true
      · simp only [hfar, ↓reduceIte]
        by_cases hp : wordAt s.outprx 4 &&& 7 = 0
        · simp only [hp, ne_eq, not_true_eq_false, ↓reduceIte, Except.map, perform_none, hput]
          rfl
        · simp only [hp, ne_eq, not_false_eq_true, ↓reduceIte, Except.map, perform_none, hput,
            put_resetCurrentIns_advance, resetCurrentIns_twice, emitNop_emitWords, absoluteJump]
      · simp only [hfar, Bool.false_eq_true, ↓reduceIte, Except.map, perform_none, emitWords_cons,
          emitWords_nil]

theorem padWhile_eq (more : Addr → Bool) (n : ℕ) :
    s.padWhile tr (fun s => more s.outprx) n =
      (padCount more n s.outprx).map fun p => s.emitWords tr (nops p) := by
  induction n generalizing s with
  | zero =>
    simp only [FixState.padWhile, padCount]
    split <;> rfl
  | succ n ih =>
    simp only [FixState.padWhile, padCount]
    split
    · rw [ih]
      cases hc : padCount more n (wordAt s.outprx 1) with
      | error e =>
        have he : (s.emitNop tr).outprx = wordAt s.outprx 1 := rfl
        simp only [he, hc, Except.map]
      | ok p =>
        have he : (s.emitNop tr).outprx = wordAt s.outprx 1 := rfl
        simp only [he, hc, Except.map, emitNop_emitWords]
        rfl
    · rfl

theorem emitWords_outprx (ws : List Word) :
    (s.emitWords tr ws).outprx = wordAt s.outprx ws.length := by
  induction ws generalizing s with
  | nil => simp
  | cons w ws ih =>
    rw [emitWords_cons, ih, FixState.advance, List.length_cons]
    dsimp only [FixState.put]
    rw [wordAt_add, Nat.add_comm]

theorem emitNops_outprx (idx : Fin maxInstructions) (a : Addr) (pad : ℕ) :
    ((s.resetCurrentIns idx a).emitWords tr (nops pad)).outprx = wordAt s.outprx pad := by
  rw [emitWords_outprx, nops_length, resetCurrentIns_outprx]

theorem emitWords_resetCurrentIns (a : Addr) (ws : List Word) :
    (s.emitWords tr ws).resetCurrentIns idx a = (s.resetCurrentIns idx a).emitWords tr ws := by
  induction ws generalizing s with
  | nil => rfl
  | cons w ws ih =>
    rw [emitWords_cons, emitWords_cons, ih]
    rfl

theorem emitWords_m_congr (t : FixState) (ws : List Word) (hm : s.m = t.m)
    (ho : s.outprw = t.outprw) : (s.emitWords tr ws).m = (t.emitWords tr ws).m := by
  induction ws generalizing s t with
  | nil => exact hm
  | cons w ws ih =>
    rw [emitWords_cons, emitWords_cons]
    apply ih
    · simp only [FixState.advance, FixState.put, hm, ho]
    · simp only [FixState.advance, FixState.put, ho]

theorem processFixMap_nextIn :
    (s.processFixMap tr idx).nextIn = s.nextIn.processFixMap tr idx := by
  simp only [FixState.processFixMap, FixState.nextIn]

theorem copyWords_advance (a b : Word) (src : Addr) (n : ℕ) :
    (((s.put tr 0 a).put tr 1 b).copyWords tr 2 src n).advance (2+n) =
      s.emitWords tr ([a,b]++(List.range n).map fun i =>
        (s.emitWords tr [a,b]).m.load32 tr (wordAt src i)) := by
  have hm : ((s.put tr 0 a).put tr 1 b).m = (s.emitWords tr [a,b]).m := by
    rw [← putWords_advance_zero]
    rfl
  rw [FixState.copyWords, hm, ← putWords_advance_zero s (_++_), putWords_append]
  simp only [FixState.putWords, List.length_append, List.length_cons, List.length_nil,
    List.length_map, List.length_range]

/-- The plan of any literal load; a prefetch is dropped. -/
def loadlitPlan (tr : Addr → Addr) (s : FixState) (ins : Word) :
    Option (Except Fault Plan) :=
  if ins &&& 0xff000000 = 0xd8000000 then some (.ok ⟨[],s.outprx,none⟩)
  else (litMask ins).map fun k => litPlan tr s k.1 k.2 ins

theorem fixLoadlit_eq (h : Context.index (s.ctx.getRefInsIndex s.inprx) = .ok idx) :
    fixLoadlit tr s =
      match loadlitPlan tr s (s.m.load32 tr s.inprw) with
      | some plan => plan.map fun p => some (s.perform tr idx p)
      | none => .ok none := by
  have hoffset : (8:Word) >>> 2 <<< 5 = 0x40 := by decide
  have hlimit : ((~~~(0xff00001f:Word)) >>> (5+1)).setWidth 64 = 0x3ffff := by decide
  simp only [fixLoadlit, getAndSet_eq s _ h, loadlitPlan, hoffset, hlimit]
  generalize s.m.load32 tr s.inprw = ins
  by_cases hp : ins &&& 0xff000000 = 0xd8000000
  · simp only [hp, ↓reduceIte, bind, Except.bind, pure, Except.pure, Except.map, perform_none,
      processFixMap_nextIn, emitWords_nil]
  · simp only [hp, ↓reduceIte]
    cases litMask ins with
    | none => rfl
    | some k =>
      obtain ⟨mask,faligned⟩ := k
      simp only [bind, Except.bind, pure, Except.pure, Option.map_some, litPlan,
        resetCurrentIns_range, resetCurrentIns_inprx, resetCurrentIns_outprx]
      -- the literal is copied along, or loaded from where it is
      by_cases hfar : s.ctx.isInFixingRange (litTarget s.inprx ins) = true ∨
          (0x3ffff:BitVec 64).ule (llabs ((litTarget s.inprx ins-s.outprx).sshiftRight 2)+
            (faligned+1-4)/4) = true
      · simp only [hfar, ↓reduceIte]
        rw [padWhile_eq _ (fun a => wordAt a 2 &&& faligned != 0), resetCurrentIns_outprx]
        cases padCount (fun a => wordAt a 2 &&& faligned != 0) 3 s.outprx with
        | error e => rfl
        | ok pad =>
          -- the literal is read once the padding is emitted
          have hm (ws : List Word) : (s.emitWords tr (nops pad++ws)).m =
              (((s.resetCurrentIns idx (wordAt s.outprx pad)).emitWords tr (nops pad)).emitWords
                tr ws).m := by
            rw [← emitWords_append]
            exact emitWords_m_congr s _ _ rfl rfl
          simp only [Except.map, perform_none, emitNops_outprx, emitWords_resetCurrentIns,
            resetCurrentIns_twice, copyWords_advance, hm]
          rw [List.append_assoc, emitWords_append _ (nops pad)]
      · simp only [hfar, ↓reduceIte]
        rw [padWhile_eq _ (fun a =>
          (litTarget s.inprx ins-a).sshiftRight 2 &&& (faligned >>> 2) != 0), resetCurrentIns_outprx]
        cases padCount (fun a =>
          (litTarget s.inprx ins-a).sshiftRight 2 &&& (faligned >>> 2) != 0) 3 s.outprx with
        | error e => rfl
        | ok pad =>
          simp only [Except.map, perform_none, emitNops_outprx, emitWords_resetCurrentIns,
            resetCurrentIns_twice, emitWords_append, emitWords_cons, emitWords_nil]

/-- The plan of an address computation. -/
def pcreladdrPlan (s : FixState) (idx : Fin maxInstructions) (ins : Word) :
    Option (Except Fault Plan) :=
  if ins &&& 0x9f000000 = 0x10000000 then some (adrPlan s idx ins)
  else if ins &&& 0x9f000000 = 0x90000000 then some (.ok (adrpPlan s ins))
  else none

theorem putAddressLoad_eq (rt : Word) (target a : Addr) :
    (s.resetCurrentIns idx a).putAddressLoad tr idx rt target =
      if wordAt s.outprx 2 &&& 7 = 0 then
        (s.resetCurrentIns idx a).emitWords tr (addressLoad rt target)
      else (s.resetCurrentIns idx (wordAt s.outprx 1)).emitWords tr
        (nops 1++addressLoad rt target) := by
  have hoffset : (0x58000000:Word) ||| ((8:Word) >>> 2 <<< 5 &&& ~~~(0x9f000000:Word)) =
      0x58000040 := by decide
  have hput (t : FixState) (b c : Word) :
      (((t.put tr 0 b).put tr 1 c).put64 tr 2 target).advance 4 =
        t.emitWords tr [b,c,target.extractLsb' 0 32,target.extractLsb' 32 32] := by
    rw [put64_eq, ← putWords_advance_zero]
    simp only [FixState.putWords, List.length_cons, List.length_nil]
  simp only [FixState.putAddressLoad, resetCurrentIns_outprx, hput, hoffset]
  by_cases hp : wordAt s.outprx 2 &&& 7 = 0
  · simp only [hp, ne_eq, not_true_eq_false, ↓reduceIte, addressLoad]
  · simp only [hp, ne_eq, not_false_eq_true, ↓reduceIte, addressLoad, resetCurrentIns_emitNop,
      resetCurrentIns_twice, emitNop_emitWords]

theorem fixPcreladdr_eq (h : Context.index (s.ctx.getRefInsIndex s.inprx) = .ok idx) :
    fixPcreladdr tr s =
      match pcreladdrPlan s idx (s.m.load32 tr s.inprw) with
      | some plan => plan.map fun p => some (s.perform tr idx p)
      | none => .ok none := by
  have hlimit : ((0x001fffff:Word) >>> 1).setWidth 64 = 0xfffff := by decide
  simp only [fixPcreladdr, getAndSet_eq s _ h, pcreladdrPlan, hlimit]
  generalize s.m.load32 tr s.inprw = ins
  -- an ADR, an ADRP, or neither
  by_cases hadr : ins &&& 0x9f000000 = 0x10000000
  · simp only [hadr, ↓reduceIte, bind, Except.bind, pure, Except.pure, adrPlan,
      resetCurrentIns_range, resetCurrentIns_inprx, resetCurrentIns_outprx, processFixMap_nextIn]
    by_cases hs : s.ctx.isInFixingRange (adrTarget s.inprx ins) = true
    · simp only [hs, not_true_eq_false, false_and, ↓reduceIte, ← refer_eq]
      cases (s.resetCurrentIns idx s.outprx).refer idx (adrTarget s.inprx ins &&& ~~~(3:Addr)) 5
        0x00ffffff <;> simp only [Except.map]
    · simp only [hs, Bool.false_eq_true, not_false_eq_true, true_and, ↓reduceIte]
      by_cases hfar : (0xfffff:BitVec 64).sle (llabs (adrTarget s.inprx ins-s.outprx)) = true
      · simp only [hfar, ↓reduceIte, putAddressLoad_eq]
        by_cases hp : wordAt s.outprx 2 &&& 7 = 0 <;>
          simp only [hp, ↓reduceIte, Except.map, perform_none, nops, List.replicate_zero,
            List.nil_append, wordAt_zero]
      · simp only [hfar, Bool.false_eq_true, ↓reduceIte, Except.map, perform_none, emitWords_cons,
          emitWords_nil]
  · simp only [hadr, ↓reduceIte]
    by_cases hadrp : ins &&& 0x9f000000 = 0x90000000
    · simp only [hadrp, ↓reduceIte, bind, Except.bind, pure, Except.pure, adrpPlan, Except.map,
        resetCurrentIns_range, resetCurrentIns_inprx, putAddressLoad_eq, processFixMap_nextIn]
      by_cases hs : s.ctx.isInFixingRange (adrpTarget s.inprx ins) = true
      · simp only [hs, ↓reduceIte, perform_none, emitWords_cons, emitWords_nil]
      · simp only [hs, Bool.false_eq_true, ↓reduceIte]
        by_cases hp : wordAt s.outprx 2 &&& 7 = 0 <;>
          simp only [hp, ↓reduceIte, perform_none]
    · simp only [hadrp, ↓reduceIte]
      rfl

/-- The plan of any instruction that refers to its own address. -/
def instructionPlan (tr : Addr → Addr) (s : FixState) (idx : Fin maxInstructions) :
    Option (Except Fault Plan) :=
  let ins := s.m.load32 tr s.inprw
  let opc := ins &&& 0xfc000000
  if opc = 0x14000000 ∨ opc = 0x94000000 then some (branchPlan s idx opc ins)
  else match condLmask ins with
  | some lmask => some (condPlan s idx lmask ins)
  | none => (loadlitPlan tr s ins).or (pcreladdrPlan s idx ins)

/-- What is left for the other instructions: the fix-ups, and then the copy. -/
def copyInstruction (tr : Addr → Addr) (s : FixState) (idx : Fin maxInstructions) : FixState :=
  let t := (s.resetCurrentIns idx s.outprx).processFixMap tr idx
  ((t.put tr 0 (t.m.load32 tr t.inprw)).advance 1).nextIn

theorem fixInstruction_eq (h : Context.index (s.ctx.getRefInsIndex s.inprx) = .ok idx) :
    fixInstruction tr s =
      match instructionPlan tr s idx with
      | some plan => plan.map (s.perform tr idx)
      | none => .ok (copyInstruction tr s idx) := by
  -- a handler that returns a state ends the chain
  have hbind (plan : Except Fault Plan) (k : Option FixState → Except Fault FixState)
      (hk : ∀ t, k (some t) = .ok t) :
      (plan.map fun p => some (s.perform tr idx p)).bind k = plan.map (s.perform tr idx) := by
    cases plan with
    | error e => rfl
    | ok p => exact hk _
  simp only [fixInstruction, fixBranchImm_eq s h, fixCondCompTestBranch_eq s h, fixLoadlit_eq s h,
    fixPcreladdr_eq s h, instructionPlan, bind]
  by_cases hb : s.m.load32 tr s.inprw &&& 0xfc000000 = 0x14000000 ∨
      s.m.load32 tr s.inprw &&& 0xfc000000 = 0x94000000
  · simp only [hb, ↓reduceIte]
    exact hbind _ _ fun _ => rfl
  · simp only [hb, ↓reduceIte]
    cases condLmask (s.m.load32 tr s.inprw) with
    | some lmask => exact hbind _ _ fun _ => rfl
    | none =>
      cases loadlitPlan tr s (s.m.load32 tr s.inprw) with
      | some plan => exact hbind _ _ fun _ => rfl
      | none =>
        cases pcreladdrPlan s idx (s.m.load32 tr s.inprw) with
        | some plan => exact hbind _ _ fun _ => rfl
        | none =>
          simp only [Except.bind, fixOther, getAndSet_eq s _ h, bind, pure, Except.pure,
            copyInstruction, Option.or]

end Handlers

end Zeldar
