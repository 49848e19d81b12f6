import Zeldar.TrampolineStep

/-! Running the trampoline instead of the words that were overwritten. If every
instruction is of a kind that the engine relocates faithfully, a run of the
original words that leaves them is matched by one of the trampoline, loops
included: it leaves for the same address with the same registers, but for X17
and for the return address of a call, which is in the trampoline. -/
namespace Zeldar
open A64

section Defs
variable {tr : Addr → Addr} {slot : Slot tr} {n : ℕ} (src : Source tr n slot) (mach : Machine)

/-- A conditional branch out of the patch that goes forward, or one to an instruction that is
relocated. -/
def CondRelocatable (κ : RefKind) (k : ℕ) (d : Addr) : Prop :=
  4*n ≤ (wordAt src.rx k+d-src.rx).toNat ∧ 0 ≤ d.toInt ∨ ∃ j, Follows src mach κ k j d

/-- The conditions, kind by kind, under which the relocated instruction does what it did. -/
def Movable (k : ℕ) : Prop :=
  let a := wordAt src.rx k
  match decode (mach.mem.read32 a) with
  | .b link imm => 4*n ≤ (a+wordOffset imm-src.rx).toNat ∨
      link = false ∧ ∃ j, Follows src mach .branch k j (wordOffset imm)
  | .bcond _ imm => CondRelocatable src mach .cond k (wordOffset imm)
  | .cbz _ _ imm _ => CondRelocatable src mach .cond k (wordOffset imm)
  | .tbz _ _ imm _ => CondRelocatable src mach .test k (wordOffset imm)
  | .ldrLit kind imm _ => kind = .prfm ∨ 0 ≤ imm.toInt ∧
      LiteralAt slot kind (a+wordOffset imm) ∧ LoadsFrom src mach k kind (a+wordOffset imm)
  | .adr imm rd => 4*n ≤ (a+imm.signExtend 64-src.rx).toNat ∧
      (rd = 31 ∨ 0 ≤ imm.toInt ∧
        ((0xfffff:BitVec 64).sle (llabs (a+imm.signExtend 64-src.code mach k)) = true ∨
          a+imm.signExtend 64-src.code mach k ≠ BitVec.intMin 64 ∧
            rd ||| (imm.setWidth 2++0#3) = rd))
  | .adrp imm rd => rd = 31 ∨
      if (src.start mach).ctx.isInFixingRange (pageModulo a imm) = true
      then src.code mach k &&& ~~~0xfff = a &&& ~~~0xfff else 0 ≤ imm.toInt
  | _ => Plain (mach.mem.read32 a)

/-- The core finds the patched words and the literal it loads as they were at hooking time, has
no other business with the bytes that hooking changes, and jumps to no patched word through a
register. -/
structure Quiet (c : Cpu) : Prop where
  code : ∀ x, (x-src.rx).toNat < 4*n → c.mem x = mach.mem x
  literal : ∀ kind imm rt, decode (c.mem.read32 c.pc) = .ldrLit kind imm rt →
    kind.value c.mem (c.pc+wordOffset imm) = kind.value mach.mem (c.pc+wordOffset imm)
  loads : (decode (c.mem.read32 c.pc)).relative = false →
    Clear (Changed src.rx n slot) (loads (decode (c.mem.read32 c.pc)) c).1
      (loads (decode (c.mem.read32 c.pc)) c).2
  stores : Clear (Changed src.rx n slot) (stores (decode (c.mem.read32 c.pc)) c).1
    (stores (decode (c.mem.read32 c.pc)) c).2
  indirect : (decode (c.mem.read32 c.pc)).indirect = true → ∀ d, step c = some d →
    4*n ≤ (d.pc-src.rx).toNat

/-- `c'` stands at the code of the instruction that `c` stands at, and is the same core but for
the bytes that hooking changes. -/
structure Shadows (k : ℕ) (c c' : Cpu) : Prop where
  pc : c.pc = wordAt src.rx k
  code : c'.pc = src.code mach k
  agree : AgreeOff (Changed src.rx n slot) (c.goto c'.pc) c'
  keeps : Keeps src mach c'.mem

/-- The core `d'` leaves the trampoline as `d` leaves the original words. A call returns to the
code of the instruction after it. -/
inductive Leaves (d d' : Cpu) : Prop
  | jump (v : BitVec 64) (h : AgreeOff (Changed src.rx n slot) (d.setX 17 v) d')
      (hm : Keeps src mach d'.mem) : Leaves d d'
  | call (k : ℕ) (v : BitVec 64) (hk : k < n)
      (hcall : (decode (mach.mem.read32 (wordAt src.rx k))).call = true)
      (hret : d.x 30 = wordAt src.rx (k+1))
      (h : AgreeOff (Changed src.rx n slot) ((d.setX 30 (src.code mach (k+1))).setX 17 v) d')
      (hm : Keeps src mach d'.mem) : Leaves d d'

end Defs

/-- A run through the slot. -/
def Slot.Runs {tr : Addr → Addr} (slot : Slot tr) (c d : Cpu) : Prop :=
  Through slot.rx (wordAt slot.rx trampolineSize) c d

/-- The trampoline matches a step of the original words to `d`: whatever it does from the code of
the instruction that `d` stands at is what it does from `c'`, or it leaves. -/
inductive Matches {tr : Addr → Addr} {slot : Slot tr} {n : ℕ} (src : Source tr n slot)
    (mach : Machine) (c' d : Cpu) : Prop
  | stays (j : ℕ) (hj : j ≤ n) (e' : Cpu) (h : Shadows src mach j d e')
      (hgo : ∀ f, ¬slot.bytes f.pc → slot.Runs e' f → slot.Runs c' f) : Matches src mach c' d
  | leaves (d' : Cpu) (hgo : slot.Runs c' d') (h : Leaves src mach d d')
      (hout : 4*n ≤ (d.pc-src.rx).toNat) : Matches src mach c' d

section Slot
variable {tr : Addr → Addr} {slot : Slot tr} {n : ℕ} {src : Source tr n slot} {mach : Machine}

theorem inside_slot_iff {a : Addr} :
    Inside slot.rx (wordAt slot.rx trampolineSize) a ↔ slot.bytes a := by
  have hsize : (wordAt slot.rx trampolineSize-slot.rx).toNat = 4*trampolineSize := by
    have ht : trampolineSize = 50 := rfl
    rw [ht]
    unfold wordAt
    bv_omega
  rw [Inside, Slot.bytes, hsize]

theorem inside_patch_iff (src : Source tr n slot) {a : Addr} :
    Inside src.rx (wordAt src.rx n) a ↔ (a-src.rx).toNat < 4*n := by
  have hc := src.count
  unfold maxInstructions at hc
  have hsize : (wordAt src.rx n-src.rx).toNat = 4*n := by
    unfold wordAt
    bv_omega
  rw [Inside, hsize]

theorem slot_bytes_of_pos {p : ℕ} (hp : p ≤ 45) : slot.bytes (wordAt slot.rx p) := by
  have ht : trampolineSize = 50 := rfl
  have hoff : (wordAt slot.rx p-slot.rx).toNat = 4*p := by
    unfold wordAt
    bv_omega
  rw [Slot.bytes, hoff, ht]
  omega

/-- The code of an instruction lies in the slot. -/
theorem runs_of_code {k : ℕ} (hk : k < n) {c d : Cpu}
    (h : Through (src.code mach k) (src.code mach (k+1)) c d) : slot.Runs c d := by
  have hc := src.count
  have hk1 : k+1 ≤ n := hk
  have hlast := pos_le src mach hk1
  have hmono := pos_mono src mach (by omega : k ≤ k+1) (by omega)
  rw [code_eq src mach hk.le, code_eq src mach hk1] at h
  apply h.mono
  intro a ha
  rw [inside_slot_iff, Slot.bytes]
  have ht : trampolineSize = 50 := rfl
  unfold Inside wordAt at ha
  rw [ht]
  bv_omega

end Slot

section Step
variable {tr : Addr → Addr} {slot : Slot tr} {n k : ℕ} {src : Source tr n slot} {mach : Machine}
  {c c' d : Cpu}

theorem Quiet.fetch (hq : Quiet src mach c) (hk : k < n) (hpc : c.pc = wordAt src.rx k) :
    c.mem.read32 c.pc = mach.mem.read32 (wordAt src.rx k) := by
  have hc := src.count
  unfold maxInstructions at hc
  rw [hpc]
  apply Mem.read32_congr
  intro i hi
  apply hq.code
  unfold wordAt
  bv_omega

/-- A change of registers that depends on nothing but its argument's registers. -/
structure Registers (f : Cpu → Cpu) : Prop where
  goto : ∀ c a, f (c.goto a) = (f c).goto a
  agree : ∀ P c c', AgreeOff P c c' → AgreeOff P (f c) (f c')
  mem : ∀ c, (f c).mem = c.mem

theorem registers_id : Registers id := ⟨fun _ _ => rfl,fun _ _ _ h => h,fun _ => rfl⟩

theorem registers_setX (r : BitVec 5) (v : BitVec 64) : Registers fun c => c.setX r v :=
  ⟨fun c a => goto_setX c a r v,fun _ _ _ h => h.setX r v,fun c => setX_mem c r v⟩

theorem registers_place (vector : Bool) (rt : BitVec 5) (v : BitVec 128) :
    Registers (place vector rt v) := by
  cases vector with
  | true => exact ⟨fun _ _ => rfl,fun _ _ _ h => h.setV rt v,fun _ => rfl⟩
  | false => exact registers_setX rt _

/-- The shadow goes on with the next instruction. -/
theorem Shadows.next (h : Shadows src mach k c c') (hk : k < n) {f : Cpu → Cpu}
    (hf : Registers f) (hd : d = (f c).goto (c.pc+4))
    (hgo : ∀ e, ¬slot.bytes e.pc → slot.Runs ((f c').goto (src.code mach (k+1))) e →
      slot.Runs c' e) : Matches src mach c' d := by
  apply Matches.stays (k+1) hk ((f c').goto (src.code mach (k+1))) _ hgo
  subst hd
  refine ⟨?_,rfl,?_,?_⟩
  · change c.pc+4 = _
    rw [h.pc]
    exact wordAt_four src.rx k
  · -- both are changed in the same way
    have hag := (hf.agree _ _ _ h.agree).goto (src.code mach (k+1))
    rw [hf.goto] at hag
    exact hag
  · change Keeps src mach (f c').mem
    rw [hf.mem]
    exact h.keeps

theorem Shadows.computes (h : Shadows src mach k c c') (hk : k < n) {f : Cpu → Cpu}
    (hf : Registers f) (hd : d = (f c).goto (c.pc+4))
    (hcode : Computes c'.mem (src.code mach k) (src.code mach (k+1)) f) :
    Matches src mach c' d := by
  apply h.next hk hf hd
  intro e _ he
  exact (runs_of_code hk (hcode c' rfl h.code)).trans he

/-- The shadow of a core that goes to a relocated instruction. -/
theorem Shadows.to {j : ℕ} (h : Shadows src mach k c c') (hj : j < n) {pad : ℕ}
    (hpad : src.pos mach j+pad ≤ 45)
    (hnops : WordsAt c'.mem (src.code mach j) (Zeldar.nops pad))
    (hs : step c' = some (c'.goto (wordAt (src.code mach j) pad))) (hk : k < n) :
    Matches src mach c' (c.goto (wordAt src.rx j)) := by
  apply Matches.stays j hj.le (c'.goto (src.code mach j))
  · exact ⟨rfl,rfl,h.agree.goto _,h.keeps⟩
  intro f hf hrun
  have hin (l : ℕ) (hl : l ≤ pad) :
      Inside slot.rx (wordAt slot.rx trampolineSize) (wordAt (src.code mach j) l) := by
    rw [inside_slot_iff, code_eq src mach hj.le, wordAt_add]
    exact slot_bytes_of_pos (by omega)
  have hin' : Inside slot.rx (wordAt slot.rx trampolineSize) c'.pc := by
    rw [inside_slot_iff, h.code, code_eq src mach hk.le]
    exact slot_bytes_of_pos (pos_le src mach hk.le)
  rw [← inside_slot_iff] at hf
  -- from the code of `j` the run passes the NOPs
  have hafter : ∀ l ≤ pad, slot.Runs (c'.goto (wordAt (src.code mach j) l)) f := by
    intro l hl
    induction l with
    | zero =>
      rw [wordAt_zero]
      exact hrun
    | succ l ih =>
      have hw : c'.mem.read32 (wordAt (src.code mach j) l) = aarch64Nop := by
        apply hnops
        rw [Zeldar.nops, List.getElem?_replicate_of_lt (by omega)]
      have hstep := @step_nop (c'.goto (wordAt (src.code mach j) l)) hw
      have hnext : wordAt (src.code mach j) l+4 = wordAt (src.code mach j) (l+1) := wordAt_four _ _
      change step _ = some (c'.goto (wordAt (src.code mach j) l+4)) at hstep
      rw [hnext] at hstep
      exact (ih (by omega)).rest hstep (hin (l+1) hl) hf
  exact Through.cons hin' hs (hafter pad le_rfl)

theorem setX_of_ne (c : Cpu) {r q : BitVec 5} (v : BitVec 64) (h : r ≠ q) :
    (c.setX q v).x r = c.x r := by
  unfold Cpu.setX
  split_ifs
  · rfl
  · exact Function.update_of_ne h _ _

theorem setX_setX (c : Cpu) (r : BitVec 5) (v w : BitVec 64) :
    (c.setX r v).setX r w = c.setX r w := by
  unfold Cpu.setX
  split_ifs
  · rfl
  · simp only [Function.update_idem]

/-- The shadow leaves for the address the core leaves for, with its own return address. -/
theorem Shadows.leave (h : Shadows src mach k c c') (hk : k < n) {link : Bool} {t : Addr}
    {v : BitVec 64} (hd : d = (linked link (c.pc+4) c).goto t)
    (hcall : link = true → (decode (mach.mem.read32 (wordAt src.rx k))).call = true)
    (hout : 4*n ≤ (t-src.rx).toNat)
    (hgo : slot.Runs c' (((linked link (src.code mach (k+1)) c').setX 17 v).goto t)) :
    Matches src mach c' d := by
  subst hd
  refine Matches.leaves _ hgo ?_ hout
  -- X17 holds the far target, or what it held; a call leaves a return address of its own
  cases link with
  | false =>
    have hag := (h.agree.setX 17 v).goto t
    rw [goto_setX] at hag
    apply Leaves.jump v
    · rw [goto_setX]
      exact hag
    · change Keeps src mach ((c'.setX 17 v).mem)
      rw [setX_mem]
      exact h.keeps
  | true =>
    have hag := ((h.agree.setX 30 (src.code mach (k+1))).setX 17 v).goto t
    rw [goto_setX, goto_setX] at hag
    apply Leaves.call k v hk (hcall rfl)
    · change Function.update c.x 30 (c.pc+4) 30 = _
      rw [Function.update_self, h.pc]
      exact wordAt_four src.rx k
    · rw [goto_setX, goto_setX]
      change AgreeOff _ ((((c.setX 30 (c.pc+4)).setX 30 _).setX 17 v).goto t) _
      rw [setX_setX]
      exact hag
    · change Keeps src mach (((c'.setX 30 (src.code mach (k+1))).setX 17 v).mem)
      rw [setX_mem, setX_mem]
      exact h.keeps

/-- What the shadow is, apart from where it stands. -/
theorem Shadows.moved (h : Shadows src mach k c c') :
    c' = ({ c with mem := c'.mem } : Cpu).goto (src.code mach k) ∧
      AgreeOff (Changed src.rx n slot) c { c with mem := c'.mem } := by
  obtain ⟨he,hmem⟩ := h.agree
  refine ⟨?_,rfl,hmem⟩
  rw [← h.code]
  exact he

theorem Shadows.plain (h : Shadows src mach k c c') (hk : k < n) (hq : Quiet src mach c)
    (hs : step c = some d) (hrel : (decode (mach.mem.read32 (wordAt src.rx k))).relative = false)
    (hp : Plain (mach.mem.read32 (wordAt src.rx k))) : Matches src mach c' d := by
  have hc := src.count
  have hfetch := hq.fetch hk h.pc
  obtain ⟨hw,hnext⟩ := h.keeps.plain hk (by omega) rfl hp
  obtain ⟨hmove,hag⟩ := h.moved
  have hl := hq.loads
  have hst := hq.stores
  have hind := hq.indirect
  rw [step, hfetch] at hs
  rw [hfetch] at hl hst hind
  generalize hi : decode (mach.mem.read32 (wordAt src.rx k)) = i at hs hl hst hind hrel
  -- with the other memory, and then from the other address
  obtain ⟨d1,hd1,hag1⟩ := exec_off hag (hl hrel) hs
  have hfetch' : decode (c'.mem.read32 c'.pc) = i := by
    rw [h.code, hw, hi]
  have hkeeps : Keeps src mach d1.mem := by
    obtain ⟨mach',hrun,hm⟩ := h.keeps
    refine ⟨mach',hrun,fun x hx => ?_⟩
    have hst' : Clear slot.bytes (stores i { c with mem := c'.mem }).1
        (stores i { c with mem := c'.mem }).2 := by
      have he : stores i { c with mem := c'.mem } = stores i c := by cases i <;> rfl
      rw [he]
      exact fun x hx hb => hst x hx (Or.inr hb)
    exact (exec_stores hst' hd1 x hx).trans (hm x hx)
  have hin' : Inside slot.rx (wordAt slot.rx trampolineSize) c'.pc := by
    rw [inside_slot_iff, h.code, code_eq src mach hk.le]
    exact slot_bytes_of_pos (pos_le src mach hk.le)
  have hstep' : step c' = exec i (({ c with mem := c'.mem } : Cpu).goto (src.code mach k)) := by
    rw [← hmove]
    exact step_of_read rfl hfetch'
  have hcode : src.code mach k+4 = src.code mach (k+1) := by
    rw [hnext]
    rfl
  by_cases hj : i.indirect = true
  · obtain ⟨t,hd,-⟩ := exec_indirect hj hs
    obtain ⟨t1,ht1,hmoved⟩ := exec_indirect hj hd1
    have hpc : t1 = t := by
      have he := congrArg Cpu.pc hag1.1
      rw [ht1, hd] at he
      exact he
    subst hpc
    have hout := hind hj d (step_of_read rfl (by rw [hfetch, hi]) |>.trans hs)
    rw [hd] at hout
    refine @Shadows.leave tr slot n k src mach c c' d h hk i.call t1 (c'.x 17) hd ?_ hout ?_
    · intro hcall
      rw [hi]
      exact hcall
    · rw [← linked_x17 i.call (src.code mach (k+1)) c', setX17_self]
      apply Through.last hin'
      rw [hstep', hmoved, hcode, hmove]
      cases i.call <;> rfl
  · obtain ⟨hpc,-⟩ := exec_moved hrel (by simpa using hj) hs (src.code mach k)
    obtain ⟨-,hmoved⟩ := exec_moved hrel (by simpa using hj) hd1 (src.code mach k)
    rw [hmoved, hcode] at hstep'
    apply Matches.stays (k+1) hk (d1.goto (src.code mach (k+1)))
    · refine ⟨?_,rfl,hag1.goto _,hkeeps⟩
      rw [hpc, h.pc]
      exact wordAt_four src.rx k
    · exact fun e _ he => Through.cons hin' hstep' he

theorem Shadows.branch (h : Shadows src mach k c c') (hk : k < n) (hq : Quiet src mach c)
    (hs : step c = some d) {link : Bool} {imm : BitVec 26}
    (hd : decode (mach.mem.read32 (wordAt src.rx k)) = .b link imm)
    (hok : 4*n ≤ (wordAt src.rx k+wordOffset imm-src.rx).toNat ∨
      link = false ∧ ∃ j, Follows src mach .branch k j (wordOffset imm)) :
    Matches src mach c' d := by
  rw [step_of_read (hq.fetch hk h.pc) hd] at hs
  cases hs
  rcases hok with hout | ⟨rfl,j,hj⟩
  -- out of the patch: the branch, near or far
  · obtain ⟨v,hgo⟩ := h.keeps.branchesTo hk hd hout c' rfl h.code
    have hgo' := runs_of_code hk hgo
    rw [← h.pc] at hgo' hout
    refine @Shadows.leave tr slot n k src mach c c' _ h hk link _ v rfl ?_ hout hgo'
    intro hl
    rw [hd]
    exact hl
  · have href : reference (decode (mach.mem.read32 (wordAt src.rx k))) =
        some (.branch,wordOffset imm) := by
      rw [hd]
      rfl
    obtain ⟨pad,e,hpad,hnops,hrefm,he,hkeep⟩ := h.keeps.follows hk href hj
    have h0 : refLow .branch (mach.mem.read32 (wordAt src.rx k)) = 0#64 := rfl
    rw [h0, BitVec.add_zero] at he
    have hto := h.to hj.relocated hpad hnops ?_ hk
    · rw [← hj.target, ← h.pc] at hto
      exact hto
    · -- the word is still a B, with the distance to the code of its target
      have hop := opcode_of_decode hd
      rw [← and_of_keep hkeep (by decide : ~~~RefKind.branch.mask &&& (0xfc000000:Word) = _)] at hop
      have hdec := decode_b hop
      rw [hdec, reference, Option.some.injEq, Prod.mk.injEq] at hrefm
      rw [step_of_read (by rw [h.code]) hdec]
      simp only [exec, Bool.false_eq_true, ↓reduceIte]
      rw [hrefm.2, h.code, he]

theorem Shadows.cond (h : Shadows src mach k c c') (hk : k < n) (hq : Quiet src mach c)
    (hs : step c = some d) {κ : RefKind} (hκ : κ = .cond ∨ κ = .test) {x : Addr}
    (href : reference (decode (mach.mem.read32 (wordAt src.rx k))) = some (κ,x))
    (hok : CondRelocatable src mach κ k x) : Matches src mach c' d := by
  have hfetch := hq.fetch hk h.pc
  generalize hw : mach.mem.read32 (wordAt src.rx k) = w at href hfetch
  rw [step_of_read hfetch rfl, exec_conditional hκ href] at hs
  -- the condition is the same in both cores
  have htaken (v : Word) : taken (decode v) c' = taken (decode v) c := by
    have he := h.agree.1
    rw [he]
    unfold taken
    cases decode v <;> rfl
  have hlow : refLow κ w = 0#64 := by rcases hκ with rfl | rfl <;> rfl
  rcases hok with ⟨hout,hx⟩ | ⟨j,hj⟩
  · have hkeep := h.keeps.outcomes hk hκ hw href hout hx
    by_cases ht : taken (decode w) c = true
    · rw [if_pos ht] at hs
      cases hs
      obtain ⟨⟨v,hgo⟩,-⟩ := hkeep.1 c' rfl h.code ((htaken w).trans ht)
      have hgo' := runs_of_code hk hgo
      rw [← h.pc] at hgo' hout
      refine @Shadows.leave tr slot n k src mach c c' _ h hk false _ v rfl (fun hl => ?_) hout ?_
      · cases hl
      · exact hgo'
    · rw [if_neg ht] at hs
      cases hs
      have hgo := hkeep.2 c' rfl h.code ((htaken w).trans (by simpa using ht))
      exact h.next hk registers_id rfl fun f _ hf => (runs_of_code hk hgo).trans hf
  · rw [← hw] at href
    obtain ⟨pad,e,hpad,hnops,hrefm,he,hkeep⟩ := h.keeps.follows hk href hj
    have hnext := hj.code_succ hk href
    rw [hw] at href he hkeep
    rw [hlow, BitVec.add_zero] at he
    have hkind := (refKind_of_reference hκ href).1
    have hsame := taken_of_keep hkeep hκ hkind c
    have hstep : step c' = some (if taken (decode w) c then c'.goto (c'.pc+e) else c'.next) := by
      rw [step_of_read (by rw [h.code]) rfl, exec_conditional hκ hrefm, htaken, hsame]
    by_cases ht : taken (decode w) c = true
    · rw [if_pos ht] at hs hstep
      cases hs
      rw [h.code, he] at hstep
      have hto := h.to hj.relocated hpad hnops hstep hk
      rw [← hj.target, ← h.pc] at hto
      exact hto
    · rw [if_neg ht] at hs hstep
      cases hs
      apply h.next hk registers_id rfl
      intro f _ hf
      have hin' : Inside slot.rx (wordAt slot.rx trampolineSize) c'.pc := by
        rw [inside_slot_iff, h.code, code_eq src mach hk.le]
        exact slot_bytes_of_pos (pos_le src mach hk.le)
      apply Through.cons hin' hstep
      have hpc : c'.pc+4 = src.code mach (k+1) := by
        rw [h.code, hnext]
        rfl
      rw [Cpu.next, hpc]
      exact hf

theorem Shadows.literal (h : Shadows src mach k c c') (hk : k < n) (hq : Quiet src mach c)
    (hs : step c = some d) {kind : LitKind} {imm : BitVec 19} {rt : BitVec 5}
    (hd : decode (mach.mem.read32 (wordAt src.rx k)) = .ldrLit kind imm rt)
    (hok : kind = .prfm ∨ 0 ≤ imm.toInt ∧ LiteralAt slot kind (wordAt src.rx k+wordOffset imm) ∧
      LoadsFrom src mach k kind (wordAt src.rx k+wordOffset imm)) : Matches src mach c' d := by
  have hfetch := hq.fetch hk h.pc
  have hlit := hq.literal kind imm rt (by rw [hfetch, hd])
  rw [step_of_read hfetch hd] at hs
  cases hs
  by_cases hp : kind = .prfm
  · -- nothing is executed for a prefetch
    subst hp
    apply h.next hk registers_id rfl
    intro e _ he
    rw [code_prefetch hk hd, ← h.code] at he
    exact he
  · obtain ⟨himm,hat,hfrom⟩ := hok.resolve_left hp
    rw [h.pc] at hlit
    have hcode := h.keeps.loads hk hd hp himm hat hfrom hlit h.agree.2
    apply h.computes hk (registers_place _ _ _) _ hcode
    rw [Cpu.next, loadLit_pc, loadLit_eq hp, h.pc]

theorem Shadows.address (h : Shadows src mach k c c') (hk : k < n) (hq : Quiet src mach c)
    (hs : step c = some d) {i : Instr} (hd : decode (mach.mem.read32 (wordAt src.rx k)) = i)
    {rd : BitVec 5} {v : BitVec 64} (hi : exec i c = some (c.setX rd v).next)
    (hcode : Computes c'.mem (src.code mach k) (src.code mach (k+1)) fun c => c.setX rd v) :
    Matches src mach c' d := by
  rw [step_of_read (hq.fetch hk h.pc) hd, hi] at hs
  cases hs
  apply h.computes hk (registers_setX rd v) _ hcode
  rw [Cpu.next, setX_pc]

/-- One step of the original words. -/
theorem Shadows.step (h : Shadows src mach k c c') (hk : k < n) (hq : Quiet src mach c)
    (hrel : Movable src mach k) (hs : step c = some d) : Matches src mach c' d := by
  unfold Movable at hrel
  dsimp only at hrel
  -- the kinds that the engine tells apart; what it does not know it copies
  cases hd : decode (mach.mem.read32 (wordAt src.rx k)) with
  | b link imm =>
    rw [hd] at hrel
    exact h.branch hk hq hs hd hrel
  | bcond cond imm =>
    rw [hd] at hrel
    exact h.cond hk hq hs (Or.inl rfl) (by rw [hd]; rfl) hrel
  | cbz sf nz imm rt =>
    rw [hd] at hrel
    exact h.cond hk hq hs (Or.inl rfl) (by rw [hd]; rfl) hrel
  | tbz nz bit imm rt =>
    rw [hd] at hrel
    exact h.cond hk hq hs (Or.inr rfl) (by rw [hd]; rfl) hrel
  | ldrLit kind imm rt =>
    rw [hd] at hrel
    exact h.literal hk hq hs hd hrel
  | adr imm rd =>
    rw [hd] at hrel
    have hcode := h.keeps.adr hk hd hrel.1 hrel.2
    rw [← h.pc] at hcode
    exact h.address hk hq hs hd rfl hcode
  | adrp imm rd =>
    rw [hd] at hrel
    have hcode := h.keeps.adrp hk hd hrel
    rw [← h.pc] at hcode
    exact h.address hk hq hs hd rfl hcode
  | _ =>
    rw [hd] at hrel
    exact h.plain hk hq hs (by rw [hd]; rfl) hrel

theorem branchesTo_jumpWords {m : Mem} {a t : Addr} (ha : a.toNat%4 = 0) (ht : t.toNat%4 = 0)
    (hw : WordsAt m a (jumpWords t a)) :
    BranchesTo m a (wordAt a (jumpWords t a).length) t false := by
  unfold jumpWords at hw ⊢
  split_ifs at hw ⊢ with hfar hodd
  · exact branchesTo_absoluteJump (Nat.zero_le 1) hw
  · exact branchesTo_absoluteJump le_rfl hw
  · have hd : (t-a).toNat%4 = 0 := by bv_omega
    exact branchesTo_near rfl (wordsAt_cons.mp hw).1
      (branchOffset_of_near hd (by simpa using hfar))

/-- Behind the code of the last instruction the trampoline jumps back. -/
theorem Shadows.back (h : Shadows src mach n c c') :
    ∃ d', slot.Runs c' d' ∧ Leaves src mach c d' := by
  have hcode := code_eq src mach le_rfl
  have halign : (src.code mach n).toNat%4 = 0 := by
    rw [hcode]
    exact wordAt_aligned slot.aligned _
  have hto := branchesTo_jumpWords halign (wordAt_aligned src.aligned n) h.keeps.tail
  obtain ⟨v,hgo⟩ := hto c' rfl h.code
  have hlen := jumpWords_length (wordAt src.rx n) (src.code mach n)
  have hlast := pos_le src mach le_rfl
  refine ⟨(c'.setX 17 v).goto (wordAt src.rx n),?_,Leaves.jump v ?_ ?_⟩
  · apply Through.mono _ hgo
    intro a ha
    rw [inside_slot_iff, Slot.bytes]
    have ht : trampolineSize = 50 := rfl
    generalize (jumpWords (wordAt src.rx n) (src.code mach n)).length = l at hlen ha
    rw [hcode, wordAt_add] at ha
    unfold Inside wordAt at ha
    rw [ht]
    bv_omega
  · have hag := (h.agree.setX 17 v).goto (wordAt src.rx n)
    rw [goto_setX, ← h.pc] at hag
    rw [← h.pc]
    exact hag
  · change Keeps src mach ((c'.setX 17 v).mem)
    rw [setX_mem]
    exact h.keeps

end Step

section Run
variable {tr : Addr → Addr} {slot : Slot tr} {n : ℕ} {src : Source tr n slot} {mach : Machine}
  {c d : Cpu}

theorem Leaves.pc {d' : Cpu} (h : Leaves src mach d d') : d'.pc = d.pc := by
  cases h with
  | jump v h _ =>
    rw [h.1]
    exact setX_pc d 17 v
  | call k v _ _ _ h _ =>
    rw [h.1]
    exact (setX_pc _ 17 v).trans (setX_pc d 30 (src.code mach (k+1)))

/-- The registers but for X17 and X30 are the same. -/
theorem Leaves.x {d' : Cpu} (h : Leaves src mach d d') (r : BitVec 5) (h17 : r ≠ 17)
    (h30 : r ≠ 30) : d'.x r = d.x r := by
  cases h with
  | jump v h _ =>
    rw [h.1]
    exact setX_of_ne d v h17
  | call k v _ _ _ h _ =>
    rw [h.1]
    exact (setX_of_ne _ v h17).trans (setX_of_ne d _ h30)

/-- The cores on the way of a run through the patched words. -/
def OnTheWay (src : Source tr n slot) (c e : Cpu) : Prop :=
  e = c ∨ Through src.rx (wordAt src.rx n) c e ∧ Inside src.rx (wordAt src.rx n) e.pc

/-- The cores on the way are the one a run starts from and those on the way from the next one. -/
theorem OnTheWay.tail {e : Cpu} (h : OnTheWay src c e) (hs : step c = some d) :
    e = c ∨ Inside src.rx (wordAt src.rx n) d.pc ∧ OnTheWay src d e := by
  rcases h with rfl | ⟨hr,hin⟩
  · exact Or.inl rfl
  · rcases hr.tail hs with rfl | ⟨hd,hr⟩
    · exact Or.inr ⟨hin,Or.inl rfl⟩
    · exact Or.inr ⟨hd,Or.inr ⟨hr,hin⟩⟩

/-- A run of the original words that leaves them is matched by the trampoline. -/
theorem Shadows.run (hrel : ∀ k < n, Movable src mach k)
    (hrun : Through src.rx (wordAt src.rx n) c d)
    (hq : ∀ e, OnTheWay src c e → Quiet src mach e) (hout : 4*n ≤ (d.pc-src.rx).toNat)
    (hslot : ¬slot.bytes d.pc) {k : ℕ} (hk : k < n) {c' : Cpu} (h : Shadows src mach k c c') :
    ∃ d', slot.Runs c' d' ∧ Leaves src mach d d' := by
  induction hrun generalizing k c' with
  | last hin hs =>
    cases h.step hk (hq _ (Or.inl rfl)) (hrel k hk) hs with
    | leaves d' hgo hl _ => exact ⟨d',hgo,hl⟩
    | stays j hj e' he hgo =>
      -- the run left the words, so it is at their end
      rcases Nat.lt_or_eq_of_le hj with hlt | rfl
      · have hc := src.count
        unfold maxInstructions at hc
        rw [he.pc] at hout
        unfold wordAt at hout
        bv_omega
      · obtain ⟨d',hback,hl⟩ := he.back
        exact ⟨d',hgo d' (by rw [hl.pc]; exact hslot) hback,hl⟩
  | @cons c e d hin hs hr ih =>
    have hin' := (inside_patch_iff src).mp hr.inside
    cases h.step hk (hq _ (Or.inl rfl)) (hrel k hk) hs with
    | leaves d' hgo hl ho => omega
    | stays j hj e' he hgo =>
      have hjn : j < n := by
        rcases Nat.lt_or_eq_of_le hj with hlt | rfl
        · exact hlt
        · have hc := src.count
          unfold maxInstructions at hc
          rw [he.pc] at hin'
          unfold wordAt at hin'
          bv_omega
      have hq' : ∀ f, OnTheWay src e f → Quiet src mach f := by
        rintro f (rfl | ⟨hre,hie⟩)
        · exact hq _ (Or.inr ⟨Through.last hin hs,hr.inside⟩)
        · exact hq _ (Or.inr ⟨Through.cons hin hs hre,hie⟩)
      obtain ⟨d',hd',hl⟩ := ih hq' hout hslot hjn he
      exact ⟨d',hgo d' (by rw [hl.pc]; exact hslot) hd',hl⟩

/-- A core that has changed no memory, at an instruction that neither loads through a register nor
stores nor jumps through one. -/
theorem quiet_of_mem {i : Instr} (hm : c.mem = mach.mem) (hi : decode (mach.mem.read32 c.pc) = i)
    (hl : i.relative = false → (loads i c).2 = 0) (hst : (stores i c).2 = 0)
    (hind : i.indirect = false) : Quiet src mach c := by
  have hfetch : decode (c.mem.read32 c.pc) = i := by
    rw [hm, hi]
  refine ⟨fun _ _ => by rw [hm],fun _ _ _ _ => by rw [hm],?_,?_,?_⟩
  · rw [hfetch]
    intro hr x hx
    rw [hl hr] at hx
    exact absurd hx (Nat.not_lt_zero _)
  · rw [hfetch]
    intro x hx
    rw [hst] at hx
    exact absurd hx (Nat.not_lt_zero _)
  · rw [hfetch, hind]
    intro h
    cases h

end Run

section Mixed

/-- `LDR X0, #0x20`, `CBZ X0, #12`, `ADR X1, #0x1000`, `ADD X2, X2, #1` and `BL #0x1ec`. -/
def mixedWords : List Word := [0x58000100,0xb4000060,0x10008001,0x91000442,0x9400007b]

/-- A memory of NOPs, and the five words at `0x1004`. -/
def mixedMem : Mem := overlay nopMem 0x1004 mixedWords

theorem mixedMem_read {k : ℕ} {w : Word} (h : mixedWords[k]? = some w) :
    mixedMem.read32 (wordAt 0x1004 k) = w :=
  wordsAt_overlay mixedWords (by decide) k w h

/-- The literal is two NOPs. -/
theorem mixedMem_literal : mixedMem.read64 0x1024 = 0xd503201fd503201f := by
  have hread {a : Addr} (ha : a.toNat%4 = 0) (hs : Sep a 4 0x1004 (4*mixedWords.length)) :
      mixedMem.read32 a = aarch64Nop := by
    rw [mixedMem, read32_overlay_of_sep _ _ _ _ hs, nopMem_read ha]
  have hw : WordsAt mixedMem 0x1024 [aarch64Nop,aarch64Nop] :=
    wordsAt_cons.mpr ⟨hread (by decide) (by decide),wordsAt_cons.mpr
      ⟨hread (by decide) (by decide),by simp [WordsAt]⟩⟩
  rw [read64_of_words hw]
  decide

/-- The registers that a word changes: it loads the literal, forms the address, adds to zero. -/
def mixedSets : ℕ → Cpu → Cpu
  | 0, c => c.setX 0 0xd503201fd503201f
  | 2, c => c.setX 1 0x200c
  | 3, c => c.setX 2 1
  | _, c => c

/-- The core before the word `k`: the literal is not zero, so the `CBZ` goes on to the `ADR`. -/
def mixedCpu : ℕ → Cpu
  | 0 => ⟨fun _ => 0,fun _ => 0,0x8000,0x1004,⟨false,false,false,false⟩,mixedMem⟩
  | k+1 => (mixedSets k (mixedCpu k)).next

theorem mixedCpu_decode {k : ℕ} (hk : k < 5) {i : Instr}
    (h : (mixedWords[k]?).map decode = some i) :
    (mixedCpu k).mem = mixedMem ∧ decode (mixedMem.read32 (mixedCpu k).pc) = i := by
  have hat : (mixedCpu k).pc = wordAt 0x1004 k ∧ (mixedCpu k).mem = mixedMem := by
    interval_cases k <;> exact ⟨by decide,rfl⟩
  obtain ⟨w,hw,rfl⟩ := Option.map_eq_some_iff.mp h
  rw [hat.1, mixedMem_read hw]
  exact ⟨hat.2,rfl⟩

theorem mixedCpu_step {k : ℕ} (hk : k < 4) : step (mixedCpu k) = some (mixedCpu (k+1)) := by
  have hexec {i : Instr} (h : (mixedWords[k]?).map decode = some i) :
      step (mixedCpu k) = exec i (mixedCpu k) := by
    obtain ⟨hm,hi⟩ := mixedCpu_decode (by omega) h
    exact step_of_read (by rw [hm]) hi
  interval_cases k
  · rw [hexec (by decide : _ = some (Instr.ldrLit .x 8 0))]
    change some (Cpu.next (Cpu.setX _ 0 (mixedMem.read64 0x1024))) = _
    rw [mixedMem_literal]
    rfl
  · rw [hexec (by decide : _ = some (Instr.cbz true false 3 0))]
    rfl
  · rw [hexec (by decide : _ = some (Instr.adr 0x1000 1))]
    rfl
  · rw [hexec (by decide : _ = some (Instr.addImm 1 2 2))]
    rfl

/-- The slot of the first trampoline, at `0x20000`. -/
def mixedSlot : Slot (viewEnv 0 0x8000).tr := viewSlot nearView 0 (Nat.zero_le _)

theorem mixedSlot_rx : mixedSlot.rx = 0x20000 := by decide

theorem mixed_aliases : (viewEnv 0 0x8000).Aliases 0x1004 0x0e000000 :=
  @view_window 0 0x8000 0x401 (by decide) 0x0e000000

theorem mixed_apart :
    Sep 0x1004 (4*patchCount 0x1004 0x0e000000) mixedSlot.rx (4*trampolineSize) := by decide

/-- The five words as the source of the trampoline. -/
def mixedSource : Source (viewEnv 0 0x8000).tr (patchCount 0x1004 0x0e000000) mixedSlot :=
  mixed_aliases.source (by decide) mixedSlot mixed_apart

theorem mixed_movable {k : ℕ} (hk : k < 5) : Movable mixedSource ⟨mixedMem,[]⟩ k := by
  have hword {j : ℕ} {w : Word} (h : mixedWords[j]? = some w) :
      (⟨mixedMem,[]⟩ : Machine).mem.read32 (wordAt mixedSource.rx j) = w := mixedMem_read h
  have hread {j : ℕ} {i : Instr} (h : (mixedWords[j]?).map decode = some i) :
      decode ((⟨mixedMem,[]⟩ : Machine).mem.read32 (wordAt mixedSource.rx j)) = i := by
    obtain ⟨w,hw,rfl⟩ := Option.map_eq_some_iff.mp h
    rw [hword hw]
  unfold Movable
  dsimp only
  interval_cases k
  · rw [hread (by decide : _ = some (Instr.ldrLit .x 8 0))]
    exact Or.inr ⟨by decide,⟨by decide,by decide⟩,Or.inr ⟨by decide,by decide⟩⟩
  · rw [hread (by decide : _ = some (Instr.cbz true false 3 0))]
    refine Or.inr ⟨4,by decide,by decide,Or.inr (by decide),by decide,?_⟩
    rw [hword (by decide : mixedWords[4]? = some 0x9400007b)]
    decide
  · rw [hread (by decide : _ = some (Instr.adr 0x1000 1))]
    refine ⟨by decide,Or.inr ⟨by decide,Or.inr ⟨?_,by decide⟩⟩⟩
    -- wherever in the slot the emitted word stands
    have hlow : ∀ l : Fin 46, (0x200c:Addr)-wordAt 0x20000 l ≠ BitVec.intMin 64 := by decide
    have hpos := @pos_le _ _ _ mixedSource ⟨mixedMem,[]⟩ 2 (by decide)
    have hcode := @code_eq _ _ _ mixedSource ⟨mixedMem,[]⟩ 2 (by decide)
    rw [hcode]
    exact hlow ⟨mixedSource.pos ⟨mixedMem,[]⟩ 2,by omega⟩
  · rw [hread (by decide : _ = some (Instr.addImm 1 2 2))]
    rw [hword (by decide : mixedWords[3]? = some 0x91000442)]
    decide
  · rw [hread (by decide : _ = some (Instr.b true 123))]
    exact Or.inl (by decide)

theorem mixed_quiet {k : ℕ} (hk : k < 5) : Quiet mixedSource ⟨mixedMem,[]⟩ (mixedCpu k) := by
  have hquiet {i : Instr} (hi : (mixedWords[k]?).map decode = some i)
      (hl : i.relative = false → (loads i (mixedCpu k)).2 = 0)
      (hst : (stores i (mixedCpu k)).2 = 0) (hind : i.indirect = false) :
      Quiet mixedSource ⟨mixedMem,[]⟩ (mixedCpu k) := by
    obtain ⟨hm,hdec⟩ := mixedCpu_decode hk hi
    exact quiet_of_mem hm hdec hl hst hind
  interval_cases k
  · exact hquiet (by decide : _ = some (Instr.ldrLit .x 8 0)) nofun rfl rfl
  · exact hquiet (by decide : _ = some (Instr.cbz true false 3 0)) nofun rfl rfl
  · exact hquiet (by decide : _ = some (Instr.adr 0x1000 1)) nofun rfl rfl
  · exact hquiet (by decide : _ = some (Instr.addImm 1 2 2)) (fun _ => rfl) rfl rfl
  · exact hquiet (by decide : _ = some (Instr.b true 123)) nofun rfl rfl

theorem mixedCpu_call : step (mixedCpu 4) = some (((mixedCpu 4).setX 30 0x1018).goto 0x1200) := by
  obtain ⟨hm,hi⟩ := mixedCpu_decode (by decide : 4 < 5) (by decide : _ = some (Instr.b true 123))
  exact step_of_read (by rw [hm]) hi

/-- The run makes the call from the last of the words, and is at no other core before. -/
theorem mixed_through {k : ℕ} (hk : k ≤ 4) :
    Through 0x1004 0x1018 (mixedCpu k) (((mixedCpu 4).setX 30 0x1018).goto 0x1200) ∧
      ∀ e, OnTheWay mixedSource (mixedCpu k) e → ∃ j < 5, e = mixedCpu j := by
  have hin : ∀ j : Fin 5, Inside 0x1004 0x1018 (mixedCpu j).pc := by decide
  induction hk using Nat.decreasingInduction with
  | of_succ k hk ih =>
    obtain ⟨hrun,hway⟩ := ih
    refine ⟨Through.cons (hin ⟨k,by omega⟩) (mixedCpu_step hk) hrun,?_⟩
    intro e he
    rcases he.tail (mixedCpu_step hk) with rfl | ⟨-,he⟩
    · exact ⟨k,by omega,rfl⟩
    · exact hway e he
  | self =>
    refine ⟨Through.last (hin 4) mixedCpu_call,?_⟩
    intro e he
    rcases he.tail mixedCpu_call with rfl | ⟨hin,-⟩
    · exact ⟨4,by decide,rfl⟩
    · exact absurd hin (by decide)

end Mixed

end Zeldar
