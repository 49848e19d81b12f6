import Zeldar.A64Moved
import Zeldar.HookKeeps
import Zeldar.HookLiteral
import Zeldar.HookTransfer

namespace Zeldar
open A64

/-- A conditional branch that is not taken goes on behind its code with nothing changed. -/
theorem condPlan_falls {s : FixState} {idx : Fin maxInstructions} {κ : RefKind} {w : Word} {m : Mem}
    (hκ : κ = .cond ∨ κ = .test) (hw : refKind w = some κ)
    (hr : ¬s.ctx.isInFixingRange (condTarget s.inprx (~~~κ.mask) w) = true) {p : Plan}
    (hp : condPlan s idx (~~~κ.mask) w = .ok p) (hwords : WordsAt m s.outprx p.words)
    {c : Cpu} (hm : c.mem = m) (hc : c.pc = s.outprx) (ht : taken (decode w) c = false) :
    Through s.outprx (wordAt s.outprx p.words.length) c
      (c.goto (wordAt s.outprx p.words.length)) := by
  simp only [condPlan, pure, Except.pure] at hp
  rw [if_neg hr] at hp
  generalize condTarget s.inprx (~~~κ.mask) w = T at hp
  by_cases hfar : ((~~~(~~~κ.mask) >>> 6).setWidth 64).sle
      (llabs ((T-s.outprx).sshiftRight 2)) = true
  · rw [if_pos hfar, Except.ok.injEq] at hp
    generalize hpad : (if wordAt s.outprx 4 &&& 7 = 0 then 0 else 1) = pad at hp
    have hpad1 : pad ≤ 1 := by
      rw [← hpad]
      split_ifs <;> decide
    subst hp
    have hlen : (nops pad++((0x40 &&& ~~~(~~~κ.mask)) ||| (w &&& ~~~κ.mask)) :: 0x14000005 ::
        absoluteJump T).length = pad+6 := by
      simp [nops, absoluteJump]
    simp only at hwords ⊢
    rw [hlen]
    obtain ⟨hnops,hwords⟩ := wordsAt_append.mp hwords
    rw [nops_length] at hwords
    have hin (k : ℕ) (hk : k < pad+6) :
        Inside s.outprx (wordAt s.outprx (pad+6)) (wordAt s.outprx k) :=
      inside_wordAt _ hk (by omega)
    have hin0 : Inside s.outprx (wordAt s.outprx (pad+6)) c.pc := by
      have h := hin 0 (by omega)
      rw [wordAt_zero] at h
      rwa [hc]
    -- past the padding, the word after the branch jumps over the rest
    have hform := (@long_form m (wordAt s.outprx pad) s.outprx (wordAt s.outprx (pad+6)) κ w _ T hκ
      hw (encodes_skip hκ w) hwords (fun k hk => by
        rw [wordAt_add]
        exact hin _ (by omega)) { c with pc := wordAt c.pc pad } hm (by rw [hc])).2 ht
    subst hm
    rw [← hc] at hnops
    have hstop : wordAt (wordAt s.outprx pad) 6 = wordAt s.outprx (pad+6) := wordAt_add _ _ _
    rw [hstop] at hform
    have hgo := Through.nops hpad1 hnops hin0 hform
    rwa [Function.update_eq_self] at hgo
  · rw [if_neg hfar, Except.ok.injEq] at hp
    subst hp
    have hread := (wordsAt_cons.mp hwords).1
    have henc := encodes_condWord hκ w (T-s.outprx)
    have href := henc.reference hw
    have hkeep := taken_of_keep henc.keep hκ hw c
    have hin : Inside s.outprx (wordAt s.outprx 1) c.pc := by
      have h := inside_wordAt s.outprx (by decide : 0 < 1) (by decide)
      rw [wordAt_zero] at h
      rwa [hc]
    have hword : c.mem.read32 c.pc = condWord (~~~κ.mask) w (T-s.outprx) := by
      rw [hm, hc]
      exact hread
    have hs := step_not_taken hκ href (congrArg decode hword) (hkeep.trans ht)
    rw [hc] at hs
    exact Through.last hin hs

section Kept
variable {tr : Addr → Addr} {slot : Slot tr} {n i : ℕ} {src : Source tr n slot} {mach : Machine}
  {m : Mem} (hm : Keeps src mach m) (hi : i < n)
include hm hi

theorem Keeps.branchesTo {link : Bool} {imm : BitVec 26}
    (hd : decode (mach.mem.read32 (wordAt src.rx i)) = .b link imm)
    (hout : 4*n ≤ (wordAt src.rx i+wordOffset imm-src.rx).toNat) :
    BranchesTo m (src.code mach i) (src.code mach (i+1)) (wordAt src.rx i+wordOffset imm) link := by
  have hc := src.count
  have him : i < maxInstructions := by omega
  obtain ⟨-,h⟩ := @loop_represents tr slot n src mach i hi.le
  generalize hw : mach.mem.read32 (wordAt src.rx i) = w at hd
  have href : reference (decode w) = some (.branch,wordOffset imm) := by
    rw [hd]
    rfl
  obtain ⟨ht,hk⟩ := @handlerTarget_eq _ (wordAt src.rx i) _ _ href (Or.inl rfl)
  have ht' : branchTarget (loopState tr (src.start mach) i).inprx w =
      wordAt src.rx i+wordOffset imm := by
    rw [h.inprx]
    exact ht
  have hr : ¬(loopState tr (src.start mach) i).ctx.isInFixingRange
      (branchTarget (loopState tr (src.start mach) i).inprx w) = true := by
    intro hr
    have hlt := h.range hr
    rw [ht'] at hlt
    omega
  have hd4 : (branchTarget (loopState tr (src.start mach) i).inprx w-
      (loopState tr (src.start mach) i).outprx).toNat%4 = 0 := by
    have hout4 := h.outprx_aligned
    have hin4 := wordAt_aligned src.aligned i
    have hx : (wordOffset imm).toNat%4 = 0 := reference_low href
    rw [ht']
    generalize wordOffset imm = x at hx ⊢
    bv_omega
  obtain ⟨hf,hgoes⟩ := branchPlan_branchesTo (opcode_of_decode hd) hr hd4
    (fixBranch_returns hi him hw hk).1
  have hto := hgoes _ (hm.plan hi him hf)
  rw [ht'] at hto
  rw [code_succ src mach hi him]
  exact hto

theorem Keeps.outcomes {κ : RefKind} {d : Addr} (hκ : κ = .cond ∨ κ = .test) {w : Word}
    (hw : mach.mem.read32 (wordAt src.rx i) = w) (href : reference (decode w) = some (κ,d))
    (hout : 4*n ≤ (wordAt src.rx i+d-src.rx).toNat) (hd : 0 ≤ d.toInt) :
    (∀ c : Cpu, c.mem = m → c.pc = src.code mach i → taken (decode w) c = true →
        LeavesFor (src.code mach i) (src.code mach (i+1)) (wordAt src.rx i+d) c) ∧
      ∀ c : Cpu, c.mem = m → c.pc = src.code mach i → taken (decode w) c = false →
        Through (src.code mach i) (src.code mach (i+1)) c (c.goto (src.code mach (i+1))) := by
  have hc := src.count
  have him : i < maxInstructions := by omega
  obtain ⟨-,h⟩ := @loop_represents tr slot n src mach i hi.le
  have hk := (refKind_of_reference hκ href).1
  have hp := (fixCond_returns hi him hκ hw hk).1
  have htarget := (condTarget_eq_iff hκ href (wordAt src.rx i)).mpr hd
  rw [← h.inprx] at htarget
  have hr : ¬(loopState tr (src.start mach) i).ctx.isInFixingRange
      (condTarget (loopState tr (src.start mach) i).inprx (~~~κ.mask) w) = true := by
    intro hr
    have hlt := h.range hr
    rw [htarget, h.inprx] at hlt
    omega
  have hT : (condTarget (loopState tr (src.start mach) i).inprx (~~~κ.mask) w-
      (loopState tr (src.start mach) i).outprx).toNat%4 = 0 := by
    have hout4 := h.outprx_aligned
    have hin4 := wordAt_aligned src.aligned i
    have hlow := reference_low href
    have h0 : refLow κ w = 0#64 := by rcases hκ with rfl | rfl <;> rfl
    rw [h0] at hlow
    have hd4 : d.toNat%4 = 0 := hlow
    rw [htarget, h.inprx]
    bv_omega
  have hd0 : refLow κ w = 0#64 := by rcases hκ with rfl | rfl <;> rfl
  have hforward := (condPlan_outside hκ (by rw [hd0]; exact hT) hr hp).1
  have hwords := hm.plan hi him hforward
  rw [code_succ src mach hi him]
  constructor
  · intro c hmem hpc ht
    apply ((@condPlan_outcomes _ _ κ w m (wordAt src.rx i+d) hκ hk hT hr _ hp hwords c hmem hpc).1
      ht).mpr
    rw [htarget, h.inprx]
  · intro c hmem hpc ht
    exact condPlan_falls hκ hk hr hp hwords hmem hpc ht

theorem Keeps.adrp {imm : BitVec 21} {rd : BitVec 5}
    (hd : decode (mach.mem.read32 (wordAt src.rx i)) = .adrp imm rd)
    (hpage : rd = 31 ∨
      if (src.start mach).ctx.isInFixingRange (pageModulo (wordAt src.rx i) imm) = true
      then src.code mach i &&& ~~~0xfff = wordAt src.rx i &&& ~~~0xfff else 0 ≤ imm.toInt) :
    Computes m (src.code mach i) (src.code mach (i+1)) fun c =>
      c.setX rd ((wordAt src.rx i &&& ~~~0xfff)+(imm++0#12).signExtend 64) := by
  have hc := src.count
  have him : i < maxInstructions := by omega
  obtain ⟨-,h⟩ := @loop_represents tr slot n src mach i hi.le
  have hp := (adrp_returns hi him rfl hd).1
  have hforward : (loopPlan tr (src.start mach) ⟨i,him⟩).forward = none := by
    rw [← hp]
    unfold adrpPlan
    dsimp only
    split_ifs <;> rfl
  have hwords := hm.plan hi him hforward
  rw [code_succ src mach hi him]
  rw [← hp] at hwords ⊢
  have hcode := adrpPlan_computes hd hwords
  rw [h.inprx, loopState_range hi.le, adrpTarget_modulo hd] at hcode
  apply hcode.setX_iff.mpr
  rcases hpage with h31 | hpage
  · exact Or.inl ⟨h31,h31⟩
  · refine Or.inr ⟨rfl,?_⟩
    split_ifs at hpage ⊢ with hr
    · exact congrArg (fun a => a+(imm++0#12).signExtend 64) hpage
    · -- no sign is lost
      have hmsb := BitVec.msb_eq_toInt (x := imm)
      rw [← adrpTarget_modulo hd, adrpTarget_carry hd, add_carry_eq_iff, hmsb]
      simpa using hpage

theorem Keeps.adr {imm : BitVec 21} {rd : BitVec 5}
    (hd : decode (mach.mem.read32 (wordAt src.rx i)) = .adr imm rd)
    (hout : 4*n ≤ (wordAt src.rx i+imm.signExtend 64-src.rx).toNat)
    (haddr : rd = 31 ∨ 0 ≤ imm.toInt ∧ ((0xfffff:BitVec 64).sle
        (llabs (wordAt src.rx i+imm.signExtend 64-src.code mach i)) = true ∨
      wordAt src.rx i+imm.signExtend 64-src.code mach i ≠ BitVec.intMin 64 ∧
        rd ||| (imm.setWidth 2++0#3) = rd)) :
    Computes m (src.code mach i) (src.code mach (i+1)) fun c =>
      c.setX rd (wordAt src.rx i+imm.signExtend 64) := by
  have hc := src.count
  have him : i < maxInstructions := by omega
  obtain ⟨-,h⟩ := @loop_represents tr slot n src mach i hi.le
  generalize hw : mach.mem.read32 (wordAt src.rx i) = w at hd
  have hp := (adr_returns hi him hw hd).1
  have hfar := @adrTarget_outside n i w imm rd hd src.rx hi hc hout
  have hr : ¬(loopState tr (src.start mach) i).ctx.isInFixingRange
      (adrTarget (loopState tr (src.start mach) i).inprx w) = true := by
    intro hr
    have hlt := h.range hr
    rw [h.inprx] at hlt
    omega
  have hforward : (loopPlan tr (src.start mach) ⟨i,him⟩).forward = none := by
    have hp' := hp
    simp only [adrPlan, pure, Except.pure] at hp'
    rw [if_neg hr] at hp'
    split_ifs at hp' <;> rw [← Except.ok.inj hp']
  have hwords := hm.plan hi him hforward
  have hsign := adrTarget_eq_iff hd (wordAt src.rx i)
  rw [code_succ src mach hi him]
  rw [← h.inprx] at hsign haddr ⊢
  have hcode : src.code mach i = (loopState tr (src.start mach) i).outprx := rfl
  rw [hcode] at hwords haddr ⊢
  have hin4 : (loopState tr (src.start mach) i).inprx.toNat%4 = 0 := by
    rw [h.inprx]
    exact wordAt_aligned src.aligned i
  have hout4 := h.outprx_aligned
  generalize loopState tr (src.start mach) i = s at hp hr hwords hsign hin4 hout4 haddr ⊢
  -- the address is loaded or computed, as the distance of what the handler takes for the target
  by_cases hreach : (0xfffff:BitVec 64).sle (llabs (adrTarget s.inprx w-s.outprx)) = true
  · apply (adrPlan_far hd hp hr hwords hreach).setX_iff.mpr
    rcases haddr with h31 | ⟨h0,-⟩
    · exact Or.inl ⟨h31,h31⟩
    · exact Or.inr ⟨rfl,hsign.mpr h0⟩
  · obtain ⟨v,hv,hmin,-⟩ := adrPlan_near hd hp hr hwords hreach hin4 hout4
    apply hv.setX_iff.mpr
    rcases haddr with h31 | ⟨h0,hcond⟩
    · subst h31
      exact Or.inl ⟨BitVec.allOnes_or,rfl⟩
    · rw [hsign.mpr h0] at hreach hmin
      obtain ⟨hne,hrd⟩ := hcond.resolve_left hreach
      exact Or.inr ⟨hrd,hmin.mpr hne⟩

/-- The literal at `a` is loaded from its copy; or from where it is, which is out of the way of
the patch, by a load that its distance leaves what it is. -/
def LoadsFrom (src : Source tr n slot) (mach : Machine) (k : ℕ) (kind : LitKind) (a : Addr) :
    Prop :=
  CopiesLiteral (src.start mach).ctx kind a (src.code mach k) ∨
    Sep a (litSpan kind) src.rx (4*n) ∧ emittedKind (src.start mach).ctx kind a (src.code mach k) =
      some kind

section Loads
variable {kind : LitKind} {imm : BitVec 19} {rt : BitVec 5}
  (hd : decode (mach.mem.read32 (wordAt src.rx i)) = .ldrLit kind imm rt) (hk : kind ≠ .prfm)
  (himm : 0 ≤ imm.toInt) (hlit : LiteralAt slot kind (wordAt src.rx i+wordOffset imm))
include hd hk himm hlit

theorem Keeps.loads_copy (hfar : CopiesLiteral (src.start mach).ctx kind
      (wordAt src.rx i+wordOffset imm) (src.code mach i)) :
    Computes m (src.code mach i) (src.code mach (i+1))
      (place kind.vector rt (kind.value mach.mem (wordAt src.rx i+wordOffset imm))) := by
  have hc := src.count
  have him : i < maxInstructions := by omega
  have hp := (fixLoadlit_returns hi him rfl hd hk).1
  have ht := @litTarget_loopState tr slot n i src mach _ kind imm rt hi hd
  rw [(literalModulo_eq_iff _ imm).mpr himm] at ht
  rw [← ht] at hfar
  obtain ⟨hforward,head,hhead,pad,hwords,hlist⟩ :=
    litPlan_copy ((copiesLiteral_loopState hi _).mpr hfar) hp
  have hat := hm.plan hi him hforward
  have hpad : pad ≤ 3 := by
    have hl := congrArg List.length hwords
    rw [List.length_append, nops_length] at hl
    simp only [List.length_cons, List.length_nil] at hl
    omega
  have hspan : ((litAlign kind).toNat+1)/4 ≤ litSpan kind/4 := by cases kind <;> decide
  -- what was copied are the words of the literal at hooking time
  have hcopy : (List.range (((litAlign kind).toNat+1)/4)).map (fun k =>
      ((loopState tr (src.start mach) i).emitWords tr head).m.load32 tr
        (wordAt (litTarget (loopState tr (src.start mach) i).inprx
          (mach.mem.read32 (wordAt src.rx i))) k)) =
      (List.range (((litAlign kind).toNat+1)/4)).map fun k =>
        mach.mem.read32 (wordAt (wordAt src.rx i+wordOffset imm) k) := by
    apply List.map_congr_left
    intro k hk
    rw [List.mem_range] at hk
    rw [ht]
    exact copied_literal hi hlit hhead (by omega)
  rw [hcopy, hwords] at hlist
  rw [code_succ src mach hi him]
  rw [hlist] at hat ⊢
  have hcode := computes_copiedLoad hd hk hpad hat
  have hlen : (Zeldar.nops pad++[(0x40 &&& ~~~litKindMask kind) |||
        (mach.mem.read32 (wordAt src.rx i) &&& 0xff00001f),
        0x14000001+BitVec.ofNat 32 (((litAlign kind).toNat+1)/4)]++
      (List.range (((litAlign kind).toNat+1)/4)).map fun k =>
        mach.mem.read32 (wordAt (wordAt src.rx i+wordOffset imm) k)).length =
      pad+2+((litAlign kind).toNat+1)/4 := by
    rw [List.length_append, List.length_append, nops_length, List.length_map, List.length_range]
    rfl
  rwa [hlen]

omit hlit in
theorem Keeps.loads_near (hnear : ¬CopiesLiteral (src.start mach).ctx kind
      (wordAt src.rx i+wordOffset imm) (src.code mach i))
    (hkind : emittedKind (src.start mach).ctx kind (wordAt src.rx i+wordOffset imm)
      (src.code mach i) = some kind) :
    Computes m (src.code mach i) (src.code mach (i+1))
      (place kind.vector rt (kind.value m (wordAt src.rx i+wordOffset imm))) := by
  have hc := src.count
  have him : i < maxInstructions := by omega
  obtain ⟨-,h⟩ := @loop_represents tr slot n src mach i hi.le
  have hp := (fixLoadlit_returns hi him rfl hd hk).1
  have ht := @litTarget_loopState tr slot n i src mach _ kind imm rt hi hd
  have hmod := (literalModulo_eq_iff (wordAt src.rx i) imm).mpr himm
  have hlit4 := literalModulo_aligned (wordAt_aligned src.aligned i) imm
  rw [hmod] at ht hlit4
  have h4 : (litTarget (loopState tr (src.start mach) i).inprx
      (mach.mem.read32 (wordAt src.rx i))-(loopState tr (src.start mach) i).outprx).toNat%4 =
      0 := by
    have hout4 := h.outprx_aligned
    rw [ht]
    generalize wordAt src.rx i+wordOffset imm = t at hlit4 ⊢
    bv_omega
  have hstay : ¬CopiesLiteral (loopState tr (src.start mach) i).ctx kind
      (litTarget (loopState tr (src.start mach) i).inprx (mach.mem.read32 (wordAt src.rx i)))
      (loopState tr (src.start mach) i).outprx := by
    rw [copiesLiteral_loopState hi, ht]
    exact hnear
  obtain ⟨hforward,pad,d,hpad,hwords,htarget,hoff,⟨hlo,hhi⟩,hsign⟩ := litPlan_near hk hstay h4 hp
  have hat := hm.plan hi him hforward
  have hdec := decode_litWord hd hk hlo hhi
  have hlen : (Zeldar.nops pad++[litWord (litKindMask kind)
      (mach.mem.read32 (wordAt src.rx i)) d]).length = pad+1 := by
    rw [List.length_append, nops_length]
    rfl
  rw [code_succ src mach hi him]
  rw [hwords] at hat ⊢
  -- the new distance has the sign that decides what the load turns into
  have hsame : (if 0 ≤ d.toInt then some kind else negativeKind kind) = some kind := by
    rw [ht] at hsign
    simp only [emittedKind, hnear, false_or] at hkind
    exact (if_congr hsign rfl rfl).trans hkind
  rw [hsame] at hdec
  have hcode := computes_nearLoad hk hpad hdec hoff hat
  change wordAt (src.code mach i) pad+d = _ at htarget
  rw [htarget, ht] at hcode
  rw [hlen]
  exact hcode

/-- The load finds the literal of every memory in which it is the one of the time of hooking. -/
theorem Keeps.loads (hfrom : LoadsFrom src mach i kind (wordAt src.rx i+wordOffset imm)) {m₀ : Mem}
    (hm₀ : kind.value m₀ (wordAt src.rx i+wordOffset imm) =
      kind.value mach.mem (wordAt src.rx i+wordOffset imm))
    (hag : ∀ x, ¬Changed src.rx n slot x → m x = m₀ x) :
    Computes m (src.code mach i) (src.code mach (i+1))
      (place kind.vector rt (kind.value m₀ (wordAt src.rx i+wordOffset imm))) := by
  by_cases hcopies : CopiesLiteral (src.start mach).ctx kind (wordAt src.rx i+wordOffset imm)
      (src.code mach i)
  · rw [hm₀]
    exact hm.loads_copy hi hd hk himm hlit hcopies
  · obtain ⟨hsep,hkind⟩ := hfrom.resolve_left hcopies
    have hnear := hm.loads_near hi hd hk himm hcopies hkind
    -- the literal is neither in the patch nor in the slot
    have hvalue : kind.value m (wordAt src.rx i+wordOffset imm) =
        kind.value m₀ (wordAt src.rx i+wordOffset imm) := by
      apply value_of_words
      intro k hk
      apply read32_off hag
      have hspan : 4*k+4 ≤ litSpan kind := by
        have hle : kind.size ≤ litSpan kind := le_max_right _ _
        omega
      have hsmall : litSpan kind ≤ 16 := by cases kind <;> decide
      intro x hx
      have hoff : (x-(wordAt src.rx i+wordOffset imm)).toNat < litSpan kind := by
        unfold wordAt at hx ⊢
        bv_omega
      have h1 := hsep.symm.offset hoff
      have h2 := hlit.apart.symm.offset hoff
      rw [Changed, Slot.bytes]
      omega
    rwa [hvalue] at hnear

end Loads

omit hm in
/-- For a prefetch nothing is emitted. -/
theorem code_prefetch {imm : BitVec 19} {rt : BitVec 5}
    (hd : decode (mach.mem.read32 (wordAt src.rx i)) = .ldrLit .prfm imm rt) :
    src.code mach (i+1) = src.code mach i := by
  have hc := src.count
  have him : i < maxInstructions := by omega
  obtain ⟨-,h⟩ := @loop_represents tr slot n src mach i hi.le
  have hload := h.load_source hi
  generalize mach.mem.read32 (wordAt src.rx i) = w at hd hload
  have hop := (opcode_of_ldrLit hd).1
  have h1 : ¬(w &&& 0xfc000000 = 0x14000000 ∨ w &&& 0xfc000000 = 0x94000000) :=
    not_or_intro (and_ne_of_and hop 0x38000000 (by decide) (by decide) (by decide))
      (and_ne_of_and hop 0x38000000 (by decide) (by decide) (by decide))
  have h2 : ¬(w &&& 0xff000010 = 0x54000000 ∨ w &&& 0x7e000000 = 0x34000000) :=
    not_or_intro (and_ne_of_and hop 0x3b000000 (by decide) (by decide) (by decide))
      (and_ne_of_and hop 0x3a000000 (by decide) (by decide) (by decide))
  have h3 : ¬w &&& 0x7e000000 = 0x36000000 :=
    and_ne_of_and hop 0x3a000000 (by decide) (by decide) (by decide)
  have hprfm : w &&& 0xff000000 = 0xd8000000 := by
    rw [and_top (by decide), opcode_byte hd]
    decide
  have hplan : stepPlan tr (loopState tr (src.start mach) i) ⟨i,him⟩ =
      .ok ⟨[],(loopState tr (src.start mach) i).outprx,none⟩ := by
    unfold stepPlan instructionPlan
    dsimp only
    rw [hload, if_neg h1, condLmask_eq, if_neg h2, if_neg h3, loadlitPlan, if_pos hprfm]
    rfl
  rw [code_succ src mach hi him, loopPlan_eq hplan, List.length_nil, wordAt_zero]

end Kept

theorem referencePlan_words {s : FixState} {idx : Fin maxInstructions} {t : Addr}
    {encode : Addr → Word} {ls : ℕ} {ad : Word} {p : Plan}
    (hp : referencePlan s idx t encode ls ad = .ok p) : p.words.length = 1 := by
  unfold referencePlan at hp
  cases hx : Context.index (s.ctx.getRefInsIndex t) with
  | error e => simp [hx, bind, Except.bind] at hp
  | ok r =>
    simp only [hx, bind, Except.bind, pure, Except.pure] at hp
    split_ifs at hp <;> cases hp <;> rfl

/-- The reference at `k` leads to the instruction `j`, which is relocated as well, and whose code
the engine finds: a page address is recorded by its writable address. -/
structure Follows {tr : Addr → Addr} {slot : Slot tr} {n : ℕ} (src : Source tr n slot)
    (mach : Machine) (κ : RefKind) (k j : ℕ) (d : Addr) : Prop where
  relocated : j < n
  target : wordAt src.rx k+d = wordAt src.rx j
  direction : κ = .branch ∨ k < j
  inRange : (src.start mach).ctx.isInFixingRange (wordAt src.rx j) = true
  notPage : mach.mem.read32 (wordAt src.rx j) &&& 0x9f000000 ≠ 0x90000000

section Reference
variable {tr : Addr → Addr} {slot : Slot tr} {n k j : ℕ} {src : Source tr n slot} {mach : Machine}
  {m : Mem} {κ : RefKind} {d : Addr} (hk : k < n)
  (href : reference (decode (mach.mem.read32 (wordAt src.rx k))) = some (κ,d))
  (hj : Follows src mach κ k j d)
include hk href hj

omit hk in
theorem Follows.handlerTarget : refKind (mach.mem.read32 (wordAt src.rx k)) = some κ ∧
    handlerTarget κ (wordAt src.rx k) (mach.mem.read32 (wordAt src.rx k)) = wordAt src.rx j := by
  have hc := src.count
  have hjn := hj.relocated
  unfold maxInstructions at hc
  have hzero : (wordAt src.rx k+d-wordAt src.rx j).toNat < 4 := by
    rw [hj.target]
    simp
  obtain ⟨ht,hkind⟩ := @handlerTarget_eq κ (wordAt src.rx k) _ d href
    (hj.direction.imp_right fun hkj => target_forward hkj (by omega) hzero)
  exact ⟨hkind,ht.trans hj.target⟩

/-- The code of such a reference is one word. -/
theorem Follows.code_succ : src.code mach (k+1) = wordAt (src.code mach k) 1 := by
  have hc := src.count
  have hkm : k < maxInstructions := by omega
  obtain ⟨-,h⟩ := @loop_represents tr slot n src mach k hk.le
  obtain ⟨hkind,ht⟩ := hj.handlerTarget href
  have hload := h.load_source hk
  generalize mach.mem.read32 (wordAt src.rx k) = w at hkind ht hload
  have hr := hj.inRange
  rw [← ht, ← loopState_range hk.le, ← h.inprx] at hr
  obtain ⟨t,encode,ad,hplan,-⟩ := @stepPlan_reference tr _ ⟨k,hkm⟩ w κ
    (by rw [h.basep]; exact src.aligned) hload hkind hr
  have hp := (@loopPlan_ok tr slot n src mach k hk hkm).1
  rw [Zeldar.code_succ src mach hk hkm, referencePlan_words (hplan.symm.trans hp)]

/-- It leads to the code of `j`, or past the NOPs in front of it. -/
theorem Follows.retargeted {mach' : Machine}
    (hrun : fixInstructions tr mach src.rw src.rx n slot.rw slot.rx = .ok mach') :
    Retargeted mach'.mem κ (mach.mem.read32 (wordAt src.rx k)) (src.code mach k)
      (src.code mach j) (src.code mach (j+1)) := by
  have hc := src.count
  have hjn := hj.relocated
  have hjm : j < maxInstructions := by omega
  obtain ⟨hkind,ht⟩ := hj.handlerTarget href
  have hidx : (wordAt src.rx j-src.rx).toNat/4 = j := by
    unfold maxInstructions at hjm
    unfold wordAt
    bv_omega
  have he := @final_reference tr slot n src mach κ _ k j hk hjm rfl hkind
    (by rw [ht]; exact hj.inRange)
    (by rw [ht]; exact hidx) hj.direction mach' hjn hrun
  have h := @loop_represents tr slot n src mach j hjn.le
  have hs := stepPlan_starts (h.2.load_source hjn) (loopPlan_ok mach hjn hjm).1
    fun hrw => hj.notPage hrw.1
  exact retargeted_of_starts hk hjn hjm hkind he hs hrun

theorem Keeps.follows (hm : Keeps src mach m) :
    ∃ pad e, src.pos mach j+pad ≤ 45 ∧ WordsAt m (src.code mach j) (Zeldar.nops pad) ∧
      reference (decode (m.read32 (src.code mach k))) = some (κ,e) ∧
      src.code mach k+e =
        wordAt (src.code mach j) pad+refLow κ (mach.mem.read32 (wordAt src.rx k)) ∧
      m.read32 (src.code mach k) &&& ~~~κ.mask =
        mach.mem.read32 (wordAt src.rx k) &&& ~~~κ.mask := by
  obtain ⟨mach',hrun,hm⟩ := hm
  have hjn := hj.relocated
  have hread {p : ℕ} (hp : p ≤ 45) :
      m.read32 (wordAt slot.rx p) = mach'.mem.read32 (wordAt slot.rx p) := by
    apply Mem.read32_congr
    intro i hi
    apply hm
    have hsize : trampolineSize = 50 := rfl
    have hoff : (wordAt slot.rx p+BitVec.ofNat 64 i-slot.rx).toNat = 4*p+i := by
      unfold wordAt
      bv_omega
    rw [Slot.bytes, hsize]
    omega
  have hret := hj.retargeted hk href hrun
  obtain ⟨q,e,hq,hq45,hrefm,he,hnop⟩ := hret.in_slot hjn
  have hkeep := hret.keep
  have hcode := code_eq src mach hk.le
  rw [hcode, ← hread (pos_le src mach hk.le), ← hcode] at hrefm hkeep
  refine ⟨q-src.pos mach j,e,by omega,?_,hrefm,?_,hkeep⟩
  · intro l v hv
    rw [Zeldar.nops, List.getElem?_replicate] at hv
    split_ifs at hv with hl
    cases hv
    have hl' := hnop l hl
    rw [code_eq src mach hjn.le, wordAt_add] at hl' ⊢
    rw [hread (by omega)]
    exact hl'
  · rw [he, code_eq src mach hjn.le, wordAt_add]
    congr 2
    omega

end Reference

end Zeldar
