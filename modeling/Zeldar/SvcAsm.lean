import Zeldar.Asm
import Mathlib.Tactic.IntervalCases

namespace Zeldar.Svc
open Asm

/-- `svc #n` is the instruction that leaves the core. -/
abbrev Line := Instr (BitVec 16)

/-- `w1` or `x1`. -/
inductive Width
  | word
  | xword
  deriving DecidableEq, Repr

/-- What a prototype returns through a pointer: the argument, the place of the value in what the
argument points to, and the size of the C type. -/
structure Out where
  arg : Reg
  offset : BitVec 64
  width : Width
  deriving DecidableEq, Repr

/-- `Handle *`, `u32 *` and `s32 *`. -/
def Out.word (arg : Reg) : Out := ⟨arg,0,.word⟩

/-- `u64 *` and `void **`. -/
def Out.xword (arg : Reg) : Out := ⟨arg,0,.xword⟩

/-- The lines before the `svc`, those between it and the `ret`, and the prototype's out
pointers. -/
structure Wrapper where
  number : BitVec 16
  before : List Line
  after : List Line
  outs : List Out
  deriving DecidableEq, Repr

def Wrapper.code (w : Wrapper) : List Line := w.before++(.sys w.number :: (w.after++[.ret]))

def Width.store : Width → Reg → Reg → Line
  | .word,rt,rn => .strW rt (.x rn) 0 .offset
  | .xword,rt,rn => .str rt (.x rn) 0 .offset

def plain (number : BitVec 16) : Wrapper := ⟨number,[],[],[]⟩

def storing (number : BitVec 16) (arg : Reg) (stored : Width) (outs : List Out) : Wrapper where
  number := number
  before := [.str arg .sp (-16) .pre]
  after := [.ldr 2 .sp 16 .post,stored.store 1 2]
  outs := outs

def storingTwo (number : BitVec 16) (first : Width) (outs : List Out) : Wrapper where
  number := number
  before := [.stp 0 1 .sp (-16) .pre]
  after := [.ldp 3 4 .sp 16 .post,first.store 1 3,.strW 2 (.x 4) 0 .offset]
  outs := outs

def svcSetHeapSize : Wrapper := storing 0x1 0 .xword [.xword 0]

def svcSetMemoryPermission : Wrapper := plain 0x2

def svcSetMemoryAttribute : Wrapper := plain 0x3

def svcMapMemory : Wrapper := plain 0x4

def svcUnmapMemory : Wrapper := plain 0x5

def svcQueryMemory : Wrapper := storing 0x6 1 .word [.word 1]

def svcExitProcess : Wrapper := plain 0x7

def svcCreateThread : Wrapper := storing 0x8 0 .word [.word 0]

def svcStartThread : Wrapper := plain 0x9

def svcExitThread : Wrapper := plain 0xA

def svcSleepThread : Wrapper := plain 0xB

def svcGetThreadPriority : Wrapper := storing 0xC 0 .word [.word 0]

def svcSetThreadPriority : Wrapper := plain 0xD

def svcGetThreadCoreMask : Wrapper := storingTwo 0xE .word [.word 0,.word 1]

def svcSetThreadCoreMask : Wrapper := plain 0xF

def svcGetCurrentProcessorNumber : Wrapper := plain 0x10

def svcSignalEvent : Wrapper := plain 0x11

def svcClearEvent : Wrapper := plain 0x12

def svcMapSharedMemory : Wrapper := plain 0x13

def svcUnmapSharedMemory : Wrapper := plain 0x14

def svcCreateTransferMemory : Wrapper := storing 0x15 0 .word [.word 0]

def svcCloseHandle : Wrapper := plain 0x16

def svcResetSignal : Wrapper := plain 0x17

def svcWaitSynchronization : Wrapper := storing 0x18 0 .word [.word 0]

def svcCancelSynchronization : Wrapper := plain 0x19

def svcArbitrateLock : Wrapper := plain 0x1A

def svcArbitrateUnlock : Wrapper := plain 0x1B

def svcWaitProcessWideKeyAtomic : Wrapper := plain 0x1C

def svcSignalProcessWideKey : Wrapper := plain 0x1D

def svcGetSystemTick : Wrapper := plain 0x1E

def svcConnectToNamedPort : Wrapper := storing 0x1F 0 .word [.word 0]

def svcSendSyncRequest : Wrapper := plain 0x21

def svcSendSyncRequestWithUserBuffer : Wrapper := plain 0x22

def svcSendAsyncRequestWithUserBuffer : Wrapper := storing 0x23 0 .word [.word 0]

def svcGetProcessId : Wrapper := storing 0x24 0 .xword [.xword 0]

def svcGetThreadId : Wrapper := storing 0x25 0 .xword [.xword 0]

def svcBreak : Wrapper := plain 0x26

def svcOutputDebugString : Wrapper := plain 0x27

def svcReturnFromException : Wrapper := plain 0x28

def svcGetInfo : Wrapper := storing 0x29 0 .xword [.xword 0]

def svcMapPhysicalMemory : Wrapper := plain 0x2C

def svcUnmapPhysicalMemory : Wrapper := plain 0x2D

def svcGetResourceLimitLimitValue : Wrapper := storing 0x30 0 .xword [.xword 0]

def svcGetResourceLimitCurrentValue : Wrapper := storing 0x31 0 .xword [.xword 0]

def svcSetThreadActivity : Wrapper := plain 0x32

def svcGetThreadContext3 : Wrapper := plain 0x33

def svcCreateSession : Wrapper := storingTwo 0x40 .word [.word 0,.word 1]

def svcAcceptSession : Wrapper := storing 0x41 0 .word [.word 0]

def svcReplyAndReceive : Wrapper := storing 0x43 0 .word [.word 0]

def svcReplyAndReceiveWithUserBuffer : Wrapper := storing 0x44 0 .word [.word 0]

def svcCreateEvent : Wrapper := storingTwo 0x45 .word [.word 0,.word 1]

def svcMapPhysicalMemoryUnsafe : Wrapper := plain 0x48

def svcUnmapPhysicalMemoryUnsafe : Wrapper := plain 0x49

def svcSetUnsafeLimit : Wrapper := plain 0x4A

def svcCreateCodeMemory : Wrapper := storing 0x4B 0 .word [.word 0]

def svcControlCodeMemory : Wrapper := plain 0x4C

def svcReadWriteRegister : Wrapper := storing 0x4E 0 .word [.word 0]

def svcCreateSharedMemory : Wrapper := storing 0x50 0 .word [.word 0]

def svcMapTransferMemory : Wrapper := plain 0x51

def svcUnmapTransferMemory : Wrapper := plain 0x52

def svcCreateInterruptEvent : Wrapper := storing 0x53 0 .word [.word 0]

def svcQueryPhysicalAddress : Wrapper where
  number := 0x54
  before := [.str 0 .sp (-16) .pre]
  after := [.ldr 4 .sp 16 .post,.stp 1 2 (.x 4) 0 .offset,.str 3 (.x 4) 16 .offset]
  outs := [.xword 0,⟨0,8,.xword⟩,⟨0,16,.xword⟩]

def svcQueryIoMapping : Wrapper := storing 0x55 0 .xword [.xword 0]

def svcCreateDeviceAddressSpace : Wrapper := storing 0x56 0 .word [.word 0]

def svcAttachDeviceAddressSpace : Wrapper := plain 0x57

def svcDetachDeviceAddressSpace : Wrapper := plain 0x58

def svcMapDeviceAddressSpaceByForce : Wrapper := plain 0x59

def svcMapDeviceAddressSpaceAligned : Wrapper := plain 0x5A

def svcUnmapDeviceAddressSpace : Wrapper := plain 0x5C

def svcDebugActiveProcess : Wrapper := storing 0x60 0 .word [.word 0]

def svcBreakDebugProcess : Wrapper := plain 0x61

def svcTerminateDebugProcess : Wrapper := plain 0x62

def svcGetDebugEvent : Wrapper := plain 0x63

def svcLegacyContinueDebugEvent : Wrapper := plain 0x64

def svcContinueDebugEvent : Wrapper := plain 0x64

def svcGetProcessList : Wrapper := storing 0x65 0 .word [.word 0]

def svcGetThreadList : Wrapper := storing 0x66 0 .word [.word 0]

def svcGetDebugThreadContext : Wrapper := plain 0x67

def svcSetDebugThreadContext : Wrapper := plain 0x68

def svcQueryDebugProcessMemory : Wrapper := storing 0x69 1 .word [.word 1]

def svcReadDebugProcessMemory : Wrapper := plain 0x6A

def svcWriteDebugProcessMemory : Wrapper := plain 0x6B

def svcGetDebugThreadParam : Wrapper := storingTwo 0x6D .xword [.xword 0,.word 1]

def svcGetSystemInfo : Wrapper := storing 0x6F 0 .xword [.xword 0]

def svcCreatePort : Wrapper := storingTwo 0x70 .word [.word 0,.word 1]

def svcManageNamedPort : Wrapper := storing 0x71 0 .word [.word 0]

def svcConnectToPort : Wrapper := storing 0x72 0 .word [.word 0]

def svcSetProcessMemoryPermission : Wrapper := plain 0x73

def svcMapProcessMemory : Wrapper := plain 0x74

def svcUnmapProcessMemory : Wrapper := plain 0x75

def svcQueryProcessMemory : Wrapper := storing 0x76 1 .word [.word 1]

def svcMapProcessCodeMemory : Wrapper := plain 0x77

def svcUnmapProcessCodeMemory : Wrapper := plain 0x78

def svcCreateProcess : Wrapper := storing 0x79 0 .word [.word 0]

def svcStartProcess : Wrapper := plain 0x7A

def svcTerminateProcess : Wrapper := plain 0x7B

def svcGetProcessInfo : Wrapper := storing 0x7C 0 .word [.xword 0]

def svcCreateResourceLimit : Wrapper := storing 0x7D 0 .word [.word 0]

def svcSetResourceLimitLimitValue : Wrapper := plain 0x7E

/-- The file, but for `svcCallSecureMonitor`. -/
def svcWrappers : List Wrapper :=
  [svcSetHeapSize,svcSetMemoryPermission,svcSetMemoryAttribute,svcMapMemory,svcUnmapMemory,
    svcQueryMemory,svcExitProcess,svcCreateThread,svcStartThread,svcExitThread,svcSleepThread,
    svcGetThreadPriority,svcSetThreadPriority,svcGetThreadCoreMask,svcSetThreadCoreMask,
    svcGetCurrentProcessorNumber,svcSignalEvent,svcClearEvent,svcMapSharedMemory,
    svcUnmapSharedMemory,svcCreateTransferMemory,svcCloseHandle,svcResetSignal,
    svcWaitSynchronization,svcCancelSynchronization,svcArbitrateLock,svcArbitrateUnlock,
    svcWaitProcessWideKeyAtomic,svcSignalProcessWideKey,svcGetSystemTick,svcConnectToNamedPort,
    svcSendSyncRequest,svcSendSyncRequestWithUserBuffer,svcSendAsyncRequestWithUserBuffer,
    svcGetProcessId,svcGetThreadId,svcBreak,svcOutputDebugString,svcReturnFromException,
    svcGetInfo,svcMapPhysicalMemory,svcUnmapPhysicalMemory,svcGetResourceLimitLimitValue,
    svcGetResourceLimitCurrentValue,svcSetThreadActivity,svcGetThreadContext3,svcCreateSession,
    svcAcceptSession,svcReplyAndReceive,svcReplyAndReceiveWithUserBuffer,svcCreateEvent,
    svcMapPhysicalMemoryUnsafe,svcUnmapPhysicalMemoryUnsafe,svcSetUnsafeLimit,svcCreateCodeMemory,
    svcControlCodeMemory,svcReadWriteRegister,svcCreateSharedMemory,svcMapTransferMemory,
    svcUnmapTransferMemory,svcCreateInterruptEvent,svcQueryPhysicalAddress,svcQueryIoMapping,
    svcCreateDeviceAddressSpace,svcAttachDeviceAddressSpace,svcDetachDeviceAddressSpace,
    svcMapDeviceAddressSpaceByForce,svcMapDeviceAddressSpaceAligned,svcUnmapDeviceAddressSpace,
    svcDebugActiveProcess,svcBreakDebugProcess,svcTerminateDebugProcess,svcGetDebugEvent,
    svcLegacyContinueDebugEvent,svcContinueDebugEvent,svcGetProcessList,svcGetThreadList,
    svcGetDebugThreadContext,svcSetDebugThreadContext,svcQueryDebugProcessMemory,
    svcReadDebugProcessMemory,svcWriteDebugProcessMemory,svcGetDebugThreadParam,svcGetSystemInfo,
    svcCreatePort,svcManageNamedPort,svcConnectToPort,svcSetProcessMemoryPermission,
    svcMapProcessMemory,svcUnmapProcessMemory,svcQueryProcessMemory,svcMapProcessCodeMemory,
    svcUnmapProcessCodeMemory,svcCreateProcess,svcStartProcess,svcTerminateProcess,
    svcGetProcessInfo,svcCreateResourceLimit,svcSetResourceLimitLimitValue]

section Kernel
variable {σ : Type}

/-- What a system call does to the core, or that it does not come back. -/
abbrev KernelCall (σ : Type) := BitVec 16 → Core σ → Option (Core σ)

/-- What a system call keeps. -/
structure Keeps (t u : Core σ) : Prop where
  sp : u.sp = t.sp
  x : ∀ r : Reg, 19 ≤ r.val → r.val ≤ 30 → u.x r = t.x r

def Documented (kernel : KernelCall σ) : Prop := ∀ {n t u}, kernel n t = some u → Keeps t u

def Wrapper.routine (w : Wrapper) (kernel : KernelCall σ) (start : Addr) :
    Routine (BitVec 16) σ := ⟨w.code,start,kernel⟩

/-- The system call finds what the caller has passed. -/
structure Entered (s t : Core σ) : Prop where
  x : t.x = s.x
  q : t.q = s.q
  world : t.world = s.world
  sp : (s.sp-t.sp).toNat ≤ 16
  mem : ∀ a, 16 ≤ (a-(s.sp-16)).toNat → t.mem a = s.mem a

/-- The kernel writes nothing below the caller's stack pointer, where no buffer is. -/
def Spares (s t u : Core σ) : Prop := ∀ a, (a-(s.sp-16)).toNat < 16 → u.mem a = t.mem a

/-- The caller finds what the system call has left, and its own registers. -/
structure Returned (s u s' : Core σ) : Prop where
  result : s'.x 0 = u.x 0
  q : s'.q = u.q
  world : s'.world = u.world
  sp : s'.sp = s.sp
  x : ∀ r : Reg, 19 ≤ r.val → r.val ≤ 30 → s'.x r = s.x r

def Width.put : Width → Mem → Addr → BitVec 64 → Mem
  | .word,m,a,v => m.write32 a (v.setWidth 32)
  | .xword,m,a,v => m.write64 a v

/-- A value that the kernel returns goes where the argument points to. -/
def Out.put (o : Out) (s : Core σ) (v : BitVec 64) (m : Mem) : Mem :=
  o.width.put m (s.x o.arg+o.offset) v

/-- `x1`, `x2` and so on are stored at the out pointers, in their order. -/
def putOuts (outs : List Out) (s u : Core σ) : Mem :=
  (outs.zip [1,2,3]).foldl (fun m o => o.1.put s (u.x o.2) m) u.mem

/-- What the lines of a wrapper do, if it stores at `outs`. -/
def Wrapper.Does (w : Wrapper) (kernel : KernelCall σ) (outs : List Out) : Prop :=
  ∀ s, ∃ t, execBlock kernel w.before s = some t ∧ Entered s t ∧
    ∀ u, Keeps t u → Spares s t u →
      ∃ s', execBlock kernel w.after u = some s' ∧ Returned s u s' ∧ s'.mem = putOuts outs s u

end Kernel

section Words

theorem write32_eq_self_iff {m : Mem} {a : Addr} {v : Word} :
    m.write32 a v = m ↔ m.read32 a = v := by
  constructor
  · intro h
    rw [← h, Mem.read32_write32_self]
  · rintro rfl
    funext x
    by_cases hx : (x-a).toNat < 4
    · have hxa : a+BitVec.ofNat 64 (x-a).toNat = x := by bv_omega
      rw [Mem.write32, if_pos hx, Mem.byte_read32 m a hx, hxa]
    · exact Mem.write32_apply_of_le _ _ _ _ (by omega)

/-- A doubleword of which only the low word is stored. -/
theorem write32_eq_write64_iff {m : Mem} {a : Addr} {v : BitVec 64} :
    m.write32 a (v.setWidth 32) = m.write64 a v ↔ m.read32 (a+4) = v.extractLsb' 32 32 := by
  have hlow : v.extractLsb' 0 32 = v.setWidth 32 :=
    (BitVec.setWidth_eq_extractLsb' (by decide)).symm
  have hsep : Sep (a+4) 4 a 4 := ⟨by bv_omega,by bv_omega⟩
  rw [Mem.write64, hlow, eq_comm, write32_eq_self_iff, Mem.read32_write32_of_sep _ _ hsep]

end Words

section Lines
variable {σ : Type} {s t u : Core σ} {m : Mem} (kernel : KernelCall σ)

theorem store_effect (width : Width) {rt rn : Reg} (hrt : rt ≠ 31) (hrn : rn ≠ 31) (s : Core σ) :
    (width.store rt rn).effect kernel s =
      some { s with mem := width.put s.mem (s.x rn) (s.x rt) } := by
  have haddr : s.address (.x rn) 0 .offset = s.x rn :=
    (BitVec.add_zero (s.get rn)).trans (Core.get_of_ne s hrn)
  cases width <;> rw [Width.store, Instr.effect, haddr, Core.get_of_ne s hrt] <;> rfl

theorem str_push_effect {rt : Reg} (hrt : rt ≠ 31) (s : Core σ) :
    (Instr.str rt .sp (-16) .pre).effect kernel s =
      some { s with sp := s.sp-16, mem := s.mem.write64 (s.sp-16) (s.x rt) } := by
  have hsub : s.sp+-16 = s.sp-16 := by bv_omega
  rw [Instr.effect, Core.address_sp_pre, Core.writeBack_sp_pre, hsub, Core.get_of_ne s hrt]

theorem ldr_pop_effect {rt : Reg} (hrt : rt ≠ 31) (s : Core σ) :
    (Instr.ldr rt .sp 16 .post).effect kernel s =
      some { s with sp := s.sp+16, x := Function.update s.x rt (s.mem.read64 s.sp) } := by
  rw [Instr.effect, Core.address_sp_post, Core.writeBack_sp_post, Core.set_of_ne _ hrt]

theorem stp_push_effect {rt rt2 : Reg} (hrt : rt ≠ 31) (hrt2 : rt2 ≠ 31) (s : Core σ) :
    (Instr.stp rt rt2 .sp (-16) .pre).effect kernel s =
      some { s with
        sp := s.sp-16
        mem := (s.mem.write64 (s.sp-16) (s.x rt)).write64 (s.sp-16+8) (s.x rt2) } := by
  have hsub : s.sp+-16 = s.sp-16 := by bv_omega
  rw [Instr.effect, Core.address_sp_pre, Core.writeBack_sp_pre, hsub, Core.get_of_ne s hrt,
    Core.get_of_ne s hrt2]

theorem ldp_pop_effect {rt rt2 : Reg} (hrt : rt ≠ 31) (hrt2 : rt2 ≠ 31) (s : Core σ) :
    (Instr.ldp rt rt2 .sp 16 .post).effect kernel s =
      some { s with
        sp := s.sp+16
        x := Function.update (Function.update s.x rt (s.mem.read64 s.sp)) rt2
          (s.mem.read64 (s.sp+8)) } := by
  rw [Instr.effect, Core.address_sp_post, Core.writeBack_sp_post, Core.set_of_ne _ hrt,
    Core.set_of_ne _ hrt2]

/-- What a wrapper has pushed is there when the system call comes back. -/
theorem pushed_read (hs : Spares s t u) {a : Addr} (ha : (a-(s.sp-16)).toNat ≤ 8) :
    u.mem.read64 a = t.mem.read64 a := Mem.read64_congr fun x hx => hs x (by bv_omega)

theorem plain_does (n : BitVec 16) : (plain n).Does kernel [] := by
  intro s
  refine ⟨s,rfl,⟨rfl,rfl,rfl,?_,fun _ _ => rfl⟩,fun u hk _ => ⟨u,rfl,?_,rfl⟩⟩
  · rw [BitVec.sub_self]
    exact Nat.zero_le _
  · exact ⟨rfl,rfl,rfl,hk.sp,hk.x⟩

theorem pop_sp (hsp : u.sp = s.sp-16) : u.sp+16 = s.sp := by
  rw [hsp]
  bv_omega

theorem entered_pushed {t : Core σ} (hx : t.x = s.x) (hq : t.q = s.q) (hw : t.world = s.world)
    (hsp : t.sp = s.sp-16) (hmem : ∀ a, 16 ≤ (a-(s.sp-16)).toNat → t.mem a = s.mem a) :
    Entered s t := by
  refine ⟨hx,hq,hw,?_,hmem⟩
  rw [hsp]
  bv_omega

theorem storing_does (n : BitVec 16) {arg : Reg} (harg : arg ≠ 31) (stored : Width)
    (outs : List Out) : (storing n arg stored outs).Does kernel [⟨arg,0,stored⟩] := by
  intro s
  refine ⟨_,execBlock_cons (str_push_effect kernel harg s),
    entered_pushed rfl rfl rfl rfl fun a ha => Mem.write64_apply_of_le _ _ (by omega),
    fun u hk hs => ?_⟩
  have hread : u.mem.read64 u.sp = s.x arg := by
    rw [hk.sp]
    refine (pushed_read hs ?_).trans (Mem.read64_write64_self _ _ _)
    rw [BitVec.sub_self]
    decide
  refine ⟨_,(execBlock_cons (ldr_pop_effect kernel (by decide) u)).trans
    (execBlock_cons (store_effect kernel stored (by decide) (by decide) _)),
    ⟨?_,rfl,rfl,pop_sp hk.sp,fun r hlo hhi => ?_⟩,?_⟩
  · exact Function.update_of_ne (show (0:Reg) ≠ 2 by decide) (u.mem.read64 u.sp) u.x
  · refine (Function.update_of_ne ?_ _ _).trans (hk.x r hlo hhi)
    rintro rfl
    simp at hlo
  · have h0 : s.x arg+0 = s.x arg := BitVec.add_zero _
    change stored.put u.mem (u.mem.read64 u.sp) (u.x 1) = stored.put u.mem (s.x arg+0) (u.x 1)
    rw [hread, h0]

theorem storingTwo_does (n : BitVec 16) (first : Width) (outs : List Out) :
    (storingTwo n first outs).Does kernel [⟨0,0,first⟩,.word 1] := by
  intro s
  refine ⟨_,execBlock_cons (stp_push_effect kernel (by decide) (by decide) s),
    entered_pushed rfl rfl rfl rfl fun a ha => ?_,fun u hk hs => ?_⟩
  · exact (Mem.write64_apply_of_le _ _ (by bv_omega)).trans (Mem.write64_apply_of_le _ _ (by omega))
  have hsep : Sep (s.sp-16) 8 (s.sp-16+8) 8 := ⟨by bv_omega,by bv_omega⟩
  -- both out pointers are still on the stack
  have hread0 : u.mem.read64 u.sp = s.x 0 := by
    rw [hk.sp]
    refine (pushed_read hs ?_).trans ((Mem.read64_write64_of_sep _ _ hsep).trans
      (Mem.read64_write64_self _ _ _))
    rw [BitVec.sub_self]
    decide
  have hread1 : u.mem.read64 (u.sp+8) = s.x 1 := by
    rw [hk.sp]
    refine (pushed_read hs ?_).trans (Mem.read64_write64_self _ _ _)
    bv_omega
  refine ⟨_,(execBlock_cons (ldp_pop_effect kernel (by decide) (by decide) u)).trans
    ((execBlock_cons (store_effect kernel first (by decide) (by decide) _)).trans
      (execBlock_cons (store_effect kernel .word (by decide) (by decide) _))),
    ⟨?_,rfl,rfl,pop_sp hk.sp,fun r hlo hhi => ?_⟩,?_⟩
  · rfl
  · have h3 : r ≠ 3 := by
      rintro rfl
      simp at hlo
    have h4 : r ≠ 4 := by
      rintro rfl
      simp at hlo
    exact (Function.update_of_ne h4 _ _).trans ((Function.update_of_ne h3 _ _).trans
      (hk.x r hlo hhi))
  · have h0 : s.x 0+0 = s.x 0 := BitVec.add_zero _
    have h1 : s.x 1+0 = s.x 1 := BitVec.add_zero _
    change Width.word.put (first.put u.mem (u.mem.read64 u.sp) (u.x 1)) (u.mem.read64 (u.sp+8))
      (u.x 2) = Width.word.put (first.put u.mem (s.x 0+0) (u.x 1)) (s.x 1+0) (u.x 2)
    rw [hread0, hread1, h0, h1]

theorem svcQueryPhysicalAddress_does :
    svcQueryPhysicalAddress.Does kernel svcQueryPhysicalAddress.outs := by
  intro s
  refine ⟨_,execBlock_cons (str_push_effect kernel (by decide) s),
    entered_pushed rfl rfl rfl rfl fun a ha => Mem.write64_apply_of_le _ _ (by omega),
    fun u hk hs => ?_⟩
  have hread : u.mem.read64 u.sp = s.x 0 := by
    rw [hk.sp]
    refine (pushed_read hs ?_).trans (Mem.read64_write64_self _ _ _)
    rw [BitVec.sub_self]
    decide
  refine ⟨{ u with
    sp := u.sp+16
    x := Function.update u.x 4 (u.mem.read64 u.sp)
    mem := ((u.mem.write64 (u.mem.read64 u.sp+0) (u.x 1)).write64
      (u.mem.read64 u.sp+0+8) (u.x 2)).write64 (u.mem.read64 u.sp+16) (u.x 3) },?_,
    ⟨rfl,rfl,rfl,pop_sp hk.sp,fun r hlo hhi => ?_⟩,?_⟩
  · exact execBlock_cons (ldr_pop_effect kernel (by decide) u)
  · refine (Function.update_of_ne ?_ _ _).trans (hk.x r hlo hhi)
    rintro rfl
    simp at hlo
  · have h0 : s.x 0+0+8 = s.x 0+8 := congrArg (·+8) (BitVec.add_zero _)
    rw [hread, h0]
    rfl

end Lines
section Table
variable {σ : Type} (kernel : KernelCall σ)

/-- The wrapper that stores just what its prototype says. -/
def Wrapper.standard (w : Wrapper) : Wrapper :=
  match w.outs with
  | [] => plain w.number
  | [o] => storing w.number o.arg o.width [⟨o.arg,0,o.width⟩]
  | o :: _ => storingTwo w.number o.width [⟨0,0,o.width⟩,.word 1]

theorem standard_eq : ∀ w ∈ svcWrappers, w ≠ svcGetProcessInfo → w ≠ svcQueryPhysicalAddress →
    w = w.standard ∧ ∀ o ∈ w.outs, o.arg ≠ 31 := by decide +kernel

/-- What a wrapper stores: of the value that `svcGetProcessInfo` returns, the low word only. -/
def Wrapper.stored (w : Wrapper) : List Out := if w = svcGetProcessInfo then [.word 0] else w.outs

theorem standard_does (w : Wrapper) (harg : ∀ o ∈ w.outs, o.arg ≠ 31) :
    w.standard.Does kernel w.standard.outs := by
  obtain ⟨number,before,after,outs⟩ := w
  match outs with
  | [] => exact plain_does kernel number
  | [o] => exact storing_does kernel number (harg o List.mem_cons_self) o.width _
  | o :: _ :: _ => exact storingTwo_does kernel number o.width _

theorem wrapper_does {w : Wrapper} (hw : w ∈ svcWrappers) : w.Does kernel w.stored := by
  by_cases hinfo : w = svcGetProcessInfo
  · rw [Wrapper.stored, if_pos hinfo, hinfo]
    exact storing_does kernel 0x7C (by decide) .word _
  rw [Wrapper.stored, if_neg hinfo]
  by_cases hphys : w = svcQueryPhysicalAddress
  · rw [hphys]
    exact svcQueryPhysicalAddress_does kernel
  · obtain ⟨h,harg⟩ := standard_eq w hw hinfo hphys
    have hdoes := standard_does kernel w harg
    rwa [← h] at hdoes

theorem wrapper_straight {w : Wrapper} (hw : w ∈ svcWrappers) :
    (∀ i ∈ w.before, i.straight = true) ∧ ∀ i ∈ w.after, i.straight = true := by
  have h : ∀ w ∈ svcWrappers, (∀ i ∈ w.before, i.straight = true) ∧
      ∀ i ∈ w.after, i.straight = true := by decide +kernel
  exact h w hw

end Table

section Run
variable {σ : Type} {kernel : KernelCall σ} (hk : Documented kernel)
include hk

/-- Every wrapper makes its system call with what the caller has passed, and returns to the caller
with what the kernel has left, if the kernel comes back. What the prototype promises is stored,
but for the high word of what `svcGetProcessInfo` returns: that word of `*out` stays as it is. -/
theorem svc_wrapper_calls {w : Wrapper} (hw : w ∈ svcWrappers) (start : Addr) (s : Core σ) :
    ∃ t, Entered s t ∧
      (kernel w.number t = none → ∀ a s', ¬(w.routine kernel start).Leaves s a s') ∧
      ∀ u, kernel w.number t = some u → Spares s t u →
        ∃ s', (w.routine kernel start).Leaves s (s.x 30) s' ∧ Returned s u s' ∧
          s'.mem = putOuts w.stored s u ∧
          (s'.mem = putOuts w.outs s u ↔
            (w = svcGetProcessInfo → u.mem.read32 (s.x 0+4) = (u.x 1).extractLsb' 32 32)) := by
  obtain ⟨hbefore,hafter⟩ := wrapper_straight hw
  obtain ⟨t,ht,hentered,hback⟩ := wrapper_does kernel hw s
  have hcode : (w.routine kernel start).code = w.before++(.sys w.number :: (w.after++[.ret])) := rfl
  refine ⟨t,hentered,fun hnone a s' => Routine.not_leaves_call hcode hbefore ht hnone,
    fun u hu hspares => ?_⟩
  obtain ⟨s',hs',hreturned,hmem⟩ := hback u (hk hu) hspares
  have hleaves := Routine.leaves_call hcode hbefore ht hafter hu hs'
  have hlr : s'.get 30 = s.x 30 := (Core.get_of_ne s' (by decide)).trans
    (hreturned.x 30 (by decide) (by decide))
  rw [hlr] at hleaves
  refine ⟨s',hleaves,hreturned,hmem,?_⟩
  rw [hmem, Wrapper.stored]
  -- the one wrapper that stores a word where the prototype has 64 bits
  by_cases hinfo : w = svcGetProcessInfo
  · rw [if_pos hinfo, hinfo]
    refine Iff.trans ?_ (forall_prop_of_true rfl).symm
    have h0 : s.x 0+0 = s.x 0 := BitVec.add_zero _
    have hlow : putOuts [.word 0] s u = u.mem.write32 (s.x 0) ((u.x 1).setWidth 32) :=
      congrArg (u.mem.write32 · _) h0
    have hfull : putOuts svcGetProcessInfo.outs s u = u.mem.write64 (s.x 0) (u.x 1) :=
      congrArg (u.mem.write64 · _) h0
    rw [hlow, hfull]
    exact write32_eq_write64_iff
  · rw [if_neg hinfo]
    exact iff_of_true rfl fun h => absurd h hinfo

end Run

section Witness

/-- The call succeeds with the value 0x100000005. -/
def oneValue (t : Core Unit) : Core Unit :=
  { t with x := Function.update (Function.update t.x 0 0) 1 0x100000005 }

def oneValueKernel : KernelCall Unit := fun _ t => some (oneValue t)

theorem oneValueKernel_documented : Documented oneValueKernel := by
  intro n t u hu
  cases hu
  refine ⟨rfl,fun r hlo _ => ?_⟩
  have h0 : r ≠ 0 := by
    rintro rfl
    simp at hlo
  have h1 : r ≠ 1 := by
    rintro rfl
    simp at hlo
  exact (Function.update_of_ne h1 _ _).trans (Function.update_of_ne h0 _ _)

/-- A caller whose argument points to 0x9000, in memory that is zero. -/
def zeroCaller : Core Unit :=
  ⟨fun r => if r = 0 then 0x9000 else 0,fun _ => 0,0x8000,false,false,fun _ => 0,()⟩

theorem svc_wrapper_calls_info : ∃ u : Core Unit, ∃ s',
    (svcGetProcessInfo.routine oneValueKernel 0).Leaves zeroCaller 0 s' ∧ u.x 1 = 0x100000005 ∧
      s'.mem ≠ putOuts svcGetProcessInfo.outs zeroCaller u := by
  obtain ⟨t,ht,-,h⟩ := svc_wrapper_calls oneValueKernel_documented
    (show svcGetProcessInfo ∈ svcWrappers by decide +kernel) 0 zeroCaller
  obtain ⟨s',hleaves,-,-,hiff⟩ := h _ rfl fun _ _ => rfl
  refine ⟨oneValue t,s',hleaves,Function.update_self (1:Reg) _ (Function.update t.x 0 0),
    fun hmem => ?_⟩
  have hword := hiff.mp hmem rfl
  have hzero : t.mem.read32 0x9004 = 0 := by
    refine (@Mem.read32_congr _ zeroCaller.mem _ fun i hi => ht.mem _ ?_).trans rfl
    change 16 ≤ ((0x9004:Addr)+BitVec.ofNat 64 i-(0x8000-16)).toNat
    bv_omega
  have hne : (0:Word) ≠ (0x100000005:BitVec 64).extractLsb' 32 32 := by decide
  exact hne (hzero.symm.trans hword)

end Witness

section SecureMonitor
variable {σ : Type} {args : Addr} {n : ℕ} {s t u : Core σ}

def svcCallSecureMonitor : Wrapper where
  number := 0x7F
  before := [.str 0 .sp (-16) .pre,.mov 8 (.reg 0),.ldp 0 1 (.x 8) 0 .offset,
    .ldp 2 3 (.x 8) 0x10 .offset,.ldp 4 5 (.x 8) 0x20 .offset,.ldp 6 7 (.x 8) 0x30 .offset]
  after := [.ldr 8 .sp 16 .post,.stp 0 1 (.x 8) 0 .offset,.stp 2 3 (.x 8) 0x10 .offset,
    .stp 4 5 (.x 8) 0x20 .offset,.stp 6 7 (.x 8) 0x30 .offset]
  outs := []

/-- Where `SecmonArgs` has its word `k`. -/
def secmonWord (args : Addr) (k : ℕ) : Addr := args+BitVec.ofNat 64 (8*k)

/-- The first `n` registers are stored, one after another. -/
def putSecmon (args : Addr) (u : Core σ) : ℕ → Mem
  | 0 => u.mem
  | n+1 => (putSecmon args u n).write64 (secmonWord args n) (u.x (Fin.ofNat 32 n))

theorem putSecmon_congr {v : Core σ} (hx : ∀ r : Reg, r.val < 8 → v.x r = u.x r)
    (hmem : v.mem = u.mem) (hn : n ≤ 8) : putSecmon args v n = putSecmon args u n := by
  induction n with
  | zero => exact hmem
  | succ n ih =>
    have hval : (Fin.ofNat 32 n).val < 8 := by
      simp only [Fin.val_ofNat]
      omega
    rw [putSecmon, putSecmon, ih (by omega), hx _ hval]

/-- The first `n` registers have been loaded. -/
structure Loading (args : Addr) (n : ℕ) (s t : Core σ) : Prop where
  loaded : ∀ r : Reg, r.val < n → t.x r = s.mem.read64 (secmonWord args r.val)
  base : t.x 8 = args
  x : ∀ r : Reg, 9 ≤ r.val → t.x r = s.x r
  rest : t = { s with x := t.x }

/-- The first `n` registers have been stored. -/
structure Storing (args : Addr) (n : ℕ) (u t : Core σ) : Prop where
  base : u.x 8 = args
  rest : t = { u with mem := putSecmon args u n }

section Pairs
variable (kernel : KernelCall σ) {rt rt2 : Reg} (hrt : rt.val = n) (hrt2 : rt2.val = n+1)
  (hn : n+2 ≤ 8) {imm : BitVec 64} (himm : imm = BitVec.ofNat 64 (8*n))
include hrt hrt2 hn himm

theorem Loading.ldp (h : Loading args n s t) :
    ∃ u, (Instr.ldp rt rt2 (.x 8) imm .offset).effect kernel t = some u ∧
      Loading args (n+2) s u := by
  have hrt31 : rt ≠ 31 := by
    rintro rfl
    simp at hrt
    omega
  have hrt231 : rt2 ≠ 31 := by
    rintro rfl
    simp at hrt2
    omega
  have haddr : t.address (.x 8) imm .offset = secmonWord args n := by
    change t.get 8+imm = _
    rw [Core.get_of_ne t (by decide), h.base, himm, secmonWord]
  have hnext : secmonWord args n+8 = secmonWord args (n+1) := by
    rw [secmonWord, secmonWord]
    bv_omega
  have hmem : t.mem = s.mem := by
    have h' := congrArg Core.mem h.rest
    exact h'
  -- the pair goes to `rt` and `rt2`, none of which is `x8`
  refine ⟨{ t with
    x := Function.update (Function.update t.x rt (s.mem.read64 (secmonWord args n))) rt2
      (s.mem.read64 (secmonWord args (n+1))) },?_,fun r hr => ?_,?_,fun r hr => ?_,?_⟩
  · rw [Instr.effect, haddr, Core.writeBack_offset, Core.set_of_ne _ hrt31, Core.set_of_ne _ hrt231,
      hnext, hmem]
  · rcases eq_or_ne r rt2 with rfl | h2
    · rw [hrt2]
      exact Function.update_self _ _ _
    refine (Function.update_of_ne h2 _ _).trans ?_
    rcases eq_or_ne r rt with rfl | h1
    · rw [hrt]
      exact Function.update_self _ _ _
    · have hval1 : r.val ≠ rt.val := fun he => h1 (Fin.ext he)
      have hval2 : r.val ≠ rt2.val := fun he => h2 (Fin.ext he)
      rw [Function.update_of_ne h1]
      apply h.loaded
      omega
  · have h1 : (8:Reg) ≠ rt := by
      rintro rfl
      simp at hrt
      omega
    have h2 : (8:Reg) ≠ rt2 := by
      rintro rfl
      simp at hrt2
      omega
    exact (Function.update_of_ne h2 _ _).trans ((Function.update_of_ne h1 _ _).trans h.base)
  · have h1 : r ≠ rt := by
      rintro rfl
      omega
    have h2 : r ≠ rt2 := by
      rintro rfl
      omega
    exact (Function.update_of_ne h2 _ _).trans ((Function.update_of_ne h1 _ _).trans (h.x r hr))
  · rw [h.rest]

theorem Storing.stp (h : Storing args n u t) :
    ∃ v, (Instr.stp rt rt2 (.x 8) imm .offset).effect kernel t = some v ∧
      Storing args (n+2) u v := by
  have hrt31 : rt ≠ 31 := by
    rintro rfl
    simp at hrt
    omega
  have hrt231 : rt2 ≠ 31 := by
    rintro rfl
    simp at hrt2
    omega
  have h1 : rt = Fin.ofNat 32 n := Fin.ext (by rw [hrt]; simp; omega)
  have h2 : rt2 = Fin.ofNat 32 (n+1) := Fin.ext (by rw [hrt2]; simp; omega)
  have hx : t.x = u.x := by
    have h' := congrArg Core.x h.rest
    exact h'
  have haddr : t.address (.x 8) imm .offset = secmonWord args n := by
    change t.get 8+imm = _
    rw [Core.get_of_ne t (by decide), hx, h.base, himm, secmonWord]
  have hnext : secmonWord args n+8 = secmonWord args (n+1) := by
    rw [secmonWord, secmonWord]
    bv_omega
  refine ⟨{ u with mem := putSecmon args u (n+2) },?_,h.base,rfl⟩
  rw [Instr.effect, haddr, Core.writeBack_offset, Core.get_of_ne t hrt31, Core.get_of_ne t hrt231,
    hnext, hx, h1, h2, h.rest]
  rfl

end Pairs

/-- Before the call the pointer to `SecmonArgs` is pushed, and its words are loaded. -/
theorem secmon_before (kernel : KernelCall σ) (s : Core σ) :
    ∃ t, execBlock kernel svcCallSecureMonitor.before s = some t ∧
      Loading (s.x 0) 8
        { s with sp := s.sp-16, mem := s.mem.write64 (s.sp-16) (s.x 0) } t := by
  let s₁ : Core σ := { s with sp := s.sp-16, mem := s.mem.write64 (s.sp-16) (s.x 0) }
  have h₀ : Loading (s.x 0) 0 s₁ { s₁ with x := Function.update s.x 8 (s.x 0) } := by
    refine ⟨nofun,Function.update_self (8:Reg) _ s.x,fun r hr => Function.update_of_ne ?_ _ _,rfl⟩
    rintro rfl
    simp at hr
  obtain ⟨t₁,e₁,h₁⟩ := h₀.ldp kernel (show (0:Reg).val = 0 from rfl) (show (1:Reg).val = 1 from rfl)
    (by decide) (show (0:BitVec 64) = _ by rfl)
  obtain ⟨t₂,e₂,h₂⟩ := h₁.ldp kernel (show (2:Reg).val = 2 from rfl) (show (3:Reg).val = 3 from rfl)
    (by decide) (show (0x10:BitVec 64) = _ by rfl)
  obtain ⟨t₃,e₃,h₃⟩ := h₂.ldp kernel (show (4:Reg).val = 4 from rfl) (show (5:Reg).val = 5 from rfl)
    (by decide) (show (0x20:BitVec 64) = _ by rfl)
  obtain ⟨t,e₄,h⟩ := h₃.ldp kernel (show (6:Reg).val = 6 from rfl) (show (7:Reg).val = 7 from rfl)
    (by decide) (show (0x30:BitVec 64) = _ by rfl)
  have hpush := str_push_effect kernel (show (0:Reg) ≠ 31 by decide) s
  have hmov : (Instr.mov 8 (.reg 0)).effect kernel s₁ = some _ := rfl
  refine ⟨t,?_,h⟩
  apply (execBlock_cons hpush).trans
  apply (execBlock_cons hmov).trans
  exact (execBlock_cons e₁).trans ((execBlock_cons e₂).trans ((execBlock_cons e₃).trans
    (execBlock_cons e₄)))

/-- After the call the pointer is popped, and the words of the kernel are stored. -/
theorem secmon_after (kernel : KernelCall σ) {u : Core σ} (hread : u.mem.read64 u.sp = args) :
    execBlock kernel svcCallSecureMonitor.after u = some
      { u with sp := u.sp+16, x := Function.update u.x 8 args, mem := putSecmon args u 8 } := by
  subst hread
  let v : Core σ := { u with sp := u.sp+16, x := Function.update u.x 8 (u.mem.read64 u.sp) }
  have g₀ : Storing (u.mem.read64 u.sp) 0 v v := ⟨Function.update_self (8:Reg) _ u.x,rfl⟩
  obtain ⟨v₁,f₁,g₁⟩ := g₀.stp kernel (show (0:Reg).val = 0 from rfl)
    (show (1:Reg).val = 1 from rfl) (by decide) (show (0:BitVec 64) = _ by rfl)
  obtain ⟨v₂,f₂,g₂⟩ := g₁.stp kernel (show (2:Reg).val = 2 from rfl)
    (show (3:Reg).val = 3 from rfl) (by decide) (show (0x10:BitVec 64) = _ by rfl)
  obtain ⟨v₃,f₃,g₃⟩ := g₂.stp kernel (show (4:Reg).val = 4 from rfl)
    (show (5:Reg).val = 5 from rfl) (by decide) (show (0x20:BitVec 64) = _ by rfl)
  obtain ⟨s',f₄,g⟩ := g₃.stp kernel (show (6:Reg).val = 6 from rfl)
    (show (7:Reg).val = 7 from rfl) (by decide) (show (0x30:BitVec 64) = _ by rfl)
  -- `x8` holds the pointer now, and it is not among the registers that are stored
  have hput : putSecmon (u.mem.read64 u.sp) v 8 = putSecmon (u.mem.read64 u.sp) u 8 := by
    refine putSecmon_congr (fun r hr => Function.update_of_ne ?_ _ _) rfl le_rfl
    rintro rfl
    simp at hr
  have hpop := ldr_pop_effect kernel (show (8:Reg) ≠ 31 by decide) u
  rw [← hput]
  apply (execBlock_cons hpop).trans
  refine ((execBlock_cons f₁).trans ((execBlock_cons f₂).trans ((execBlock_cons f₃).trans
    (execBlock_cons f₄)))).trans ?_
  exact congrArg some g.rest

/-- The words are passed, the kernel's words take their place, and nothing else changes. -/
theorem svcCallSecureMonitor_passes {kernel : KernelCall σ} (hk : Documented kernel)
    (start : Addr) (s : Core σ) (hsep : Sep (s.x 0) 64 (s.sp-16) 16) :
    ∃ t, (∀ r : Reg, r.val < 8 → t.x r = s.mem.read64 (secmonWord (s.x 0) r.val)) ∧
      (∀ a, 16 ≤ (a-(s.sp-16)).toNat → t.mem a = s.mem a) ∧
      (kernel 0x7F t = none → ∀ a s', ¬(svcCallSecureMonitor.routine kernel start).Leaves s a s') ∧
      ∀ u, kernel 0x7F t = some u → Spares s t u →
        ∃ s', (svcCallSecureMonitor.routine kernel start).Leaves s (s.x 30) s' ∧
          Returned s u s' ∧ s'.mem = putSecmon (s.x 0) u 8 := by
  obtain ⟨t,hbefore,h⟩ := secmon_before kernel s
  have htmem : t.mem = s.mem.write64 (s.sp-16) (s.x 0) := by
    have h' := congrArg Core.mem h.rest
    exact h'
  have htsp : t.sp = s.sp-16 := by
    have h' := congrArg Core.sp h.rest
    exact h'
  refine ⟨t,fun r hr => ?_,fun a ha => ?_,fun hnone a s' => ?_,fun u hu hs => ?_⟩
  · rw [h.loaded r hr]
    refine Mem.read64_congr fun x hx => Mem.write64_apply_of_le _ _ ?_
    obtain ⟨hs1,hs2⟩ := hsep
    rw [secmonWord] at hx
    bv_omega
  · rw [htmem]
    exact Mem.write64_apply_of_le _ _ (by omega)
  · exact Routine.not_leaves_call rfl (by decide) hbefore hnone
  · have hkeeps := hk hu
    have husp : u.sp = s.sp-16 := hkeeps.sp.trans htsp
    -- the pointer is still on the stack
    have hread : u.mem.read64 u.sp = s.x 0 := by
      rw [husp]
      refine (pushed_read hs ?_).trans ?_
      · rw [BitVec.sub_self]
        decide
      · rw [htmem]
        exact Mem.read64_write64_self _ _ _
    have hcode : (svcCallSecureMonitor.routine kernel start).code = svcCallSecureMonitor.before++
      (.sys svcCallSecureMonitor.number :: (svcCallSecureMonitor.after++[.ret])) := rfl
    have hleaves := Routine.leaves_call hcode (by decide) hbefore (by decide) hu
      (secmon_after kernel hread)
    have hx : ∀ r : Reg, r ≠ 8 → Function.update u.x 8 (s.x 0) r = u.x r :=
      fun r hr => Function.update_of_ne hr _ _
    have hkept : ∀ r : Reg, 19 ≤ r.val → r.val ≤ 30 →
        Function.update u.x 8 (s.x 0) r = s.x r := by
      intro r hlo hhi
      rw [hx r (by rintro rfl; simp at hlo), hkeeps.x r hlo hhi]
      exact h.x r (by omega)
    rw [Core.get_of_ne _ (by decide)] at hleaves
    dsimp only at hleaves
    rw [hkept 30 (by decide) (by decide)] at hleaves
    exact ⟨_,hleaves,⟨hx 0 (by decide),rfl,rfl,pop_sp husp,hkept⟩,rfl⟩

theorem read64_putSecmon {k : ℕ} (hk : k < n) (hn : n ≤ 8) :
    (putSecmon args u n).read64 (secmonWord args k) = u.x (Fin.ofNat 32 k) := by
  induction n with
  | zero => exact absurd hk (Nat.not_lt_zero k)
  | succ n ih =>
    rw [putSecmon]
    by_cases hkn : k = n
    · rw [hkn, Mem.read64_write64_self]
    · have hsep : Sep (secmonWord args k) 8 (secmonWord args n) 8 := by
        unfold secmonWord
        constructor <;> bv_omega
      rw [Mem.read64_write64_of_sep _ _ hsep]
      exact ih (by omega) (by omega)

/-- The last word is added to each of the eight. -/
def addLast (t : Core Unit) : Core Unit :=
  { t with x := fun r => if r.val < 8 then t.x r+t.x 7 else t.x r }

def addLastKernel : KernelCall Unit := fun _ t => some (addLast t)

theorem addLastKernel_documented : Documented addLastKernel := by
  intro n t u hu
  cases hu
  exact ⟨rfl,fun r hlo _ => if_neg (by omega)⟩

def secmonCaller : Core Unit :=
  { zeroCaller with
    mem := overlay (fun _ => 0) 0x9000 [0xc3000002,0,1,0,2,0,3,0,4,0,5,0,6,0,0x10,0] }

theorem svcCallSecureMonitor_passes_words : ∃ s',
    (svcCallSecureMonitor.routine addLastKernel 0).Leaves secmonCaller 0 s' ∧
      (List.range 8).map (fun k => s'.mem.read64 (secmonWord 0x9000 k)) =
        [0xc3000012,0x11,0x12,0x13,0x14,0x15,0x16,0x20] := by
  obtain ⟨t,hload,-,-,h⟩ := svcCallSecureMonitor_passes addLastKernel_documented 0 secmonCaller
    (by decide)
  obtain ⟨s',hleaves,-,hmem⟩ := h _ rfl fun _ _ => rfl
  refine ⟨s',hleaves,?_⟩
  have hword : ∀ k ∈ List.range 8, s'.mem.read64 (secmonWord 0x9000 k) =
      secmonCaller.mem.read64 (secmonWord 0x9000 k)+
        secmonCaller.mem.read64 (secmonWord 0x9000 7) := by
    intro k hk
    have hlt := List.mem_range.mp hk
    have hval : (Fin.ofNat 32 k).val = k := Nat.mod_eq_of_lt (by omega)
    calc
      s'.mem.read64 (secmonWord 0x9000 k) = (addLast t).x (Fin.ofNat 32 k) := by
        rw [hmem]
        exact read64_putSecmon hlt le_rfl
      _ = t.x (Fin.ofNat 32 k)+t.x 7 := if_pos (by omega)
      _ = _ := by
        rw [hload _ (by omega), hload 7 (by decide), hval]
        rfl
  rw [List.map_congr_left hword]
  decide +kernel

end SecureMonitor

end Zeldar.Svc
