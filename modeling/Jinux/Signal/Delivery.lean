import Jinux.Lib.Bytes
import Jinux.Signal.SigQueues

/-!
# Delivery of signals

A thread looks for a pending signal each time it is about to go back to user mode.  For a signal
with a handler it saves the user registers in a frame on the user stack and makes the thread go on
in the handler; `rt_sigreturn` takes them back from the frame.

* `SigAction`, `SigDefaultAction` : what is done with a signal;
* `UserMemory` : the memory of the process, in bytes, with the outcomes of the checks of an access;
* `Ucontext` : the saved registers and masks, and how they lie in memory;
* `UserThread` : the thread, with `handlePendingSignal`, `sysRtSigreturn`, `sysRtSigprocmask` and
  `sysRtSigaction`.
-/

namespace Jinux

open Result List

/-! ### Actions -/

/-- `SigActionFlags` -/
structure SigActionFlags where
  bits : BitVec 32
  deriving DecidableEq

namespace SigActionFlags

def saNocldstop : BitVec 32 := 1
def saNocldwait : BitVec 32 := 2
def saSiginfo : BitVec 32 := 4
def saOnstack : BitVec 32 := 0x08000000
def saRestart : BitVec 32 := 0x10000000
def saNodefer : BitVec 32 := 0x40000000
def saResethand : BitVec 32 := 0x80000000
def saRestorer : BitVec 32 := 0x04000000

/-- `all` -/
def all : BitVec 32 :=
  saNocldstop ||| saNocldwait ||| saSiginfo ||| saOnstack ||| saRestart ||| saNodefer |||
    saResethand ||| saRestorer

/-- `from_bits_truncate` -/
def fromBitsTruncate (bits : BitVec 32) : SigActionFlags := ⟨bits &&& all⟩

/-- `contains` -/
def contains (f : SigActionFlags) (flag : BitVec 32) : Bool := f.bits &&& flag = flag

/-- `contains_unsupported_flag` -/
def containsUnsupportedFlag (f : SigActionFlags) : Bool :=
  f.bits &&& (saNocldstop ||| saNocldwait ||| saResethand) ≠ 0

end SigActionFlags

/-- `sigaction_t` -/
structure SigactionT where
  handlerPtr : BitVec 64
  flags : BitVec 32
  restorerPtr : BitVec 64
  mask : BitVec 64

namespace SigactionT

/-- The words of a `sigaction_t` in memory; `flags` is followed by padding. -/
def words (a : SigactionT) : List (BitVec 64) :=
  [a.handlerPtr, a.flags.setWidth 64, a.restorerPtr, a.mask]

/-- The `sigaction_t` at an address. -/
def readFrom (m : Bytes) (a : ℕ) : SigactionT where
  handlerPtr := readWord m a
  flags := (readWord m (a + 8)).setWidth 32
  restorerPtr := readWord m (a + 16)
  mask := readWord m (a + 24)

end SigactionT

/-- `SigAction` -/
inductive SigAction where
  | dfl
  | ign
  | user (handlerAddr : BitVec 64) (flags : SigActionFlags) (restorerAddr : BitVec 64)
      (mask : SigMask)
  deriving DecidableEq

namespace SigAction

/-- `TryFrom<sigaction_t>`, which never fails. -/
def ofSigactionT (a : SigactionT) : SigAction :=
  if a.handlerPtr = 0 then .dfl
  else if a.handlerPtr = 1 then .ign
  else .user a.handlerPtr (.fromBitsTruncate a.flags) a.restorerPtr ⟨a.mask⟩

/-- `as_c_type` -/
def asCType : SigAction → SigactionT
  | dfl => ⟨0, 0, 0, 0⟩
  | ign => ⟨1, 0, 0, 0⟩
  | user handlerAddr flags restorerAddr mask => ⟨handlerAddr, flags.bits, restorerAddr, mask.bits⟩

end SigAction

/-- `SigDefaultAction` -/
inductive SigDefaultAction where
  | term
  | ign
  | core
  | stop
  | cont
  deriving DecidableEq

/-- `SigDefaultAction::from_signum` -/
def SigDefaultAction.fromSignum (num : SigNum) : SigDefaultAction :=
  if num ∈ [sigabrt, sigbus, sigfpe, sigill, sigquit, sigsegv, sigsys, sigtrap, sigxcpu, sigxfsz]
  then .core
  else if num ∈ [sigchld, sigurg, sigwinch] then .ign
  else if num = sigcont then .cont
  else if num ∈ [sigstop, sigtstp, sigttin, sigttou] then .stop
  else .term

/-! ### User memory -/

/-- The memory of a process, as the kernel reads and writes it through the root VMAR. -/
structure UserMemory where
  bytes : Bytes
  /-- The outcome of the checks for reading some bytes at an address. -/
  checkRead : ℕ → ℕ → Result Unit
  /-- The outcome of the checks for writing some bytes at an address. -/
  checkWrite : ℕ → ℕ → Result Unit

namespace UserMemory

/-- `write_val_to_user`, for a value of some words. -/
def writeWords (m : UserMemory) (a : ℕ) (ws : List (BitVec 64)) : Result UserMemory := do
  m.checkWrite a (8 * ws.length)
  .ok { m with bytes := writeAt m.bytes a (wordBytes ws) }

/-- `write_bytes_to_user` -/
def writeBytes (m : UserMemory) (a : ℕ) (bs : List UInt8) : Result UserMemory := do
  m.checkWrite a bs.length
  .ok { m with bytes := writeAt m.bytes a bs }

theorem writeWords_ok {m m' : UserMemory} {a : ℕ} {ws : List (BitVec 64)}
    (h : m.writeWords a ws = .ok m') :
    m' = { m with bytes := writeAt m.bytes a (wordBytes ws) } := by
  obtain ⟨⟨⟩, -, ⟨⟩⟩ := bind_ok.1 h
  rfl

end UserMemory

/-! ### Saved registers -/

/-- `GeneralRegs` -/
structure GeneralRegs where
  rax : BitVec 64
  rbx : BitVec 64
  rcx : BitVec 64
  rdx : BitVec 64
  rsi : BitVec 64
  rdi : BitVec 64
  rbp : BitVec 64
  rsp : BitVec 64
  r8 : BitVec 64
  r9 : BitVec 64
  r10 : BitVec 64
  r11 : BitVec 64
  r12 : BitVec 64
  r13 : BitVec 64
  r14 : BitVec 64
  r15 : BitVec 64
  rip : BitVec 64
  rflags : BitVec 64
  fsbase : BitVec 64
  gsbase : BitVec 64
  deriving DecidableEq

namespace GeneralRegs

/-- The registers in the order of the fields. -/
def words (r : GeneralRegs) : List (BitVec 64) :=
  [r.rax, r.rbx, r.rcx, r.rdx, r.rsi, r.rdi, r.rbp, r.rsp, r.r8, r.r9, r.r10, r.r11, r.r12, r.r13,
    r.r14, r.r15, r.rip, r.rflags, r.fsbase, r.gsbase]

/-- The registers with the values that `w` gives in the order of the fields. -/
def ofWords (w : ℕ → BitVec 64) : GeneralRegs :=
  ⟨w 0, w 1, w 2, w 3, w 4, w 5, w 6, w 7, w 8, w 9, w 10, w 11, w 12, w 13, w 14, w 15, w 16, w 17,
    w 18, w 19⟩

end GeneralRegs

/-- `ucontext_t`, with the fields that the kernel uses. -/
structure Ucontext where
  ucLink : BitVec 64
  gpRegs : GeneralRegs
  ucSigmask : BitVec 64
  deriving DecidableEq

namespace Ucontext

/-- The words of a `ucontext_t` in memory.  The fields left out are zero: `uc_flags`, `uc_stack`,
what follows the registers in `uc_mcontext`, and `fpregs`. -/
def words (u : Ucontext) : List (BitVec 64) :=
  0 :: u.ucLink :: (replicate 3 0 ++ u.gpRegs.words ++ replicate 16 0 ++
    u.ucSigmask :: replicate 64 0)

/-- `size_of::<ucontext_t>()` -/
def size : ℕ := 848

/-- The `ucontext_t` at an address. -/
def readFrom (m : Bytes) (a : ℕ) : Ucontext where
  ucLink := readWord m (a + 8 * 1)
  gpRegs := .ofWords fun i => readWord m (a + 8 * (5 + i))
  ucSigmask := readWord m (a + 8 * 41)

/-- What was written is read back. -/
theorem readFrom_writeAt (m : Bytes) (a : ℕ) (u : Ucontext) :
    readFrom (writeAt m a (wordBytes u.words)) a = u := by
  have hword (i : ℕ) (hi : i < 106) :
      readWord (writeAt m a (wordBytes u.words)) (a + 8 * i) = u.words.getD i 0 := by
    have hsome : u.words[i]? = some (u.words.getD i 0) := by
      rw [getD_eq_getElem?_getD, getElem?_eq_getElem (show i < u.words.length from hi),
        Option.getD_some]
    exact readWord_writeAt hsome
  rw [readFrom, GeneralRegs.ofWords]
  simp only [hword, Nat.reduceAdd, Nat.reduceLT]
  rfl

/-- A write outside the `ucontext_t` leaves it as it is. -/
theorem readFrom_writeAt_of_apart {m : Bytes} {a o : ℕ} {bs : List UInt8}
    (h : a + size ≤ o ∨ o + bs.length ≤ a) : readFrom (writeAt m o bs) a = readFrom m a := by
  have hword (i : ℕ) (hi : i < 106) :
      readWord (writeAt m o bs) (a + 8 * i) = readWord m (a + 8 * i) :=
    readWord_writeAt_of_apart (by rw [size] at h; omega)
  simp only [readFrom, GeneralRegs.ofWords, hword, Nat.reduceAdd, Nat.reduceLT]

end Ucontext

open Ucontext

/-! ### The thread -/

/-- `SigStack`; of its flags only `SS_AUTODISARM` exists. -/
structure SigStack where
  base : ℕ
  autodisarm : Bool
  size : ℕ
  handlerCounter : ℕ

namespace SigStack

/-- `increase_handler_counter` -/
def increaseHandlerCounter (s : SigStack) : SigStack :=
  { s with handlerCounter := s.handlerCounter + 1 }

/-- `decrease_handler_counter` -/
def decreaseHandlerCounter (s : SigStack) : Result SigStack := do
  let handlerCounter ← subUsize s.handlerCounter 1
  .ok { s with handlerCounter }

/-- `is_active` -/
def isActive (s : SigStack) : Bool := s.handlerCounter ≠ 0 && !s.autodisarm

/-- `is_disabled` -/
def isDisabled (s : SigStack) : Bool := s.handlerCounter ≠ 0 && s.autodisarm

end SigStack

/-- `ThreadStatus` -/
inductive ThreadStatus where
  | init
  | running
  | exited
  | stopped
  deriving DecidableEq

/-- A thread, with what delivery uses of it and of its process. -/
structure UserThread where
  sigMask : SigMask
  sigQueues : SigQueues
  /-- `sig_context` : the address of the last frame. -/
  sigContext : Option ℕ
  sigStack : Option SigStack
  /-- `sig_dispositions` of the process. -/
  sigDispositions : SigNum → SigAction
  status : ThreadStatus
  /-- The signal that killed the process. -/
  termStatus : Option SigNum
  /-- The registers of user mode. -/
  context : GeneralRegs
  memory : UserMemory

namespace UserThread

/-- A running thread with nothing blocked or pending and no actions. -/
def idle (context : GeneralRegs) (bytes : Bytes) : UserThread where
  sigMask := ⟨0⟩
  sigQueues := .new
  sigContext := none
  sigStack := none
  sigDispositions _ := .dfl
  status := .running
  termStatus := none
  context
  memory := ⟨bytes, fun _ _ => .ok (), fun _ _ => .ok ()⟩

/-! ### Entering a handler -/

/-- `use_alternate_signal_stack` -/
def useAlternateSignalStack : Option SigStack → Result (Option ℕ × Option SigStack)
  | none => .ok (none, none)
  | some sigStack =>
    if sigStack.isDisabled then .ok (none, some sigStack)
    else if sigStack.isActive then .ok (none, some sigStack.increaseHandlerCounter)
    else do
      let top ← addUsize sigStack.base sigStack.size
      .ok (some (top / 16 * 16), some sigStack.increaseHandlerCounter)

/-- `write_u64_to_user_stack` -/
def writeU64ToUserStack (m : UserMemory) (rsp : ℕ) (value : BitVec 64) :
    Result (ℕ × UserMemory) := do
  let rsp ← subUsize rsp 8
  let m ← m.writeWords rsp [value]
  .ok (rsp, m)

/-- `alloc_aligned_in_user_stack`, whose alignment is always 16. -/
def allocAlignedInUserStack (rsp size : ℕ) : Result ℕ := do
  let start ← subUsize rsp size
  .ok (start / 16 * 16)

/-- `TRAMPOLINE` -/
def trampoline : List UInt8 := [0xb8, 0x0f, 0x00, 0x00, 0x00, 0x0f, 0x05, 0x90]

/-- The address the handler returns to, below the frame. -/
def pushReturnAddr (m : UserMemory) (stackPointer : ℕ) (flags : SigActionFlags)
    (restorerAddr : BitVec 64) : Result (ℕ × UserMemory) :=
  if flags.contains SigActionFlags.saRestorer then
    writeU64ToUserStack m stackPointer restorerAddr
  else do
    let stackPointer ← subUsize stackPointer trampoline.length
    let m ← m.writeBytes stackPointer trampoline
    writeU64ToUserStack m stackPointer (.ofNat 64 stackPointer)

/-- The words of the `siginfo_t` of a signal. -/
def siginfo (signal : Signal) : List (BitVec 64) :=
  .ofNat 64 signal.num.asU8 :: signal.code.setWidth 64 :: ofFn signal.fields

/-- The signals that a handler adds to the mask. -/
def handlerMask (num : SigNum) (flags : SigActionFlags) (mask : SigMask) : SigMask :=
  if flags.contains SigActionFlags.saNodefer then mask
  else mask.block (SigMask.ofSigNum num).bits

/-- What is saved of the thread when it enters a handler. -/
def savedContext (t : UserThread) (mask : SigMask) : Ucontext where
  ucLink := .ofNat 64 (t.sigContext.getD 0)
  gpRegs := t.context
  ucSigmask := mask.bits

/-- The registers a handler starts with. -/
def handlerRegs (r : GeneralRegs) (num : SigNum) (handlerAddr : BitVec 64) (flags : SigActionFlags)
    (stackPointer siginfoAddr ucontextAddr : ℕ) : GeneralRegs :=
  { r with
    rip := handlerAddr
    rsp := .ofNat 64 stackPointer
    rdi := .ofNat 64 num.asU8
    rsi := if flags.contains SigActionFlags.saSiginfo then .ofNat 64 siginfoAddr else 0
    rdx := if flags.contains SigActionFlags.saSiginfo then .ofNat 64 ucontextAddr else 0 }

/-- `handle_user_signal` -/
def handleUserSignal (t : UserThread) (signal : Signal) (handlerAddr : BitVec 64)
    (flags : SigActionFlags) (restorerAddr : BitVec 64) (mask : SigMask) : Result UserThread :=
  if flags.containsUnsupportedFlag then .error (.panic .unwrap)
  else do
    let mask := handlerMask signal.num flags mask
    let (altStack, sigStack) ← useAlternateSignalStack t.sigStack
    let stackPointer ← subUsize (altStack.getD t.context.rsp.toNat) 128
    let siginfoAddr ← subUsize stackPointer 128
    let memory ← t.memory.writeWords siginfoAddr (siginfo signal)
    let ucontextAddr ← allocAlignedInUserStack siginfoAddr size
    let memory ← memory.writeWords ucontextAddr (t.savedContext mask).words
    let (stackPointer, memory) ← pushReturnAddr memory ucontextAddr flags restorerAddr
    .ok { t with
      sigMask := t.sigMask.block mask.bits
      sigContext := some ucontextAddr
      sigStack, memory
      context := handlerRegs t.context signal.num handlerAddr flags stackPointer siginfoAddr
        ucontextAddr }

/-! ### The delivery path -/

/-- `do_exit_group(TermStatus::Killed(..))` and the end of the task. -/
def doExitGroup (t : UserThread) (num : SigNum) : UserThread :=
  { t with status := .exited, termStatus := some num }

/-- The default action of a signal. -/
def handleDefault (t : UserThread) (num : SigNum) : UserThread :=
  match SigDefaultAction.fromSignum num with
  | .core | .term => t.doExitGroup num
  | .ign => t
  | .stop => if t.status = .running then { t with status := .stopped } else t
  | .cont => if t.status = .stopped then { t with status := .running } else t

/-- What is done with a signal that was taken from the queues. -/
def handleSignal (t : UserThread) (signal : Signal) : Result UserThread :=
  match t.sigDispositions signal.num with
  | .ign => .ok t
  | .user handlerAddr flags restorerAddr mask =>
    t.handleUserSignal signal handlerAddr flags restorerAddr mask
  | .dfl => .ok (t.handleDefault signal.num)

/-- `handle_pending_signal`; both callers unwrap its result. -/
def handlePendingSignal (t : UserThread) : Result UserThread :=
  match t.sigQueues.dequeue t.sigMask with
  | (none, _) => .ok t
  | (some signal, sigQueues) => ({ t with sigQueues }.handleSignal signal).unwrap

/-! ### System calls -/

/-- The counter of the signal stack after a return with this stack pointer. -/
def leaveSigStack (rsp : ℕ) : Option SigStack → Result (Option SigStack)
  | none => .ok none
  | some sigStack => do
    -- the second comparison is evaluated only after the first
    if sigStack.base ≤ rsp then
      let top ← addUsize sigStack.base sigStack.size
      if rsp ≤ top then
        let sigStack ← sigStack.decreaseHandlerCounter
        return some sigStack
    return some sigStack

/-- `sys_rt_sigreturn` -/
def sysRtSigreturn (t : UserThread) : Result UserThread :=
  match t.sigContext with
  | none => returnErrnoWithMessage .einval "sigretrun should not been called"
  | some sigContextAddr => do
    debugAssert (sigContextAddr = t.context.rsp.toNat)
    t.memory.checkRead sigContextAddr size
    let ucontext := readFrom t.memory.bytes sigContextAddr
    let sigStack ← leaveSigStack t.context.rsp.toNat t.sigStack
    .ok { t with
      sigStack
      sigContext := if ucontext.ucLink = 0 then none else some ucontext.ucLink.toNat
      context := ucontext.gpRegs
      sigMask := t.sigMask.unblock ucontext.ucSigmask }

/-- `MaskOp` -/
inductive MaskOp where
  | block
  | unblock
  | setMask
  deriving DecidableEq

/-- `TryFrom<u32>` -/
def MaskOp.tryFrom : ℕ → Result MaskOp
  | 0 => .ok .block
  | 1 => .ok .unblock
  | 2 => .ok .setMask
  | _ => returnErrno .einval

/-- The mask after an operation with the set `newSet`. -/
def MaskOp.apply : MaskOp → SigMask → BitVec 64 → SigMask
  | .block, sigMask, newSet =>
    sigMask.block (((SigMask.mk newSet).removeSignal sigkill).removeSignal sigstop).bits
  | .unblock, sigMask, newSet => sigMask.unblock newSet
  | .setMask, _, newSet => ⟨newSet⟩

/-- The old value is stored for user code, unless the pointer is null. -/
def storeOld (m : UserMemory) (ptr : ℕ) (ws : List (BitVec 64)) : Result UserMemory :=
  if ptr = 0 then .ok m else m.writeWords ptr ws

/-- `do_rt_sigprocmask` -/
def doRtSigprocmask (t : UserThread) (maskOp : MaskOp) (setPtr oldsetPtr : ℕ) :
    Result UserThread := do
  let memory ← storeOld t.memory oldsetPtr [t.sigMask.bits]
  if setPtr = 0 then .ok { t with memory }
  else do
    memory.checkRead setPtr 8
    .ok { t with memory, sigMask := maskOp.apply t.sigMask (readWord memory.bytes setPtr) }

/-- `sys_rt_sigprocmask` -/
def sysRtSigprocmask (t : UserThread) (how setPtr oldsetPtr : ℕ) : Result UserThread := do
  let maskOp ← (MaskOp.tryFrom how).unwrap
  (t.doRtSigprocmask maskOp setPtr oldsetPtr).unwrap

/-- `sys_rt_sigaction` -/
def sysRtSigaction (t : UserThread) (sigNum sigActionAddr oldSigActionAddr : ℕ) :
    Result UserThread := do
  let sigNum ← SigNum.tryFrom sigNum
  let memory ← storeOld t.memory oldSigActionAddr (t.sigDispositions sigNum).asCType.words
  if sigActionAddr = 0 then .ok { t with memory }
  else do
    memory.checkRead sigActionAddr 32
    let sigAction := SigAction.ofSigactionT (.readFrom memory.bytes sigActionAddr)
    .ok { t with memory, sigDispositions := Function.update t.sigDispositions sigNum sigAction }

/-! ### What a handler is entered with -/

section Enter

variable {t t' : UserThread} {signal : Signal} {handlerAddr restorerAddr : BitVec 64}
  {flags : SigActionFlags} {mask : SigMask} {sp : ℕ}

/-- The thread has entered a handler that blocks `mask`, with its frame at `addr`. -/
structure Entered (t : UserThread) (mask : SigMask) (addr : ℕ) (t' : UserThread) : Prop where
  sigMask : t'.sigMask = t.sigMask.block mask.bits
  sigContext : t'.sigContext = some addr
  addr_ne : addr ≠ 0
  addr_lt : addr < usizeBound
  saved : readFrom t'.memory.bytes addr = t.savedContext mask
  sigQueues : t'.sigQueues = t.sigQueues
  sigDispositions : t'.sigDispositions = t.sigDispositions
  status : t'.status = t.status

theorem useAlternateSignalStack_lt {s s' : Option SigStack}
    (h : useAlternateSignalStack s = .ok (some sp, s')) : sp < usizeBound := by
  cases s with
  | none => cases h
  | some sigStack =>
    rw [useAlternateSignalStack] at h
    split_ifs at h with hdisabled hactive
    · cases h
    · cases h
    · obtain ⟨top, htop, h⟩ := bind_ok.1 h
      obtain ⟨hlt, rfl⟩ := addUsize_ok.1 htop
      cases h
      exact (Nat.div_mul_le_self _ _).trans_lt hlt

theorem writeU64ToUserStack_ok {m m' : UserMemory} {rsp rsp' : ℕ} {value : BitVec 64}
    (h : writeU64ToUserStack m rsp value = .ok (rsp', m')) :
    8 ≤ rsp ∧ m'.bytes = writeAt m.bytes (rsp - 8) (wordBytes [value]) := by
  obtain ⟨_, hsub, h⟩ := bind_ok.1 h
  obtain ⟨hle, rfl⟩ := subUsize_ok.1 hsub
  obtain ⟨m1, hwrite, h⟩ := bind_ok.1 h
  obtain rfl := UserMemory.writeWords_ok hwrite
  cases h
  exact ⟨hle, rfl⟩

/-- The return address is written below the frame. -/
theorem pushReturnAddr_ok {m m' : UserMemory} {sp' : ℕ}
    (h : pushReturnAddr m sp flags restorerAddr = .ok (sp', m')) :
    8 ≤ sp ∧ readFrom m'.bytes sp = readFrom m.bytes sp := by
  rw [pushReturnAddr] at h
  split_ifs at h with hrestorer
  · obtain ⟨hle, hbytes⟩ := writeU64ToUserStack_ok h
    refine ⟨hle, ?_⟩
    rw [hbytes, readFrom_writeAt_of_apart (.inr _)]
    rw [length_wordBytes, length_singleton]
    omega
  · obtain ⟨_, hsub, h⟩ := bind_ok.1 h
    obtain ⟨hle, rfl⟩ := subUsize_ok.1 hsub
    obtain ⟨m1, hwrite, h⟩ := bind_ok.1 h
    obtain ⟨⟨⟩, -, ⟨⟩⟩ := bind_ok.1 hwrite
    obtain ⟨hle', hbytes⟩ := writeU64ToUserStack_ok h
    refine ⟨hle, ?_⟩
    rw [hbytes, readFrom_writeAt_of_apart (.inr _), readFrom_writeAt_of_apart (.inr _)]
    · omega
    · rw [length_wordBytes, length_singleton]
      omega

/-- What `handle_user_signal` does when it succeeds. -/
theorem handleUserSignal_ok
    (h : t.handleUserSignal signal handlerAddr flags restorerAddr mask = .ok t') :
    ∃ addr, Entered t (handlerMask signal.num flags mask) addr t' := by
  rw [handleUserSignal] at h
  split_ifs at h with hflags
  obtain ⟨⟨altStack, sigStack⟩, hstack, h⟩ := bind_ok.1 h
  obtain ⟨sp, hsp, h⟩ := bind_ok.1 h
  obtain ⟨siginfoAddr, hsiginfo, h⟩ := bind_ok.1 h
  obtain ⟨m1, hwrite1, h⟩ := bind_ok.1 h
  obtain ⟨addr, haddr, h⟩ := bind_ok.1 h
  obtain ⟨m2, hwrite2, h⟩ := bind_ok.1 h
  obtain ⟨⟨sp', m3⟩, hpush, h⟩ := bind_ok.1 h
  cases h
  obtain rfl := UserMemory.writeWords_ok hwrite2
  obtain ⟨hle, hread⟩ := pushReturnAddr_ok hpush
  refine ⟨addr, rfl, rfl, by omega, ?_, hread.trans (readFrom_writeAt _ _ _), rfl, rfl, rfl⟩
  obtain ⟨start, hstart, ⟨⟩⟩ := bind_ok.1 haddr
  have htop : altStack.getD t.context.rsp.toNat < usizeBound := by
    cases altStack with
    | none => exact t.context.rsp.isLt
    | some top => exact useAlternateSignalStack_lt hstack
  rw [subUsize_ok] at hsp hsiginfo hstart
  omega

/-- What `sys_rt_sigreturn` does when it succeeds. -/
theorem sysRtSigreturn_ok (h : t.sysRtSigreturn = .ok t') :
    ∃ addr u, t.sigContext = some addr ∧ u = readFrom t.memory.bytes addr ∧
      t'.sigMask = t.sigMask.unblock u.ucSigmask ∧ t'.context = u.gpRegs ∧
      t'.sigContext = if u.ucLink = 0 then none else some u.ucLink.toNat := by
  rw [sysRtSigreturn] at h
  split at h
  · cases h
  next addr haddr =>
    obtain ⟨⟨⟩, -, h⟩ := bind_ok.1 h
    obtain ⟨⟨⟩, -, h⟩ := bind_ok.1 h
    obtain ⟨sigStack, -, h⟩ := bind_ok.1 h
    obtain rfl := Except.ok.inj h
    exact ⟨addr, readFrom t.memory.bytes addr, haddr, rfl, rfl, rfl, rfl⟩

end Enter

end UserThread

end Jinux
