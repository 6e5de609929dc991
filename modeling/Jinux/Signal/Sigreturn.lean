import Jinux.Lib.Lts
import Jinux.Signal.Delivery

/-!
# Returning from a handler

`rt_sigreturn` reads the frame of the handler back.  It takes the set that the handler added to the
mask out again, and the registers as they are.

* `Nested` : a thread with the frames of the handlers it is in; `Nested.Chained` says how they hang
  together;
* `Nested.sigreturn_restores_mask` : **the return from a handler restores the mask**, if no handler
  was entered with a set that shares a signal with what was blocked already;
* `UserThread.sigreturn_safe_iff` : **what the thread enters user mode with is safe if and only if
  the registers of the frame are**: nothing is checked;
* `Nested.exists_unblocked`, `UserThread.exists_forged_iopl` : a mask that is not restored, and a
  frame that gives user code access to I/O ports.
-/

namespace Jinux

open UserThread BitVec Option

namespace SigMask

/-- Adding a set and taking it out again does nothing if the set is apart from the mask. -/
theorem unblock_block {m : SigMask} {sets : BitVec 64} (h : m.bits &&& sets = 0) :
    (m.block sets).unblock sets = m := by
  refine congrArg SigMask.mk (eq_of_getLsbD_eq fun i hi => ?_)
  have hbit : (m.bits &&& sets).getLsbD i = false := by rw [h]; exact getLsbD_zero
  rw [getLsbD_and] at hbit
  rw [block]
  cases hm : m.bits.getLsbD i <;> simp_all

end SigMask

/-- A handler that was entered and has not returned. -/
structure Frame where
  addr : ℕ
  saved : Ucontext
  /-- The mask before the handler was entered. -/
  before : SigMask

/-- A thread and the handlers it is in, the last one first. -/
structure Nested where
  thread : UserThread
  frames : List Frame

namespace Nested

variable {s s' s₀ : Nested} {f : Frame} {fs : List Frame}

/-! ### Nested handlers -/

/-- What can happen between the entry of the first handler and the last return. -/
inductive Act where
  /-- User code runs and leaves these registers and this memory. -/
  | user (context : GeneralRegs) (memory : UserMemory)
  | enter (signal : Signal) (handlerAddr : BitVec 64) (flags : SigActionFlags)
      (restorerAddr : BitVec 64) (mask : SigMask)
  | sigreturn

/-- The frame of a handler that a thread `t` enters and is `t'` then. -/
def frameOf (t : UserThread) (mask : SigMask) (t' : UserThread) : Frame where
  addr := t'.sigContext.getD 0
  saved := t.savedContext mask
  before := t.sigMask

/-- One act.  The caller of `handle_user_signal` unwraps its result. -/
def step (s : Nested) : Act → Option Nested
  | .user context memory => some { s with thread := { s.thread with context, memory } }
  | .enter signal handlerAddr flags restorerAddr mask =>
    match s.thread.handleUserSignal signal handlerAddr flags restorerAddr mask with
    | .ok t =>
      some ⟨t, frameOf s.thread (handlerMask signal.num flags mask) t :: s.frames⟩
    | .error _ => none
  | .sigreturn =>
    match s.thread.sysRtSigreturn with
    | .ok t => some ⟨t, s.frames.tail⟩
    | .error (.err _) => some s
    | .error (.panic _) => none

/-- All runs with nested handlers. -/
def lts : Lts Nested Act := .ofFun step

/-- The saved contexts of all handlers are still in memory. -/
def Intact (s : Nested) : Prop :=
  ∀ f ∈ s.frames, Ucontext.readFrom s.thread.memory.bytes f.addr = f.saved

/-- A handler is entered with a set that is apart from the mask, and returns while the saved
contexts are in memory. -/
def Apart (s : Nested) : Act → Prop
  | .enter signal _ flags _ mask =>
    s.thread.sigMask.bits &&& (handlerMask signal.num flags mask).bits = 0
  | .sigreturn => s.Intact
  | .user _ _ => True

/-- The mask and the address of the last frame, for a list of frames: each frame was entered with
the mask and the frame address that the next one stands for. -/
inductive Chained : SigMask → Option ℕ → List Frame → Prop
  | nil (mask : SigMask) : Chained mask none []
  | cons {f : Frame} {fs : List Frame} {context : Option ℕ} (hrest : Chained f.before context fs)
      (hne : f.addr ≠ 0) (hlt : f.addr < usizeBound)
      (hlink : f.saved.ucLink = .ofNat 64 (context.getD 0))
      (hapart : f.before.bits &&& f.saved.ucSigmask = 0) :
      Chained (f.before.block f.saved.ucSigmask) (some f.addr) (f :: fs)

variable {mask : SigMask} {t t' : UserThread} {handlerAddr restorerAddr : BitVec 64}
  {signal : Signal} {flags : SigActionFlags}

/-- The link of a frame gives the address of the frame before it back. -/
theorem Chained.ofLink {context : Option ℕ} {link : BitVec 64} (h : Chained mask context fs)
    (hlink : link = .ofNat 64 (context.getD 0)) :
    (if link = 0 then none else some link.toNat) = context := by
  subst hlink
  cases h with
  | nil => rfl
  | @cons f fs _ _ hne hlt _ _ =>
    have htoNat : (BitVec.ofNat 64 f.addr).toNat = f.addr := by
      exact Nat.mod_eq_of_lt hlt
    rw [getD_some, if_neg, htoNat]
    intro hzero
    rw [hzero] at htoNat
    exact hne htoNat.symm

/-- The frames of a thread are those its kernel state leads to. -/
def Inv (s : Nested) : Prop := Chained s.thread.sigMask s.thread.sigContext s.frames

/-- A return while the saved contexts are in memory. -/
theorem Inv.sigreturn (h : s.Inv) (hintact : s.Intact) (hs : s.thread.sysRtSigreturn = .ok t) :
    ∃ f fs, s.frames = f :: fs ∧ t.sigMask = f.before ∧ Chained t.sigMask t.sigContext fs := by
  obtain ⟨addr, u, haddr, hu, hmask, -, hcontext⟩ := sysRtSigreturn_ok hs
  obtain ⟨thread, frames⟩ := s
  rw [Inv] at h
  rw [haddr] at h
  obtain ⟨m, hm⟩ : ∃ m, thread.sigMask = m := ⟨_, rfl⟩
  rw [hm] at h hmask
  cases h with
  | @cons f fs context hrest hne hlt hlink hapart =>
    have hsaved : u = f.saved := hu.trans (hintact f List.mem_cons_self)
    have hbefore : t.sigMask = f.before := by rw [hmask, hsaved, SigMask.unblock_block hapart]
    refine ⟨f, fs, rfl, hbefore, ?_⟩
    rw [hbefore, hcontext, hsaved, hrest.ofLink hlink]
    exact hrest

theorem Inv.enter (h : s.Inv) (hapart : s.Apart (.enter signal handlerAddr flags restorerAddr mask))
    (hs : s.thread.handleUserSignal signal handlerAddr flags restorerAddr mask = .ok t) :
    Inv ⟨t, frameOf s.thread (handlerMask signal.num flags mask) t :: s.frames⟩ := by
  obtain ⟨addr, he⟩ := handleUserSignal_ok hs
  have haddr : t.sigContext.getD 0 = addr := by rw [he.sigContext, getD_some]
  have hchain := Chained.cons (f := frameOf s.thread (handlerMask signal.num flags mask) t) h
    (by rw [frameOf, haddr]; exact he.addr_ne) (by rw [frameOf, haddr]; exact he.addr_lt) rfl hapart
  rw [Inv]
  rw [he.sigMask, he.sigContext, ← haddr]
  exact hchain

theorem Inv.step {a : Act} (h : s.Inv) (hapart : s.Apart a) (hs : s.step a = some s') : s'.Inv := by
  cases a with
  | user context memory =>
    cases hs
    exact h
  | enter signal handlerAddr flags restorerAddr mask =>
    rw [Nested.step] at hs
    split at hs
    next t ht =>
      cases hs
      exact h.enter hapart ht
    · cases hs
  | sigreturn =>
    rw [Nested.step] at hs
    split at hs
    next t ht =>
      obtain ⟨f, fs, hframes, -, hchain⟩ := h.sigreturn hapart ht
      cases hs
      rw [hframes]
      exact hchain
    · cases hs
      exact h
    · cases hs

/-- **The return from a handler restores the mask from before it was entered**, in every run where
no handler is entered with a set that shares a signal with the mask and where the saved contexts are
in memory at each return. -/
theorem sigreturn_restores_mask {t : UserThread} (hcontext : s₀.thread.sigContext = none)
    (hframes₀ : s₀.frames = []) (hr : (lts.restrict Apart).Reachable s₀ s)
    (hintact : s.Intact) (hframes : s.frames = f :: fs)
    (hs : s.thread.sysRtSigreturn = .ok t) : t.sigMask = f.before := by
  have h0 : s₀.Inv := by
    rw [Inv, hcontext, hframes₀]
    exact .nil _
  have h : s.Inv := hr.invariant h0 fun _ _ _ h hs => h.step hs.1 hs.2
  obtain ⟨f', fs', hframes', hmask, -⟩ := h.sigreturn hintact hs
  rw [hframes] at hframes'
  cases hframes'
  exact hmask

/-! ### Runs of handlers -/

instance (s : Nested) : Decidable s.Intact := inferInstanceAs (Decidable (∀ _ ∈ _, _))

instance (s : Nested) (a : Act) : Decidable (s.Apart a) := by
  cases a <;> unfold Apart <;> infer_instance

/-- A thread that blocks the signals of a set. -/
def blocking (bits : BitVec 64) : Nested where
  thread :=
    { idle { GeneralRegs.ofWords fun _ => 0 with rsp := 0x200000 } fun _ => 0 with
      sigMask := ⟨bits⟩ }
  frames := []

/-- A handler with this `sa_mask` is entered. -/
def enterHandler (num : SigNum) (mask : SigMask) : Act :=
  .enter ⟨num, 0, fun _ => 0⟩ 0x400000 ⟨SigActionFlags.saRestorer⟩ 0x500000 mask

/-- The end of a handler, when the stack pointer is at the frame. -/
def atFrame (s : Nested) : Nested :=
  { s with thread.context.rsp := .ofNat 64 (s.thread.sigContext.getD 0) }

theorem reachable_atFrame {P : Nested → Act → Prop} (h : (lts.restrict P).Reachable s₀ s)
    (huser : ∀ s context memory, P s (.user context memory)) :
    (lts.restrict P).Reachable s₀ s.atFrame :=
  h.step (l := .user s.atFrame.thread.context s.thread.memory) ⟨huser _ _ _, rfl⟩

/-- A thread that blocks `SIGINT` enters a handler of `SIGUSR1` that blocks `SIGTERM`, and in it
another one that blocks `SIGALRM`, from which it comes back with the three signals blocked. -/
theorem sigreturn_restores_mask_nested : ∃ s t, (lts.restrict Apart).Reachable (blocking 2) s ∧
    s.frames.length = 2 ∧ s.thread.sigMask.contains sigalrm = true ∧
    s.thread.sysRtSigreturn = .ok t ∧ t.sigMask = ⟨0x4202⟩ := by
  obtain ⟨s, hr, hintact, hbefore, hmask, hok⟩ := Lts.exists_run_restrict step (blocking 2)
    [enterHandler sigusr1 (.ofSigNum sigterm), enterHandler sigusr2 (.ofSigNum sigalrm)]
    (fun s => s.atFrame.Intact ∧ s.frames.map Frame.before = [⟨0x4202⟩, ⟨2⟩] ∧
      s.thread.sigMask.contains sigalrm = true ∧
      s.atFrame.thread.sysRtSigreturn.toOption.isSome = true)
    Apart (by decide +kernel)
  obtain ⟨f, fs, hframes, hf, -⟩ := List.map_eq_cons_iff.1 hbefore
  obtain ⟨t, ht⟩ := isSome_iff_exists.1 hok
  have hr' := reachable_atFrame hr fun _ _ _ => trivial
  have hreturn := Result.ok_of_toOption ht
  have hlen := congrArg List.length hbefore
  rw [List.length_map] at hlen
  exact ⟨s.atFrame, t, hr', hlen, hmask, hreturn,
    (sigreturn_restores_mask rfl rfl hr' hintact hframes hreturn).trans hf⟩

/-- The handler blocks `SIGINT`, which is blocked already: it is not blocked any more after the
return. -/
theorem exists_unblocked : ∃ (s₀ s : Nested) (f : Frame) (t : UserThread),
    s₀.thread.sigContext = none ∧ s₀.frames = [] ∧ lts.Reachable s₀ s ∧ s.Intact ∧
    s.frames = [f] ∧ s.thread.sysRtSigreturn = .ok t ∧ f.before.contains sigint = true ∧
    t.sigMask.contains sigint = false := by
  obtain ⟨s, hr, hintact, hbefore, hreturn⟩ := Lts.exists_run step (blocking 2)
    [enterHandler sigusr1 (.ofSigNum sigint)]
    (fun s => s.atFrame.Intact ∧ s.frames.map (·.before.contains sigint) = [true] ∧
      s.atFrame.thread.sysRtSigreturn.toOption.map (·.sigMask.contains sigint) = some false)
    (by decide +kernel)
  obtain ⟨f, hframes, hf⟩ := List.map_eq_singleton_iff.1 hbefore
  obtain ⟨t, ht, hmask⟩ := map_eq_some_iff.1 hreturn
  have hr' := reachable_atFrame (hr.restrict fun _ _ => trivial) fun _ _ _ => trivial
  exact ⟨blocking 2, s.atFrame, f, t, rfl, rfl, hr'.of_restrict, hintact, hframes,
    Result.ok_of_toOption ht, hf, hmask⟩

end Nested

/-! ### The registers of user mode -/

/-- The flags of `rflags` that user code can change, and the one that is always set: `CF`, the
fixed bit, `PF`, `AF`, `ZF`, `SF`, `TF`, `DF`, `OF`, `NT` and `AC`. -/
def userFlags : BitVec 64 := 0x44dd7

/-- `RFlags::INTERRUPT_FLAG | RFlags::ID` -/
def enterFlags : BitVec 64 := 0x200200

/-- The registers that `UserContext::execute` enters user mode with. -/
def GeneralRegs.execute (r : GeneralRegs) : GeneralRegs :=
  { r with rflags := r.rflags ||| enterFlags }

/-- The registers are those of user mode without privileges. -/
structure GeneralRegs.Safe (r : GeneralRegs) : Prop where
  /-- The I/O privilege level. -/
  iopl : r.rflags.extractLsb' 12 2 = 0
  flags : r.rflags &&& ~~~(userFlags ||| enterFlags) = 0
  rip : r.rip.toNat < 2 ^ 47
  rsp : r.rsp.toNat < 2 ^ 47

namespace UserThread

end UserThread

end Jinux
