import Jinux.Lib.Lts
import Jinux.Signal.Delivery

/-!
# Signals that cannot be blocked

`SIGKILL` and `SIGSTOP` are meant to reach a thread whatever it does.  A thread sets its mask and
its actions, signals arrive, handlers are entered and left, and in between user code runs.

* `UserThread.lts` : all runs of a thread;
* `UserThread.Exempt` : neither signal is blocked or has an action, now or in a handler;
* `UserThread.sigkill_and_sigstop_act` : **a pending `SIGKILL` kills the process and a pending
  `SIGSTOP` stops the thread**, if the sets of `SIG_SETMASK` and the actions of `rt_sigaction` leave
  the two signals alone;
* `UserThread.exists_ineffective_sigkill` : nothing checks that they do.
-/

namespace Jinux

open Result

/-! ### Sets without the two signals -/

namespace SigMask

variable {m : SigMask} {sets : BitVec 64}

/-- The set has neither `SIGKILL` nor `SIGSTOP`. -/
def Spares (m : SigMask) : Prop := m.contains sigkill = false ∧ m.contains sigstop = false

instance : Decidable m.Spares := inferInstanceAs (Decidable (_ ∧ _))

theorem Spares.block (h : m.Spares) (hsets : (SigMask.mk sets).Spares) : (m.block sets).Spares := by
  constructor
  · rw [contains_block, h.1, hsets.1, Bool.or_false]
  · rw [contains_block, h.2, hsets.2, Bool.or_false]

theorem Spares.unblock (h : m.Spares) (sets : BitVec 64) : (m.unblock sets).Spares := by
  constructor
  · rw [contains_unblock, h.1, Bool.false_and]
  · rw [contains_unblock, h.2, Bool.false_and]

theorem spares_ofSigNum {n : SigNum} (hkill : n ≠ sigkill) (hstop : n ≠ sigstop) :
    (ofSigNum n).Spares := by
  constructor
  · rw [contains_ofSigNum, decide_eq_false hkill.symm]
  · rw [contains_ofSigNum, decide_eq_false hstop.symm]

theorem spares_removeSignal (m : SigMask) :
    ((m.removeSignal sigkill).removeSignal sigstop).Spares := by
  constructor <;> simp

end SigMask

/-- The action leaves the two signals alone: theirs is the default one, and no handler blocks
them. -/
structure SigAction.Spares (num : SigNum) (a : SigAction) : Prop where
  dfl : num = sigkill ∨ num = sigstop → a = .dfl
  mask : ∀ handlerAddr flags restorerAddr mask,
    a = .user handlerAddr flags restorerAddr mask → mask.Spares

namespace UserThread

variable {t t' t₀ : UserThread} {how : ℕ}

/-! ### The runs of a thread -/

/-- What can happen to a thread. -/
inductive Act where
  | sigprocmask (how setPtr oldsetPtr : ℕ)
  | sigaction (sigNum sigActionAddr oldSigActionAddr : ℕ)
  | enqueue (signal : Signal)
  /-- User code runs and leaves these registers and this memory. -/
  | user (context : GeneralRegs) (memory : UserMemory)
  /-- The way back to user mode. -/
  | deliver
  | sigreturn

/-- An act and its outcome. -/
def exec (t : UserThread) : Act → Result UserThread
  | .sigprocmask how setPtr oldsetPtr => t.sysRtSigprocmask how setPtr oldsetPtr
  | .sigaction sigNum sigActionAddr oldSigActionAddr =>
    t.sysRtSigaction sigNum sigActionAddr oldSigActionAddr
  | .enqueue signal => .ok { t with sigQueues := t.sigQueues.enqueue signal }
  | .user context memory => .ok { t with context, memory }
  | .deliver => t.handlePendingSignal
  | .sigreturn => t.sysRtSigreturn

/-- One act; an error leaves the thread as it was, and a panic ends the run. -/
def step (t : UserThread) (a : Act) : Option UserThread :=
  if t.status = .exited then none else (ignoreErr t (t.exec a)).toOption

/-- All runs of a thread. -/
def lts : Lts UserThread Act := .ofFun step

/-- The memory once an old value is stored. -/
def bytesWithOld (m : Bytes) (ptr : ℕ) (ws : List (BitVec 64)) : Bytes :=
  if ptr = 0 then m else writeAt m ptr (wordBytes ws)

/-- The set that `rt_sigprocmask` is given. -/
def givenSet (t : UserThread) (setPtr oldsetPtr : ℕ) : SigMask :=
  ⟨readWord (bytesWithOld t.memory.bytes oldsetPtr [t.sigMask.bits]) setPtr⟩

/-- The action that `rt_sigaction` is given. -/
def givenAction (t : UserThread) (num : SigNum) (sigActionAddr oldSigActionAddr : ℕ) : SigAction :=
  .ofSigactionT (.readFrom (bytesWithOld t.memory.bytes oldSigActionAddr
    (t.sigDispositions num).asCType.words) sigActionAddr)

/-- The sets of `SIG_SETMASK` and the actions leave the two signals alone. -/
def Considerate (t : UserThread) : Act → Prop
  | .sigprocmask how setPtr oldsetPtr =>
    how = 2 → setPtr ≠ 0 → (t.givenSet setPtr oldsetPtr).Spares
  | .sigaction sigNum sigActionAddr oldSigActionAddr =>
    sigActionAddr ≠ 0 → ∀ num, SigNum.tryFrom sigNum = .ok num →
      (t.givenAction num sigActionAddr oldSigActionAddr).Spares num
  | _ => True

/-! ### The invariant -/

/-- Neither signal is blocked or has an action, now or in a handler. -/
structure Exempt (t : UserThread) : Prop where
  mask : t.sigMask.Spares
  actions : ∀ n, (t.sigDispositions n).Spares n
  counted : t.sigQueues.Counted
  placed : t.sigQueues.Placed
  status : t.status ≠ .init

theorem storeOld_ok {m m' : UserMemory} {ptr : ℕ} {ws : List (BitVec 64)}
    (h : storeOld m ptr ws = .ok m') : m'.bytes = bytesWithOld m.bytes ptr ws := by
  rw [storeOld] at h
  rw [bytesWithOld]
  split_ifs at h ⊢ with hptr
  · cases h
    rfl
  · rw [UserMemory.writeWords_ok h]

/-- An operation on the mask, where only `SIG_SETMASK` needs a set without the two signals. -/
theorem MaskOp.apply_spares {maskOp : MaskOp} {m : SigMask} {newSet : BitVec 64} (h : m.Spares)
    (hset : maskOp = .setMask → (SigMask.mk newSet).Spares) : (maskOp.apply m newSet).Spares := by
  cases maskOp with
  | block => exact h.block (SigMask.spares_removeSignal _)
  | unblock => exact h.unblock newSet
  | setMask => exact hset rfl

theorem MaskOp.tryFrom_setMask (h : MaskOp.tryFrom how = .ok .setMask) : how = 2 := by
  match how with
  | 2 => rfl

theorem Exempt.sysRtSigprocmask {setPtr oldsetPtr : ℕ} (h : t.Exempt)
    (hgiven : t.Considerate (.sigprocmask how setPtr oldsetPtr))
    (hs : t.sysRtSigprocmask how setPtr oldsetPtr = .ok t') : t'.Exempt := by
  obtain ⟨maskOp, hop, hs⟩ := Result.bind_ok.1 hs
  obtain ⟨memory, hold, hs⟩ := Result.bind_ok.1 (Result.unwrap_ok.1 hs)
  split_ifs at hs with hptr
  · cases hs
    exact ⟨h.mask, h.actions, h.counted, h.placed, h.status⟩
  · obtain ⟨⟨⟩, -, ⟨⟩⟩ := bind_ok.1 hs
    refine ⟨MaskOp.apply_spares h.mask ?_, h.actions, h.counted, h.placed, h.status⟩
    rintro rfl
    rw [storeOld_ok hold]
    exact hgiven (MaskOp.tryFrom_setMask (Result.unwrap_ok.1 hop)) hptr

theorem Exempt.sysRtSigaction {sigNum sigActionAddr oldSigActionAddr : ℕ} (h : t.Exempt)
    (hgiven : t.Considerate (.sigaction sigNum sigActionAddr oldSigActionAddr))
    (hs : t.sysRtSigaction sigNum sigActionAddr oldSigActionAddr = .ok t') : t'.Exempt := by
  obtain ⟨num, hnum, hs⟩ := bind_ok.1 hs
  obtain ⟨memory, hold, hs⟩ := bind_ok.1 hs
  split_ifs at hs with hptr
  · cases hs
    exact ⟨h.mask, h.actions, h.counted, h.placed, h.status⟩
  · obtain ⟨⟨⟩, -, ⟨⟩⟩ := bind_ok.1 hs
    refine ⟨h.mask, fun n => ?_, h.counted, h.placed, h.status⟩
    dsimp only
    rcases eq_or_ne n num with rfl | hne
    · rw [Function.update_self, storeOld_ok hold]
      exact hgiven hptr n hnum
    · rw [Function.update_of_ne hne]
      exact h.actions n

theorem handleDefault_status (h : t.status ≠ .init) (num : SigNum) :
    (t.handleDefault num).status ≠ .init := by
  rw [handleDefault]
  split
  · nofun
  · nofun
  · exact h
  · split_ifs
    · nofun
    · exact h
  · split_ifs
    · nofun
    · exact h

section

variable (h : t.Exempt) {signal : Signal} {a : Act}

include h

theorem Exempt.handleDefault (num : SigNum) : (t.handleDefault num).Exempt := by
  have hsame : (t.handleDefault num).sigMask = t.sigMask ∧
      (t.handleDefault num).sigDispositions = t.sigDispositions ∧
      (t.handleDefault num).sigQueues = t.sigQueues := by
    rw [UserThread.handleDefault]
    split <;> [skip; skip; skip; split_ifs; split_ifs] <;> exact ⟨rfl, rfl, rfl⟩
  obtain ⟨hmask, hactions, hqueues⟩ := hsame
  exact ⟨hmask ▸ h.mask, hactions ▸ h.actions, hqueues ▸ h.counted, hqueues ▸ h.placed,
    handleDefault_status h.status num⟩

theorem Exempt.handleSignal (hs : t.handleSignal signal = .ok t') : t'.Exempt := by
  have haction := h.actions signal.num
  rw [UserThread.handleSignal] at hs
  split at hs
  · cases hs
    exact h
  next handlerAddr flags restorerAddr mask huser =>
    have hmask : mask.Spares := haction.mask _ _ _ _ huser
    have hnum : ¬(signal.num = sigkill ∨ signal.num = sigstop) := by
      intro hnum
      rw [haction.dfl hnum] at huser
      cases huser
    obtain ⟨hkill, hstop⟩ := not_or.1 hnum
    obtain ⟨addr, he⟩ := handleUserSignal_ok hs
    have hhandler : (handlerMask signal.num flags mask).Spares := by
      rw [handlerMask]
      split_ifs
      · exact hmask
      · exact hmask.block (SigMask.spares_ofSigNum hkill hstop)
    refine ⟨?_, ?_, ?_, ?_, ?_⟩
    · rw [he.sigMask]
      exact h.mask.block hhandler
    · rw [he.sigDispositions]
      exact h.actions
    · rw [he.sigQueues]
      exact h.counted
    · rw [he.sigQueues]
      exact h.placed
    · rw [he.status]
      exact h.status
  · cases hs
    exact h.handleDefault signal.num

theorem Exempt.handlePendingSignal (hs : t.handlePendingSignal = .ok t') : t'.Exempt := by
  have hcounted := h.counted.dequeue t.sigMask
  have hplaced := h.placed.dequeue t.sigMask
  rw [UserThread.handlePendingSignal] at hs
  split at hs
  · cases hs
    exact h
  next signal sigQueues hdequeue =>
    rw [hdequeue] at hcounted hplaced
    have hq : Exempt { t with sigQueues } := ⟨h.mask, h.actions, hcounted, hplaced, h.status⟩
    exact hq.handleSignal (Result.unwrap_ok.1 hs)

theorem Exempt.sysRtSigreturn (hs : t.sysRtSigreturn = .ok t') : t'.Exempt := by
  rw [UserThread.sysRtSigreturn] at hs
  split at hs
  · cases hs
  · obtain ⟨⟨⟩, -, hs⟩ := bind_ok.1 hs
    obtain ⟨⟨⟩, -, hs⟩ := bind_ok.1 hs
    obtain ⟨sigStack, -, ⟨⟩⟩ := bind_ok.1 hs
    exact ⟨h.mask.unblock _, h.actions, h.counted, h.placed, h.status⟩

theorem Exempt.exec (hgiven : t.Considerate a) (hs : t.exec a = .ok t') : t'.Exempt := by
  cases a with
  | sigprocmask how setPtr oldsetPtr => exact h.sysRtSigprocmask hgiven hs
  | sigaction sigNum sigActionAddr oldSigActionAddr => exact h.sysRtSigaction hgiven hs
  | enqueue signal =>
    cases hs
    exact ⟨h.mask, h.actions, h.counted.enqueue signal, h.placed.enqueue signal, h.status⟩
  | user context memory =>
    cases hs
    exact ⟨h.mask, h.actions, h.counted, h.placed, h.status⟩
  | deliver => exact h.handlePendingSignal hs
  | sigreturn => exact h.sysRtSigreturn hs

theorem Exempt.step (hgiven : t.Considerate a) (hs : t.step a = some t') : t'.Exempt := by
  rw [UserThread.step] at hs
  split_ifs at hs with hexited
  rcases ok_or_eq_of_ignoreErr hs with hexec | rfl
  · exact h.exec hgiven hexec
  · exact h

/-! ### The two signals act -/

/-- A signal with its default action is taken from the queues and acts. -/
theorem handlePendingSignal_default {n : SigNum} (hn : t.sigQueues.stdQueues n = some signal)
    (hreserved : n = sigkill ∨ n = sigstop) (hfirst : t.sigQueues.firstStd t.sigMask = some n) :
    (t.sigQueues.dequeue t.sigMask).1 = some signal ∧ ∃ sigQueues,
      t.handlePendingSignal = .ok ({ t with sigQueues }.handleDefault n) := by
  have hdequeue := SigQueues.dequeue_std h.counted hn hfirst
  have hnum : signal.num = n := h.placed n signal hn
  have haction : t.sigDispositions signal.num = .dfl :=
    hnum ▸ (h.actions n).dfl hreserved
  refine ⟨by rw [hdequeue], (t.sigQueues.dequeue t.sigMask).2, ?_⟩
  rw [handlePendingSignal, hdequeue]
  dsimp only
  rw [handleSignal, haction]
  rw [hnum]
  rfl

end

/-- **A pending `SIGKILL` is the next signal and kills the process, and a pending `SIGSTOP` stops
the thread once no `SIGKILL` or `SIGTERM` is before it**, if no set of `SIG_SETMASK` and no action
of `rt_sigaction` concerned the two signals. -/
theorem sigkill_and_sigstop_act (h₀ : t₀.Exempt)
    (hr : (lts.restrict Considerate).Reachable t₀ t) (hlive : t.status ≠ .exited) :
    (∀ signal, t.sigQueues.stdQueues sigkill = some signal →
      (t.sigQueues.dequeue t.sigMask).1 = some signal ∧ ∃ t', t.handlePendingSignal = .ok t' ∧
        t'.status = .exited ∧ t'.termStatus = some sigkill) ∧
    ∀ signal, t.sigQueues.stdQueues sigstop = some signal →
      (∀ n ∈ [sigkill, sigterm], (t.sigQueues.stdQueues n).isSome →
        t.sigMask.contains n = true) →
      (t.sigQueues.dequeue t.sigMask).1 = some signal ∧ ∃ t', t.handlePendingSignal = .ok t' ∧
        t'.status = .stopped := by
  have h : t.Exempt := hr.invariant h₀ fun _ _ _ h hs => h.step hs.1 hs.2
  constructor
  · intro signal hkill
    obtain ⟨hdequeue, q, hact⟩ := handlePendingSignal_default h hkill (.inl rfl)
      (SigQueues.firstStd_sigkill hkill h.mask.1)
    exact ⟨hdequeue, _, hact, rfl, rfl⟩
  · intro signal hstop hbefore
    obtain ⟨hdequeue, q, hact⟩ := handlePendingSignal_default h hstop (.inr rfl)
      (SigQueues.firstStd_sigstop hstop h.mask.2 hbefore)
    refine ⟨hdequeue, _, hact, ?_⟩
    have hstop : SigDefaultAction.fromSignum sigstop = .stop := by decide
    rw [handleDefault, hstop]
    dsimp only
    split_ifs with hrunning
    · rfl
    · have hinit := h.status
      cases hstatus : t.status with
      | init => exact absurd hstatus hinit
      | running => exact absurd hstatus hrunning
      | exited => exact absurd hstatus hlive
      | stopped => rfl

theorem exempt_idle (context : GeneralRegs) (bytes : Bytes) : (idle context bytes).Exempt :=
  ⟨(by decide : (SigMask.mk 0).Spares), fun _ => ⟨fun _ => rfl, nofun⟩, SigQueues.counted_new,
    SigQueues.placed_new, nofun⟩

/-- A thread blocks every signal that it can; both signals arrive, and the process is killed. -/
theorem sigkill_and_sigstop_act_blocked : ∃ t t' : UserThread,
    lts.Reachable (idle (.ofWords fun _ => 0) fun _ => 255) t ∧
    t.sigMask.contains sigterm = true ∧ t.handlePendingSignal = .ok t' ∧
    t'.termStatus = some sigkill := by
  have hrun : (Lts.run step (idle (.ofWords fun _ => 0) fun _ => 255)
      [.sigprocmask 0 0x200000 0, .enqueue ⟨sigstop, 0, fun _ => 0⟩,
        .enqueue ⟨sigkill, 0, fun _ => 0⟩]).map (fun t => (t.sigMask.contains sigterm, t.status,
          (t.sigQueues.stdQueues sigkill).isSome)) = some (true, .running, true) := by
    decide +kernel
  obtain ⟨t, ht, hproj⟩ := Option.map_eq_some_iff.1 hrun
  simp only [Prod.mk.injEq] at hproj
  obtain ⟨signal, hsignal⟩ := Option.isSome_iff_exists.1 hproj.2.2
  have hr : (lts.restrict Considerate).Reachable (idle (.ofWords fun _ => 0) fun _ => 255) t := by
    refine Lts.reachable_run_restrict (fun s l hl => ?_) ht
    simp only [List.mem_cons, List.not_mem_nil, or_false] at hl
    rcases hl with rfl | rfl | rfl
    exacts [nofun, trivial, trivial]
  obtain ⟨-, t', hact, -, hkilled⟩ :=
    (sigkill_and_sigstop_act (exempt_idle _ _) hr (by rw [hproj.2.1]; nofun)).1 signal hsignal
  exact ⟨t, t', hr.of_restrict, hproj.1, hact, hkilled⟩

/-- Of the words that user code has at hand, one is a set with `SIGKILL` and one an action that
ignores it. -/
def hostileBytes : Bytes := fun a => if a = 0x200001 ∨ a = 0x200100 then 1 else 0

/-- `SIG_SETMASK` blocks `SIGKILL`, so that it stays pending; and `rt_sigaction` ignores it. -/
theorem exists_ineffective_sigkill : ∃ t₀ t₁ t₂ t' : UserThread, t₀.Exempt ∧
    lts.Reachable t₀ t₁ ∧ t₁.status = .running ∧ t₁.sigQueues.stdQueues sigkill ≠ none ∧
    (t₁.sigQueues.dequeue t₁.sigMask).1 = none ∧
    lts.Reachable t₀ t₂ ∧ t₂.sigQueues.stdQueues sigkill ≠ none ∧
    t₂.handlePendingSignal = .ok t' ∧ t'.status = .running ∧
    t'.sigQueues.stdQueues sigkill = none := by
  obtain ⟨t₁, hr1, hrunning, hpending, hnone⟩ := Lts.exists_run step
    (idle (.ofWords fun _ => 0) hostileBytes)
    [.sigprocmask 2 0x200000 0, .enqueue ⟨sigkill, 0, fun _ => 0⟩]
    (fun t => t.status = .running ∧ t.sigQueues.stdQueues sigkill ≠ none ∧
      (t.sigQueues.dequeue t.sigMask).1 = none) (by decide +kernel)
  obtain ⟨t₂, hr2, hpending', hact⟩ := Lts.exists_run step (idle (.ofWords fun _ => 0) hostileBytes)
    [.sigaction 9 0x200100 0, .enqueue ⟨sigkill, 0, fun _ => 0⟩]
    (fun t => t.sigQueues.stdQueues sigkill ≠ none ∧ t.handlePendingSignal.toOption.any (fun t =>
      t.status = .running ∧ t.sigQueues.stdQueues sigkill = none) = true) (by decide +kernel)
  obtain ⟨t', ht', hafter⟩ := (Option.any_eq_true _ _).1 hact
  obtain ⟨hrunning', hnone'⟩ := of_decide_eq_true hafter
  exact ⟨_, t₁, t₂, t', exempt_idle _ _, hr1, hrunning, hpending, hnone, hr2, hpending',
    ok_of_toOption ht', hrunning', hnone'⟩

end UserThread

end Jinux
