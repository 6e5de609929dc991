import Jinux.Lib.Lts
import Jinux.Lib.OrdMap
import Jinux.Lib.Threads
import Jinux.Signal.SigQueues

/-!
# Waiting for children

The threads of a process call `wait_child_exit`.  A call copies the children that it waits for under
the lock of `children`, tests the copies one by one, and reaps the first zombie: `reap_zombie_child`
takes the lock of `children` again and unwraps what it removes.  Each locked section is one step;
between them the other threads, and the children, take theirs.

* `ChildWaits.exists_reap_panic` : two calls find the same zombie, and the second removal panics;
* `ChildWaits.reaped_exactly_once` : **every zombie is reaped once**, and no call panics, as long as
  a child is removed only when it is in no other copy that is still looked at.
-/

namespace Jinux

open Function List OrdMap

universe u

variable {ι : Type u}

/-- `TermStatus` -/
inductive TermStatus where
  | exited (status : BitVec 8)
  | killed (signum : SigNum)
  deriving DecidableEq

/-- `TermStatus::as_u32` -/
def TermStatus.asU32 : TermStatus → ℕ
  | .exited status => status.toNat <<< 8
  | .killed signum => signum.asU8

/-- `ProcessStatus` -/
inductive ProcessStatus where
  | uninit
  | runnable
  | zombie (termStatus : TermStatus)
  deriving DecidableEq

namespace ProcessStatus

/-- `ProcessStatus::is_zombie` -/
def isZombie : ProcessStatus → Bool
  | .zombie _ => true
  | _ => false

/-- `Process::exit_code` -/
def exitCode : ProcessStatus → Option ℕ
  | .zombie termStatus => some termStatus.asU32
  | _ => none

theorem exists_exitCode {status : ProcessStatus} (h : status.isZombie = true) :
    ∃ code, status.exitCode = some code := by
  cases status with
  | zombie termStatus => exact ⟨_, rfl⟩
  | _ => cases h

end ProcessStatus

/-- What a process shows to its parent. -/
structure ChildProcess where
  pgid : ℕ
  status : ProcessStatus
  deriving DecidableEq

/-- `ProcessFilter` -/
inductive ProcessFilter where
  | any
  | withPid (pid : ℕ)
  | withPgid (pgid : ℕ)
  deriving DecidableEq

/-- The filter of `wait_child_exit`, on the child `pid`. -/
def ProcessFilter.accepts (filter : ProcessFilter) (pid : ℕ) (child : ChildProcess) : Bool :=
  match filter with
  | .any => true
  | .withPid p => pid == p
  | .withPgid pgid => child.pgid == pgid

/-- `WaitOptions` -/
structure WaitOptions where
  bits : BitVec 32
  deriving DecidableEq

namespace WaitOptions

def wnohang : WaitOptions := ⟨0x1⟩
def wnowait : WaitOptions := ⟨0x01000000⟩

/-- `contains` -/
def contains (options flag : WaitOptions) : Bool := options.bits &&& flag.bits == flag.bits

end WaitOptions

/-- The arguments of `wait_child_exit`. -/
structure WaitArgs where
  childFilter : ProcessFilter
  waitOptions : WaitOptions
  deriving DecidableEq

/-- The call leaves the child that it finds. -/
def WaitArgs.nowait (call : WaitArgs) : Bool := call.waitOptions.contains .wnowait

/-- Where a thread is in `wait_child_exit`. -/
inductive ChildWaitPc where
  | user
  /-- Before the lock of `children`. -/
  | calling (call : WaitArgs)
  /-- Before the test of the first child that is left of the copy. -/
  | testing (call : WaitArgs) (todo : List ℕ)
  /-- Before the exit code of a zombie is read. -/
  | found (call : WaitArgs) (pid : ℕ)
  /-- Before the return, or the call of `reap_zombie_child`. -/
  | coded (call : WaitArgs) (pid code : ℕ)
  /-- In `reap_zombie_child`, after the removal. -/
  | removed (call : WaitArgs) (pid : ℕ)
  /-- At the end of `reap_zombie_child`, before the exit code is read again. -/
  | freed (call : WaitArgs) (pid : ℕ)
  | waiting (call : WaitArgs)
  deriving DecidableEq

namespace ChildWaitPc

/-- The children of the copy that the call still looks at. -/
def holds : ChildWaitPc → List ℕ
  | .testing _ todo => todo
  | .found _ pid | .coded _ pid _ => [pid]
  | _ => []

/-- The children that the call has found to be zombies. -/
def dead : ChildWaitPc → List ℕ
  | .found _ pid | .coded _ pid _ | .removed _ pid | .freed _ pid => [pid]
  | _ => []

/-- The child that the call has removed. -/
def reaps : ChildWaitPc → Option ℕ
  | .removed _ pid | .freed _ pid => some pid
  | _ => none

/-- The call of a thread that has removed a child. -/
def reapCall : ChildWaitPc → Option WaitArgs
  | .removed call _ | .freed call _ => some call
  | _ => none

/-- The child that the next step removes. -/
def removes : ChildWaitPc → Option ℕ
  | .coded call pid _ => if call.nowait then none else some pid
  | _ => none

/-- One for a thread that has removed the child. -/
def reaping (pid : ℕ) (pc : ChildWaitPc) : ℕ := if pc.reaps = some pid then 1 else 0

end ChildWaitPc

/-- A call that has ended. -/
structure ChildWaitReturn (ι : Type u) where
  thread : ι
  call : WaitArgs
  result : Result (ℕ × ℕ)

namespace ChildWaitReturn

/-- The call has returned the child, and not only looked at it. -/
def reaped (r : ChildWaitReturn ι) (pid : ℕ) : Bool :=
  !r.call.nowait && match r.result with
    | .ok (p, _) => p == pid
    | .error _ => false

/-- The call has panicked. -/
def panicked (r : ChildWaitReturn ι) : Bool :=
  match r.result with
  | .error (.panic _) => true
  | _ => false

end ChildWaitReturn

/-- The threads `ι` of a process, and its children. -/
structure ChildWaits (ι : Type u) where
  process : ℕ → ChildProcess
  /-- `Process::children`; a process is named by its pid. -/
  children : OrdMap ℕ Unit
  /-- The processes that are or have been children. -/
  known : List ℕ
  pc : ι → ChildWaitPc
  /-- The calls that have ended, the last one first. -/
  returns : List (ChildWaitReturn ι)

/-- A step of a thread, or of another process. -/
inductive ChildWaitStep (ι : Type u) where
  /-- A thread calls `wait_child_exit`. -/
  | call (t : ι) (call : WaitArgs)
  | go (t : ι)
  /-- A signal ends a pause. -/
  | interrupt (t : ι)
  /-- A child is forked, or left to this process by its parent. -/
  | arrive (pid : ℕ) (process : ChildProcess)
  /-- `Process::set_zombie`, by a thread of the process itself. -/
  | setZombie (pid : ℕ) (termStatus : TermStatus)
  | setPgid (pid pgid : ℕ)

namespace ChildWaits

open ChildWaitPc

variable [DecidableEq ι] {s s' : ChildWaits ι} {t u : ι} {pid : ℕ} {call : WaitArgs}

/-- No thread waits, and there are no children. -/
def start (process : ℕ → ChildProcess) : ChildWaits ι :=
  ⟨process, .empty, [], fun _ => .user, []⟩

/-- Thread `t` goes on at `pc`. -/
def setPc (s : ChildWaits ι) (t : ι) (pc : ChildWaitPc) : ChildWaits ι :=
  { s with pc := update s.pc t pc }

/-- The call of thread `t` ends. -/
def ret (s : ChildWaits ι) (t : ι) (call : WaitArgs) (result : Result (ℕ × ℕ)) : ChildWaits ι :=
  { s.setPc t .user with returns := ⟨t, call, result⟩ :: s.returns }

/-- The process is a child. -/
def IsChild (s : ChildWaits ι) (pid : ℕ) : Prop := s.children.get? pid = some ()

instance (s : ChildWaits ι) (pid : ℕ) : Decidable (s.IsChild pid) :=
  inferInstanceAs (Decidable (_ = _))

/-- The copy of the children that a call waits for. -/
def unwaitedChildren (s : ChildWaits ι) (call : WaitArgs) : List ℕ :=
  s.children.keys.filter fun pid => call.childFilter.accepts pid (s.process pid)

/-- What follows a read of the exit code, which is unwrapped. -/
def withExitCode (s : ChildWaits ι) (t : ι) (call : WaitArgs) (pid : ℕ)
    (k : ℕ → ChildWaits ι) : ChildWaits ι :=
  match (s.process pid).status.exitCode with
  | some code => k code
  | none => s.ret t call (.error (.panic .unwrap))

/-- The removal of `reap_zombie_child`. -/
def removeChild (s : ChildWaits ι) (t : ι) (call : WaitArgs) (pid : ℕ) : ChildWaits ι :=
  match s.children.get? pid with
  | some _ => { s.setPc t (.removed call pid) with children := s.children.remove pid }
  | none => s.ret t call (.error (.panic .unwrap))

/-- The next locked section of `wait_child_exit`. -/
def go (s : ChildWaits ι) (t : ι) : Option (ChildWaits ι) :=
  match s.pc t with
  | .user => none
  | .calling call =>
    some (if s.unwaitedChildren call = [] then
      s.ret t call (returnErrnoWithMessage .echild "the process has no child to wait")
    else s.setPc t (.testing call (s.unwaitedChildren call)))
  | .testing call (pid :: todo) =>
    some (s.setPc t
      (if (s.process pid).status.isZombie then .found call pid else .testing call todo))
  | .testing call [] =>
    some (if call.waitOptions.contains .wnohang then s.ret t call (.ok (0, 0))
    else s.setPc t (.waiting call))
  | .found call pid =>
    some (s.withExitCode t call pid fun code => s.setPc t (.coded call pid code))
  | .coded call pid code =>
    some (if call.nowait then s.ret t call (.ok (pid, code)) else s.removeChild t call pid)
  | .removed call pid =>
    some (if (s.process pid).status.isZombie then s.setPc t (.freed call pid)
    else s.ret t call (.error (.panic .assertion)))
  | .freed call pid => some (s.withExitCode t call pid fun code => s.ret t call (.ok (pid, code)))
  -- `pause_until` evaluates its condition again
  | .waiting call => some (s.setPc t (.calling call))

/-- A process changes. -/
def setProcess (s : ChildWaits ι) (pid : ℕ) (process : ChildProcess) : ChildWaits ι :=
  { s with process := update s.process pid process }

/-- A step of a thread, or of another process. -/
def step (s : ChildWaits ι) : ChildWaitStep ι → Option (ChildWaits ι)
  | .call t call => if s.pc t = .user then some (s.setPc t (.calling call)) else none
  | .go t => s.go t
  | .interrupt t =>
    match s.pc t with
    | .waiting call =>
      some (s.ret t call (returnErrnoWithMessage .eintr "interrupted by signal"))
    | _ => none
  | .arrive pid process =>
    -- pids are not used again, and the first one, 0, is of a kernel thread
    if pid ∈ 0 :: s.known then none
    else some { s.setProcess pid process with
      children := s.children.insert pid ()
      known := pid :: s.known }
  | .setZombie pid termStatus =>
    some (s.setProcess pid { s.process pid with status := .zombie termStatus })
  | .setPgid pid pgid => some (s.setProcess pid { s.process pid with pgid := pgid })

/-- Every interleaving of the steps. -/
def lts (ι : Type u) [DecidableEq ι] : Lts (ChildWaits ι) (ChildWaitStep ι) := Lts.ofFun step

/-- The calls that have returned the child without `WNOWAIT`. -/
def reaped (s : ChildWaits ι) (pid : ℕ) : List (ChildWaitReturn ι) :=
  s.returns.filter (·.reaped pid)

/-- A thread removes a child only when no other thread has it in its copy. -/
def RemovesUnshared (s : ChildWaits ι) : ChildWaitStep ι → Prop
  | .go t => ∀ pid ∈ (s.pc t).removes, ∀ u, u ≠ t → pid ∉ (s.pc u).holds
  | _ => True

/-! ### What a step keeps -/

/-- What a thread knows of the children it has in hand. -/
structure Knows (s : ChildWaits ι) (pc : ChildWaitPc) : Prop where
  held : ∀ pid ∈ pc.holds, s.IsChild pid
  dead : ∀ pid ∈ pc.dead, pid ∈ s.known ∧ (s.process pid).status.isZombie = true
  call : ∀ call ∈ pc.reapCall, call.nowait = false

omit [DecidableEq ι] in
theorem isChild_of_mem_unwaited (h : pid ∈ s.unwaitedChildren call) : s.IsChild pid := by
  obtain ⟨e, he, rfl⟩ := mem_map.1 (mem_of_mem_filter h)
  obtain ⟨_, hget⟩ := exists_lookup he
  exact hget

theorem withExitCode_eq (t : ι) (call : WaitArgs) (k : ℕ → ChildWaits ι)
    (h : (s.process pid).status.isZombie = true) :
    ∃ code, s.withExitCode t call pid k = k code := by
  obtain ⟨code, hcode⟩ := ProcessStatus.exists_exitCode h
  exact ⟨code, by rw [withExitCode, hcode]⟩

theorem removeChild_eq (h : s.IsChild pid) :
    s.removeChild t call pid =
      { s.setPc t (.removed call pid) with children := s.children.remove pid } := by
  rw [removeChild, h]

section Inv

variable [Fintype ι] {result : Result (ℕ × ℕ)} {process : ChildProcess}

/-- What holds between the steps. -/
structure Inv (s : ChildWaits ι) : Prop where
  known : ∀ pid, s.IsChild pid → pid ∈ s.known
  zero : 0 ∉ s.known
  knows : ∀ t, s.Knows (s.pc t)
  /-- A child that is gone has been returned, or is about to be, once. -/
  once : ∀ pid ≠ 0, (s.reaped pid).length + total (reaping pid) s.pc =
    if pid ∈ s.known ∧ ¬ s.IsChild pid then 1 else 0
  quiet : ∀ r ∈ s.returns, r.panicked = false

omit [DecidableEq ι] in
theorem inv_start (process : ℕ → ChildProcess) : (start process : ChildWaits ι).Inv where
  known _ h := by cases h
  zero := not_mem_nil
  knows _ := ⟨nofun, nofun, nofun⟩
  once pid _ := by
    have htotal : total (reaping pid) (start process : ChildWaits ι).pc = 0 :=
      total_eq_zero.2 fun t => rfl
    rw [htotal]
    rfl
  quiet _ h := by cases h

omit [DecidableEq ι] [Fintype ι] in
theorem knows_user : s.Knows .user := ⟨nofun, nofun, nofun⟩

theorem total_setPc (pid : ℕ) (pc : ChildWaitPc) :
    total (reaping pid) (s.setPc t pc).pc + reaping pid (s.pc t) =
      total (reaping pid) s.pc + reaping pid pc :=
  total_update (reaping pid) s.pc t pc

section

variable (h : s.Inv)

include h

/-- A thread moves on and nothing else changes. -/
theorem Inv.setPc {pc : ChildWaitPc} (hknows : s.Knows pc)
    (hreaps : pc.reaps = (s.pc t).reaps) : (s.setPc t pc).Inv where
  known := h.known
  zero := h.zero
  knows := (forall_update_iff s.pc fun _ pc => (s.setPc t _).Knows pc).2
    ⟨⟨hknows.held, hknows.dead, hknows.call⟩,
      fun u _ => ⟨(h.knows u).held, (h.knows u).dead, (h.knows u).call⟩⟩
  once pid hpid := by
    have htotal := total_setPc (s := s) (t := t) pid pc
    rw [reaping, reaping, hreaps, Nat.add_right_cancel_iff] at htotal
    rw [htotal]
    exact h.once pid hpid
  quiet := h.quiet

/-- A call ends: what it returns is what it has removed. -/
theorem Inv.ret (hquiet : (⟨t, call, result⟩ : ChildWaitReturn ι).panicked = false)
    (hreaped : ∀ pid ≠ 0, (⟨t, call, result⟩ : ChildWaitReturn ι).reaped pid =
      decide ((s.pc t).reaps = some pid)) : (s.ret t call result).Inv where
  known := h.known
  zero := h.zero
  knows := (forall_update_iff s.pc fun _ pc => (s.ret t call result).Knows pc).2
    ⟨knows_user, fun u _ => ⟨(h.knows u).held, (h.knows u).dead, (h.knows u).call⟩⟩
  once pid hpid := by
    have htotal := total_setPc (s := s) (t := t) pid .user
    have hlen : ((s.ret t call result).reaped pid).length =
        (s.reaped pid).length + reaping pid (s.pc t) := by
      rw [reaped, reaped, ChildWaits.ret, filter_cons, hreaped pid hpid, reaping]
      by_cases hpc : (s.pc t).reaps = some pid <;> simp [hpc]
    have hmoved : total (reaping pid) (s.ret t call result).pc =
        total (reaping pid) (s.setPc t .user).pc := rfl
    have huser : reaping pid .user = 0 := rfl
    exact (by omega : _ = _).trans (h.once pid hpid)
  quiet r hr := by
    rcases mem_cons.1 hr with rfl | hr
    · exact hquiet
    · exact h.quiet r hr

/-- A call that ends without a child. -/
theorem Inv.ret_none (hreaps : (s.pc t).reaps = none)
    (hresult : (∃ e, result = .error (.err e)) ∨ ∃ pid code, result = .ok (pid, code) ∧
      (pid = 0 ∨ call.nowait = true)) : (s.ret t call result).Inv := by
  refine h.ret ?_ fun pid hpid => ?_
  · rcases hresult with ⟨e, rfl⟩ | ⟨pid, code, rfl, -⟩ <;> rfl
  · rw [hreaps]
    rcases hresult with ⟨e, rfl⟩ | ⟨pid', code, rfl, rfl | hcall⟩
    · simp [ChildWaitReturn.reaped]
    · simp [ChildWaitReturn.reaped, hpid.symm]
    · simp [ChildWaitReturn.reaped, hcall]

/-- A child that no other thread has in hand is removed. -/
theorem Inv.removed (hchild : s.IsChild pid)
    (hzombie : (s.process pid).status.isZombie = true) (hcall : call.nowait = false)
    (hreaps : (s.pc t).reaps = none) (hothers : ∀ u, u ≠ t → pid ∉ (s.pc u).holds) :
    ({ s.setPc t (.removed call pid) with children := s.children.remove pid } :
      ChildWaits ι).Inv := by
  have hstays : ∀ p, p ≠ pid → ((s.children.remove pid).get? p = some () ↔ s.IsChild p) :=
    fun p hp => by rw [get?_remove, if_neg hp, IsChild]
  have hgone : (s.children.remove pid).get? pid = none := by rw [get?_remove, if_pos rfl]
  refine ⟨fun p hp => ?_, h.zero, ?_, fun p hp => ?_, h.quiet⟩
  · rcases eq_or_ne p pid with rfl | hne
    · exact h.known p hchild
    · exact h.known p ((hstays p hne).1 hp)
  · refine (forall_update_iff s.pc fun _ pc => Knows _ pc).2 ⟨⟨nofun, ?_, ?_⟩, ?_⟩
    · intro p hp
      rw [dead, mem_singleton] at hp
      rw [hp]
      exact ⟨h.known pid hchild, hzombie⟩
    · rintro c hc
      cases hc
      exact hcall
    · intro u hu
      refine ⟨fun p hp => ?_, (h.knows u).dead, (h.knows u).call⟩
      have hne : p ≠ pid := fun heq => hothers u hu (heq ▸ hp)
      exact (hstays p hne).2 ((h.knows u).held p hp)
  · have htotal := total_setPc (s := s) (t := t) p (.removed call pid)
    have honce := h.once p hp
    rw [reaping, reaping, hreaps, if_neg nofun] at htotal
    change (s.reaped p).length +
      total (reaping p) (s.setPc t (.removed call pid)).pc = _
    rcases eq_or_ne p pid with rfl | hne
    · rw [if_neg fun hgone => hgone.2 hchild] at honce
      rw [if_pos (show (removed call p).reaps = some p from rfl)] at htotal
      rw [if_pos ⟨h.known p hchild, by simp [IsChild, hgone]⟩]
      omega
    · have hreaps' : (ChildWaitPc.removed call pid).reaps ≠ some p :=
        fun heq => hne (Option.some.inj heq).symm
      rw [if_neg hreaps', Nat.add_zero, Nat.add_zero] at htotal
      rw [htotal, honce]
      exact if_congr (and_congr_right fun _ => not_congr (hstays p hne).symm) rfl rfl

omit [DecidableEq ι] in
/-- A process changes, and a zombie stays one. -/
theorem Inv.setProcess
    (hzombie : (s.process pid).status.isZombie = true → process.status.isZombie = true) :
    (s.setProcess pid process).Inv where
  known := h.known
  zero := h.zero
  knows u := by
    refine ⟨(h.knows u).held, fun p hp => ?_, (h.knows u).call⟩
    obtain ⟨hknown, hdead⟩ := (h.knows u).dead p hp
    refine ⟨hknown, ?_⟩
    rcases eq_or_ne p pid with rfl | hne
    · simpa [ChildWaits.setProcess] using hzombie hdead
    · simpa [ChildWaits.setProcess, hne] using hdead
  once := h.once
  quiet := h.quiet

omit [DecidableEq ι] in
/-- A child arrives. -/
theorem Inv.arrive (hzero : pid ≠ 0) (hpid : pid ∉ s.known) :
    ({ s.setProcess pid process with
      children := s.children.insert pid ()
      known := pid :: s.known } : ChildWaits ι).Inv := by
  have hstays : ∀ p, p ≠ pid → ((s.children.insert pid ()).get? p = some () ↔ s.IsChild p) :=
    fun p hp => by rw [get?_insert_of_ne hp, IsChild]
  refine ⟨fun p hp => ?_, ?_, fun u => ⟨fun p hp => ?_, fun p hp => ?_, (h.knows u).call⟩,
    fun p hp => ?_, h.quiet⟩
  · rcases eq_or_ne p pid with rfl | hne
    · exact mem_cons_self
    · exact mem_cons_of_mem _ (h.known p ((hstays p hne).1 hp))
  · exact fun hmem => (mem_cons.1 hmem).elim hzero.symm h.zero
  · have hchild := (h.knows u).held p hp
    have hne : p ≠ pid := fun heq => hpid (heq ▸ h.known p hchild)
    exact (hstays p hne).2 hchild
  · obtain ⟨hknown, hdead⟩ := (h.knows u).dead p hp
    have hne : p ≠ pid := fun heq => hpid (heq ▸ hknown)
    exact ⟨mem_cons_of_mem _ hknown, by simpa [ChildWaits.setProcess, hne] using hdead⟩
  · have honce := h.once p hp
    change (s.reaped p).length + total (reaping p) s.pc = _
    rw [honce]
    rcases eq_or_ne p pid with rfl | hne
    · simp [hpid, IsChild]
    · refine if_congr (and_congr ?_ (not_congr (hstays p hne).symm)) rfl rfl
      exact (mem_cons.trans (or_iff_right hne)).symm

/-- A thread goes on with its call. -/
theorem Inv.go (hok : s.RemovesUnshared (.go t)) (hs : s.go t = some s') : s'.Inv := by
  have hknows := h.knows t
  unfold ChildWaits.go at hs
  split at hs
  · cases hs
  · next call hpc =>
    cases hs
    split_ifs with hnil
    · exact h.ret_none (hpc ▸ rfl) (.inl ⟨_, rfl⟩)
    · exact h.setPc ⟨fun p hp => isChild_of_mem_unwaited hp, nofun, nofun⟩ (hpc ▸ rfl)
  · next call p todo hpc =>
    cases hs
    rw [hpc] at hknows
    have hchild := hknows.held p mem_cons_self
    split_ifs with hzombie
    · refine h.setPc ⟨?_, ?_, nofun⟩ (hpc ▸ rfl)
      · intro q hq
        exact mem_singleton.1 hq ▸ hchild
      · intro q hq
        exact mem_singleton.1 hq ▸ ⟨h.known p hchild, hzombie⟩
    · exact h.setPc ⟨fun q hq => hknows.held q (mem_cons_of_mem _ hq), nofun, nofun⟩
        (hpc ▸ rfl)
  · next call hpc =>
    cases hs
    split_ifs
    · exact h.ret_none (hpc ▸ rfl) (.inr ⟨0, 0, rfl, .inl rfl⟩)
    · exact h.setPc ⟨nofun, nofun, nofun⟩ (hpc ▸ rfl)
  · next call p hpc =>
    cases hs
    rw [hpc] at hknows
    obtain ⟨code, hcode⟩ := withExitCode_eq t call
      (fun code => s.setPc t (.coded call p code)) (hknows.dead p mem_cons_self).2
    rw [hcode]
    exact h.setPc ⟨hknows.held, hknows.dead, nofun⟩ (hpc ▸ rfl)
  · next call p code hpc =>
    cases hs
    rw [hpc] at hknows
    split_ifs with hnowait
    · exact h.ret_none (hpc ▸ rfl) (.inr ⟨p, code, rfl, .inr hnowait⟩)
    · have hchild := hknows.held p mem_cons_self
      have hremoves : p ∈ (s.pc t).removes := by rw [hpc, removes, if_neg hnowait]; rfl
      rw [removeChild_eq hchild]
      exact h.removed hchild (hknows.dead p mem_cons_self).2 (Bool.not_eq_true _ ▸ hnowait)
        (hpc ▸ rfl) (hok p hremoves)
  · next call p hpc =>
    cases hs
    rw [hpc] at hknows
    rw [if_pos (hknows.dead p mem_cons_self).2]
    exact h.setPc ⟨nofun, hknows.dead, hknows.call⟩ (hpc ▸ rfl)
  · next call p hpc =>
    cases hs
    rw [hpc] at hknows
    obtain ⟨code, hcode⟩ := withExitCode_eq t call
      (fun code => s.ret t call (.ok (p, code))) (hknows.dead p mem_cons_self).2
    rw [hcode]
    refine h.ret rfl fun q _ => ?_
    change (!call.nowait && p == q) = decide ((s.pc t).reaps = some q)
    rw [hpc, hknows.call call rfl]
    change (p == q) = decide (some p = some q)
    rw [Bool.eq_iff_iff, beq_iff_eq, decide_eq_true_iff, Option.some.injEq]
  · next call hpc =>
    cases hs
    exact h.setPc ⟨nofun, nofun, nofun⟩ (hpc ▸ rfl)

theorem Inv.step {l : ChildWaitStep ι} (hok : s.RemovesUnshared l)
    (hs : s.step l = some s') : s'.Inv := by
  cases l with
  | call t call =>
    simp only [ChildWaits.step] at hs
    split_ifs at hs with hpc
    cases hs
    exact h.setPc ⟨nofun, nofun, nofun⟩ (hpc ▸ rfl)
  | go t => exact h.go hok hs
  | interrupt t =>
    simp only [ChildWaits.step] at hs
    split at hs
    · next call hpc =>
      cases hs
      exact h.ret_none (hpc ▸ rfl) (.inl ⟨_, rfl⟩)
    · cases hs
  | arrive pid process =>
    simp only [ChildWaits.step] at hs
    split_ifs at hs with hpid
    cases hs
    rw [mem_cons, not_or] at hpid
    exact h.arrive hpid.1 hpid.2
  | setZombie pid termStatus =>
    cases hs
    exact h.setProcess fun _ => rfl
  | setPgid pid pgid =>
    cases hs
    exact h.setProcess id

end

theorem Inv.of_reachable {process : ℕ → ChildProcess}
    (h : ((lts ι).restrict RemovesUnshared).Reachable (start process) s) : s.Inv :=
  h.invariant (inv_start process) fun _ _ _ hi hs => hi.step hs.1 hs.2

end Inv

/-! ### A zombie can be reaped -/

/-- The call that waits for one child and reaps it. -/
def waitFor (pid : ℕ) : WaitArgs := ⟨.withPid pid, ⟨0⟩⟩

omit [DecidableEq ι] in
theorem unwaited_waitFor (h : s.IsChild pid) :
    ∃ todo, s.unwaitedChildren (waitFor pid) = pid :: todo := by
  have hall : ∀ p ∈ s.unwaitedChildren (waitFor pid), p = pid :=
    fun p hp => beq_iff_eq.1 (mem_filter.1 hp).2
  have hmem : pid ∈ s.unwaitedChildren (waitFor pid) := by
    refine mem_filter.2 ⟨mem_map.2 ⟨(pid, ()), mem_of_get? h, rfl⟩, ?_⟩
    exact beq_iff_eq.2 rfl
  cases hlist : s.unwaitedChildren (waitFor pid) with
  | nil => rw [hlist] at hmem; cases hmem
  | cons p todo =>
    rw [hlist] at hall
    exact ⟨todo, by rw [hall p mem_cons_self]⟩

/-- Thread `t` can go on until its call returns the child. -/
def Reaps (s : ChildWaits ι) (t : ι) (call : WaitArgs) (pid : ℕ) : Prop :=
  ∃ s' code, ((lts ι).restrict RemovesUnshared).Reachable s s' ∧
    s'.returns = ⟨t, call, .ok (pid, code)⟩ :: s.returns

variable {pc : ChildWaitPc}

@[simp] theorem setPc_self (pc : ChildWaitPc) : (s.setPc t pc).pc t = pc := update_self ..

theorem setPc_of_ne (h : u ≠ t) : (s.setPc t pc).pc u = s.pc u :=
  update_of_ne h ..

theorem nowait_waitFor (pid : ℕ) : (waitFor pid).nowait = false := by
  change (⟨0⟩ : WaitOptions).contains .wnowait = false
  decide

theorem Reaps.of_step {s₁ : ChildWaits ι} {l : ChildWaitStep ι} (h : s₁.Reaps t call pid)
    (hok : s.RemovesUnshared l) (hs : s.step l = some s₁) (hret : s₁.returns = s.returns) :
    s.Reaps t call pid := by
  obtain ⟨s', code, hreach, hlast⟩ := h
  exact ⟨s', code, Relation.ReflTransGen.head ⟨l, hok, hs⟩ hreach, hret ▸ hlast⟩

omit [DecidableEq ι] in
/-- A step that removes nothing. -/
theorem removesUnshared_of_none (h : (s.pc t).removes = none) : s.RemovesUnshared (.go t) := by
  intro p hp
  rw [h] at hp
  cases hp

/-- The thread goes on at `pc`, and removes nothing. -/
theorem Reaps.of_go (h : (s.setPc t pc).Reaps t call pid) (hs : s.go t = some (s.setPc t pc))
    (hnone : (s.pc t).removes = none) : s.Reaps t call pid :=
  h.of_step (removesUnshared_of_none hnone) hs rfl

theorem reaps_of_freed (hpc : s.pc t = .freed call pid)
    (hzombie : (s.process pid).status.isZombie = true) : s.Reaps t call pid := by
  obtain ⟨code, hcode⟩ :=
    withExitCode_eq t call (fun code => s.ret t call (.ok (pid, code))) hzombie
  have hstep : s.step (.go t) = some (s.ret t call (.ok (pid, code))) := by
    simp [step, go, hpc, hcode]
  exact ⟨_, code, .step (.refl s) ⟨removesUnshared_of_none (hpc ▸ rfl), hstep⟩, rfl⟩

theorem reaps_of_removed (hpc : s.pc t = .removed call pid)
    (hzombie : (s.process pid).status.isZombie = true) : s.Reaps t call pid :=
  (reaps_of_freed (setPc_self (.freed call pid)) hzombie).of_go
    (by simp only [go, hpc, hzombie, if_true]) (hpc ▸ rfl)

/-- The child is a zombie that thread `t` alone can have in hand. -/
structure Ripe (s : ChildWaits ι) (t : ι) (pid : ℕ) : Prop where
  child : s.IsChild pid
  zombie : (s.process pid).status.isZombie = true
  others : ∀ u, u ≠ t → pid ∉ (s.pc u).holds

section

variable (h : s.Ripe t pid)

include h

theorem Ripe.setPc (pc : ChildWaitPc) : (s.setPc t pc).Ripe t pid := by
  refine ⟨h.child, h.zombie, fun u hu => ?_⟩
  rw [setPc_of_ne hu]
  exact h.others u hu

theorem Ripe.reaps_of_coded {code : ℕ} (hpc : s.pc t = .coded call pid code)
    (hnowait : call.nowait = false) : s.Reaps t call pid := by
  have hstep : s.step (.go t) = some (s.removeChild t call pid) := by
    simp [step, go, hpc, hnowait]
  have hremoved : (s.removeChild t call pid).Reaps t call pid := by
    rw [removeChild_eq h.child]
    exact reaps_of_removed (setPc_self _) h.zombie
  refine hremoved.of_step ?_ hstep (by rw [removeChild_eq h.child]; rfl)
  intro p hp
  rw [hpc, removes, hnowait] at hp
  cases hp
  exact h.others

theorem Ripe.reaps_of_found (hpc : s.pc t = .found call pid)
    (hnowait : call.nowait = false) : s.Reaps t call pid := by
  obtain ⟨code, hcode⟩ :=
    withExitCode_eq t call (fun code => s.setPc t (.coded call pid code)) h.zombie
  exact ((h.setPc (.coded call pid code)).reaps_of_coded (setPc_self _) hnowait).of_go
    (by simp only [go, hpc, hcode]) (hpc ▸ rfl)

/-- The first child of the copy is a zombie. -/
theorem Ripe.reaps_of_testing {todo : List ℕ} (hpc : s.pc t = .testing call (pid :: todo))
    (hnowait : call.nowait = false) : s.Reaps t call pid :=
  ((h.setPc _).reaps_of_found (setPc_self _) hnowait).of_go
    (by simp only [go, hpc, h.zombie, if_true]) (hpc ▸ rfl)

/-- A thread that waits for a zombie that no other thread has in hand returns it. -/
theorem Ripe.reaps_waitFor (hpc : s.pc t = .user) : s.Reaps t (waitFor pid) pid := by
  obtain ⟨todo, htodo⟩ := unwaited_waitFor h.child
  have hcalling := h.setPc (.calling (waitFor pid))
  have hsame : (s.setPc t (.calling (waitFor pid))).unwaitedChildren (waitFor pid) =
      pid :: todo := htodo
  have htested := (hcalling.setPc (.testing (waitFor pid) (pid :: todo))).reaps_of_testing
    (setPc_self _) (nowait_waitFor pid)
  have hcopied := htested.of_go
    (by simp only [go, setPc_self, hsame, if_neg (cons_ne_nil pid todo)])
    (by rw [setPc_self]; rfl)
  have hok : s.RemovesUnshared (.call t (waitFor pid)) := trivial
  exact hcopied.of_step hok (by simp only [step, hpc, if_true]) rfl

end

/-! ### Every zombie is reaped once -/

/-- What has become of a child: it is still a child and no call has taken it, or one call has
returned it without `WNOWAIT` or has removed it and is about to return it. -/
structure ReapedOnce [Fintype ι] (s : ChildWaits ι) (pid : ℕ) : Prop where
  child : s.IsChild pid → s.reaped pid = [] ∧ ∀ t, (s.pc t).reaps ≠ some pid
  gone : ¬ s.IsChild pid → (s.reaped pid).length + total (reaping pid) s.pc = 1

omit [DecidableEq ι] in
theorem Inv.reapedOnce [Fintype ι] (h : s.Inv) (hpid : pid ∈ s.known) : s.ReapedOnce pid where
  child hchild := by
    have honce := h.once pid fun hzero => h.zero (hzero ▸ hpid)
    rw [if_neg fun hgone => hgone.2 hchild] at honce
    refine ⟨eq_nil_of_length_eq_zero (by omega), fun t ht => ?_⟩
    have hnone := total_eq_zero.1 (by omega : total (reaping pid) s.pc = 0) t
    rw [reaping, if_pos ht] at hnone
    cases hnone
  gone hgone := by
    have honce := h.once pid fun hzero => h.zero (hzero ▸ hpid)
    rwa [if_pos ⟨hpid, hgone⟩] at honce

/-- **Every zombie is reaped once.**  In every run in which a child is removed only when no other
thread has it in its copy, no call panics, every process that has been a child is a child or has
been taken by exactly one call, and a zombie that no thread has in hand is returned to a thread that
waits for it. -/
theorem reaped_exactly_once [Fintype ι] {process : ℕ → ChildProcess}
    (h : ((lts ι).restrict RemovesUnshared).Reachable (start process) s) :
    (∀ r ∈ s.returns, r.panicked = false) ∧ (∀ pid ∈ s.known, s.ReapedOnce pid) ∧
      ∀ t pid, s.pc t = .user → s.IsChild pid → (s.process pid).status.isZombie = true →
        (∀ u, pid ∉ (s.pc u).holds) → s.Reaps t (waitFor pid) pid := by
  have hinv := Inv.of_reachable h
  refine ⟨hinv.quiet, fun pid hpid => hinv.reapedOnce hpid, ?_⟩
  intro t pid hpc hchild hzombie hfree
  exact Ripe.reaps_waitFor ⟨hchild, hzombie, fun u _ => hfree u⟩ hpc

instance [Fintype ι] (s : ChildWaits ι) : ∀ l, Decidable (s.RemovesUnshared l)
  | .go t => inferInstanceAs
      (Decidable (∀ pid ∈ (s.pc t).removes, ∀ u, u ≠ t → pid ∉ (s.pc u).holds))
  | .call _ _ | .interrupt _ | .arrive _ _ | .setZombie _ _ | .setPgid _ _ =>
    inferInstanceAs (Decidable True)

/-- The call that waits for any child. -/
def waitAny : WaitArgs := ⟨.any, ⟨0⟩⟩

/-- The processes, all of the group 1. -/
def runnable (_ : ℕ) : ChildProcess := ⟨1, .runnable⟩

/-- Two threads wait for a child, and it exits between their copies. -/
def oneAfterTheOther : List (ChildWaitStep Bool) :=
  [.arrive 2 (runnable 2), .call false waitAny, .go false, .go false, .go false,
    .setZombie 2 (.exited 1), .call true waitAny, .go true, .go true, .go true, .go true, .go true,
    .go true, .go false, .go false]

theorem reaped_exactly_once_oneAfterTheOther : ∃ s : ChildWaits Bool,
    ((lts Bool).restrict RemovesUnshared).Reachable (start runnable) s ∧
    s.returns.map (fun r => (r.thread, r.result.toOption)) =
        [(false, none), (true, some (2, 256))] ∧
      (∀ r ∈ s.returns, r.panicked = false) ∧ s.ReapedOnce 2 := by
  obtain ⟨s, hr, hreturns, hknown⟩ := Lts.exists_run_restrict step (start runnable)
    oneAfterTheOther (fun s => s.returns.map (fun r => (r.thread, r.result.toOption)) =
      [(false, none), (true, some (2, 256))] ∧ 2 ∈ s.known) RemovesUnshared (by decide +kernel)
  have hall := reaped_exactly_once hr
  exact ⟨s, hr, hreturns, hall.1, hall.2.1 2 hknown⟩

/-- Two threads copy the children, and then the child exits. -/
def bothFindIt : List (ChildWaitStep Bool) :=
  [.arrive 2 (runnable 2), .call false waitAny, .call true waitAny, .go false, .go true,
    .setZombie 2 (.exited 1), .go false, .go true, .go false, .go true, .go false, .go true]

/-- Two calls find the same zombie, and the second one panics when it removes it. -/
theorem exists_reap_panic : ∃ s : ChildWaits Bool, (lts Bool).Reachable (start runnable) s ∧
    ∃ r ∈ s.returns, r.thread = true ∧ r.call = waitAny ∧ r.panicked = true :=
  Lts.exists_run step (start runnable) bothFindIt _ (by decide +kernel)

end ChildWaits

end Jinux
