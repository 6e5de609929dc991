import Jinux.Sync.RwLock
import Jinux.Sync.WaitQueue

/-!
# Reader-writer mutexes

An `RwMutex` has the word of an `RwLock` and a wait queue.  `read`, `write` and `upread` wait until
`try_read`, `try_write` or `try_upread` succeeds; the drops of the guards wake waiters.

* `RwMutex.step` : the next step of a thread, on the word or on the queue;
* `RwMutex.rw_reachable` : on the word, the threads of a mutex do what threads of an `RwLock` do;
* `rwLock_rwMutex_exclusive` : **reader-writer exclusion**, for the two locks, under any
  interleaving of the atomic operations of fewer than `2 ^ 60` threads.
-/

namespace Jinux

universe u

/-- `wake_all` (`true`), `wake_one` (`false`) or nothing: what the drop of a guard does after it has
found `lock` in the word. -/
def Access.wakes (lock : ℕ) : Access → Option Bool
  | .read => if lock = RwWord.reader then some false else none
  | .write => some true
  | .upread => if lock = 0 then some true else none

/-- Where a thread is in `do_wait`, in `wake_one` or in `wake_all`. -/
inductive MutexStage (ι : Type u) where
  | idle
  /-- In `do_wait`, where it tests the condition: for the first time, or in the loop (`queued`).
  Where it is in the attempt, its `RwPc` says. -/
  | test (a : Access) (queued : Bool)
  /-- The first test failed; before `enqueue`. -/
  | enqueue (a : Access)
  /-- In the loop of `Waiter::wait`. -/
  | wait (a : Access)
  /-- Out of the loop of `Waiter::wait`, before the mark is cleared. -/
  | clear (a : Access)
  /-- It has got a guard in the loop of `do_wait`; before `dequeue`. -/
  | dequeue
  /-- Before the lock of the queue is taken, in `wake_all` or in `wake_one`. -/
  | lockQueue (all : Bool)
  /-- In the loop of the waker, with the waiters still to wake up. -/
  | waking (todo : List ι)
  deriving DecidableEq

/-- What a thread can do next. -/
inductive MutexOp where
  /-- Call `read`, `write` or `upread`. -/
  | acquire (a : Access)
  | drop (a : Access)
  /-- Call `upgrade`. -/
  | upgrade
  /-- Call `try_read`, `try_write` or `try_upread`. -/
  | attempt (a : Access)
  /-- Call `try_upgrade`. -/
  | tryUpgrade
  | go
  deriving DecidableEq

/-- A mutex and the threads that use it. -/
structure RwMutex (ι : Type u) where
  /-- The word, and the threads as far as the word is concerned. -/
  rw : RwLock ι
  queue : WaitQueue ι
  /-- Where the threads are in the operations on the queue. -/
  stage : ι → MutexStage ι

namespace RwMutex

variable {ι : Type u} [DecidableEq ι]

/-- A new mutex. -/
def new : RwMutex ι := ⟨.new, .new, fun _ => .idle⟩

/-- Thread `i` goes on at `stage`. -/
def goto (s : RwMutex ι) (i : ι) (stage : MutexStage ι) : RwMutex ι :=
  { s with stage := Function.update s.stage i stage }

/-- Thread `i` goes on at `stage` after an operation on the word. -/
def onWord (s : RwMutex ι) (i : ι) (op : RwOp) (stage : MutexStage ι) : Option (RwMutex ι) :=
  (s.rw.step (i, op)).map fun rw => { s.goto i stage with rw := rw }

/-- Thread `i` goes on at `stage` after an operation on the queue, if the queue is not locked. -/
def onQueue (s : RwMutex ι) (i : ι) (q : Option (WaitQueue ι)) (stage : MutexStage ι) :
    Option (RwMutex ι) :=
  q.map fun q => { s.goto i stage with queue := q }

/-- Where a thread goes on after the drop of a guard that found `lock` in the word. -/
def afterDrop (lock : ℕ) (a : Access) : MutexStage ι :=
  match a.wakes lock with
  | some all => .lockQueue all
  | none => .idle

/-- Where a thread goes on after a test of the condition that failed. -/
def afterFailure (a : Access) (queued : Bool) : MutexStage ι :=
  if queued then .wait a else .enqueue a

/-- Where a thread goes on after the first atomic operation of a test of the condition. -/
def afterAttempt (a : Access) (queued : Bool) : Attempt → MutexStage ι
  | .acquired => if queued then .dequeue else .idle
  | .refused => afterFailure a queued
  | .undo => .test a queued

/-- The next step of thread `i` in its call. -/
def go (s : RwMutex ι) (i : ι) : Option (RwMutex ι) :=
  match s.stage i with
  | .idle =>
    match (s.rw.threads i).pc with
    | .upgraded => s.onWord i .go (afterDrop s.rw.lock .upread)
    | _ => s.onWord i .go .idle
  | .test a queued =>
    match (s.rw.threads i).pc with
    | .idle => s.onWord i (.attempt a) (afterAttempt a queued (a.attempt s.rw.lock).2)
    | _ => s.onWord i .go (afterFailure a queued)
  | .enqueue a => s.onQueue i (s.queue.enqueue i) (.test a true)
  | .wait a => some (if s.queue.isWokenUp i then s.goto i (.clear a) else s)
  | .clear a => s.onQueue i (some (s.queue.clear i)) (.test a true)
  | .dequeue => s.onQueue i (s.queue.dequeue i) .idle
  | .lockQueue all => s.onQueue i s.queue.lock (.waking (s.queue.targets all))
  | .waking (j :: todo) => s.onQueue i (some (s.queue.wakeUp j)) (.waking todo)
  | .waking [] => s.onQueue i (some s.queue.unlock) .idle

/-- The next step of thread `l.1`. -/
def step (s : RwMutex ι) (l : ι × MutexOp) : Option (RwMutex ι) :=
  match l.2, s.stage l.1 with
  | .acquire a, .idle =>
    if (s.rw.threads l.1).pc = .idle then some (s.goto l.1 (.test a false)) else none
  | .drop a, .idle => s.onWord l.1 (.drop a) (afterDrop s.rw.lock a)
  | .upgrade, .idle => s.onWord l.1 .upgrade .idle
  | .attempt a, .idle => s.onWord l.1 (.attempt a) .idle
  | .tryUpgrade, .idle => s.onWord l.1 .tryUpgrade .idle
  | .go, _ => s.go l.1
  | _, _ => none

/-- Every interleaving of the steps of the threads. -/
def lts : Lts (RwMutex ι) (ι × MutexOp) := Lts.ofFun step

/-! ### The word of a mutex -/

variable {s s' : RwMutex ι} {stage : MutexStage ι} {i : ι}

theorem onWord_eq_some {op : RwOp} (h : s.onWord i op stage = some s') :
    s.rw.step (i, op) = some s'.rw ∧ s'.queue = s.queue ∧
      s'.stage = Function.update s.stage i stage := by
  obtain ⟨rw, hrw, rfl⟩ := Option.map_eq_some_iff.1 h
  exact ⟨hrw, rfl, rfl⟩

theorem onQueue_eq_some {q : Option (WaitQueue ι)} (h : s.onQueue i q stage = some s') :
    s'.rw = s.rw := by
  obtain ⟨q, -, rfl⟩ := Option.map_eq_some_iff.1 h
  rfl

/-- A step leaves the word and its users alone, or it is a step on the word. -/
theorem rw_go (h : s.go i = some s') : s'.rw = s.rw ∨ ∃ op, s.rw.step (i, op) = some s'.rw := by
  unfold go at h
  split at h
  next => split at h <;> exact .inr ⟨_, (onWord_eq_some h).1⟩
  next => split at h <;> exact .inr ⟨_, (onWord_eq_some h).1⟩
  next =>
    exact .inl (onQueue_eq_some h)
  next =>
    obtain rfl := Option.some.inj h
    split_ifs <;> exact .inl rfl
  all_goals exact .inl (onQueue_eq_some h)

theorem rw_step {l : ι × MutexOp} (h : s.step l = some s') :
    s'.rw = s.rw ∨ ∃ op, s.rw.step (l.1, op) = some s'.rw := by
  unfold step at h
  split at h
  next =>
    split_ifs at h
    obtain rfl := Option.some.inj h
    exact .inl rfl
  next => exact .inr ⟨_, (onWord_eq_some h).1⟩
  next => exact .inr ⟨_, (onWord_eq_some h).1⟩
  next => exact .inr ⟨_, (onWord_eq_some h).1⟩
  next => exact .inr ⟨_, (onWord_eq_some h).1⟩
  next => exact rw_go h
  next => cases h

/-- On the word, the threads of a mutex do what threads of an `RwLock` do. -/
theorem rw_reachable (h : lts.Reachable new s) : RwLock.lts.Reachable .new s.rw := by
  refine h.invariant (P := fun s => RwLock.lts.Reachable .new s.rw) (.refl _) fun _ l _ hr hs => ?_
  rcases rw_step hs with hrw | ⟨op, hop⟩
  · rwa [hrw]
  · exact hr.step hop

end RwMutex

/-- **Reader-writer exclusion.**  However fewer than `2 ^ 60` threads interleave their atomic
operations on the word of an `RwLock` or of an `RwMutex`, there is at most one write guard, no other
guard besides it, and at most one upgradeable guard, and the word goes back to zero. -/
theorem rwLock_rwMutex_exclusive {ι : Type u} [Fintype ι] [DecidableEq ι]
    (hcard : Fintype.card ι < 2 ^ 60) :
    (∀ s : RwLock ι, RwLock.lts.Reachable .new s → s.Exclusive) ∧
      ∀ s : RwMutex ι, RwMutex.lts.Reachable .new s → s.rw.Exclusive :=
  ⟨fun _ h => (RwLock.inv_of_reachable hcard h).exclusive,
    fun _ h => (RwLock.inv_of_reachable hcard (RwMutex.rw_reachable h)).exclusive⟩

/-- Thread `0` writes, while attempts of the threads `1` and `2` have failed and are not undone. -/
def writeAmongAttempts : List (Fin 3 × RwOp) :=
  [(0, .attempt .write), (1, .attempt .read), (2, .attempt .upread)]

/-- The same with a mutex. -/
def writeAmongCalls : List (Fin 3 × MutexOp) :=
  [(0, .acquire .write), (0, .go), (1, .acquire .read), (1, .go), (2, .attempt .upread)]

theorem rwLock_rwMutex_exclusive_three :
    (∃ s : RwLock (Fin 3), RwLock.lts.Reachable .new s ∧ s.guards .write = 1 ∧ s.Exclusive) ∧
      ∃ s : RwMutex (Fin 3), RwMutex.lts.Reachable .new s ∧ s.rw.guards .write = 1 ∧
        s.rw.Exclusive := by
  have hall := rwLock_rwMutex_exclusive (ι := Fin 3) (by decide)
  obtain ⟨s, hs, hw⟩ := Lts.exists_run RwLock.step .new writeAmongAttempts
    (fun s => s.guards .write = 1) (by decide +kernel)
  obtain ⟨t, ht, hw'⟩ := Lts.exists_run RwMutex.step .new writeAmongCalls
    (fun s => s.rw.guards .write = 1) (by decide +kernel)
  exact ⟨⟨s, hs, hw, hall.1 s hs⟩, ⟨t, ht, hw', hall.2 t ht⟩⟩

end Jinux
