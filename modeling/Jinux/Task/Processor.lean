import Mathlib.Data.List.Basic
import Jinux.Lib.Lts

/-!
# Tasks, the scheduler and the processor

There is one processor.  It runs the code of the current task until this code gives it up in
`schedule`, and interrupts come in between.  The code of a task waits on wait queues, and it wakes
the waiters of wait queues; the handler of an interrupt does the latter only.

* `PreemptScheduler` : the run queue, two intrusive lists; `push_back` panics if the task is linked;
* `Frame` : where the code of a task is in `do_wait`, `Waiter::wait` and `schedule`.  The condition
  of a `do_wait` is a closure that may do anything, so that a task has a stack of frames;
* `Kernel` : the run queue, the processor, the tasks, the waiters, the wait queues and the timers;
* `Kernel.exec` : one step of the current task, or one interrupt.

What a function does under a spin lock with the interrupts off is one step.  `switch_to_task` is one
step after `fetch_task`: no handler of an interrupt reads `current`, so an interrupt between its
`enqueue` and its assignment to `current` is the same as one after it.
-/

namespace Jinux

open Function

namespace Sched

universe u v

variable {ι : Type u}

/-! ### The run queue -/

/-- `PreemptScheduler` -/
structure PreemptScheduler (ι : Type u) where
  realTimeTasks : List ι
  normalTasks : List ι

/-- `Priority::is_real_time`, for tasks with the given priorities. -/
def isRealTime {ι : Type u} (priority : ι → ℕ) (t : ι) : Bool := priority t < 100

namespace PreemptScheduler

variable (priority : ι → ℕ)

/-- The tasks that are linked. -/
def linked (r : PreemptScheduler ι) : List ι := r.realTimeTasks ++ r.normalTasks

/-- `enqueue`; `push_back` panics if the task is linked. -/
def enqueue [DecidableEq ι] (r : PreemptScheduler ι) (t : ι) : Option (PreemptScheduler ι) :=
  if t ∈ r.linked then none
  else if isRealTime priority t then some { r with realTimeTasks := r.realTimeTasks ++ [t] }
  else some { r with normalTasks := r.normalTasks ++ [t] }

/-- `dequeue` -/
def dequeue (r : PreemptScheduler ι) : Option (ι × PreemptScheduler ι) :=
  match r.realTimeTasks, r.normalTasks with
  | t :: ts, _ => some (t, { r with realTimeTasks := ts })
  | [], t :: ts => some (t, { r with normalTasks := ts })
  | [], [] => none

/-- `should_preempt` -/
def shouldPreempt (r : PreemptScheduler ι) (t : ι) : Bool :=
  !isRealTime priority t && !r.realTimeTasks.isEmpty

end PreemptScheduler

/-! ### The state -/

/-- `TaskStatus` -/
inductive TaskStatus where
  | runnable
  | sleeping
  | exited
  deriving DecidableEq, Repr

/-- `Waiter`; its flag is never set. -/
structure Waiter (ι : Type u) where
  task : ι
  isWokenUp : Bool

/-- `TimerCallback` of a waiter.  It is armed from `add_timeout_list` until it is cancelled or its
callback runs. -/
structure Timer where
  expireTicks : ℕ
  waiter : ℕ
  armed : Bool

/-- The local variables of `do_wait`. -/
structure WaitCall (κ : Type v) where
  queue : κ
  waiter : ℕ
  timer : Option ℕ

/-- What the code of a task does next. -/
inductive Frame (κ : Type v) where
  /-- `do_wait`: in the first call of the condition. -/
  | first (queue : κ) (timeout : Option ℕ)
  /-- `do_wait`: before `Waiter::new`. -/
  | create (queue : κ) (timeout : Option ℕ)
  /-- `do_wait`: before the waiter is enqueued. -/
  | enqueue (c : WaitCall κ) (timeout : Option ℕ)
  /-- `do_wait`: before `add_timeout_list`. -/
  | arm (c : WaitCall κ) (timeout : Option ℕ)
  /-- `do_wait`: in the call of the condition in the loop. -/
  | test (c : WaitCall κ)
  /-- `do_wait`: the condition holds; before the waiter is dequeued. -/
  | dequeue (c : WaitCall κ)
  /-- `do_wait`: before the timer is cancelled. -/
  | cancel (c : WaitCall κ)
  /-- `do_wait`: before the test of the timer. -/
  | expired (c : WaitCall κ)
  /-- `do_wait`: the timer has expired; before the waiter is dequeued. -/
  | giveUp (c : WaitCall κ)
  /-- `do_wait`: in the last call of the condition. -/
  | last
  /-- `Waiter::wait`: before the status is set to `Sleeping`. -/
  | sleep (c : WaitCall κ)
  /-- `Waiter::wait`: before `is_woken_up` is read. -/
  | loop (c : WaitCall κ)
  /-- `Waiter::wait`: before the status is set to `Runnable`. -/
  | awake (c : WaitCall κ)
  /-- `Waiter::wait`: before `is_woken_up` is cleared. -/
  | clear (c : WaitCall κ)
  /-- In `schedule`. -/
  | schedule
  /-- After the `schedule` of `Task::exit`. -/
  | unreachable

/-- The waiter of the `do_wait` that a frame belongs to. -/
def Frame.waiter? {κ : Type v} : Frame κ → Option ℕ
  | .enqueue c _ | .arm c _ | .test c | .dequeue c | .cancel c | .expired c | .giveUp c | .sleep c
  | .loop c | .awake c | .clear c => some c.waiter
  | _ => none

/-- Why the kernel panics. -/
inductive SchedPanic where
  /-- `push_back` of a task that is linked. -/
  | alreadyLinked
  /-- "Calling schedule() while holding {} locks" -/
  | holdingLocks
  /-- `current_task().unwrap()` without a current task. -/
  | unwrap
  /-- `unreachable!` -/
  | unreachable
  deriving DecidableEq, Repr

/-- The tasks `ι`, the processor, and the wait queues `κ`. -/
structure Kernel (ι : Type u) (κ : Type v) where
  sched : PreemptScheduler ι
  /-- `PROCESSOR.current` -/
  current : Option ι
  /-- `next_task`, between `fetch_task` and the switch. -/
  next : Option ι
  /-- The frames of the code that runs, the innermost one first. -/
  stack : List (Frame κ)
  /-- `PREEMPT_COUNT` -/
  numLocks : ℕ
  /-- The local interrupts are enabled. -/
  irqEnabled : Bool
  /-- `Task::run` has been called for the task. -/
  started : ι → Bool
  /-- `task_status` -/
  status : ι → TaskStatus
  /-- `ctx`: where a task goes on when it is switched to. -/
  ctx : ι → List (Frame κ)
  /-- All waiters that were created. -/
  waiters : List (Waiter ι)
  /-- The waiters in each wait queue, the front first. -/
  queues : κ → List ℕ
  /-- `TICK` -/
  ticks : ℕ
  /-- All timers that were created. -/
  timers : List Timer
  panicked : Option SchedPanic

namespace Kernel

variable {κ : Type v}

/-- The start of the kernel: no task has been run. -/
def boot : Kernel ι κ where
  sched := ⟨[], []⟩
  current := none
  next := none
  stack := []
  numLocks := 0
  irqEnabled := true
  started _ := false
  status _ := .runnable
  ctx _ := []
  waiters := []
  queues _ := []
  ticks := 0
  timers := []
  panicked := none

/-! ### The functions -/

section

variable [DecidableEq ι] [DecidableEq κ] (priority : ι → ℕ)

/-- `add_task` -/
def addTask (s : Kernel ι κ) (t : ι) : Except SchedPanic (Kernel ι κ) :=
  match s.sched.enqueue priority t with
  | some sched => .ok { s with sched }
  | none => .error .alreadyLinked

/-- `is_woken_up` of a waiter. -/
def isWokenUp (s : Kernel ι κ) (w : ℕ) : Bool :=
  match s.waiters[w]? with
  | some x => x.isWokenUp
  | none => false

/-- A store to `is_woken_up` of a waiter. -/
def setWokenUp (s : Kernel ι κ) (w : ℕ) (b : Bool) : Kernel ι κ :=
  { s with waiters := s.waiters.modify w fun x => { x with isWokenUp := b } }

/-- A store to the status of the task of a waiter. -/
def setStatus (s : Kernel ι κ) (w : ℕ) (status : TaskStatus) : Kernel ι κ :=
  match s.waiters[w]? with
  | some x => { s with status := update s.status x.task status }
  | none => s

/-- `Waiter::wake_up` -/
def wakeUp (s : Kernel ι κ) (w : ℕ) : Except SchedPanic (Kernel ι κ) :=
  match s.waiters[w]? with
  | some x => if x.isWokenUp then .ok s else (s.setWokenUp w true).addTask priority x.task
  | none => .ok s

/-- `wake_up` of one waiter after the other. -/
def wakeUpAll (s : Kernel ι κ) (ws : List ℕ) : Except SchedPanic (Kernel ι κ) :=
  ws.foldlM (wakeUp priority) s

/-- `WaitQueue::dequeue` -/
def dequeueWaiter (s : Kernel ι κ) (c : WaitCall κ) : Kernel ι κ :=
  { s with
    queues := update s.queues c.queue ((s.queues c.queue).filter (· ≠ c.waiter)) }

/-- `is_expired` of the timer of a `do_wait`. -/
def isExpired (s : Kernel ι κ) (c : WaitCall κ) : Bool :=
  match c.timer.bind (s.timers[·]?) with
  | some timer => timer.expireTicks ≤ s.ticks
  | none => false

/-- `cancel` of the timer of a `do_wait`. -/
def cancelTimer (s : Kernel ι κ) (c : WaitCall κ) : Kernel ι κ :=
  match c.timer with
  | some i => { s with timers := s.timers.modify i fun x => { x with armed := false } }
  | none => s

/-- `switch_to_task`; the current task goes on with the frames `rest` when it is back. -/
def switchToTask (s : Kernel ι κ) (next : ι) (rest : List (Frame κ)) :
    Except SchedPanic (Kernel ι κ) :=
  if s.numLocks ≠ 0 then .error .holdingLocks
  else match s.current with
  | none => .ok { s with current := some next, next := none, stack := s.ctx next }
  | some t =>
    (if s.status t = .runnable then s.addTask priority t else .ok s).map fun s => { s with
      current := some next
      next := none
      ctx := update s.ctx t rest
      -- a copy of the context of `next` was made before
      stack := s.ctx next }

/-- `schedule`: first `fetch_task`, then `switch_to_task`. -/
def schedule (s : Kernel ι κ) (rest : List (Frame κ)) : Except SchedPanic (Kernel ι κ) :=
  match s.next with
  | some next => s.switchToTask priority next rest
  | none =>
    match s.sched.dequeue with
    | some (next, sched) => .ok { s with sched, next := some next }
    | none => .ok { s with stack := rest }

/-- `preempt`.  The guard that disables the interrupts is held over the switch, and it counts as a
lock. -/
def preempt (s : Kernel ι κ) : Except SchedPanic (Kernel ι κ) :=
  match s.current with
  | none => .ok s
  | some t =>
    if s.sched.shouldPreempt priority t then
      match s.sched.dequeue with
      | some (next, sched) =>
        { s with sched, numLocks := s.numLocks + 1, irqEnabled := false }.switchToTask priority next
          s.stack
      | none => .ok s
    else .ok s

/-- The current task goes on in `do_wait`, `Waiter::wait` or `schedule`. -/
def advance (s : Kernel ι κ) : Option (Except SchedPanic (Kernel ι κ)) :=
  match s.stack with
  | .create queue timeout :: rest =>
    match s.current with
    | none => some (.error .unwrap)
    | some t =>
      some (.ok { s with
        waiters := s.waiters ++ [⟨t, false⟩]
        stack := .enqueue ⟨queue, s.waiters.length, none⟩ timeout :: rest })
  | .enqueue c timeout :: rest =>
    some (.ok { s with
      queues := update s.queues c.queue (c.waiter :: s.queues c.queue)
      stack := .arm c timeout :: rest })
  | .arm c none :: rest => some (.ok { s with stack := .test c :: rest })
  | .arm c (some n) :: rest =>
    some (.ok { s with
      timers := s.timers ++ [⟨s.ticks + n, c.waiter, true⟩]
      stack := .test { c with timer := some s.timers.length } :: rest })
  | .dequeue c :: rest => some (.ok { s.dequeueWaiter c with stack := .cancel c :: rest })
  | .cancel c :: rest => some (.ok { s.cancelTimer c with stack := rest })
  | .expired c :: rest =>
    some (.ok { s with stack := (if s.isExpired c then .giveUp c else .sleep c) :: rest })
  | .giveUp c :: rest => some (.ok { s.dequeueWaiter c with stack := .last :: rest })
  | .sleep c :: rest =>
    some (.ok { s.setStatus c.waiter .sleeping with stack := .loop c :: rest })
  | .loop c :: rest =>
    some (.ok { s with
      stack := if s.isWokenUp c.waiter then .awake c :: rest else .schedule :: s.stack })
  | .awake c :: rest =>
    some (.ok { s.setStatus c.waiter .runnable with stack := .clear c :: rest })
  | .clear c :: rest => some (.ok { s.setWokenUp c.waiter false with stack := .test c :: rest })
  | .schedule :: rest => some (s.schedule priority rest)
  | .unreachable :: _ => some (.error .unreachable)
  | _ => none

/-- The code that runs is in the closure of a condition or in no `do_wait` at all. -/
def inClosure (s : Kernel ι κ) : Bool :=
  match s.stack with
  | [] | .first _ _ :: _ | .test _ :: _ | .last :: _ => true
  | _ => false

/-- The closure of the condition returns. -/
def condReturns (s : Kernel ι κ) (holds : Bool) : Option (Kernel ι κ) :=
  match s.stack with
  | .first queue timeout :: rest =>
    some { s with stack := if holds then rest else .create queue timeout :: rest }
  | .test c :: rest => some { s with stack := (if holds then .dequeue c else .expired c) :: rest }
  | .last :: rest => some { s with stack := rest }
  | _ => none

/-- The timers whose callbacks run in the next `timer_callback`. -/
def due (s : Kernel ι κ) (timer : Timer) : Bool := timer.armed && timer.expireTicks ≤ s.ticks

/-- `timer_callback` up to the callbacks. -/
def tick (s : Kernel ι κ) : Kernel ι κ :=
  { s with
    ticks := s.ticks + 1
    timers := s.timers.map fun x => if s.due x then { x with armed := false } else x }

/-! ### Steps -/

/-- What happens next. -/
inductive Act (ι : Type u) (κ : Type v) where
  | advance
  /-- The closure of the condition returns. -/
  | cond (holds : Bool)
  /-- The current task calls `wait_until` or `wait_until_or_timeout`. -/
  | doWait (queue : κ) (timeout : Option ℕ)
  /-- The current task, or an interrupt, calls `wake_one` or `wake_all`. -/
  | wake (irq all : Bool) (queue : κ)
  /-- The interrupt of the timer; the callbacks that are due run in some order. -/
  | tick (waiters : List ℕ)
  | run (t : ι)
  /-- The current task calls `yield_now`. -/
  | yieldNow
  /-- The current task calls `preempt`. -/
  | preempt
  /-- The current task calls `exit`. -/
  | exit
  /-- The current task calls `disable_preempt` or `disable_local`. -/
  | disable (irq : Bool)
  /-- The current task drops the guard of one of them. -/
  | enable (irq : Bool)

/-- The waiters of which `wake_up` is called. -/
def targets (s : Kernel ι κ) : Act ι κ → List ℕ
  | .wake _ all queue => if all then s.queues queue else (s.queues queue).take 1
  | .tick ws => ws
  | _ => []

/-- What a step does, if it can be taken.  The code that a task runs outside of `do_wait` is not
known, so that any call can come next. -/
def exec (s : Kernel ι κ) (a : Act ι κ) : Option (Except SchedPanic (Kernel ι κ)) :=
  match a with
  | .advance => s.advance priority
  | .cond holds => (s.condReturns holds).map .ok
  | .wake irq _ _ =>
    if if irq then s.irqEnabled else s.inClosure then some (s.wakeUpAll priority (s.targets a))
    else none
  | .tick ws =>
    if s.irqEnabled && ws.isPerm ((s.timers.filter s.due).map Timer.waiter) then
      some (s.tick.wakeUpAll priority ws)
    else none
  | .doWait queue timeout =>
    if s.inClosure then some (.ok { s with stack := .first queue timeout :: s.stack }) else none
  | .run t =>
    if s.inClosure && !s.started t then
      some (({ s with
        started := update s.started t true
        stack := .schedule :: s.stack }).addTask priority t)
    else none
  | .yieldNow => if s.inClosure then some (.ok { s with stack := .schedule :: s.stack }) else none
  | .preempt => if s.inClosure then some (s.preempt priority) else none
  | .exit =>
    match s.current with
    | some t =>
      if s.inClosure then
        some (.ok { s with
          status := update s.status t .exited
          stack := [.schedule, .unreachable] })
      else none
    | none => none
  | .disable irq =>
    if s.inClosure then
      some (.ok { s with numLocks := s.numLocks + 1, irqEnabled := s.irqEnabled && !irq })
    else none
  | .enable irq =>
    if s.inClosure && 0 < s.numLocks then
      some (.ok { s with numLocks := s.numLocks - 1, irqEnabled := s.irqEnabled || irq })
    else none

/-- One step; a panic stops the kernel. -/
def step (s : Kernel ι κ) (a : Act ι κ) : Option (Kernel ι κ) :=
  match s.panicked, s.exec priority a with
  | none, some (.ok s') => some s'
  | none, some (.error p) => some { s with panicked := some p }
  | _, _ => none

/-- All runs of the kernel. -/
def lts : Lts (Kernel ι κ) (Act ι κ) := .ofFun (step priority)

end

end Kernel

end Sched

end Jinux
