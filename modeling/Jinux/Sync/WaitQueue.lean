import Mathlib.Data.List.Basic
import Jinux.Lib.Lts

/-!
# Wait queues

A thread in `do_wait` tests its condition, enters the queue, and from then on tests the condition
and sleeps in `Waiter::wait` in turn until the condition holds.  A waker marks waiters as woken up:
`wake_one` the one at the front, `wake_all` all of them.  No waiter is ever exclusive, since
`Waiter::new` sets no flag; so `enqueue` always pushes to the front and the loop of `wake_all` never
breaks off.

* `WaitQueue` : the queue with the operations on it, each one atomic; the guard of the spin lock
  lives until the loop of `wake_all` is over, while the waiters go on setting and clearing their
  marks;
* `WaitSystem` : any number of threads that wait on one queue and wake the waiters of it;
* `WaitSystem.no_missed_wakeAll` : **no `wake_all` is missed**.  Once the condition holds for good
  and a `wake_all` begun after that is over, no thread sleeps unmarked, and none goes to sleep;
* `WaitQueue.wakesDistinct_iff` : **when `wake_one` wakes one more waiter in every call**.
-/

namespace Jinux

open Function Bool

universe u

variable {ι : Type u} {i : ι}

/-- A `WaitQueue` on which the threads `ι` wait, each with one `Waiter` at a time. -/
structure WaitQueue (ι : Type u) where
  /-- The waiters, the front of the queue first. -/
  waiters : List ι
  /-- A waker is in its loop and holds the spin lock of the queue. -/
  locked : Bool
  /-- `is_woken_up` of the waiter of each thread. -/
  isWokenUp : ι → Bool

namespace WaitQueue

variable [DecidableEq ι] {q q' : WaitQueue ι} {i j : ι}

/-- `WaitQueue::new` -/
def new : WaitQueue ι := ⟨[], false, fun _ => false⟩

/-- `Waiter::new` and `enqueue` -/
def enqueue (q : WaitQueue ι) (i : ι) : Option (WaitQueue ι) :=
  if q.locked then none
  else some { q with
    waiters := i :: q.waiters, isWokenUp := update q.isWokenUp i false }

/-- `dequeue` -/
def dequeue (q : WaitQueue ι) (i : ι) : Option (WaitQueue ι) :=
  if q.locked then none else some { q with waiters := q.waiters.filter (· ≠ i) }

/-- A waker takes the lock of the queue. -/
def lock (q : WaitQueue ι) : Option (WaitQueue ι) :=
  if q.locked then none else some { q with locked := true }

/-- The guard of the lock is dropped. -/
def unlock (q : WaitQueue ι) : WaitQueue ι := { q with locked := false }

/-- The waiters that a waker goes through: all of them, or the one at the front. -/
def targets (q : WaitQueue ι) (all : Bool) : List ι := if all then q.waiters else q.waiters.take 1

/-- `Waiter::wake_up` -/
def wakeUp (q : WaitQueue ι) (i : ι) : WaitQueue ι :=
  { q with isWokenUp := update q.isWokenUp i true }

/-- The store at the end of `Waiter::wait`. -/
def clear (q : WaitQueue ι) (i : ι) : WaitQueue ι :=
  { q with isWokenUp := update q.isWokenUp i false }

theorem enqueue_eq_some (h : q.enqueue i = some q') :
    q.locked = false ∧ q' = ⟨i :: q.waiters, false, update q.isWokenUp i false⟩ := by
  unfold enqueue at h
  split_ifs at h with hl
  cases h
  exact ⟨eq_false_iff.2 hl, by rw [← eq_false_iff.2 hl]⟩

theorem dequeue_eq_some (h : q.dequeue i = some q') :
    q.locked = false ∧ q' = ⟨q.waiters.filter (· ≠ i), false, q.isWokenUp⟩ := by
  unfold dequeue at h
  split_ifs at h with hl
  cases h
  exact ⟨eq_false_iff.2 hl, by rw [← eq_false_iff.2 hl]⟩

omit [DecidableEq ι] in
theorem lock_eq_some (h : q.lock = some q') :
    q.locked = false ∧ q' = ⟨q.waiters, true, q.isWokenUp⟩ := by
  unfold lock at h
  split_ifs at h with hl
  cases h
  exact ⟨eq_false_iff.2 hl, rfl⟩

theorem unmarked_wakeUp : (q.wakeUp j).isWokenUp i = false ↔ i ≠ j ∧ q.isWokenUp i = false := by
  rcases eq_or_ne i j with rfl | hne
  · simp [wakeUp]
  · simp [wakeUp, hne]

theorem clear_isWokenUp_of_ne (h : j ≠ i) :
    (q.clear i).isWokenUp j = q.isWokenUp j := update_of_ne h _ _

end WaitQueue

/-- Where a thread is in `do_wait`, `wake_one` or `wake_all`. -/
inductive WaitPc (ι : Type u) where
  | idle
  /-- In `do_wait`, before the condition is tested for the first time. -/
  | first
  /-- The test failed; before `enqueue`. -/
  | enqueue
  /-- In the loop of `do_wait`, before the condition is tested. -/
  | test
  /-- In the loop of `Waiter::wait`. -/
  | wait
  /-- Out of the loop of `Waiter::wait`, before the mark is cleared. -/
  | clear
  /-- The condition holds; before `dequeue`. -/
  | dequeue
  /-- Before the lock of the queue is taken, in `wake_all` or in `wake_one`.  `informed` says that
  the condition already held for good when the call began. -/
  | lock (all informed : Bool)
  /-- In the loop of the waker, with the waiters still to wake up. -/
  | waking (todo : List ι) (all informed : Bool)
  deriving DecidableEq

/-- The threads `ι` and the queue they wait on. -/
structure WaitSystem (ι : Type u) where
  queue : WaitQueue ι
  pc : ι → WaitPc ι
  /-- The condition holds for good. -/
  settled : Bool
  /-- A `wake_all` that began when the condition held for good is over. -/
  notified : Bool

/-- What a thread can do next. -/
inductive WaitOp where
  /-- Call `do_wait`. -/
  | doWait
  /-- Make the condition true for good. -/
  | settle
  /-- Call `wake_one`. -/
  | wakeOne
  /-- Call `wake_all`. -/
  | wakeAll
  /-- Go on with the call it is in; if the condition is tested, `holds` is the outcome. -/
  | go (holds : Bool)

namespace WaitSystem

variable [DecidableEq ι]

/-- Nobody waits. -/
def init : WaitSystem ι := ⟨.new, fun _ => .idle, false, false⟩

/-- Thread `i` goes on at `pc`. -/
def setPc (s : WaitSystem ι) (i : ι) (pc : WaitPc ι) : WaitSystem ι :=
  { s with pc := update s.pc i pc }

/-- Thread `i` goes on at `pc` after an operation on the queue, if the queue is not locked. -/
def setQueue (s : WaitSystem ι) (i : ι) (pc : WaitPc ι) (q : Option (WaitQueue ι)) :
    Option (WaitSystem ι) :=
  q.map fun q => { s.setPc i pc with queue := q }

/-- Thread `i` tests the condition.  Once it holds for good the test cannot fail. -/
def test (s : WaitSystem ι) (i : ι) (holds : Bool) (yes no : WaitPc ι) : Option (WaitSystem ι) :=
  if holds then some (s.setPc i yes) else if s.settled then none else some (s.setPc i no)

/-- The next step of thread `i` in its call. -/
def go (s : WaitSystem ι) (i : ι) (holds : Bool) : Option (WaitSystem ι) :=
  match s.pc i with
  | .idle => none
  | .first => s.test i holds .idle .enqueue
  | .enqueue => s.setQueue i .test (s.queue.enqueue i)
  | .test => s.test i holds .dequeue .wait
  | .wait => some (if s.queue.isWokenUp i then s.setPc i .clear else s)
  | .clear => s.setQueue i .test (some (s.queue.clear i))
  | .dequeue => s.setQueue i .idle (s.queue.dequeue i)
  | .lock all informed =>
    s.setQueue i (.waking (s.queue.targets all) all informed) s.queue.lock
  | .waking (j :: todo) all informed =>
    s.setQueue i (.waking todo all informed) (some (s.queue.wakeUp j))
  | .waking [] all informed =>
    (s.setQueue i .idle (some s.queue.unlock)).map fun s =>
      { s with notified := s.notified || (all && informed) }

/-- A step of thread `i`. -/
def step (s : WaitSystem ι) (l : ι × WaitOp) : Option (WaitSystem ι) :=
  match l.2, s.pc l.1 with
  | .doWait, .idle => some (s.setPc l.1 .first)
  | .settle, .idle => some { s with settled := true }
  | .wakeOne, .idle => some (s.setPc l.1 (.lock false s.settled))
  | .wakeAll, .idle => some (s.setPc l.1 (.lock true s.settled))
  | .go holds, _ => s.go l.1 holds
  | _, _ => none

/-- Every interleaving of the steps of the threads. -/
def lts : Lts (WaitSystem ι) (ι × WaitOp) := Lts.ofFun step

end WaitSystem

/-! ### What a waker owes to the threads that sleep -/

namespace WaitPc

variable {p : WaitPc ι}

/-- The waiter of the thread is in the queue. -/
def queued : WaitPc ι → Bool
  | .test | .wait | .clear | .dequeue => true
  | _ => false

/-- In a call of a waker that began when the condition held for good. -/
def informed : WaitPc ι → Bool
  | .lock _ informed | .waking _ _ informed => informed
  | _ => false

/-- A thread in the loop of an informed `wake_all` has still to come to the waiter `i`. -/
def ComesTo (i : ι) : WaitPc ι → Prop
  | .waking todo true true => i ∈ todo
  | _ => True

theorem comesTo_of_uninformed (h : p.informed = false) : p.ComesTo i := by
  unfold ComesTo
  split
  · cases h
  · trivial

end WaitPc

namespace WaitSystem

variable [DecidableEq ι]

/-- Thread `i` sleeps and is not marked as woken up. -/
def Unmarked (s : WaitSystem ι) (i : ι) : Prop :=
  s.pc i = .wait ∧ s.queue.isWokenUp i = false

/-- What holds in every reachable state. -/
structure Inv (s : WaitSystem ι) : Prop where
  queued : ∀ i, (s.pc i).queued = true → i ∈ s.queue.waiters
  settled_of_notified : s.notified = true → s.settled = true
  settled_of_informed : ∀ i, (s.pc i).informed = true → s.settled = true
  /-- While a thread sleeps unmarked, every informed `wake_all` has still to come to it. -/
  pending : s.settled = true → ∀ i, s.Unmarked i →
    s.notified = false ∧ ∀ j, (s.pc j).ComesTo i

omit [DecidableEq ι] in
theorem Inv.init : Inv (init : WaitSystem ι) where
  queued := by simp [WaitSystem.init, WaitPc.queued]
  settled_of_notified := by simp [WaitSystem.init]
  settled_of_informed := by simp [WaitSystem.init, WaitPc.informed]
  pending := by simp [WaitSystem.init]

variable {s s' : WaitSystem ι} {i j : ι} {holds all informed : Bool}

/-- The invariant holds after a step, and no thread falls asleep in it once the condition holds for
good. -/
structure Safe (s s' : WaitSystem ι) : Prop where
  inv : s'.Inv
  asleep : s.settled = true → ∀ i, s'.pc i = .wait → s.pc i = .wait

section

variable (h : s.Inv)

include h

/-- A step of thread `i` to `p` that makes no other thread lose its place in the queue or its mark
keeps the invariant, if `i` does not go to sleep once the condition holds for good. -/
theorem Inv.move (hpc : s'.pc = update s.pc i p)
    (hset : s'.settled = s.settled) (hnot : s'.notified = s.notified)
    (hqueue : ∀ j, j ≠ i → j ∈ s.queue.waiters → j ∈ s'.queue.waiters)
    (hqueued : p.queued = true → i ∈ s'.queue.waiters) (hinf : p.informed = true → s.settled = true)
    (hmark : ∀ j, j ≠ i → s'.queue.isWokenUp j = false → s.queue.isWokenUp j = false)
    (hwait : s.settled = true → p ≠ .wait)
    (hcomes : ∀ j, s.Unmarked j → s'.Unmarked j → (∀ k, (s.pc k).ComesTo j) → p.ComesTo j) :
    Safe s s' := by
  have hself : s'.pc i = p := by rw [hpc, update_self]
  have hother : ∀ j, j ≠ i → s'.pc j = s.pc j := fun j hne => by
    rw [hpc, update_of_ne hne]
  have hne : s.settled = true → ∀ j, s'.pc j = .wait → j ≠ i := by
    rintro hs j hj rfl
    exact hwait hs (hself ▸ hj)
  refine ⟨⟨fun j hj => ?_, fun hn => ?_, fun j hj => ?_, fun hs j hj => ?_⟩, fun hs j hj => ?_⟩
  · rcases eq_or_ne j i with rfl | hne
    · exact hqueued (hself ▸ hj)
    · exact hqueue j hne (h.queued j (hother j hne ▸ hj))
  · rw [hset, h.settled_of_notified (hnot ▸ hn)]
  · rw [hset]
    rcases eq_or_ne j i with rfl | hne
    · exact hinf (hself ▸ hj)
    · exact h.settled_of_informed j (hother j hne ▸ hj)
  · rw [hset] at hs
    have hji := hne hs j hj.1
    have hold : s.Unmarked j := ⟨hother j hji ▸ hj.1, hmark j hji hj.2⟩
    obtain ⟨hn, hall⟩ := h.pending hs j hold
    refine ⟨by rw [hnot, hn], fun k => ?_⟩
    rcases eq_or_ne k i with rfl | hki
    · rw [hself]
      exact hcomes j hold hj hall
    · rw [hother k hki]
      exact hall k
  · exact hother j (hne hs j hj) ▸ hj

/-- A step that leaves the queue as it is, to a place outside the loop of a waker. -/
theorem Inv.setPc (hqueued : p.queued = true → i ∈ s.queue.waiters)
    (hinf : p.informed = true → s.settled = true) (hwait : s.settled = true → p ≠ .wait)
    (hcomes : ∀ j, p.ComesTo j) : Safe s (s.setPc i p) :=
  h.move rfl rfl rfl (fun _ _ hj => hj) hqueued hinf (fun _ _ hj => hj) hwait
    fun j _ _ _ => hcomes j

/-- A test of the condition. -/
theorem Inv.test {yes no : WaitPc ι} (hs : s.test i holds yes no = some s')
    (hyes : yes.queued = true → i ∈ s.queue.waiters) (hno : no.queued = true → i ∈ s.queue.waiters)
    (hcalm : yes ≠ .wait ∧ yes.informed = false ∧ no.informed = false)
    (hcomes : ∀ j, yes.ComesTo j ∧ no.ComesTo j) : Safe s s' := by
  unfold WaitSystem.test at hs
  split_ifs at hs with hholds hsettled
  · cases hs
    refine h.setPc hyes (fun hinf => ?_) (fun _ => hcalm.1) fun j => (hcomes j).1
    rw [hcalm.2.1] at hinf
    cases hinf
  · cases hs
    refine h.setPc hno (fun hinf => ?_) (fun hset => absurd hset hsettled) fun j => (hcomes j).2
    rw [hcalm.2.2] at hinf
    cases hinf

/-- A waker comes to the waiter `j`. -/
theorem Inv.wakeUp {todo : List ι} (hpc : s.pc i = .waking (j :: todo) all informed) :
    Safe s { s.setPc i (.waking todo all informed) with queue := s.queue.wakeUp j } := by
  refine h.move rfl rfl rfl (fun _ _ hj => hj) nofun (fun hinf => ?_)
    (fun k _ hk => (WaitQueue.unmarked_wakeUp.1 hk).2) nofun fun k _ hk hall => ?_
  · exact h.settled_of_informed i (hpc ▸ hinf)
  · -- the waiter just marked is no longer among the unmarked ones
    have hi := hall i
    rw [hpc] at hi
    cases all <;> cases informed <;> try trivial
    exact (List.mem_cons.1 hi).resolve_left (WaitQueue.unmarked_wakeUp.1 hk.2).1

/-- A waker is through with its loop. -/
theorem Inv.finish (hpc : s.pc i = .waking [] all informed) :
    Safe s { s.setPc i .idle with
      queue := s.queue.unlock, notified := s.notified || (all && informed) } := by
  have hmoved : Safe s { s.setPc i .idle with queue := s.queue.unlock } :=
    h.move rfl rfl rfl (fun _ _ hj => hj) nofun nofun
      (fun _ _ hk => hk) nofun fun _ _ _ _ => trivial
  refine ⟨⟨hmoved.inv.queued, fun hn => ?_, hmoved.inv.settled_of_informed, fun hs j hj => ?_⟩,
    hmoved.asleep⟩
  · rcases or_eq_true_iff.1 hn with hn | hn
    · exact h.settled_of_notified hn
    · refine h.settled_of_informed i ?_
      rw [hpc]
      exact (and_eq_true_iff.1 hn).2
  · obtain ⟨hn, hall⟩ := hmoved.inv.pending hs j hj
    refine ⟨?_, hall⟩
    -- an informed `wake_all` at its end has nobody left to come to
    have hi := (h.pending hs j ⟨hmoved.asleep hs j hj.1, hj.2⟩).2 i
    rw [hpc] at hi
    rw [show s.notified = false from hn]
    cases all <;> cases informed <;> first | rfl | cases hi

omit [DecidableEq ι] in
/-- A thread makes the condition true for good. -/
theorem Inv.settle : Safe s { s with settled := true } := by
  refine ⟨⟨h.queued, fun _ => rfl, fun _ _ => rfl, fun _ j hj => ?_⟩, fun _ _ hj => hj⟩
  by_cases hs : s.settled = true
  · exact h.pending hs j hj
  · refine ⟨eq_false_iff.2 fun hn => hs (h.settled_of_notified hn), fun k => ?_⟩
    exact WaitPc.comesTo_of_uninformed (eq_false_iff.2 fun hi => hs (h.settled_of_informed k hi))

theorem Inv.go (hs : s.go i holds = some s') : Safe s s' := by
  have hqueued : (s.pc i).queued = true → i ∈ s.queue.waiters := h.queued i
  cases hpc : s.pc i <;> rw [hpc] at hqueued <;> simp only [WaitSystem.go, hpc] at hs
  case idle => cases hs
  case first =>
    exact h.test hs nofun nofun ⟨nofun, rfl, rfl⟩
      fun _ => ⟨trivial, trivial⟩
  case enqueue =>
    obtain ⟨q, hq, rfl⟩ := Option.map_eq_some_iff.1 hs
    obtain ⟨-, rfl⟩ := WaitQueue.enqueue_eq_some hq
    exact h.move rfl rfl rfl (fun j _ hj => List.mem_cons_of_mem _ hj)
      (fun _ => List.mem_cons_self) nofun
      (fun j hne hj => (update_of_ne hne _ _).symm.trans hj)
      nofun fun _ _ _ _ => trivial
  case test =>
    exact h.test hs hqueued hqueued ⟨nofun, rfl, rfl⟩ fun _ => ⟨trivial, trivial⟩
  case wait =>
    cases hs
    split_ifs
    · exact h.setPc hqueued nofun (fun _ => nofun) fun _ => trivial
    · exact ⟨h, fun _ _ hi => hi⟩
  case clear =>
    cases hs
    exact h.move rfl rfl rfl (fun j _ hj => hj) hqueued nofun
      (fun j hne hj => (WaitQueue.clear_isWokenUp_of_ne hne).symm.trans hj)
      nofun fun _ _ _ _ => trivial
  case dequeue =>
    obtain ⟨q, hq, rfl⟩ := Option.map_eq_some_iff.1 hs
    obtain ⟨-, rfl⟩ := WaitQueue.dequeue_eq_some hq
    exact h.move rfl rfl rfl (fun j hne hj => List.mem_filter.2 ⟨hj, by simpa using hne⟩)
      nofun nofun (fun j _ hj => hj) nofun
      fun _ _ _ _ => trivial
  case lock all informed =>
    obtain ⟨q, hq, rfl⟩ := Option.map_eq_some_iff.1 hs
    obtain ⟨-, rfl⟩ := WaitQueue.lock_eq_some hq
    refine h.move rfl rfl rfl (fun j _ hj => hj) nofun (fun hi => ?_)
      (fun j _ hj => hj) nofun fun j hj _ _ => ?_
    · exact h.settled_of_informed i (hpc ▸ hi)
    · -- a thread that sleeps has its waiter in the queue
      have hq := h.queued j (hj.1 ▸ rfl)
      cases all <;> cases informed <;> first | exact hq | trivial
  case waking todo all informed =>
    cases todo with
    | nil =>
      cases hs
      exact h.finish hpc
    | cons j todo =>
      cases hs
      exact h.wakeUp hpc

theorem Inv.step {l : ι × WaitOp} (hs : s.step l = some s') : Safe s s' := by
  have hcall {p : WaitPc ι} (hq : p.queued = false) (hi : p.informed = true → s.settled = true)
      (hw : p ≠ .wait) (hc : ∀ j, p.ComesTo j) : Safe s (s.setPc l.1 p) :=
    h.setPc (fun hq' => by rw [hq] at hq'; cases hq') hi (fun _ => hw) hc
  unfold WaitSystem.step at hs
  split at hs
  next =>
    cases hs
    exact hcall rfl nofun nofun fun _ => trivial
  next =>
    cases hs
    exact h.settle
  next =>
    cases hs
    exact hcall rfl id nofun fun _ => trivial
  next =>
    cases hs
    exact hcall rfl id nofun fun _ => trivial
  next => exact h.go hs
  next => cases hs

end

/-- **No `wake_all` is missed.**  Once the condition holds for good and a `wake_all` begun after
that is over, every thread that sleeps in `Waiter::wait` is marked as woken up, and every other
thread will test the condition before it could fall asleep, so that none does. -/
theorem no_missed_wakeAll {s : WaitSystem ι} (h : lts.Reachable init s) (hn : s.notified = true) :
    (∀ i, s.pc i = .wait → s.queue.isWokenUp i = true) ∧
      ∀ l s', lts.step s l s' → ∀ i, s'.pc i = .wait → s.pc i = .wait := by
  have hinv : s.Inv := h.invariant Inv.init fun _ _ _ hinv hs => (hinv.step hs).inv
  have hset := hinv.settled_of_notified hn
  refine ⟨fun i hi => ?_, fun l s' hs => (hinv.step hs).asleep hset⟩
  rw [← not_eq_false]
  intro hmark
  have hpend := (hinv.pending hset i ⟨hi, hmark⟩).1
  rw [hn] at hpend
  cases hpend

/-- Thread `i` falls asleep, then thread `j` makes the condition true and wakes all. -/
def wakeSleeper {α : Type} (i j : α) : List (α × WaitOp) :=
  [(i, .doWait), (i, .go false), (i, .go false), (i, .go false), (j, .settle), (j, .wakeAll),
    (j, .go false), (j, .go false), (j, .go false)]

theorem no_missed_wakeAll_wakeSleeper :
    ∃ s : WaitSystem (Fin 2), lts.Reachable init s ∧ s.notified = true ∧ s.pc 0 = .wait ∧
      s.queue.isWokenUp 0 = true := by
  obtain ⟨s, hreach, hn, hpc⟩ := Lts.exists_run step init (wakeSleeper (0 : Fin 2) 1)
    (fun s => s.notified = true ∧ s.pc 0 = .wait) (by decide +kernel)
  exact ⟨s, hreach, hn, hpc, (no_missed_wakeAll hreach hn).1 0 hpc⟩

end WaitSystem

namespace WaitQueue

variable [DecidableEq ι] {q : WaitQueue ι}

/-! ### `wake_one` -/

/-- `wake_up` of a waiter, with the tasks that it has called `add_task` for. -/
def wakeUpTask (x : WaitQueue ι × List ι) (i : ι) : WaitQueue ι × List ι :=
  (x.1.wakeUp i, if x.1.isWokenUp i then x.2 else x.2 ++ [i])

/-- `wake_one` -/
def wakeOne (x : WaitQueue ι × List ι) : WaitQueue ι × List ι :=
  (x.1.targets false).foldl wakeUpTask x

/-- `k` calls of `wake_one` -/
def wakeOnes (q : WaitQueue ι) : ℕ → WaitQueue ι × List ι
  | 0 => (q, [])
  | k + 1 => wakeOne (q.wakeOnes k)

/-- Each of the calls wakes one more waiter as long as there is one, and has no effect only if there
is none. -/
def WakesDistinct (q : WaitQueue ι) (k : ℕ) : Prop :=
  (q.wakeOnes k).2.length = min k q.waiters.length ∧
    ∀ j < k, q.wakeOnes (j + 1) = q.wakeOnes j →
      ∀ i ∈ q.waiters, (q.wakeOnes j).1.isWokenUp i = true

theorem wakeOnes_of_nil (h : q.waiters = []) (k : ℕ) : q.wakeOnes k = (q, []) := by
  induction k with
  | zero => rfl
  | succ k ih => simp [wakeOnes, ih, wakeOne, targets, h]

/-- A woken waiter stays at the front, and further calls find it marked. -/
theorem wakeOnes_of_cons {rest : List ι} (h : q.waiters = i :: rest) (hi : q.isWokenUp i = false)
    (k : ℕ) : q.wakeOnes (k + 1) = (q.wakeUp i, [i]) := by
  induction k with
  | zero => simp [wakeOnes, wakeOne, targets, h, wakeUpTask, hi]
  | succ k ih =>
    rw [wakeOnes, ih]
    simp [wakeOne, targets, wakeUp, h, wakeUpTask]

/-- **`wake_one` wakes distinct waiters if and only if it is called once or there is one waiter.**
The tasks that are made runnable are those of the waiters that are marked. -/
theorem wakesDistinct_iff (hasleep : ∀ i ∈ q.waiters, q.isWokenUp i = false) (k : ℕ) :
    (∀ i ∈ q.waiters, (q.wakeOnes k).1.isWokenUp i = true ↔ i ∈ (q.wakeOnes k).2) ∧
      (q.WakesDistinct k ↔ k ≤ 1 ∨ q.waiters.length ≤ 1) := by
  unfold WakesDistinct
  cases hq : q.waiters with
  | nil => simp [wakeOnes_of_nil hq]
  | cons i rest =>
    rw [hq] at hasleep
    have hi := hasleep i List.mem_cons_self
    have hfront := wakeOnes_of_cons hq hi
    cases k with
    | zero => simpa [wakeOnes] using hasleep
    | succ k =>
      rw [hfront]
      refine ⟨fun j hj => ?_, fun h => ?_, fun h => ⟨?_, fun j hj heq => ?_⟩⟩
      · rcases eq_or_ne j i with rfl | hne
        · simp [wakeUp]
        · simpa [wakeUp, hne] using hasleep j hj
      · have hlen := h.1
        simp only [List.length_cons, List.length_nil] at hlen ⊢
        omega
      · simp only [List.length_cons, List.length_nil] at h ⊢
        omega
      · cases j with
        | zero => cases congrArg Prod.snd ((hfront 0).symm.trans heq)
        | succ j =>
          rw [hfront]
          obtain rfl : rest = [] := by simpa using h.resolve_left (by omega)
          simp [wakeUp]

/-- One call for two waiters. -/
theorem wakesDistinct_once :
    (⟨[true, false], false, fun _ => false⟩ : WaitQueue Bool).WakesDistinct 1 :=
  (wakesDistinct_iff (by simp) 1).2.2 (.inl (Nat.le_refl 1))

/-- Two calls for two waiters that sleep: the first one is woken, and the other one is not. -/
theorem exists_woken_twice : ∃ q : WaitQueue Bool, (∀ i ∈ q.waiters, q.isWokenUp i = false) ∧
    q.waiters.length = 2 ∧ (q.wakeOnes 2).2 = [true] ∧ (q.wakeOnes 2).1.isWokenUp false = false :=
  ⟨⟨[true, false], false, fun _ => false⟩, by decide, rfl, rfl, rfl⟩

end WaitQueue

end Jinux
