import Jinux.Lib.Lts
import Jinux.Process.Futex

/-!
# Waiting on a futex

A thread that waits puts an item into the bucket while it holds the lock of the bucket.  Only after
the lock is gone it stores `false` into the flag `is_woken` of its waiter, and then it loads the
flag until it is `true`.  A waker takes items out of the bucket and, still with the lock, loads the
flag of each waiter and stores `true` if it was `false`.

* `FutexThreads` : any number of threads that wait, wake and requeue on any words.  A section under
  the locks of the buckets is one step, up to the accesses of the flags, each of which is a step;
* `FutexThreads.exists_missed_wake` : a wake that comes before the store of the waiter is lost, and
  the waiter loops for ever;
* `FutexThreads.no_missed_wake` : **no wakeup is lost as long as the stores of `true` come after the
  waiters' own stores**.
-/

namespace Jinux

open Function FutexItem Futexes

universe u

variable {size w : ℕ}

/-- A call that wakes waiters. -/
inductive WakeCall where
  /-- `futex_wake_bitset` -/
  | wake (addr maxCount : ℕ) (bitset : BitVec 32)
  /-- `futex_requeue` -/
  | requeue (addr maxNwakes maxNrequeues newAddr : ℕ)
deriving DecidableEq

namespace WakeCall

variable [NeZero size]

/-- The words whose buckets the call locks. -/
def addrs : WakeCall → List ℕ
  | .wake addr _ _ => [addr]
  | .requeue addr _ _ newAddr => [addr, newAddr]

/-- The items that the call takes out of the bucket. -/
def dequeued (s : Futexes size) : WakeCall → List FutexItem
  | .wake addr maxCount bitset => s.dequeued addr maxCount bitset
  | .requeue addr maxNwakes _ _ => s.dequeued addr maxNwakes futexBitsetMatchAny

/-- The buckets without these items. -/
def dequeue (s : Futexes size) : WakeCall → Futexes size
  | .wake addr maxCount bitset => s.dequeue addr maxCount bitset
  | .requeue addr maxNwakes _ _ => s.dequeue addr maxNwakes futexBitsetMatchAny

/-- What the call does when it has woken the waiters. -/
def finish (s : Futexes size) : WakeCall → Futexes size
  | .wake _ _ _ => s
  | .requeue addr _ maxNrequeues newAddr =>
    if newAddr = addr then s else s.requeue addr newAddr maxNrequeues

variable {s : Futexes size} {call : WakeCall}

theorem queued_or_dequeued (h : s.Queued w) :
    (call.dequeue s).Queued w ∨ w ∈ (call.dequeued s).map waiter := by
  cases call <;> exact queued_or_dequeued h

theorem queued_of_queued_dequeue (h : (call.dequeue s).Queued w) : s.Queued w := by
  cases call <;> exact queued_of_queued_dequeue h

theorem queued_of_mem_dequeued (h : w ∈ (call.dequeued s).map waiter) : s.Queued w := by
  cases call <;> exact queued_of_mem_dequeued h

@[simp] theorem dequeue_isWoken : (call.dequeue s).isWoken = s.isWoken := by cases call <;> rfl

theorem queued_finish : (call.finish s).Queued w ↔ s.Queued w := by
  cases call with
  | wake => rfl
  | requeue addr _ m newAddr =>
    rw [finish]
    split_ifs
    · rfl
    · exact queued_requeue addr newAddr m

@[simp] theorem finish_isWoken : (call.finish s).isWoken = s.isWoken := by
  cases call with
  | wake => rfl
  | requeue =>
    rw [finish]
    split_ifs
    · rfl
    · rw [Futexes.requeue]
      split_ifs <;> rfl

end WakeCall

/-- Where a thread is in the calls. -/
inductive FutexPc where
  | user
  /-- In `FutexWaiter::wait`, before the store. -/
  | enqueued (w : ℕ)
  /-- In the loop of `FutexWaiter::wait`, before a load. -/
  | looping (w : ℕ)
  /-- In `batch_wake`, before the load of the flag of the first waiter that is left. -/
  | waking (call : WakeCall) (todo : List ℕ)
  /-- In `FutexWaiter::wake`, between the load and the store. -/
  | marking (call : WakeCall) (w : ℕ) (todo : List ℕ)
deriving DecidableEq

namespace FutexPc

/-- The waiter of a thread that waits. -/
def waiter : FutexPc → Option ℕ
  | .enqueued w | .looping w => some w
  | _ => none

/-- The waiters that a waker has still to wake. -/
def toWake : FutexPc → List ℕ
  | .waking _ todo => todo
  | .marking _ w todo => w :: todo
  | _ => []

/-- The waiter whose flag the next step sets. -/
def marks : FutexPc → List ℕ
  | .marking _ w _ => [w]
  | _ => []

end FutexPc

/-- The threads `ι` and the futexes. -/
structure FutexThreads (ι : Type u) (size : ℕ) [NeZero size] where
  futexes : Futexes size
  /-- The buckets that are locked by a waker. -/
  locked : Fin size → Bool
  /-- What each thread can read at an address. -/
  word : ι → ℕ → Option (BitVec 32)
  /-- How many waiters there have been. -/
  next : ℕ
  pc : ι → FutexPc

/-- What a thread can do next. -/
inductive FutexOp (ι : Type u) where
  /-- User code writes to memory. -/
  | write (word : ι → ℕ → Option (BitVec 32))
  /-- Call `futex_wait_bitset`. -/
  | wait (addr : ℕ) (val bitset : BitVec 32)
  /-- Call `futex_wake_bitset` or `futex_requeue`. -/
  | wake (call : WakeCall)
  | go

namespace FutexThreads

variable {ι : Type u} [DecidableEq ι] [NeZero size] {s s' : FutexThreads ι size} {t u : ι}
  {p₀ p : FutexPc}

/-- No thread waits. -/
def start (word : ι → ℕ → Option (BitVec 32)) : FutexThreads ι size :=
  ⟨⟨.new size, fun _ => false⟩, fun _ => false, word, 0, fun _ => .user⟩

/-- Thread `t` goes on at `pc`. -/
def setPc (s : FutexThreads ι size) (t : ι) (pc : FutexPc) : FutexThreads ι size :=
  { s with pc := update s.pc t pc }

/-- A store into the flag of a waiter. -/
def store (s : FutexThreads ι size) (w : ℕ) (b : Bool) : FutexThreads ι size :=
  { s with futexes := { s.futexes with isWoken := update s.futexes.isWoken w b } }

/-- The locks of buckets are taken or given back. -/
def setLocks (s : FutexThreads ι size) (addrs : List ℕ) (b : Bool) : FutexThreads ι size :=
  { s with locked := fun i => if i ∈ addrs.map (bucketIndex size) then b else s.locked i }

/-- The locked section of a thread that waits. -/
def wait (s : FutexThreads ι size) (t : ι) (addr : ℕ) (val bitset : BitVec 32) :
    Option (FutexThreads ι size) :=
  match s.futexes.waitSection addr val (s.word t addr) bitset s.next with
  | .ok futexes => some { s.setPc t (.enqueued s.next) with futexes := futexes, next := s.next + 1 }
  | .error (.err _) => some s
  | .error (.panic _) => none

/-- The next step of thread `t` in its call. -/
def go (s : FutexThreads ι size) (t : ι) : Option (FutexThreads ι size) :=
  match s.pc t with
  | .user => none
  | .enqueued w => some ((s.store w false).setPc t (.looping w))
  | .looping w => some (if s.futexes.isWoken w then s.setPc t .user else s)
  | .waking call (w :: todo) =>
    some (s.setPc t (if s.futexes.isWoken w then .waking call todo else .marking call w todo))
  | .marking call w todo => some ((s.store w true).setPc t (.waking call todo))
  | .waking call [] =>
    some { (s.setLocks call.addrs false).setPc t .user with futexes := call.finish s.futexes }

/-- A step of thread `t`. -/
def step (s : FutexThreads ι size) (l : ι × FutexOp ι) : Option (FutexThreads ι size) :=
  match l.2, s.pc l.1 with
  | .write word, .user => some { s with word := word }
  | .wait addr val bitset, .user =>
    if s.locked (bucketIndex size addr) then none else s.wait l.1 addr val bitset
  | .wake call, .user =>
    if call.addrs.any fun addr => s.locked (bucketIndex size addr) then none
    else some { (s.setLocks call.addrs true).setPc l.1
      (.waking call ((call.dequeued s.futexes).map waiter)) with
        futexes := call.dequeue s.futexes }
  | .go, _ => s.go l.1
  | _, _ => none

/-- Every interleaving of the steps of the threads. -/
def lts (ι : Type u) [DecidableEq ι] (size : ℕ) [NeZero size] :
    Lts (FutexThreads ι size) (ι × FutexOp ι) := Lts.ofFun step

/-- A waker stores `true` only when the waiter has done its own store. -/
def MarksAfterStore (s : FutexThreads ι size) (l : ι × FutexOp ι) : Prop :=
  ∀ w ∈ (s.pc l.1).marks, ∀ t, s.pc t ≠ .enqueued w

instance [Fintype ι] (s : FutexThreads ι size) (l : ι × FutexOp ι) :
    Decidable (s.MarksAfterStore l) :=
  inferInstanceAs (Decidable (∀ w ∈ (s.pc l.1).marks, ∀ t, s.pc t ≠ .enqueued w))

/-! ### What a step does -/

/-- The steps of thread `t`, with what they change. -/
inductive Moved (s : FutexThreads ι size) (t : ι) : FutexThreads ι size → Prop
  | same {s' : FutexThreads ι size} (hpc : s'.pc = s.pc) (hf : s'.futexes = s.futexes)
      (hn : s'.next = s.next) : Moved s t s'
  | enqueue {s' : FutexThreads ι size} (item : FutexItem) (hold : s.pc t = .user)
      (hw : item.waiter = s.next) (hpc : s'.pc = update s.pc t (.enqueued s.next))
      (hf : s'.futexes = s.futexes.enqueue item) (hn : s'.next = s.next + 1) : Moved s t s'
  | store (w : ℕ) (hold : s.pc t = .enqueued w) : Moved s t ((s.store w false).setPc t (.looping w))
  | exit (w : ℕ) (hold : s.pc t = .looping w) (hw : s.futexes.isWoken w = true) :
      Moved s t (s.setPc t .user)
  | dequeue {s' : FutexThreads ι size} (call : WakeCall) (hold : s.pc t = .user)
      (hpc : s'.pc = update s.pc t (.waking call ((call.dequeued s.futexes).map waiter)))
      (hf : s'.futexes = call.dequeue s.futexes) (hn : s'.next = s.next) : Moved s t s'
  | skip (call : WakeCall) (w : ℕ) (todo : List ℕ) (hold : s.pc t = .waking call (w :: todo))
      (hw : s.futexes.isWoken w = true) : Moved s t (s.setPc t (.waking call todo))
  | load (call : WakeCall) (w : ℕ) (todo : List ℕ) (hold : s.pc t = .waking call (w :: todo))
      (hw : s.futexes.isWoken w = false) : Moved s t (s.setPc t (.marking call w todo))
  | mark (call : WakeCall) (w : ℕ) (todo : List ℕ) (hold : s.pc t = .marking call w todo) :
      Moved s t ((s.store w true).setPc t (.waking call todo))
  | finish {s' : FutexThreads ι size} (call : WakeCall) (hold : s.pc t = .waking call [])
      (hpc : s'.pc = update s.pc t .user) (hf : s'.futexes = call.finish s.futexes)
      (hn : s'.next = s.next) : Moved s t s'

theorem moved_wait {addr : ℕ} {val bitset : BitVec 32} (hold : s.pc t = .user)
    (h : s.wait t addr val bitset = some s') : Moved s t s' := by
  unfold wait at h
  split at h
  · next futexes hwait =>
    cases h
    exact .enqueue ⟨addr, bitset, s.next⟩ hold rfl rfl (waitSection_eq_ok hwait) rfl
  · cases h
    exact .same rfl rfl rfl
  · cases h

theorem moved_go (h : s.go t = some s') : Moved s t s' := by
  unfold go at h
  split at h
  · cases h
  · next w hold =>
    cases h
    exact .store w hold
  · next w hold =>
    split_ifs at h with hw
    · cases h
      exact .exit w hold hw
    · cases h
      exact .same rfl rfl rfl
  · next call w todo hold =>
    split_ifs at h with hw
    · cases h
      exact .skip call w todo hold hw
    · cases h
      exact .load call w todo hold (Bool.eq_false_iff.2 hw)
  · next call w todo hold =>
    cases h
    exact .mark call w todo hold
  · next call hold =>
    cases h
    exact .finish call hold rfl rfl rfl

theorem moved_of_step {l : ι × FutexOp ι} (h : s.step l = some s') : Moved s l.1 s' := by
  unfold step at h
  split at h
  · cases h
    exact .same rfl rfl rfl
  · next hold =>
    split_ifs at h
    exact moved_wait hold h
  · next call _ hold =>
    split_ifs at h
    cases h
    exact .dequeue call hold rfl rfl rfl
  · exact moved_go h
  · cases h

/-! ### No waiter is forgotten -/

/-- What holds as long as the stores of `true` come after the waiters' stores. -/
structure Inv (s : FutexThreads ι size) : Prop where
  fresh : ∀ t w, (s.pc t).waiter = some w → w < s.next
  unmarked : ∀ t w, s.pc t = .enqueued w → s.futexes.isWoken w = false
  /-- A thread that waits has its item in a bucket, or it is on the list of a waker, or its flag is
  set. -/
  kept : ∀ t w, (s.pc t).waiter = some w →
    s.futexes.Queued w ∨ (∃ u, w ∈ (s.pc u).toWake) ∨ s.futexes.isWoken w = true

omit [DecidableEq ι] in
theorem Inv.start (word : ι → ℕ → Option (BitVec 32)) :
    (start word : FutexThreads ι size).Inv where
  fresh _ _ := nofun
  unmarked _ _ := nofun
  kept _ _ := nofun

/-- A step of thread `t` to `p` that forgets no waiter keeps the invariant. -/
theorem Inv.move (h : s.Inv) (hold : s.pc t = p₀) (hpc : s'.pc = update s.pc t p)
    (hnext : s.next ≤ s'.next)
    (hwaiter : ∀ w, p.waiter = some w → p₀.waiter = some w ∨ w < s'.next ∧ s'.futexes.Queued w)
    (hnew : ∀ w, p = .enqueued w → s'.futexes.isWoken w = false)
    (hflag : ∀ w < s.next, s'.futexes.isWoken w = s.futexes.isWoken w ∨
      s'.futexes.isWoken w = true ∧ ∀ u, s.pc u ≠ .enqueued w)
    (hqueued : ∀ w, s.futexes.Queued w → s'.futexes.Queued w ∨ w ∈ p.toWake)
    (htodo : ∀ w ∈ p₀.toWake, w ∈ p.toWake ∨ s'.futexes.isWoken w = true) : s'.Inv := by
  subst hold
  have hself : s'.pc t = p := by rw [hpc, update_self]
  have hother : ∀ u, u ≠ t → s'.pc u = s.pc u := fun u hu => by
    rw [hpc, update_of_ne hu]
  -- a waiter that was kept is still kept
  have hkept : ∀ u w, (s.pc u).waiter = some w → s'.futexes.Queued w ∨
      (∃ v, w ∈ (s'.pc v).toWake) ∨ s'.futexes.isWoken w = true := by
    intro u w hu
    rcases h.kept u w hu with hq | ⟨v, hv⟩ | hw
    · exact (hqueued w hq).imp_right fun hp => .inl ⟨t, hself ▸ hp⟩
    · rcases eq_or_ne v t with rfl | hne
      · exact .inr ((htodo w hv).imp_left fun hp => ⟨v, hself ▸ hp⟩)
      · exact .inr (.inl ⟨v, hother v hne ▸ hv⟩)
    · exact .inr (.inr ((hflag w (h.fresh u w hu)).elim (·.trans hw) And.left))
  refine ⟨fun u w hu => ?_, fun u w hu => ?_, fun u w hu => ?_⟩ <;>
    rcases eq_or_ne u t with rfl | hne
  · rcases hwaiter w (hself ▸ hu) with hold | hnew
    · exact lt_of_lt_of_le (h.fresh u w hold) hnext
    · exact hnew.1
  · exact lt_of_lt_of_le (h.fresh u w (hother u hne ▸ hu)) hnext
  · exact hnew w (hself ▸ hu)
  · rw [hother u hne] at hu
    rcases hflag w (h.fresh u w (hu ▸ rfl)) with hsame | ⟨-, hnone⟩
    · rw [hsame, h.unmarked u w hu]
    · exact absurd hu (hnone u)
  · rcases hwaiter w (hself ▸ hu) with hold | hnew
    · exact hkept u w hold
    · exact .inl hnew.2
  · exact hkept u w (hother u hne ▸ hu)

/-- A step that changes neither the flags nor the buckets. -/
theorem Inv.setPc (h : s.Inv) (hold : s.pc t = p₀)
    (hwaiter : ∀ w, p.waiter = some w → p₀.waiter = some w) (hp : ∀ w, p ≠ .enqueued w)
    (htodo : ∀ w ∈ p₀.toWake, w ∈ p.toWake ∨ s.futexes.isWoken w = true) : (s.setPc t p).Inv :=
  h.move hold rfl (le_refl _) (fun w hw => .inl (hwaiter w hw))
    (fun w hw => absurd hw (hp w)) (fun _ _ => .inl rfl) (fun _ hw => .inl hw) htodo

theorem Inv.moved {op : FutexOp ι} (h : s.Inv) (hok : s.MarksAfterStore (t, op))
    (hm : Moved s t s') : s'.Inv := by
  cases hm with
  | same hpc hf hn =>
    exact ⟨hpc ▸ hn ▸ h.fresh, hpc ▸ hf ▸ h.unmarked, hpc ▸ hf ▸ h.kept⟩
  | enqueue item hold hw hpc hf hn =>
    refine h.move hold hpc (by omega) (fun w hp => ?_) (fun w hp => ?_) (fun w hlt => .inl ?_)
      (fun w hq => .inl ?_) fun _ => nofun
    · cases hp
      refine .inr ⟨by omega, ?_⟩
      rw [hf, queued_enqueue, hw]
      exact .inl rfl
    · cases hp
      rw [hf, ← hw]
      exact update_self _ _ _
    · rw [hf]
      exact update_of_ne (by rw [hw]; exact Nat.ne_of_lt hlt) _ _
    · rw [hf, queued_enqueue]
      exact .inr hq
  | store w hold =>
    -- the flag was not set, so the store changes nothing
    have hsame : s.store w false = s := by
      rw [store, ← h.unmarked t w hold, update_eq_self]
    rw [hsame]
    exact h.setPc hold (fun w' hw' => hw') (fun _ => nofun) fun _ => nofun
  | exit w hold hw => exact h.setPc hold (fun _ => nofun) (fun _ => nofun) fun _ => nofun
  | dequeue call hold hpc hf hn =>
    refine h.move hold hpc (le_of_eq hn.symm) (fun w => nofun) (fun w => nofun)
      (fun w _ => .inl ?_) (fun w hq => ?_) fun _ => nofun
    · rw [hf, WakeCall.dequeue_isWoken]
    · rw [hf]
      exact WakeCall.queued_or_dequeued hq
  | skip call w todo hold hw =>
    refine h.setPc hold (fun _ => nofun) (fun _ => nofun) fun w' hw' => ?_
    rcases List.mem_cons.1 hw' with rfl | hmem
    · exact .inr hw
    · exact .inl hmem
  | load call w todo hold hw =>
    exact h.setPc hold (fun _ => nofun) (fun _ => nofun) fun _ hmem => .inl hmem
  | mark call w todo hold =>
    have hset : ((s.store w true).setPc t (.waking call todo)).futexes.isWoken w = true :=
      update_self _ _ _
    refine h.move hold rfl (le_refl _) (fun w => nofun) (fun w => nofun)
      (fun w' _ => ?_) (fun w hw => .inl hw) fun w' hw' => ?_
    · rcases eq_or_ne w' w with rfl | hne
      · exact .inr ⟨hset, hok w' (by simp [hold, FutexPc.marks])⟩
      · exact .inl (update_of_ne hne _ _)
    · rcases List.mem_cons.1 hw' with rfl | hmem
      · exact .inr hset
      · exact .inl hmem
  | finish call hold hpc hf hn =>
    refine h.move hold hpc (le_of_eq hn.symm) (fun w => nofun) (fun w => nofun)
      (fun w _ => .inl ?_) (fun w hq => .inl ?_) fun _ => nofun
    · rw [hf, WakeCall.finish_isWoken]
    · rwa [hf, WakeCall.queued_finish]

/-- **No wakeup is lost.**  In every run in which the wakers store `true` only after the waiters'
own stores, a thread that waits and has no item in a bucket any more is on the list of a waker, or
its flag is set and its next load takes it out of its loop. -/
theorem no_missed_wake {word : ι → ℕ → Option (BitVec 32)} {s : FutexThreads ι size}
    (h : ((lts ι size).restrict MarksAfterStore).Reachable (start word) s) {t : ι} {w : ℕ}
    (hw : (s.pc t).waiter = some w) (hgone : ¬ s.futexes.Queued w) :
    (∃ u, w ∈ (s.pc u).toWake) ∨
      s.pc t = .looping w ∧ s.futexes.isWoken w = true ∧
        ∃ s', s.step (t, .go) = some s' ∧ s'.pc t = .user := by
  have hinv : s.Inv := h.invariant (Inv.start word) fun s l s' hi hs =>
    hi.moved hs.1 (moved_of_step hs.2)
  rcases (hinv.kept t w hw).resolve_left hgone with hlist | hwoken
  · exact .inl hlist
  · refine .inr ?_
    have hpc : s.pc t = .looping w := by
      cases hp : s.pc t with
      | enqueued w' =>
        rw [hp] at hw
        cases hw
        rw [hinv.unmarked t w hp] at hwoken
        cases hwoken
      | looping w' =>
        rw [hp] at hw
        cases hw
        rfl
      | user | waking | marking =>
        rw [hp] at hw
        cases hw
    refine ⟨hpc, hwoken, s.setPc t .user, ?_, update_self _ _ _⟩
    simp [step, go, hpc, hwoken]

/-- Thread 0 waits on the word at `0x1000`, and thread 1 wakes it in time. -/
def wakesInTime : List (Bool × FutexOp Bool) :=
  [(false, .wait 0x1000 0 futexBitsetMatchAny), (false, .go),
    (true, .wake (.wake 0x1000 1 futexBitsetMatchAny)), (true, .go), (true, .go), (true, .go)]

theorem no_missed_wake_inTime : ∃ s : FutexThreads Bool 256,
    ((lts Bool 256).restrict MarksAfterStore).Reachable (start fun _ _ => some 0) s ∧
    s.pc false = .looping 0 ∧ s.pc true = .user ∧ ¬ s.futexes.Queued 0 ∧
      ((∃ u, 0 ∈ (s.pc u).toWake) ∨
        s.pc false = .looping 0 ∧ s.futexes.isWoken 0 = true ∧
          ∃ s', s.step (false, .go) = some s' ∧ s'.pc false = .user) := by
  obtain ⟨s, hr, hpc, hpc', hgone⟩ := Lts.exists_run_restrict step
    (start fun _ _ => some 0 : FutexThreads Bool 256) wakesInTime
    (fun s => s.pc false = .looping 0 ∧ s.pc true = .user ∧ ¬ s.futexes.Queued 0)
    MarksAfterStore (by decide +kernel)
  exact ⟨s, hr, hpc, hpc', hgone, no_missed_wake hr (hpc ▸ rfl) hgone⟩

/-! ### A wakeup that is lost -/

/-- The thread loops on a flag that nobody is going to set. -/
structure Stuck (t : ι) (w : ℕ) (s : FutexThreads ι size) : Prop where
  looping : s.pc t = .looping w
  lt_next : w < s.next
  unset : s.futexes.isWoken w = false
  gone : ¬ s.futexes.Queued w
  unlisted : ∀ u, w ∉ (s.pc u).toWake

/-- A step of another thread, or one of `t` that leaves it in its loop. -/
theorem Stuck.move (h : Stuck t w s) (hpc : s'.pc = update s.pc u p) (hne : u ≠ t)
    (hnext : s.next ≤ s'.next) (hunset : s'.futexes.isWoken w = false)
    (hgone : s'.futexes.Queued w → s.futexes.Queued w) (hlist : w ∉ p.toWake) : Stuck t w s' where
  looping := by rw [hpc, update_of_ne hne.symm, h.looping]
  lt_next := lt_of_lt_of_le h.lt_next hnext
  unset := hunset
  gone hq := h.gone (hgone hq)
  unlisted v := by
    rw [hpc]
    rcases eq_or_ne v u with rfl | hv
    · rwa [update_self]
    · rw [update_of_ne hv]
      exact h.unlisted v

theorem Stuck.moved (h : Stuck t w s) (hm : Moved s u s') : Stuck t w s' := by
  -- a thread that is elsewhere than `t` is another thread
  have hother : ∀ {p}, s.pc u = p → p ≠ .looping w → u ≠ t := by
    rintro p rfl hp rfl
    exact hp h.looping
  have htodo := h.unlisted u
  cases hm with
  | same hpc hf hn =>
    exact ⟨hpc ▸ h.looping, hn ▸ h.lt_next, hf ▸ h.unset, hf ▸ h.gone, hpc ▸ h.unlisted⟩
  | enqueue item hold hw hpc hf hn =>
    have hne : w ≠ item.waiter := by
      rw [hw]
      exact Nat.ne_of_lt h.lt_next
    refine h.move hpc (hother hold nofun) (by omega) ?_ (fun hq => ?_) (by simp [FutexPc.toWake])
    · rw [hf]
      exact (update_of_ne hne _ _).trans h.unset
    · rw [hf, queued_enqueue] at hq
      exact hq.resolve_left hne
  | store w' hold =>
    refine h.move rfl (hother hold nofun) (le_refl _) ?_ (fun hq => hq) (by simp [FutexPc.toWake])
    rcases eq_or_ne w w' with rfl | hne
    · exact update_self _ _ _
    · exact (update_of_ne hne _ _).trans h.unset
  | exit w' hold hw =>
    refine h.move rfl (hother hold ?_) (le_refl _) h.unset (fun hq => hq) (by simp [FutexPc.toWake])
    rintro ⟨⟩
    rw [h.unset] at hw
    cases hw
  | dequeue call hold hpc hf hn =>
    refine h.move hpc (hother hold nofun) (le_of_eq hn.symm) ?_ (fun hq => ?_)
      fun hw => h.gone (WakeCall.queued_of_mem_dequeued hw)
    · rw [hf, WakeCall.dequeue_isWoken, h.unset]
    · rw [hf] at hq
      exact WakeCall.queued_of_queued_dequeue hq
  | skip call w' todo hold hw =>
    rw [hold] at htodo
    exact h.move rfl (hother hold nofun) (le_refl _) h.unset (fun hq => hq)
      fun hmem => htodo (List.mem_cons_of_mem _ hmem)
  | load call w' todo hold hw =>
    rw [hold] at htodo
    exact h.move rfl (hother hold nofun) (le_refl _) h.unset (fun hq => hq) htodo
  | mark call w' todo hold =>
    rw [hold] at htodo
    have hne : w ≠ w' := fun heq => htodo (heq ▸ List.mem_cons_self)
    exact h.move rfl (hother hold nofun) (le_refl _)
      ((update_of_ne hne _ _).trans h.unset) (fun hq => hq)
      fun hmem => htodo (List.mem_cons_of_mem _ hmem)
  | finish call hold hpc hf hn =>
    refine h.move hpc (hother hold nofun) (le_of_eq hn.symm) ?_ (fun hq => ?_)
      (by simp [FutexPc.toWake])
    · rw [hf, WakeCall.finish_isWoken, h.unset]
    · rwa [hf, WakeCall.queued_finish] at hq

/-- A thread that is stuck stays so. -/
theorem Stuck.forever (h : Stuck t w s) (hr : (lts ι size).Reachable s s') : Stuck t w s' :=
  hr.invariant h fun _ _ _ hstuck hs => hstuck.moved (moved_of_step hs)

/-- Thread 0 waits on the word at `0x1000`, and thread 1 wakes it before it has stored `false`. -/
def wakesTooEarly : List (Bool × FutexOp Bool) :=
  [(false, .wait 0x1000 0 futexBitsetMatchAny), (true, .wake (.wake 0x1000 1 futexBitsetMatchAny)),
    (true, .go), (true, .go), (true, .go), (false, .go)]

/-- A wakeup is lost: the thread loops on a flag that is not set, its item is in no bucket, and so
it stays whatever the threads do. -/
theorem exists_missed_wake : ∃ s : FutexThreads Bool 256,
    (lts Bool 256).Reachable (start fun _ _ => some 0) s ∧
      ∀ s', (lts Bool 256).Reachable s s' → s'.pc false = .looping 0 ∧
        s'.futexes.isWoken 0 = false ∧ ¬ s'.futexes.Queued 0 ∧ ∀ u, 0 ∉ (s'.pc u).toWake := by
  obtain ⟨s, hr, hpc, hpc', hnext, hunset, hgone⟩ := Lts.exists_run step
    (start fun _ _ => some 0 : FutexThreads Bool 256) wakesTooEarly
    (fun s => s.pc false = .looping 0 ∧ s.pc true = .user ∧ 0 < s.next ∧
      s.futexes.isWoken 0 = false ∧ ¬ s.futexes.Queued 0) (by decide +kernel)
  have hstuck : Stuck false 0 s := by
    refine ⟨hpc, hnext, hunset, hgone, fun u => ?_⟩
    cases u with
    | false => simp [hpc, FutexPc.toWake]
    | true => simp [hpc', FutexPc.toWake]
  refine ⟨s, hr, fun s' hr' => ?_⟩
  have h := hstuck.forever hr'
  exact ⟨h.looping, h.unset, h.gone, h.unlisted⟩

end FutexThreads

end Jinux
