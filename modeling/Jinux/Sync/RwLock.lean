import Jinux.Lib.Lts
import Jinux.Lib.Threads
import Jinux.Sync.RwWord

/-!
# Reader-writer locks

Any number of threads use one lock.  A thread can hold several guards; a call of `try_read`,
`try_upread` or `upgrade` can stop between any two of its atomic operations on the word.  The
variants that disable interrupts perform the same operations on the word.

* `RwLock.step` : the next atomic operation of a thread;
* `RwLock.Inv` : the word is the sum of what the threads have put there, and who may hold what;
* `RwLock.Inv.exclusive` : what that says about the guards (`Exclusive`).
-/

namespace Jinux

open Function RwWord Access Option

universe u

variable {ι : Type u}

/-- Where a thread is in the calls on the lock. -/
inductive RwPc where
  | idle
  /-- In an attempt that failed and has not been undone yet. -/
  | undo (a : Access)
  /-- In the loop of `upgrade`. -/
  | upgrading
  /-- In `try_upgrade`, after the successful `compare_exchange`: the upgradeable guard is about to
  be dropped. -/
  | upgraded
  deriving DecidableEq

/-- A thread that uses the lock. -/
structure RwThread where
  pc : RwPc
  /-- The guards it holds.  The write guard that `try_upgrade` returns counts from the successful
  `compare_exchange` on, and the upgradeable guard that it consumes until then. -/
  held : Access → ℕ

/-- What a thread can do next. -/
inductive RwOp where
  /-- Call `try_read`, `try_write` or `try_upread`. -/
  | attempt (a : Access)
  | drop (a : Access)
  /-- Call `upgrade`. -/
  | upgrade
  /-- Call `try_upgrade`. -/
  | tryUpgrade
  | go
  deriving DecidableEq

namespace RwThread

/-- A thread that holds nothing. -/
def new : RwThread := ⟨.idle, fun _ => 0⟩

/-- One more guard. -/
def gain (t : RwThread) (a : Access) : RwThread :=
  { t with held := update t.held a (t.held a + 1) }

/-- One guard less. -/
def lose (t : RwThread) (a : Access) : RwThread :=
  { t with held := update t.held a (t.held a - 1) }

/-- The thread goes on at `pc`. -/
def goto (t : RwThread) (pc : RwPc) : RwThread := { t with pc := pc }

@[simp] theorem gain_pc (t : RwThread) (a : Access) : (t.gain a).pc = t.pc := rfl

@[simp] theorem lose_pc (t : RwThread) (a : Access) : (t.lose a).pc = t.pc := rfl

@[simp] theorem goto_pc (t : RwThread) (pc : RwPc) : (t.goto pc).pc = pc := rfl

@[simp] theorem goto_held (t : RwThread) (pc : RwPc) (a : Access) : (t.goto pc).held a = t.held a :=
  rfl

@[simp] theorem gain_held (t : RwThread) (a b : Access) :
    (t.gain a).held b = t.held b + if b = a then 1 else 0 := by
  rcases eq_or_ne b a with rfl | hne
  · simp [gain]
  · simp [gain, hne]

@[simp] theorem lose_held (t : RwThread) (a b : Access) :
    (t.lose a).held b = t.held b - if b = a then 1 else 0 := by
  rcases eq_or_ne b a with rfl | hne
  · simp [lose]
  · simp [lose, hne]

/-- `try_read`, `try_write` and `try_upread` up to the first atomic operation. -/
def attempt (lock : ℕ) (t : RwThread) (a : Access) : ℕ × RwThread :=
  ((a.attempt lock).1,
    match (a.attempt lock).2 with
    | .acquired => t.gain a
    | .refused => t
    | .undo => t.goto (.undo a))

/-- `try_upgrade` up to the `compare_exchange`. -/
def tryUpgrade (lock : ℕ) (t : RwThread) : ℕ × RwThread :=
  match RwWord.tryUpgrade lock with
  | some lock => (lock, ((t.lose .upread).gain .write).goto .upgraded)
  | none => (lock, t)

/-- The next atomic operation of a thread. -/
def step (lock : ℕ) (t : RwThread) (op : RwOp) : Option (ℕ × RwThread) :=
  match op, t.pc with
  | .attempt a, .idle => some (attempt lock t a)
  | .drop a, .idle => if 0 < t.held a then some (a.drop lock, t.lose a) else none
  | .upgrade, .idle =>
    if 0 < t.held .upread then some (upgrade lock, t.goto .upgrading) else none
  | .tryUpgrade, .idle => if 0 < t.held .upread then some (tryUpgrade lock t) else none
  | .go, .undo a => some (a.undo lock, t.goto .idle)
  | .go, .upgrading => some (tryUpgrade lock t)
  | .go, .upgraded => some (dropUpread lock, t.goto .idle)
  | _, _ => none

end RwThread

/-- A lock and the threads that use it. -/
structure RwLock (ι : Type u) where
  lock : ℕ
  threads : ι → RwThread

namespace RwLock

variable [DecidableEq ι]

/-- A new lock. -/
def new : RwLock ι := ⟨0, fun _ => .new⟩

/-- The state after a step of thread `i`. -/
def set (s : RwLock ι) (i : ι) (r : ℕ × RwThread) : RwLock ι :=
  ⟨r.1, update s.threads i r.2⟩

/-- The next atomic operation of thread `l.1`. -/
def step (s : RwLock ι) (l : ι × RwOp) : Option (RwLock ι) :=
  ((s.threads l.1).step s.lock l.2).map (s.set l.1)

/-- Every interleaving of the atomic operations of the threads. -/
def lts : Lts (RwLock ι) (ι × RwOp) := Lts.ofFun step

/-- What the drop of a guard needs and does. -/
theorem step_drop {s s' : RwLock ι} {i : ι} {a : Access} (h : s.step (i, .drop a) = some s') :
    (s.threads i).pc = .idle ∧ 0 < (s.threads i).held a ∧
      s' = s.set i (a.drop s.lock, (s.threads i).lose a) := by
  cases hpc : (s.threads i).pc with
  | idle =>
    simp only [step, RwThread.step, hpc] at h
    split_ifs at h with hheld
    · exact ⟨rfl, hheld, (some.inj h).symm⟩
    · cases h
  | _ => simp [step, RwThread.step, hpc] at h

theorem set_self (s : RwLock ι) (i : ι) : s.set i (s.lock, s.threads i) = s := by
  simp [set]

end RwLock

/-! ### What the threads have put into the word -/

namespace RwThread

/-- The readers: the guards, and an attempt still to be undone. -/
@[simp] def readers (t : RwThread) : ℕ := t.held .read + if t.pc = .undo .read then 1 else 0

/-- The owners of the bit of the upgradeable reader: the guards, an attempt still to be undone, and
the guard that `try_upgrade` consumes. -/
@[simp] def upreaders (t : RwThread) : ℕ :=
  t.held .upread + (if t.pc = .undo .upread then 1 else 0) + if t.pc = .upgraded then 1 else 0

/-- The bit of an upgrade. -/
@[simp] def upgrades (t : RwThread) : ℕ := if t.pc = .upgrading then 1 else 0

/-- The guards. -/
def guards (a : Access) (t : RwThread) : ℕ := t.held a

end RwThread

namespace RwLock

variable [Fintype ι]

/-- The guards that are alive. -/
def guards (s : RwLock ι) (a : Access) : ℕ := total (RwThread.guards a) s.threads

/-- The readers in the word. -/
def readers (s : RwLock ι) : ℕ := total RwThread.readers s.threads

/-- The upgradeable readers in the word. -/
def upreaders (s : RwLock ι) : ℕ := total RwThread.upreaders s.threads

/-- The upgrades in the word. -/
def upgrades (s : RwLock ι) : ℕ := total RwThread.upgrades s.threads

/-- Reader-writer exclusion. -/
structure Exclusive (s : RwLock ι) : Prop where
  one_writer : s.guards .write ≤ 1
  /-- There is no read guard besides a write guard. -/
  no_reader : 0 < s.guards .write → s.guards .read = 0
  /-- There is no upgradeable guard besides a write guard, but for one that is being consumed. -/
  no_upreader : 0 < s.guards .write → s.guards .upread = 0
  one_upreader : s.guards .upread ≤ 1
  /-- The word is zero when there is no guard and no thread is in a call. -/
  free : (∀ a, s.guards a = 0) → (∀ i, (s.threads i).pc = .idle) → s.lock = 0

/-- What holds in every reachable state, as long as the readers fit into their bits. -/
structure Inv (s : RwLock ι) : Prop where
  word : s.lock = pack (s.guards .write) s.upreaders s.upgrades s.readers
  small : s.readers < 2 ^ 61
  one_writer : s.guards .write ≤ 1
  one_upreader : s.upreaders ≤ 1
  readers_le : s.guards .read ≤ 2 ^ 60
  excludes : 0 < s.guards .write → s.guards .read = 0 ∧ s.guards .upread = 0
  upgrading : ∀ i, (s.threads i).pc = .upgrading → 0 < (s.threads i).held .upread
  upgraded : ∀ i, (s.threads i).pc = .upgraded → 0 < (s.threads i).held .write

theorem held_le_guards (s : RwLock ι) (i : ι) (a : Access) :
    (s.threads i).held a ≤ s.guards a := le_total (RwThread.guards a) s.threads i

theorem guards_upread_le (s : RwLock ι) : s.guards .upread ≤ s.upreaders :=
  total_le_total fun _ => Nat.le_add_right_of_le (Nat.le_add_right _ _)

theorem guards_read_le (s : RwLock ι) : s.guards .read ≤ s.readers :=
  total_le_total fun _ => Nat.le_add_right _ _

variable {s : RwLock ι} {i : ι} {a : Access}

/-- The bit of an upgrade belongs to an upgradeable guard. -/
theorem Inv.upgrades_le (h : s.Inv) : s.upgrades ≤ s.guards .upread := by
  refine total_le_total fun j => ?_
  by_cases hj : (s.threads j).pc = .upgrading
  · rw [RwThread.upgrades, if_pos hj]
    exact h.upgrading j hj
  · rw [RwThread.upgrades, if_neg hj]
    exact Nat.zero_le _

theorem Inv.upgrades_le_one (h : s.Inv) : s.upgrades ≤ 1 :=
  h.upgrades_le.trans (s.guards_upread_le.trans h.one_upreader)

/-- What the invariant says in numbers. -/
theorem Inv.numbers (h : s.Inv) :
    s.readers < 2 ^ 61 ∧ s.guards .write ≤ 1 ∧ s.upreaders ≤ 1 ∧ s.guards .read ≤ 2 ^ 60 ∧
      (0 < s.guards .write → s.guards .read = 0 ∧ s.guards .upread = 0) ∧
      s.upgrades ≤ s.guards .upread ∧ s.guards .upread ≤ s.upreaders ∧
      s.guards .read ≤ s.readers :=
  ⟨h.small, h.one_writer, h.one_upreader, h.readers_le, h.excludes, h.upgrades_le,
    s.guards_upread_le, s.guards_read_le⟩

theorem Inv.new : (new : RwLock ι).Inv := by
  have hzero (f : RwThread → ℕ) (hf : f .new = 0) : total f (fun _ : ι => RwThread.new) = 0 :=
    total_eq_zero.2 fun _ => hf
  have hg (a : Access) : (RwLock.new : RwLock ι).guards a = 0 := hzero _ rfl
  have hr : (RwLock.new : RwLock ι).readers = 0 := hzero _ rfl
  have hu : (RwLock.new : RwLock ι).upreaders = 0 := hzero _ rfl
  have hb : (RwLock.new : RwLock ι).upgrades = 0 := hzero _ rfl
  refine ⟨?_, ?_, ?_, ?_, ?_, ?_, nofun, nofun⟩
  · rw [hg, hu, hb, hr]
    rfl
  all_goals simp [hg, hr, hu]

/-- The word is zero if and only if the threads have put nothing there. -/
theorem Inv.lock_eq_zero (h : s.Inv) :
    s.lock = 0 ↔ s.guards .write = 0 ∧ s.upreaders = 0 ∧ s.upgrades = 0 ∧ s.readers = 0 := by
  rw [h.word, pack_eq_zero]

theorem Inv.guards_eq_zero (h : s.Inv) (hlock : s.lock = 0) (a : Access) : s.guards a = 0 := by
  obtain ⟨hw, hu, -, hr⟩ := h.lock_eq_zero.1 hlock
  cases a with
  | read => exact Nat.le_zero.1 (s.guards_read_le.trans hr.le)
  | write => exact hw
  | upread => exact Nat.le_zero.1 (s.guards_upread_le.trans hu.le)

theorem Inv.lock_ne_zero (h : s.Inv) (hheld : 0 < (s.threads i).held a) : s.lock ≠ 0 := by
  intro hlock
  have hle := s.held_le_guards i a
  rw [h.guards_eq_zero hlock a] at hle
  omega

theorem Inv.exclusive (h : s.Inv) : s.Exclusive where
  one_writer := h.one_writer
  no_reader hw := (h.excludes hw).1
  no_upreader hw := (h.excludes hw).2
  one_upreader := s.guards_upread_le.trans h.one_upreader
  free hg hpc := by
    have hheld (i : ι) (a : Access) : (s.threads i).held a = 0 :=
      Nat.le_zero.1 ((s.held_le_guards i a).trans (hg a).le)
    have hr : s.readers = 0 := total_eq_zero.2 fun i => by simp [hheld, hpc]
    have hu : s.upreaders = 0 := total_eq_zero.2 fun i => by simp [hheld, hpc]
    have hb : s.upgrades = 0 := total_eq_zero.2 fun i => by simp [hpc]
    exact h.lock_eq_zero.2 ⟨hg _, hu, hb, hr⟩

variable [DecidableEq ι]

theorem guards_set (s : RwLock ι) (i : ι) (r : ℕ × RwThread) (a : Access) :
    (s.set i r).guards a + (s.threads i).held a = s.guards a + r.2.held a :=
  total_update (RwThread.guards a) s.threads i r.2

section

variable (h : s.Inv)

include h

/-- A step keeps the invariant if what it does to the word is what it does to the thread. -/
theorem Inv.set {r : ℕ × RwThread}
    (hnew : ∀ w u b n g p : ℕ, w + (s.threads i).held .write = s.guards .write + r.2.held .write →
      u + (s.threads i).upreaders = s.upreaders + r.2.upreaders →
      b + (s.threads i).upgrades = s.upgrades + r.2.upgrades →
      n + (s.threads i).readers = s.readers + r.2.readers →
      g + (s.threads i).held .read = s.guards .read + r.2.held .read →
      p + (s.threads i).held .upread = s.guards .upread + r.2.held .upread →
      r.1 = pack w u b n ∧ n < 2 ^ 61 ∧ w ≤ 1 ∧ u ≤ 1 ∧ g ≤ 2 ^ 60 ∧
        (0 < w → g = 0 ∧ p = 0)) (hup : (r.2.pc = .upgrading → 0 < r.2.held .upread) ∧
      (r.2.pc = .upgraded → 0 < r.2.held .write)) : (s.set i r).Inv := by
  obtain ⟨hword, hsmall, hw, hu, hg, hx⟩ := hnew _ _ _ _ _ _ (guards_set s i r .write)
    (total_update RwThread.upreaders s.threads i r.2)
    (total_update RwThread.upgrades s.threads i r.2)
    (total_update RwThread.readers s.threads i r.2)
    (guards_set s i r .read) (guards_set s i r .upread)
  refine ⟨hword, hsmall, hw, hu, hg, hx, fun j hj => ?_, fun j hj => ?_⟩
  all_goals rcases eq_or_ne j i with rfl | hne
  · simp only [RwLock.set, update_self] at hj ⊢
    exact hup.1 hj
  · simp only [RwLock.set, update_of_ne hne] at hj ⊢
    exact h.upgrading j hj
  · simp only [RwLock.set, update_self] at hj ⊢
    exact hup.2 hj
  · simp only [RwLock.set, update_of_ne hne] at hj ⊢
    exact h.upgraded j hj

section

variable (hpc : (s.threads i).pc = .idle)

include hpc

theorem Inv.attempt_read (hroom : s.readers + 1 < 2 ^ 61) :
    (s.set i (RwThread.attempt s.lock (s.threads i) .read)).Inv := by
  have hnum := h.numbers
  have hspec := tryRead_pack h.one_writer h.one_upreader h.upgrades_le_one hroom
  rw [← h.word] at hspec
  split_ifs at hspec with hok
  -- the counter has one more reader, whether it has a guard or not
  all_goals
    simp only [RwThread.attempt, attempt, hspec]
    refine h.set (fun w u b n g p hw hu hb hn hg hp => ?_) (by simp [hpc])
    simp [hpc] at hw hu hb hn hg hp
    simp only [pack_def]
    omega

theorem Inv.attempt_write : (s.set i (RwThread.attempt s.lock (s.threads i) .write)).Inv := by
  have hnum := h.numbers
  have hspec := (congrArg tryWrite h.word).trans tryWrite_pack
  split_ifs at hspec with hok
  · simp only [RwThread.attempt, attempt, hspec]
    refine h.set (fun w u b n g p hw hu hb hn hg hp => ?_) (by simp [hpc])
    simp [hpc] at hw hu hb hn hg hp
    simp only [pack_def]
    omega
  · rw [← h.word] at hspec
    simp only [RwThread.attempt, attempt, hspec]
    rwa [set_self]

theorem Inv.attempt_upread : (s.set i (RwThread.attempt s.lock (s.threads i) .upread)).Inv := by
  have hnum := h.numbers
  have hspec := tryUpread_pack h.one_writer h.one_upreader h.upgrades_le_one h.small
  rw [← h.word] at hspec
  split_ifs at hspec with hu1 hw1
  all_goals
    simp only [RwThread.attempt, attempt, hspec]
    refine h.set (fun w u b n g p hw hu hb hn hg hp => ?_) (by simp [hpc])
    simp [hpc] at hw hu hb hn hg hp
    simp only [pack_def]
    omega

theorem Inv.attempt (hroom : a = .read → s.readers + 1 < 2 ^ 61) :
    (s.set i (RwThread.attempt s.lock (s.threads i) a)).Inv := by
  cases a with
  | read => exact h.attempt_read hpc (hroom rfl)
  | write => exact h.attempt_write hpc
  | upread => exact h.attempt_upread hpc

theorem Inv.drop (hheld : 0 < (s.threads i).held a) :
    (s.set i (a.drop s.lock, (s.threads i).lose a)).Inv := by
  have hnum := h.numbers
  have hb1 := h.upgrades_le_one
  refine h.set (fun w u b n g p hw hu hb hn hg hp => ?_) (by simp [hpc])
  simp only [RwThread.readers, RwThread.upreaders, RwThread.upgrades, RwThread.lose_held,
    RwThread.lose_pc, hpc] at hw hu hb hn hg hp
  cases a with
  | read =>
    simp only [reduceCtorEq, if_true, if_false] at hu hg hn
    have hr : s.readers = (s.readers - 1) + 1 := by omega
    rw [drop, h.word, hr, dropRead_pack h.one_writer h.one_upreader hb1 (by omega)]
    simp only [pack_def]
    omega
  | write =>
    simp only [if_true] at hw hg hp hn
    rw [drop, h.word, dropWrite_pack h.one_upreader hb1 h.small]
    simp only [pack_def]
    omega
  | upread =>
    simp only [reduceCtorEq, if_true, if_false] at hw hu hg hp hn
    have hone : s.upreaders = 1 := by omega
    rw [drop, h.word, hone, dropUpread_pack h.one_writer hb1 h.small]
    simp only [pack_def]
    omega

end

theorem Inv.undo (hpc : (s.threads i).pc = .undo a) :
    (s.set i (a.undo s.lock, (s.threads i).goto .idle)).Inv := by
  have hnum := h.numbers
  have hb1 := h.upgrades_le_one
  have hler : (s.threads i).readers ≤ s.readers := le_total RwThread.readers s.threads i
  have hleu : (s.threads i).upreaders ≤ s.upreaders := le_total RwThread.upreaders s.threads i
  refine h.set (fun w u b n g p hw hu hb hn hg hp => ?_) ?_
  · simp only [RwThread.readers, RwThread.upreaders, RwThread.upgrades, RwThread.goto_held,
      RwThread.goto_pc, hpc, reduceCtorEq, RwPc.undo.injEq] at hw hu hb hn hg hp
    cases a with
    | read =>
      simp only [reduceCtorEq, if_true, if_false] at hu hn
      have hr : s.readers = (s.readers - 1) + 1 := by omega
      have hdrop := dropRead_pack h.one_writer h.one_upreader hb1 (r := s.readers - 1) (by omega)
      rw [← hr, ← h.word] at hdrop
      simp only [undo, dropRead, pack_def] at hdrop ⊢
      omega
    | write =>
      simp only [reduceCtorEq] at hu hn
      simp only [undo, h.word, pack_def]
      omega
    | upread =>
      simp only [reduceCtorEq, if_true, if_false] at hu hn
      have hone : s.upreaders = 1 := by omega
      have hdrop := dropUpread_pack h.one_writer hb1 h.small
      rw [← hone, ← h.word] at hdrop
      simp only [undo, dropUpread, pack_def] at hdrop ⊢
      omega
  · simp

/-- While an upgradeable guard is alive outside `upgrade`, there is no upgrade. -/
theorem Inv.upgrades_eq_zero (hpc : (s.threads i).pc = .idle)
    (hheld : 0 < (s.threads i).held .upread) : s.upgrades = 0 := by
  refine total_eq_zero.2 fun j => ?_
  rw [RwThread.upgrades, if_neg]
  intro hj
  have hne : i ≠ j := by
    rintro rfl
    rw [hpc] at hj
    cases hj
  have hsum : (s.threads i).held .upread + (s.threads j).held .upread ≤ s.guards .upread :=
    add_le_total (RwThread.guards .upread) s.threads hne
  have hjh := h.upgrading j hj
  have hnum := h.numbers
  omega

theorem Inv.upgrade (hpc : (s.threads i).pc = .idle) (hheld : 0 < (s.threads i).held .upread) :
    (s.set i (upgrade s.lock, (s.threads i).goto .upgrading)).Inv := by
  have hnum := h.numbers
  have hb0 := h.upgrades_eq_zero hpc hheld
  refine h.set (fun w u b n g p hw hu hb hn hg hp => ?_) ⟨fun _ => hheld, nofun⟩
  simp [hpc] at hw hu hb hn hg hp
  rw [h.word, upgrade_pack h.one_writer h.one_upreader h.upgrades_le_one h.small]
  simp only [pack_def]
  omega

/-- `try_upgrade`, called from `upgrade` or by itself. -/
theorem Inv.tryUpgrade (hpc : (s.threads i).pc = .idle ∨ (s.threads i).pc = .upgrading)
    (hheld : 0 < (s.threads i).held .upread) :
    (s.set i (RwThread.tryUpgrade s.lock (s.threads i))).Inv := by
  have hnum := h.numbers
  have hspec := (congrArg RwWord.tryUpgrade h.word).trans
    (tryUpgrade_pack h.one_upreader h.upgrades_le_one h.small)
  split_ifs at hspec with hok
  · simp only [RwThread.tryUpgrade, hspec]
    refine h.set (fun w u b n g p hw hu hb hn hg hp => ?_) (by simp)
    rcases hpc with hpc | hpc
    · have := h.upgrades_eq_zero hpc hheld
      omega
    · simp [hpc] at hw hu hb hn hg hp
      simp only [pack_def]
      omega
  · simp only [RwThread.tryUpgrade, hspec]
    rwa [set_self]

/-- The upgradeable guard that `try_upgrade` consumed is dropped. -/
theorem Inv.dropConsumed (hpc : (s.threads i).pc = .upgraded) :
    (s.set i (dropUpread s.lock, (s.threads i).goto .idle)).Inv := by
  have hnum := h.numbers
  have hle : (s.threads i).upreaders ≤ s.upreaders := le_total RwThread.upreaders s.threads i
  refine h.set (fun w u b n g p hw hu hb hn hg hp => ?_) (by simp)
  simp [hpc] at hw hu hb hn hg hp
  have hone : s.upreaders = 1 := by omega
  rw [h.word, hone, dropUpread_pack h.one_writer h.upgrades_le_one h.small]
  simp only [pack_def]
  omega

/-- A step keeps the invariant; a reader that enters must find a bit left for it. -/
theorem Inv.step {s' : RwLock ι} {l : ι × RwOp} (hs : s.step l = some s')
    (hroom : l.2 = .attempt .read → (s.threads l.1).pc = .idle → s.readers + 1 < 2 ^ 61) :
    s'.Inv := by
  obtain ⟨i, op⟩ := l
  obtain ⟨r, hr, rfl⟩ := map_eq_some_iff.1 hs
  unfold RwThread.step at hr
  split at hr
  next a hop hpc =>
    obtain rfl := some.inj hr
    exact h.attempt hpc fun ha => hroom (hop.trans (congrArg RwOp.attempt ha)) hpc
  next a _ hpc =>
    split_ifs at hr with hheld
    obtain rfl := some.inj hr
    exact h.drop hpc hheld
  next hpc =>
    split_ifs at hr with hheld
    obtain rfl := some.inj hr
    exact h.upgrade hpc hheld
  next hpc =>
    split_ifs at hr with hheld
    obtain rfl := some.inj hr
    exact h.tryUpgrade (.inl hpc) hheld
  next a hpc =>
    obtain rfl := some.inj hr
    exact h.undo hpc
  next hpc =>
    obtain rfl := some.inj hr
    exact h.tryUpgrade (.inr hpc) (h.upgrading i hpc)
  next hpc =>
    obtain rfl := some.inj hr
    exact h.dropConsumed hpc
  next => cases hr

omit [DecidableEq ι] in
/-- Fewer than `2 ^ 60` threads always find a bit left. -/
theorem Inv.room (hcard : Fintype.card ι < 2 ^ 60) (hpc : (s.threads i).pc = .idle) :
    s.readers + 1 < 2 ^ 61 := by
  have hsplit : s.readers = s.guards .read +
      total (fun t => if t.pc = .undo .read then 1 else 0) s.threads := total_add _ _ _
  have hlt : total (fun t : RwThread => if t.pc = .undo .read then 1 else 0) s.threads <
      Fintype.card ι :=
    total_lt_card (i := i) (fun t => by split_ifs <;> decide) (by simp [hpc])
  have := h.readers_le
  omega

end

theorem inv_of_reachable (hcard : Fintype.card ι < 2 ^ 60) (h : lts.Reachable new s) : s.Inv :=
  h.invariant Inv.new fun _ _ _ hinv hs => hinv.step hs fun _ hpc => hinv.room hcard hpc

end RwLock

end Jinux
