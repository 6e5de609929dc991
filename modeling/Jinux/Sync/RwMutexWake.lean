import Jinux.Sync.WakeInv

/-!
# Wakeups of a reader-writer mutex

A write guard wakes all waiters when it is dropped, and the last read guard wakes one.  The drop of
an upgradeable guard wakes nobody: it compares with zero what `fetch_sub` returns, which is the word
*before* the subtraction.

* `RwMutex.no_lost_wakeup` : in every run in which an upgradeable guard is dropped only while a read
  guard is left or nobody tries to lock (`Covered`), no thread sleeps unmarked when the word is zero
  and no other thread is in a call.
-/

namespace Jinux

open Function RwThread MutexStage Option

universe u

namespace RwMutex

variable {ι : Type u} [Fintype ι] [DecidableEq ι]

variable {s s' : RwMutex ι} {i : ι} {a : Access} {queued : Bool}

/-- The first atomic operation of a test of the condition. -/
theorem WakeInv.test (h : s.WakeInv) (hi : s.stage i = .test a queued)
    (hpc : (s.rw.threads i).pc = .idle) (hroom : a = .read → s.rw.readers < 2 ^ 60)
    (hs : s.onWord i (.attempt a) (afterAttempt a queued (a.attempt s.rw.lock).2) = some s') :
    s'.WakeInv := by
  have hroom' (ha : a = .read) : s.rw.readers + 1 < 2 ^ 61 := by
    have := hroom ha
    omega
  have hset : s'.rw = s.rw.set i (attempt s.rw.lock (s.rw.threads i) a) := by
    have hstep := (onWord_eq_some hs).1
    simp only [RwLock.step, RwThread.step, hpc, map_some, some.injEq] at hstep
    exact hstep.symm
  refine h.word hs hset (h.rw.attempt hpc hroom') (.inr ⟨a, queued, hi⟩) ?_ ?_ ?_
    (.inr ⟨?_, .inl (by simp [hpc])⟩) (fun b hb hundo => ?_)
    fun hz => absurd hz (h.rw.attempt_ne_zero a hroom')
  · rw [attempt]
    cases ho : (a.attempt s.rw.lock).2 with
    | acquired =>
      cases queued with
      | false =>
        intro b hb
        simp [hpc] at hb
      | true => exact ⟨hpc, a, by simp⟩
    | refused => cases queued <;> exact hpc
    | undo => exact .inr rfl
  · rw [hi]
    cases ho : (a.attempt s.rw.lock).2 <;> cases queued <;> rfl
  · cases ho : (a.attempt s.rw.lock).2 <;> cases queued <;> rfl
  · rw [attempt]
    cases ho : (a.attempt s.rw.lock).2 <;> simp
  · rw [attempt] at hundo
    cases ho : (a.attempt s.rw.lock).2 with
    | acquired | refused => simp [ho, hpc] at hundo
    | undo =>
      simp only [ho, goto_pc, RwPc.undo.injEq] at hundo
      subst hundo
      refine (h.rw.blocks_of_undo hroom ho).set ?_ (.inl ?_)
      · simp [attempt, ho]
      · simp [hpc]

/-- A failed test of the condition is undone. -/
theorem WakeInv.undo (h : s.WakeInv) (hi : s.stage i = .test a queued)
    (hpc : (s.rw.threads i).pc = .undo a) (hs : s.onWord i .go (afterFailure a queued) = some s') :
    s'.WakeInv := by
  obtain ⟨hstep, hqueue, hstage⟩ := onWord_eq_some hs
  have hset : s'.rw = s.rw.set i (a.undo s.rw.lock, (s.rw.threads i).goto .idle) := by
    simp only [RwLock.step, RwThread.step, hpc, map_some, some.injEq] at hstep
    exact hstep.symm
  have hinv := h.rw.undo hpc
  have hself : s'.stage i = afterFailure a queued := by rw [hstage, update_self]
  have hup : (s.rw.threads i).upgrades ≤ ((s.rw.threads i).goto .idle).upgrades := by
    simp [hpc]
  refine h.word hs hset hinv (.inr ⟨a, queued, hi⟩) ?_ ?_ ?_ (.inr ⟨by simp, .inl hup⟩) ?_
    fun hlock j hj => ?_
  · cases queued <;> rfl
  · rw [hi]
    cases queued <;> rfl
  · cases queued <;> rfl
  · intro b hb
    cases queued <;> cases hb
  · cases queued with
    | false => exact ⟨i, .inl (awake_of_stage hself rfl fun _ h => by cases h)⟩
    | true =>
      by_cases hmark : s.queue.isWokenUp i = true
      · refine ⟨i, .inl ⟨by rw [hself]; rfl, fun hsleep => ?_⟩⟩
        rw [Asleep, hqueue, hmark] at hsleep
        cases hsleep.2
      · -- it goes to sleep unmarked: the word is not zero or a waker will come to it
        rcases h.pending i a hi hpc (Bool.eq_false_iff.2 hmark) with hb | ⟨k, hk⟩
        · obtain ⟨hw, -, hu, -⟩ := hinv.lock_eq_zero.1 hlock
          rcases hb.set (r := (a.undo s.rw.lock, (s.rw.threads i).goto .idle)) (by simp)
            (.inl hup) with hb | ⟨-, hb⟩ <;> omega
        · have hki : k ≠ i := by
            rintro rfl
            rw [hi] at hk
            cases hk
          refine ⟨k, .inr ?_⟩
          rw [hstage, update_of_ne hki]
          cases hst : s.stage k with
          | lockQueue all => rfl
          | waking todo =>
            rw [hst] at hk
            cases todo with
            | nil => cases hk
            | cons _ _ => rfl
          | _ => rw [hst] at hk; cases hk

omit [Fintype ι] [DecidableEq ι] in
theorem afterDrop_cases (lock : ℕ) (a : Access) :
    (afterDrop lock a : MutexStage ι) = .idle ∨
      ∃ all, (afterDrop lock a : MutexStage ι) = .lockQueue all := by
  unfold afterDrop
  split
  · exact .inr ⟨_, rfl⟩
  · exact .inl rfl

section

variable (h : s.WakeInv)

include h

/-- Whoever drops the last guard wakes a waiter, or the drop is covered. -/
theorem WakeInv.hope_of_drop {j : ι}
    (hinv : (s.rw.set i (a.drop s.rw.lock, (s.rw.threads i).lose a)).Inv)
    (hstage : s'.stage = update s.stage i (afterDrop s.rw.lock a))
    (hcov : a = .upread → 0 < s.rw.guards .read ∨ ∀ j, (s.stage j).acquiring = false)
    (hlock : a.drop s.rw.lock = 0) (hj : s'.Asleep j) : s'.Hope := by
  have hself : s'.stage i = afterDrop s.rw.lock a := by rw [hstage, update_self]
  cases a with
  | read =>
    refine ⟨i, .inr ?_⟩
    rw [hself, afterDrop, Access.wakes, if_pos (h.rw.eq_reader hlock)]
    rfl
  | write =>
    refine ⟨i, .inr ?_⟩
    rw [hself]
    rfl
  | upread =>
    rcases hcov rfl with hread | hnone
    · have hguards := RwLock.guards_set s.rw i
        (Access.drop .upread s.rw.lock, (s.rw.threads i).lose .upread) .read
      have hzero := hinv.guards_eq_zero hlock .read
      simp at hguards
      omega
    · -- nobody tries to lock, so that nobody sleeps
      obtain ⟨⟨b, hb⟩, -⟩ := hj
      rcases eq_or_ne j i with rfl | hji
      · rw [hself] at hb
        rcases afterDrop_cases s.rw.lock .upread with hp | ⟨all, hp⟩ <;> rw [hp] at hb <;> cases hb
      · rw [hstage, update_of_ne hji] at hb
        have hacq := hnone j
        rw [hb] at hacq
        cases hacq

/-- A guard is dropped. -/
theorem WakeInv.drop (hi : s.stage i = .idle)
    (hcov : a = .upread → 0 < s.rw.guards .read ∨ ∀ j, (s.stage j).acquiring = false)
    (hs : s.onWord i (.drop a) (afterDrop s.rw.lock a) = some s') : s'.WakeInv := by
  obtain ⟨hstep, -, hstage⟩ := onWord_eq_some hs
  obtain ⟨hpc, hheld, hset⟩ := RwLock.step_drop hstep
  have hinv := h.rw.drop hpc hheld
  have hcases := afterDrop_cases (ι := ι) s.rw.lock a
  refine h.word hs hset hinv (.inl hi) ?_ ?_ ?_ ?_ ?_ fun hlock j hj =>
    h.hope_of_drop hinv hstage hcov hlock hj
  · rcases hcases with hp | ⟨all, hp⟩
    · rw [hp]
      intro b hb
      rw [lose_pc, hpc] at hb
      cases hb
    · rw [hp]
      exact hpc
  · rw [hi]
    rcases hcases with hp | ⟨all, hp⟩ <;> simp only [hp, queued]
  · rcases hcases with hp | ⟨all, hp⟩ <;> simp only [hp, isWaking]
  · rcases eq_or_ne a .write with rfl | ha
    · exact .inl rfl
    · exact .inr ⟨by simp [ha.symm], .inl (by simp [upgrades, hpc])⟩
  · intro b hb
    rcases hcases with hp | ⟨all, hp⟩ <;> rw [hp] at hb <;> cases hb

/-- A step of a thread outside `do_wait` that leaves it with a guard. -/
theorem WakeInv.outside {op : RwOp} {r : ℕ × RwThread} (hi : s.stage i = .idle)
    (hs : s.onWord i op .idle = some s') (hset : s'.rw = s.rw.set i r) (hinv : (s.rw.set i r).Inv)
    (hpc : ∀ b, r.2.pc ≠ .undo b) (hwrite : (s.rw.threads i).held .write ≤ r.2.held .write)
    (hup : (s.rw.threads i).upgrades ≤ r.2.upgrades ∨ 0 < r.2.held .write)
    (hheld : 0 < r.2.held a) : s'.WakeInv := by
  refine h.word hs hset hinv (.inl hi) hpc (by rw [hi]) rfl (.inr ⟨hwrite, hup⟩) nofun
    fun hz => absurd hz (hinv.lock_ne_zero (i := i) (a := a) ?_)
  change 0 < (update s.rw.threads i r.2 i).held a
  rwa [update_self]

theorem WakeInv.upgrade (hi : s.stage i = .idle)
    (hs : s.onWord i .upgrade .idle = some s') : s'.WakeInv := by
  obtain ⟨hstep, -, -⟩ := onWord_eq_some hs
  cases hpc : (s.rw.threads i).pc with
  | idle =>
    simp only [RwLock.step, RwThread.step, hpc] at hstep
    split_ifs at hstep with hheld
    · exact h.outside hi hs (some.inj hstep).symm (h.rw.upgrade hpc hheld) (by simp) (by simp)
        (.inl (by simp [hpc])) (by simpa using hheld)
    · cases hstep
  | _ => simp [RwLock.step, RwThread.step, hpc] at hstep

/-- The steps of `upgrade`. -/
theorem WakeInv.goOutside (hi : s.stage i = .idle) (hs : s.go i = some s') : s'.WakeInv := by
  simp only [go, hi] at hs
  cases hpc : (s.rw.threads i).pc with
  | idle => simp [onWord, RwLock.step, RwThread.step, hpc] at hs
  | undo a =>
    have hfits := h.fits i
    rw [hi] at hfits
    exact absurd hpc (hfits a)
  | upgrading =>
    simp only [hpc] at hs
    obtain ⟨hstep, -, -⟩ := onWord_eq_some hs
    simp only [RwLock.step, RwThread.step, hpc, map_some, some.injEq] at hstep
    have hheld := h.rw.upgrading i hpc
    have hinv := h.rw.tryUpgrade (.inr hpc) hheld
    unfold RwThread.tryUpgrade at hstep hinv
    split at hstep
    next lock hcas =>
      simp only [hcas] at hinv
      exact h.outside (a := .write) hi hs hstep.symm hinv (by simp) (by simp) (.inr (by simp))
        (by simp)
    next hcas =>
      simp only [hcas] at hinv
      exact h.outside hi hs hstep.symm hinv (by simp [hpc]) le_rfl (.inl le_rfl) hheld
  | upgraded =>
    simp only [hpc] at hs
    have hheld := h.rw.upgraded i hpc
    have hidle : (afterDrop s.rw.lock .upread : MutexStage ι) = .idle := by
      rw [afterDrop, Access.wakes, if_neg (h.rw.lock_ne_zero hheld)]
    rw [hidle] at hs
    obtain ⟨hstep, -, -⟩ := onWord_eq_some hs
    simp only [RwLock.step, RwThread.step, hpc, map_some, some.injEq] at hstep
    exact h.outside hi hs hstep.symm (h.rw.dropConsumed hpc) (by simp) le_rfl
      (.inl (by simp [hpc])) hheld

theorem WakeInv.go
    (hroom : (∃ queued, s.stage i = .test .read queued) → (s.rw.threads i).pc = .idle →
      s.rw.readers < 2 ^ 60) (hs : s.go i = some s') : s'.WakeInv := by
  by_cases hidle : s.stage i = .idle
  · exact h.goOutside hidle hs
  cases hi : s.stage i <;> simp only [RwMutex.go, hi] at hs
  case idle => exact absurd hi hidle
  case test a queued =>
    have hfits := h.fits i
    rw [hi] at hfits
    rcases hfits with hpc | hpc
    · simp only [hpc] at hs
      refine h.test hi hpc (fun ha => ?_) hs
      subst ha
      exact hroom ⟨queued, hi⟩ hpc
    · simp only [hpc] at hs
      exact h.undo hi hpc hs
  case enqueue a =>
    exact h.enqueue hi hs
  case wait a =>
    cases hs
    split_ifs
    · exact h.wake hi
    · exact h
  case clear a =>
    exact h.clear hi hs
  case dequeue =>
    exact h.dequeue hi hs
  case lockQueue all =>
    exact h.lockQueue hi hs
  case waking todo =>
    cases todo with
    | nil =>
      exact h.unlock hi hs
    | cons j todo =>
      exact h.wakeUp hi hs

theorem WakeInv.step {l : ι × MutexOp} (hc : s.Covered l) (hs : s.step l = some s') :
    s'.WakeInv := by
  obtain ⟨i, op⟩ := l
  obtain ⟨hblocking, hdrop, hroom⟩ := hc
  unfold RwMutex.step at hs
  split at hs
  next a _ hi =>
    split_ifs at hs with hpc
    obtain rfl := some.inj hs
    exact h.acquire hi hpc a
  next a hop hi => exact h.drop hi (fun ha => hdrop (hop.trans (congrArg MutexOp.drop ha))) hs
  next hi => exact h.upgrade hi hs
  next a hop hi =>
    rw [show op = .attempt a from hop] at hblocking
    cases hblocking
  next hop hi =>
    rw [show op = .tryUpgrade from hop] at hblocking
    cases hblocking
  next => exact h.go hroom hs
  next => cases hs

end

/-- **No wakeup is lost**, in runs in which every drop of an upgradeable guard is covered: when the
word is zero and no thread is between the steps of a call, no thread is asleep. -/
theorem no_lost_wakeup {s : RwMutex ι} (h : (lts.restrict Covered).Reachable new s)
    (hrest : s.AtRest) (i : ι) : ¬ s.Asleep i := by
  intro hsleep
  have hinv : s.WakeInv := h.invariant WakeInv.new fun _ _ _ hinv hs => hinv.step hs.1 hs.2
  obtain ⟨j, hj⟩ := hinv.hope hrest.1 i hsleep
  rcases hrest.2 j with ⟨hidle, -⟩ | hasleep
  · simp [Awake, hidle, acquiring, wakesSome] at hj
  · rcases hj with hawake | hwakes
    · exact hawake.2 hasleep
    · obtain ⟨⟨a, ha⟩, -⟩ := hasleep
      rw [ha] at hwakes
      cases hwakes

instance (s : RwMutex ι) (l : ι × MutexOp) : Decidable (s.Covered l) :=
  inferInstanceAs (Decidable (_ ∧ _ ∧ _))

/-- Thread `j` sleeps until thread `i` has upgraded its guard and dropped the write guard. -/
def upgradeBeforeDrop {α : Type} (i j : α) : List (α × MutexOp) :=
  [(i, .acquire .upread), (i, .go), (j, .acquire .write), (j, .go), (j, .go), (j, .go),
    (i, .upgrade), (i, .go), (i, .go), (i, .drop .write), (i, .go), (i, .go), (i, .go),
    (j, .go), (j, .go), (j, .go), (j, .go), (j, .drop .write), (j, .go), (j, .go)]

theorem no_lost_wakeup_upgradeBeforeDrop :
    ∃ s : RwMutex (Fin 2), (lts.restrict Covered).Reachable new s ∧ s.AtRest ∧ ¬ s.Asleep 1 := by
  obtain ⟨s, hreach, hlock, h0, h1⟩ := Lts.exists_run_restrict step new
    (upgradeBeforeDrop (0 : Fin 2) 1)
    (fun s => s.rw.lock = 0 ∧ (s.stage 0 = .idle ∧ (s.rw.threads 0).pc = .idle) ∧
      s.stage 1 = .idle ∧ (s.rw.threads 1).pc = .idle)
    Covered (by decide +kernel)
  have hrest : s.AtRest := ⟨hlock, Fin.forall_fin_two.2 ⟨.inl h0, .inl h1⟩⟩
  exact ⟨s, hreach, hrest, no_lost_wakeup hreach hrest 1⟩

/-- Thread `j` falls asleep while thread `i` has an upgradeable guard, which is then dropped. -/
def dropUpgradeable {α : Type} (i j : α) : List (α × MutexOp) :=
  [(i, .acquire .upread), (i, .go), (j, .acquire .write), (j, .go), (j, .go), (j, .go),
    (i, .drop .upread)]

/-- A wakeup is lost: the mutex is free, no thread is in a step, and thread `1` sleeps. -/
theorem exists_lost_wakeup :
    ∃ s : RwMutex (Fin 2), (lts.restrict fun _ l => l.2.blocking = true).Reachable new s ∧
      s.AtRest ∧ s.Asleep 1 := by
  obtain ⟨s, hreach, hlock, h0, h1, hmark⟩ := Lts.exists_run_restrict step new
    (dropUpgradeable (0 : Fin 2) 1)
    (fun s => s.rw.lock = 0 ∧ (s.stage 0 = .idle ∧ (s.rw.threads 0).pc = .idle) ∧
      s.stage 1 = .wait .write ∧ s.queue.isWokenUp 1 = false)
    (fun _ l => l.2.blocking = true) (by decide +kernel)
  have hsleep : s.Asleep 1 := ⟨⟨.write, h1⟩, hmark⟩
  exact ⟨s, hreach, ⟨hlock, Fin.forall_fin_two.2 ⟨.inl h0, .inr hsleep⟩⟩, hsleep⟩

end RwMutex

end Jinux
