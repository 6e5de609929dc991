import Jinux.Sync.RwMutex

/-!
# Who wakes the waiters of a mutex

A thread that sleeps in `do_wait` relies on others: as long as the word is not zero, on whoever has
put something there; when the word is zero, on a thread that will try to lock before it can sleep or
that is about to mark a waiter (`RwMutex.Hope`).  An attempt that has failed is taken back after
whoever made it fail may have gone; so its thread relies on being marked before it has to sleep.

* `RwMutex.WakeInv` : the invariant that says so, with what it needs to know about the queue;
* `RwMutex.Covered` : the condition on the steps under which it is kept;
* `WakeInv.enqueue`, `WakeInv.wakeUp` and so on : the steps on the queue keep it.
-/

namespace Jinux

open Function RwWord MutexStage WaitQueue Option

universe u

variable {ι : Type u} {i j : ι} {r : ℕ × RwThread} {todo : List ι}

namespace MutexOp

/-- `read`, `write`, `upread`, `upgrade`, the drops of the guards, and what they do. -/
def blocking : MutexOp → Bool
  | .attempt _ | .tryUpgrade => false
  | _ => true

end MutexOp

namespace MutexStage

variable {a : Access}

/-- In `read`, `write` or `upread`, without a guard yet. -/
def acquiring : MutexStage ι → Bool
  | .test _ _ | .enqueue _ | .wait _ | .clear _ => true
  | _ => false

/-- The waiter of the thread is in the queue. -/
def queued : MutexStage ι → Bool
  | .test _ queued => queued
  | .wait _ | .clear _ | .dequeue => true
  | _ => false

/-- In the loop of a waker. -/
def isWaking : MutexStage ι → Bool
  | .waking _ => true
  | _ => false

/-- A waker that has still to mark a waiter, if there is one. -/
def wakesSome : MutexStage ι → Bool
  | .lockQueue _ | .waking (_ :: _) => true
  | _ => false

/-- A waker that has still to mark the waiter `i`, if it is in the queue. -/
def Marks (i : ι) : MutexStage ι → Prop
  | .lockQueue all => all = true
  | .waking todo => i ∈ todo
  | _ => False

/-- What a thread at a stage can be doing with the word, and what it holds. -/
def Fits : MutexStage ι → RwThread → Prop
  | .idle, t => ∀ a, t.pc ≠ .undo a
  | .test a _, t => t.pc = .idle ∨ t.pc = .undo a
  | .dequeue, t => t.pc = .idle ∧ ∃ a, 0 < t.held a
  | _, t => t.pc = .idle

end MutexStage

namespace RwLock

variable [Fintype ι]

/-- A failed attempt that has to be undone has met a write guard, or an upgrade if it is one to
read. -/
def Blocks (s : RwLock ι) (a : Access) : Prop :=
  0 < s.guards .write ∨ a = .read ∧ 0 < s.upgrades

variable {s : RwLock ι}

/-- An attempt never leaves the word zero. -/
theorem Inv.attempt_ne_zero (h : s.Inv) (a : Access)
    (hroom : a = .read → s.readers + 1 < 2 ^ 61) : (a.attempt s.lock).1 ≠ 0 := by
  rw [h.word]
  cases a with
  | read =>
    rw [Access.attempt, tryRead_pack h.one_writer h.one_upreader h.upgrades_le_one (hroom rfl)]
    simp [pack_eq_zero]
  | write =>
    rw [Access.attempt, tryWrite_pack]
    split_ifs with hok
    · decide
    · exact fun hz => hok (pack_eq_zero.1 hz)
  | upread =>
    rw [Access.attempt, tryUpread_pack h.one_writer h.one_upreader h.upgrades_le_one h.small]
    simp [pack_eq_zero]

/-- The last reader finds `READER` in the word. -/
theorem Inv.eq_reader (h : s.Inv) (hdrop : dropRead s.lock = 0) : s.lock = reader := by
  have hlock := h.word
  have hnum := h.numbers
  rw [pack_def] at hlock
  simp only [dropRead, fetchSub, reader, usizeBound] at hdrop ⊢
  omega

/-- What an attempt that has to be undone has met. -/
theorem Inv.blocks_of_undo (h : s.Inv) (hroom : a = .read → s.readers < 2 ^ 60)
    (hundo : (a.attempt s.lock).2 = .undo) : s.Blocks a := by
  rw [h.word] at hundo
  cases a with
  | read =>
    have hr := hroom rfl
    rw [Access.attempt, tryRead_pack h.one_writer h.one_upreader h.upgrades_le_one
      (by omega)] at hundo
    split_ifs at hundo with hok
    unfold Blocks
    by_contra hno
    push Not at hno
    exact hok ⟨by omega, by have := hno.2 rfl; omega, hr⟩
  | write =>
    rw [Access.attempt, tryWrite_pack] at hundo
    split_ifs at hundo
  | upread =>
    rw [Access.attempt,
      tryUpread_pack h.one_writer h.one_upreader h.upgrades_le_one h.small] at hundo
    split_ifs at hundo with hu hw
    exact .inl (by omega)

variable [DecidableEq ι]

/-- The reason of a failed attempt lasts, unless the write guard is dropped. -/
theorem Blocks.set (h : s.Blocks a) (hw : (s.threads i).held .write ≤ r.2.held .write)
    (hb : (s.threads i).upgrades ≤ r.2.upgrades ∨ 0 < r.2.held .write) : (s.set i r).Blocks a := by
  have hguards := guards_set s i r .write
  have hupgrades := total_update RwThread.upgrades s.threads i r.2
  change (s.set i r).upgrades + _ = s.upgrades + _ at hupgrades
  rcases h with h | ⟨ha, h⟩
  · left
    omega
  · rcases hb with hb | hb
    · exact .inr ⟨ha, by omega⟩
    · left
      have := s.held_le_guards i .write
      omega

end RwLock

namespace RwMutex

/-- Thread `i` sleeps in `Waiter::wait` and is not marked as woken up. -/
def Asleep (s : RwMutex ι) (i : ι) : Prop :=
  (∃ a, s.stage i = .wait a) ∧ s.queue.isWokenUp i = false

/-- The mutex is free and no thread is between the steps of a call: each is in no call or asleep. -/
def AtRest (s : RwMutex ι) : Prop :=
  s.rw.lock = 0 ∧ ∀ i, (s.stage i = .idle ∧ (s.rw.threads i).pc = .idle) ∨ s.Asleep i

/-- Thread `i` will try to lock before it can sleep. -/
def Awake (s : RwMutex ι) (i : ι) : Prop := (s.stage i).acquiring = true ∧ ¬ s.Asleep i

/-- Some thread will try to lock or mark a waiter. -/
def Hope (s : RwMutex ι) : Prop := ∃ i, s.Awake i ∨ (s.stage i).wakesSome = true

variable {s s' : RwMutex ι} {p : MutexStage ι}

/-- A thread that is awake stays so when others move. -/
theorem Awake.of_eq (h : s.Awake j) (hstage : s'.stage j = s.stage j)
    (hmark : s'.queue.isWokenUp j = false → s.queue.isWokenUp j = false) : s'.Awake j := by
  refine ⟨by rw [hstage]; exact h.1, fun hsleep => h.2 ⟨?_, hmark hsleep.2⟩⟩
  rw [← hstage]
  exact hsleep.1

/-- A thread in `do_wait` that is not in the loop of `Waiter::wait` is awake. -/
theorem awake_of_stage (hi : s.stage i = p) (hp : p.acquiring = true) (hwait : ∀ a, p ≠ .wait a) :
    s.Awake i := by
  refine ⟨by rw [hi, hp], ?_⟩
  rintro ⟨⟨a, ha⟩, -⟩
  exact hwait a (hi.symm.trans ha)

variable [Fintype ι]

/-- The condition on the steps: an upgradeable guard is dropped only while a read guard is left or
nobody tries to lock, and `try_read` never meets `MAX_READER` readers. -/
def Covered (s : RwMutex ι) (l : ι × MutexOp) : Prop :=
  l.2.blocking = true ∧
    (l.2 = .drop .upread → 0 < s.rw.guards .read ∨ ∀ j, (s.stage j).acquiring = false) ∧
    ((∃ queued, s.stage l.1 = .test .read queued) → (s.rw.threads l.1).pc = .idle →
      s.rw.readers < 2 ^ 60)

/-- What holds in every state of such a run. -/
structure WakeInv (s : RwMutex ι) : Prop where
  rw : s.rw.Inv
  fits : ∀ j, (s.stage j).Fits (s.rw.threads j)
  mem_waiters : ∀ j, j ∈ s.queue.waiters ↔ (s.stage j).queued = true
  /-- A waker in its loop holds the lock of the queue. -/
  waking : ∀ j todo, s.stage j = .waking todo → s.queue.locked = true ∧
    (∀ k ∈ todo, k ∈ s.queue.waiters) ∧ ∀ k, (s.stage k).isWaking = true → k = j
  /-- A waiter that is about to undo an attempt and to sleep will be marked before it has to. -/
  pending : ∀ j a, s.stage j = .test a true → (s.rw.threads j).pc = .undo a →
    s.queue.isWokenUp j = false → s.rw.Blocks a ∨ ∃ k, (s.stage k).Marks j
  /-- Nobody is left asleep. -/
  hope : s.rw.lock = 0 → ∀ j, s.Asleep j → s.Hope

theorem WakeInv.new : (new : RwMutex ι).WakeInv where
  rw := RwLock.Inv.new
  fits _ := nofun
  mem_waiters j := by simp [RwMutex.new, WaitQueue.new, queued]
  waking := nofun
  pending := nofun
  hope _ j hj := by
    obtain ⟨⟨a, ha⟩, -⟩ := hj
    cases ha

theorem WakeInv.not_waking (h : s.WakeInv) (hl : s.queue.locked = false) (j : ι) :
    (s.stage j).isWaking = false := by
  by_contra hj
  cases hst : s.stage j with
  | waking todo =>
    have := (h.waking j todo hst).1
    rw [hl] at this
    cases this
  | _ => simp [hst, isWaking] at hj

theorem WakeInv.waking_unique (h : s.WakeInv) (hi : s.stage i = .waking todo) (j : ι) (hj : j ≠ i) :
    (s.stage j).isWaking = false :=
  Bool.eq_false_iff.2 fun hw => hj ((h.waking i todo hi).2.2 j hw)

/-- While a waker is in its loop the queue is locked. -/
theorem WakeInv.locked (h : s.WakeInv) (hj : (s.stage j).isWaking = true) :
    s.queue.locked = true := by
  by_contra hl
  rw [h.not_waking (Bool.eq_false_iff.2 hl) j] at hj
  cases hj

/-- A thread that has a guard and is still in the queue keeps the word from being zero. -/
theorem WakeInv.lock_ne_zero (h : s.WakeInv) (hi : s.stage i = .dequeue) : s.rw.lock ≠ 0 := by
  have hfits := h.fits i
  rw [hi] at hfits
  obtain ⟨-, a, ha⟩ := hfits
  exact h.rw.lock_ne_zero ha

variable [DecidableEq ι]

section

variable (h : s.WakeInv)

include h

/-- A step of thread `i` to `p`. -/
theorem WakeInv.move (hrw : s'.rw.Inv) (hthreads : ∀ j, j ≠ i → s'.rw.threads j = s.rw.threads j)
    (hstage : s'.stage = update s.stage i p) (hfits : p.Fits (s'.rw.threads i))
    (hmem : ∀ j, j ≠ i → (j ∈ s'.queue.waiters ↔ j ∈ s.queue.waiters))
    (hmemi : i ∈ s'.queue.waiters ↔ p.queued = true)
    (hothers : ∀ j, j ≠ i → (s.stage j).isWaking = true →
      s'.queue.locked = true ∧ s'.queue.waiters = s.queue.waiters ∧ p.isWaking = false)
    (hwaking : ∀ todo, p = .waking todo → s'.queue.locked = true ∧
      (∀ k ∈ todo, k ∈ s'.queue.waiters) ∧ ∀ k, k ≠ i → (s.stage k).isWaking = false)
    (hblocks : ∀ a, s.rw.Blocks a → s'.rw.Blocks a ∨ p = .lockQueue true)
    (hpend : ∀ a, p = .test a true → (s'.rw.threads i).pc = .undo a → s'.rw.Blocks a)
    (hmark : ∀ j, j ≠ i → s'.queue.isWokenUp j = false → s.queue.isWokenUp j = false)
    (hmarks : ∀ j, j ∈ s.queue.waiters → s'.queue.isWokenUp j = false → (s.stage i).Marks j →
      p.Marks j) (hhope : s'.rw.lock = 0 → ∀ j, s'.Asleep j → s'.Hope) : s'.WakeInv := by
  have hne (j : ι) (hj : j ≠ i) : s'.stage j = s.stage j := by
    rw [hstage, update_of_ne hj]
  have hself : s'.stage i = p := by rw [hstage, update_self]
  refine ⟨hrw, fun j => ?_, fun j => ?_, fun j todo hj => ?_, fun j a hj hpc hm => ?_, hhope⟩
  · rcases eq_or_ne j i with rfl | hji
    · rwa [hself]
    · rw [hne j hji, hthreads j hji]
      exact h.fits j
  · rcases eq_or_ne j i with rfl | hji
    · rw [hself, hmemi]
    · rw [hne j hji, hmem j hji]
      exact h.mem_waiters j
  · rcases eq_or_ne j i with rfl | hji
    · rw [hself] at hj
      obtain ⟨hlocked, htodo, hone⟩ := hwaking todo hj
      refine ⟨hlocked, htodo, fun k hk => ?_⟩
      by_contra hkj
      rw [hne k hkj, hone k hkj] at hk
      cases hk
    · rw [hne j hji] at hj
      obtain ⟨-, htodo, hone⟩ := h.waking j todo hj
      obtain ⟨hlocked, hwaiters, hp⟩ := hothers j hji (hj ▸ rfl)
      refine ⟨hlocked, by rwa [hwaiters], fun k hk => hone k ?_⟩
      rcases eq_or_ne k i with rfl | hki
      · rw [hself, hp] at hk
        cases hk
      · rwa [← hne k hki]
  · rcases eq_or_ne j i with rfl | hji
    · exact .inl (hpend a (hself ▸ hj) hpc)
    · rw [hne j hji] at hj
      rw [hthreads j hji] at hpc
      rcases h.pending j a hj hpc (hmark j hji hm) with hb | ⟨k, hk⟩
      · refine (hblocks a hb).imp_right fun hp => ⟨i, ?_⟩
        rw [hself, hp]
        rfl
      · refine .inr ⟨k, ?_⟩
        rcases eq_or_ne k i with rfl | hki
        · rw [hself]
          exact hmarks j ((h.mem_waiters j).2 (hj ▸ rfl)) hm hk
        · rwa [hne k hki]

/-- A step of thread `i` on the word. -/
theorem WakeInv.word {op : RwOp} (hs : s.onWord i op p = some s') (hset : s'.rw = s.rw.set i r)
    (hrw : (s.rw.set i r).Inv) (hold : s.stage i = .idle ∨ ∃ a queued, s.stage i = .test a queued)
    (hfits : p.Fits r.2) (hq : p.queued = (s.stage i).queued) (hnew : p.isWaking = false)
    (hblocks : p = .lockQueue true ∨ (s.rw.threads i).held .write ≤ r.2.held .write ∧
      ((s.rw.threads i).upgrades ≤ r.2.upgrades ∨ 0 < r.2.held .write))
    (hpend : ∀ a, p = .test a true → r.2.pc = .undo a → (s.rw.set i r).Blocks a)
    (hhope : r.1 = 0 → ∀ j, s'.Asleep j → s'.Hope) : s'.WakeInv := by
  obtain ⟨-, hqueue, hstage⟩ := onWord_eq_some hs
  have hthread : s'.rw.threads i = r.2 := by
    rw [hset]
    exact update_self _ _ _
  refine h.move (hset ▸ hrw) (fun j hj => ?_) hstage (hthread ▸ hfits)
    (fun _ _ => by rw [hqueue]) ?_ (fun j _ hj => ?_) (fun todo htodo => ?_) (fun b hb => ?_)
    (fun b hp hpc => hset ▸ hpend b hp (hthread ▸ hpc)) (fun _ _ hm => hqueue ▸ hm)
    (fun j _ _ hm => ?_) fun hz => hhope (by rwa [hset] at hz)
  · rw [hset]
    exact update_of_ne hj _ _
  · rw [hqueue, h.mem_waiters, hq]
  · rw [hqueue]
    exact ⟨h.locked hj, rfl, hnew⟩
  · rw [htodo] at hnew
    cases hnew
  · rw [hset]
    exact hblocks.symm.imp_left fun hle => hb.set hle.1 hle.2
  · rcases hold with hi | ⟨a, q, hi⟩ <;> rw [hi] at hm <;> exact hm.elim

/-- A step of thread `i` in `do_wait` to a place from where it will try to lock. -/
theorem WakeInv.toTest {q : WaitQueue ι} (hpc : (s.rw.threads i).pc = .idle)
    (hfits : p.Fits (s.rw.threads i)) (hp : p.acquiring = true) (hwait : ∀ a, p ≠ .wait a)
    (hwaiters : q.waiters = s.queue.waiters) (hlocked : q.locked = s.queue.locked)
    (hqueued : p.queued = (s.stage i).queued)
    (hmark : ∀ j, j ≠ i → q.isWokenUp j = false → s.queue.isWokenUp j = false)
    (hmarks : ∀ j, ¬ (s.stage i).Marks j) : ({ s.goto i p with queue := q }).WakeInv := by
  have hloop : p.isWaking = false := by cases p <;> first | rfl | cases hp
  refine h.move h.rw (fun _ _ => rfl) rfl hfits (fun j _ => by rw [hwaiters]) ?_ (fun j _ hj => ?_)
    (fun todo htodo => ?_) (fun _ => .inl) (fun b _ hb => ?_) hmark
    (fun j _ _ hm => absurd hm (hmarks j))
    fun _ _ _ => ⟨i, .inl (awake_of_stage (update_self _ _ _) hp hwait)⟩
  · rw [hwaiters, h.mem_waiters, hqueued]
  · exact ⟨by rw [hlocked, h.locked hj], hwaiters, hloop⟩
  · rw [htodo] at hloop
    cases hloop
  · cases hpc.symm.trans hb

/-- A thread calls `read`, `write` or `upread`. -/
theorem WakeInv.acquire (hi : s.stage i = .idle)
    (hpc : (s.rw.threads i).pc = .idle) (a : Access) : (s.goto i (.test a false)).WakeInv :=
  h.toTest hpc (.inl hpc) rfl nofun rfl rfl (hi ▸ rfl) (fun _ _ hm => hm)
    fun _ hm => by rw [hi] at hm; exact hm

theorem WakeInv.enqueue (hi : s.stage i = .enqueue a)
    (hs : s.onQueue i (s.queue.enqueue i) (.test a true) = some s') : s'.WakeInv := by
  obtain ⟨q, hq, rfl⟩ := map_eq_some_iff.1 hs
  obtain ⟨hl, rfl⟩ := enqueue_eq_some hq
  have hpc : (s.rw.threads i).pc = .idle := by simpa [hi, Fits] using h.fits i
  refine h.move h.rw (fun _ _ => rfl) rfl (.inl hpc) (fun j hj => ?_) ?_ (fun j _ hj => ?_) nofun
    (fun _ => .inl) (fun b _ hb => ?_) (fun j hj hm => ?_) (fun j _ _ hm => ?_)
    fun _ _ _ => ⟨i, .inl (awake_of_stage (update_self _ _ _) rfl nofun)⟩
  · simp [hj]
  · simp [queued]
  · rw [h.not_waking hl j] at hj
    cases hj
  · cases hpc.symm.trans hb
  · simpa [update_of_ne hj] using hm
  · rw [hi] at hm
    cases hm

theorem WakeInv.wake (hi : s.stage i = .wait a) : (s.goto i (.clear a)).WakeInv := by
  have hpc : (s.rw.threads i).pc = .idle := by simpa [hi, Fits] using h.fits i
  exact h.toTest hpc hpc rfl nofun rfl rfl (hi ▸ rfl) (fun _ _ hm => hm)
    fun _ hm => by rw [hi] at hm; exact hm

theorem WakeInv.clear (hi : s.stage i = .clear a)
    (hs : s.onQueue i (some (s.queue.clear i)) (.test a true) = some s') : s'.WakeInv := by
  obtain rfl := some.inj hs
  have hpc : (s.rw.threads i).pc = .idle := by simpa [hi, Fits] using h.fits i
  exact h.toTest hpc (.inl hpc) rfl nofun rfl rfl (hi ▸ rfl)
    (fun j hj hm => (clear_isWokenUp_of_ne hj).symm.trans hm)
    fun _ hm => by rw [hi] at hm; exact hm

theorem WakeInv.dequeue (hi : s.stage i = .dequeue)
    (hs : s.onQueue i (s.queue.dequeue i) .idle = some s') : s'.WakeInv := by
  obtain ⟨q, hq, rfl⟩ := map_eq_some_iff.1 hs
  obtain ⟨hl, rfl⟩ := dequeue_eq_some hq
  have hpc : (s.rw.threads i).pc = .idle := (by simpa [hi, Fits] using h.fits i : _ ∧ _).1
  refine h.move h.rw (fun _ _ => rfl) rfl (fun b hb => by cases hpc.symm.trans hb)
    (fun j hj => ?_) ?_ (fun j _ hj => ?_) nofun (fun _ => .inl) nofun (fun j _ hm => hm)
    (fun j _ _ hm => ?_) fun hlock => absurd hlock (h.lock_ne_zero hi)
  · simp [hj]
  · simp [queued]
  · rw [h.not_waking hl j] at hj
    cases hj
  · rw [hi] at hm
    cases hm

theorem WakeInv.lockQueue {all : Bool} (hi : s.stage i = .lockQueue all)
    (hs : s.onQueue i s.queue.lock (.waking (s.queue.targets all)) = some s') : s'.WakeInv := by
  obtain ⟨q, hq, rfl⟩ := map_eq_some_iff.1 hs
  obtain ⟨hl, rfl⟩ := lock_eq_some hq
  have hpc : (s.rw.threads i).pc = .idle := by simpa [hi, Fits] using h.fits i
  have hself : (s.goto i (.waking (s.queue.targets all))).stage i = .waking (s.queue.targets all) :=
    update_self _ _ _
  have htargets (j : ι) (hj : j ∈ s.queue.targets all) : j ∈ s.queue.waiters := by
    unfold targets at hj
    split_ifs at hj
    · exact hj
    · exact List.mem_of_mem_take hj
  refine h.move h.rw (fun _ _ => rfl) rfl hpc (fun j _ => Iff.rfl) ?_ (fun j _ hj => ?_)
    (fun todo htodo => ?_) (fun _ => .inl) nofun (fun j _ hm => hm) (fun j hj _ hm => ?_)
    fun _ j hj => ⟨i, .inr ?_⟩
  · change i ∈ s.queue.waiters ↔ _
    rw [h.mem_waiters, hi]
    rfl
  · rw [h.not_waking hl j] at hj
    cases hj
  · cases htodo
    exact ⟨rfl, htargets, fun k _ => h.not_waking hl k⟩
  · rw [hi] at hm
    subst hm
    exact hj
  · -- the queue is not empty, since the thread that sleeps is in it
    obtain ⟨⟨a, ha⟩, -⟩ := hj
    have hji : j ≠ i := by
      rintro rfl
      rw [show _ = _ from hself] at ha
      cases ha
    have hst : s.stage j = .wait a := (update_of_ne hji _ _).symm.trans ha
    have hmem : j ∈ s.queue.waiters := (h.mem_waiters j).2 (hst ▸ rfl)
    rw [show _ = _ from hself]
    unfold targets
    cases hw : s.queue.waiters with
    | nil =>
      rw [hw] at hmem
      cases hmem
    | cons k ks => cases all <;> rfl

/-- A waker marks the waiter of `j`. -/
theorem WakeInv.wakeUp (hi : s.stage i = .waking (j :: todo))
    (hs : s.onQueue i (some (s.queue.wakeUp j)) (.waking todo) = some s') : s'.WakeInv := by
  obtain rfl := some.inj hs
  have hpc : (s.rw.threads i).pc = .idle := by simpa [hi, Fits] using h.fits i
  obtain ⟨hlocked, htodo, -⟩ := h.waking i _ hi
  have hqueued := (h.mem_waiters j).1 (htodo j List.mem_cons_self)
  refine h.move h.rw (fun _ _ => rfl) rfl hpc (fun _ _ => Iff.rfl) ?_ (fun k hk hw => ?_)
    (fun todo' ht => ?_) (fun _ => .inl) nofun (fun k _ hm => (unmarked_wakeUp.1 hm).2)
    (fun k _ hm hk => ?_) fun hlock _ _ => ⟨j, .inl ?_⟩
  · change i ∈ s.queue.waiters ↔ _
    rw [h.mem_waiters, hi]
    rfl
  · rw [h.waking_unique hi k hk] at hw
    cases hw
  · cases ht
    exact ⟨hlocked, fun k hk => htodo k (List.mem_cons_of_mem _ hk), h.waking_unique hi⟩
  · rw [hi] at hk
    exact (List.mem_cons.1 hk).resolve_left (unmarked_wakeUp.1 hm).1
  · -- the waiter is marked now, and it has no guard yet
    have hji : j ≠ i := by
      rintro rfl
      rw [hi] at hqueued
      cases hqueued
    refine ⟨?_, fun hsleep => (unmarked_wakeUp.1 hsleep.2).1 rfl⟩
    change (update s.stage i _ j).acquiring = true
    rw [update_of_ne hji]
    cases hst : s.stage j with
    | dequeue => exact absurd hlock (h.lock_ne_zero hst)
    | test a queued | wait a | clear a => rfl
    | _ => simp [hst, queued] at hqueued

/-- A waker is through with its loop. -/
theorem WakeInv.unlock (hi : s.stage i = .waking [])
    (hs : s.onQueue i (some s.queue.unlock) .idle = some s') : s'.WakeInv := by
  obtain rfl := some.inj hs
  have hpc : (s.rw.threads i).pc = .idle := by simpa [hi, Fits] using h.fits i
  have hne (j : ι) (hj : j ≠ i) : (s.goto i .idle).stage j = s.stage j :=
    update_of_ne hj _ _
  refine h.move h.rw (fun _ _ => rfl) rfl (fun b hb => by cases hpc.symm.trans hb)
    (fun _ _ => Iff.rfl) ?_ (fun k hk hw => ?_) nofun (fun _ => .inl) nofun (fun _ _ hm => hm)
    (fun k _ _ hk => ?_) fun hlock j hj => ?_
  · change i ∈ s.queue.waiters ↔ _
    rw [h.mem_waiters, hi]
    rfl
  · rw [h.waking_unique hi k hk] at hw
    cases hw
  · rw [hi] at hk
    cases hk
  · obtain ⟨⟨a, ha⟩, hmark⟩ := hj
    have hji : j ≠ i := by
      rintro rfl
      have hself : (s.goto j .idle).stage j = .idle := update_self _ _ _
      rw [show _ = _ from hself] at ha
      cases ha
    obtain ⟨k, hk⟩ := h.hope hlock j ⟨⟨a, (hne j hji).symm.trans ha⟩, hmark⟩
    have hki : k ≠ i := by
      rintro rfl
      simp [Awake, hi, acquiring, wakesSome] at hk
    exact ⟨k, hk.imp (fun hk => hk.of_eq (hne k hki) id) fun hk => by
      rwa [show _ = _ from hne k hki]⟩

end

end RwMutex

end Jinux
