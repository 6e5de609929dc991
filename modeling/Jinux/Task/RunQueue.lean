import Mathlib.Data.List.Nodup
import Mathlib.Data.List.Perm.Subperm
import Jinux.Lib.Table
import Jinux.Task.Processor

/-!
# Run queue uniqueness

A task is linked in the run queue by `switch_to_task` when it is runnable, and by `wake_up` on the
evidence of the mark of one waiter.

* `Kernel.linked_unique` : **every task is linked at most once, and never while it is the current
  task**, in every run where `wake_up` finds the mark of a waiter cleared only when the task of the
  waiter sleeps on this waiter;
* `Kernel.exists_linked_twice` : a task that sleeps on the mutex its condition needs is linked
  twice when both waiters are woken;
* `Kernel.exists_current_linked` : a task that is woken before it sleeps is linked while it runs.
-/

namespace Jinux

open Function List Option

namespace Sched

universe u v

variable {ι : Type u} {κ : Type v} {priority : ι → ℕ} {t : ι}

namespace PreemptScheduler

variable [DecidableEq ι] {r r' : PreemptScheduler ι}

/-- `enqueue` links a task that is not linked. -/
theorem exists_enqueue (priority : ι → ℕ) (h : t ∉ r.linked) :
    ∃ r', r.enqueue priority t = some r' ∧ r'.linked.Perm (t :: r.linked) := by
  simp only [enqueue]
  split_ifs
  · refine ⟨_, rfl, ?_⟩
    rw [linked, append_assoc]
    exact perm_middle
  · refine ⟨_, rfl, ?_⟩
    rw [linked, ← append_assoc]
    exact perm_append_singleton t r.linked

omit [DecidableEq ι] in
/-- `dequeue` unlinks the task that it returns. -/
theorem linked_of_dequeue (h : r.dequeue = some (t, r')) : r.linked = t :: r'.linked := by
  obtain ⟨realTimeTasks, normalTasks⟩ := r
  cases realTimeTasks with
  | cons t' ts =>
    cases h
    rfl
  | nil =>
    cases normalTasks with
    | cons t' ts =>
      cases h
      rfl
    | nil => cases h

end PreemptScheduler

namespace Kernel

/-! ### What holds in every state -/

/-- The current task, the one that is about to be switched to, and the linked ones. -/
def active (s : Kernel ι κ) : List ι := s.current.toList ++ s.next.toList ++ s.sched.linked

/-- The task of a waiter. -/
def taskOf (s : Kernel ι κ) (w : ℕ) : Option ι := s.waiters[w]?.map Waiter.task

/-- The waiters of the `do_wait` calls on a stack. -/
def waitersOf (fs : List (Frame κ)) : List ℕ := fs.filterMap Frame.waiter?

/-- The waiter in the loop of whose `wait` a stack is. -/
def sleepsOn : List (Frame κ) → Option ℕ
  | .loop c :: _ => some c.waiter
  | _ => none

/-- The task sleeps in the `wait` of the waiter and has given up the processor. -/
def Asleep (s : Kernel ι κ) (w : ℕ) (t : ι) : Prop :=
  s.status t = .sleeping ∧ sleepsOn (s.ctx t) = some w ∧ s.current ≠ some t ∧ s.next ≠ some t

/-- The mark of the waiter is set, or its task sleeps on it. -/
def Wakeable (s : Kernel ι κ) (w : ℕ) : Prop :=
  s.isWokenUp w = true ∨ ∀ t, s.taskOf w = some t → s.Asleep w t

/-- `wake_up` finds the mark of a waiter cleared only when its task sleeps on it. -/
def WakesSleepers (s : Kernel ι κ) (a : Act ι κ) : Prop := ∀ w ∈ s.targets a, s.Wakeable w

/-- A linked task is runnable or the waiter that it sleeps on is marked. -/
def Ready (s : Kernel ι κ) (t : ι) : Prop :=
  s.status t = .runnable ∨ ∃ w, sleepsOn (s.ctx t) = some w ∧ s.isWokenUp w = true

/-- What holds in every state. -/
structure Inv (s : Kernel ι κ) : Prop where
  nodup : s.active.Nodup
  started : ∀ t ∈ s.active, s.started t = true
  owners : ∀ w t, s.taskOf w = some t → s.started t = true
  fresh : ∀ t, s.started t = false → s.status t = .runnable
  ready : ∀ t ∈ s.sched.linked, s.Ready t
  /-- The code that runs has waiters of the current task only. -/
  stack : ∀ w ∈ waitersOf s.stack, s.taskOf w = s.current
  /-- A task that was switched out has waiters of its own only. -/
  ctx : ∀ t, ∀ w ∈ waitersOf (s.ctx t), s.taskOf w = some t
  panicked : s.panicked ≠ some .alreadyLinked

/-- A step that ends in a state with the invariant, or in a panic for another reason. -/
def Good : Except SchedPanic (Kernel ι κ) → Prop
  | .ok s => Inv s
  | .error p => p ≠ .alreadyLinked

variable {s s' : Kernel ι κ} {w : ℕ}

@[simp] theorem waitersOf_cons (f : Frame κ) (fs : List (Frame κ)) :
    waitersOf (f :: fs) = f.waiter?.toList ++ waitersOf fs := by
  cases h : f.waiter? with
  | none => exact filterMap_cons_none h
  | some w => exact filterMap_cons_some h

variable {fs rest : List (Frame κ)}

theorem mem_waitersOf_of_sleepsOn (h : sleepsOn fs = some w) : w ∈ waitersOf fs := by
  cases fs with
  | nil => cases h
  | cons f fs =>
    cases f with
    | loop c =>
      cases h
      exact mem_cons_self
    | _ => cases h

theorem inv_boot : Inv (boot : Kernel ι κ) := by
  refine ⟨nodup_nil, ?_, ?_, fun _ _ => rfl, ?_, ?_, ?_, ?_⟩ <;> nofun

theorem Inv.current_started (h : Inv s) (ht : s.current = some t) : s.started t = true := by
  refine h.started t ?_
  rw [active, ht]
  exact mem_cons_self

theorem Inv.current_not_linked (h : Inv s) (ht : s.current = some t) : t ∉ s.sched.linked := by
  intro hmem
  have hnodup := h.nodup
  rw [active, ht] at hnodup
  exact (nodup_cons.1 hnodup).1 (mem_append_right _ hmem)

/-! ### Steps that link nothing -/

/-- A step of the current task that changes its own status, stack and waiters only. -/
structure Local (s s' : Kernel ι κ) : Prop where
  sched : s'.sched = s.sched
  current : s'.current = s.current
  next : s'.next = s.next
  started : s'.started = s.started
  ctx : s'.ctx = s.ctx
  panicked : s'.panicked = s.panicked
  status : ∀ t, s.current ≠ some t → s'.status t = s.status t
  marks : ∀ w, s.taskOf w ≠ s.current → s'.isWokenUp w = s.isWokenUp w
  tasks : ∀ w t, s.taskOf w = some t → s'.taskOf w = some t
  owners : ∀ w t, s'.taskOf w = some t → s.taskOf w = some t ∨ s.current = some t
  stack : ∀ w ∈ waitersOf s'.stack, s'.taskOf w = s.current

theorem Inv.of_local (h : Inv s) (hl : Local s s') : Inv s' := by
  have hactive : s'.active = s.active := by
    rw [active, active, hl.sched, hl.current, hl.next]
  refine ⟨?_, ?_, fun w t hw => ?_, fun t ht => ?_, fun t ht => ?_, ?_, fun t w hw => ?_, ?_⟩
  · rw [hactive]
    exact h.nodup
  · rw [hactive, hl.started]
    exact h.started
  · rw [hl.started]
    exact (hl.owners w t hw).elim (h.owners w t) h.current_started
  · rw [hl.started] at ht
    rw [hl.status t]
    · exact h.fresh t ht
    · intro hcur
      cases ht.symm.trans (h.current_started hcur)
  · rw [hl.sched] at ht
    have hcur : s.current ≠ some t := fun hcur => h.current_not_linked hcur ht
    rw [Ready, hl.status t hcur, hl.ctx]
    refine (h.ready t ht).imp_right fun ⟨w, hw, hmark⟩ => ⟨w, hw, ?_⟩
    rw [hl.marks w, hmark]
    rw [h.ctx t w (mem_waitersOf_of_sleepsOn hw)]
    exact hcur.symm
  · rw [hl.current]
    exact hl.stack
  · rw [hl.ctx] at hw
    exact hl.tasks w t (h.ctx t w hw)
  · rw [hl.panicked]
    exact h.panicked

/-! #### The stores of a task -/

@[simp] theorem taskOf_setWokenUp (b : Bool) (w' : ℕ) :
    (s.setWokenUp w b).taskOf w' = s.taskOf w' := by
  simp only [taskOf, setWokenUp, getElem?_modify]
  cases s.waiters[w']? <;> split_ifs <;> rfl

theorem isWokenUp_setWokenUp_of_ne {b : Bool} {w' : ℕ} (h : w ≠ w') :
    (s.setWokenUp w b).isWokenUp w' = s.isWokenUp w' := by
  simp only [isWokenUp, setWokenUp, getElem?_modify, if_neg h]
  cases s.waiters[w']? <;> rfl

/-- A step that changes none of the waiters and no status. -/
theorem Inv.of_stack (h : Inv s) (hfs : waitersOf fs ⊆ waitersOf s.stack) (numLocks ticks : ℕ)
    (irqEnabled : Bool) (queues : κ → List ℕ) (timers : List Timer) :
    Inv { s with stack := fs, numLocks, ticks, irqEnabled, queues, timers } :=
  h.of_local ⟨rfl, rfl, rfl, rfl, rfl, rfl, fun _ _ => rfl, fun _ _ => rfl, fun _ _ => id,
    fun _ _ => .inl, fun w hw => h.stack w (hfs hw)⟩

/-- `Waiter::new` -/
theorem Inv.newWaiter (h : Inv s) (ht : s.current = some t)
    (hfs : ∀ w ∈ waitersOf fs, w = s.waiters.length ∨ w ∈ waitersOf s.stack) :
    Inv { s with waiters := s.waiters ++ [⟨t, false⟩], stack := fs } := by
  have hnone : s.waiters[s.waiters.length]? = none := getElem?_eq_none (Nat.le_refl _)
  have htasks : ∀ w t', s.taskOf w = some t' →
      (s.waiters ++ [(⟨t, false⟩ : Waiter ι)])[w]?.map Waiter.task = some t' := by
    intro w t' hw
    rw [Table.getElem?_concat, if_neg]
    · exact hw
    · rintro rfl
      rw [taskOf, hnone] at hw
      cases hw
  refine h.of_local ⟨rfl, rfl, rfl, rfl, rfl, rfl, fun _ _ => rfl, fun w hw => ?_, htasks,
    fun w t' hw => ?_, fun w hw => ?_⟩
  · -- the new waiter is not marked, as if it did not exist
    simp only [isWokenUp, Table.getElem?_concat]
    split_ifs with hlen
    · rw [hlen, hnone]
    · rfl
  · simp only [taskOf, Table.getElem?_concat] at hw
    split_ifs at hw with hlen
    · exact .inr (ht.trans hw)
    · exact .inl hw
  · rcases hfs w hw with rfl | hw
    · simp only [taskOf, Table.getElem?_concat, ht]
      rfl
    · rw [ht]
      exact htasks w t ((h.stack w hw).trans ht)

/-- The current task clears the mark of its waiter. -/
theorem Inv.clear (h : Inv s) (hw : s.taskOf w = s.current)
    (hfs : waitersOf fs ⊆ waitersOf s.stack) : Inv { s.setWokenUp w false with stack := fs } := by
  refine h.of_local ⟨rfl, rfl, rfl, rfl, rfl, rfl, fun _ _ => rfl, fun w' hw' => ?_,
    fun w' t hw' => (taskOf_setWokenUp false w').trans hw',
    fun w' t hw' => .inl ((taskOf_setWokenUp false w').symm.trans hw'),
    fun w' hw' => (taskOf_setWokenUp false w').trans (h.stack w' (hfs hw'))⟩
  refine isWokenUp_setWokenUp_of_ne ?_
  rintro rfl
  exact hw' hw

variable [DecidableEq ι] {sched : PreemptScheduler ι} {next : ι}

theorem setStatus_eq (status : TaskStatus) : s.setStatus w status =
    { s with status := (s.setStatus w status).status } := by
  unfold setStatus
  split <;> rfl

omit [DecidableEq ι] in
theorem cancelTimer_eq (c : WaitCall κ) :
    s.cancelTimer c = { s with timers := (s.cancelTimer c).timers } := by
  unfold cancelTimer
  split <;> rfl

theorem status_setStatus_of_ne {status : TaskStatus} (h : s.taskOf w ≠ some t) :
    (s.setStatus w status).status t = s.status t := by
  unfold setStatus
  split
  · next x hx =>
    refine update_of_ne ?_ _ _
    rintro rfl
    exact h (by rw [taskOf, hx]; rfl)
  · rfl

/-- A store to the status of the current task. -/
theorem Inv.setStatus (h : Inv s) (hw : s.taskOf w = s.current) (status : TaskStatus)
    (hfs : waitersOf fs ⊆ waitersOf s.stack) : Inv { s.setStatus w status with stack := fs } := by
  rw [setStatus_eq]
  refine h.of_local ⟨rfl, rfl, rfl, rfl, rfl, rfl, fun t ht => ?_, fun _ _ => rfl, fun _ _ => id,
    fun _ _ => .inl, fun w hw => h.stack w (hfs hw)⟩
  exact status_setStatus_of_ne (hw.trans_ne ht)

/-- `exit` of the current task. -/
theorem Inv.exit (h : Inv s) (ht : s.current = some t) :
    Inv { s with status := update s.status t .exited, stack := [.schedule, .unreachable] } := by
  refine h.of_local ⟨rfl, rfl, rfl, rfl, rfl, rfl, fun t' ht' => ?_, fun _ _ => rfl, fun _ _ => id,
    fun _ _ => .inl, nofun⟩
  refine update_of_ne ?_ _ _
  rintro rfl
  exact ht' ht

/-! ### Steps that link a task -/

/-- `add_task` of a task that is not active. -/
theorem Inv.addTask (h : Inv s) (priority : ι → ℕ) (ht : t ∉ s.active)
    (hstarted : s.started t = true) (hready : s.Ready t) :
    ∃ sched, s.addTask priority t = .ok { s with sched } ∧ Inv { s with sched } := by
  have hlinked : t ∉ s.sched.linked := fun hmem => ht (mem_append_right _ hmem)
  obtain ⟨sched, hsched, hperm⟩ := PreemptScheduler.exists_enqueue priority hlinked
  have hactive : (active { s with sched }).Perm (t :: s.active) :=
    ((List.Perm.refl _).append hperm).trans perm_middle
  refine ⟨sched, by simp only [Kernel.addTask, hsched], ?_, fun t' ht' => ?_, h.owners,
    h.fresh, fun t' ht' => ?_, h.stack, h.ctx, h.panicked⟩
  · rw [hactive.nodup_iff, nodup_cons]
    exact ⟨ht, h.nodup⟩
  · rcases mem_cons.1 (hactive.mem_iff.1 ht') with rfl | hmem
    · exact hstarted
    · exact h.started t' hmem
  · rcases mem_cons.1 (hperm.mem_iff.1 ht') with rfl | hmem
    · exact hready
    · exact h.ready t' hmem

omit [DecidableEq ι] in
theorem isWokenUp_setWokenUp_self (hw : s.taskOf w = some t) (b : Bool) :
    (s.setWokenUp w b).isWokenUp w = b := by
  obtain ⟨x, hx, -⟩ := map_eq_some_iff.1 hw
  simp only [isWokenUp, setWokenUp, getElem?_modify, hx]
  rfl

omit [DecidableEq ι] in
/-- A waiter is marked. -/
theorem Inv.mark (h : Inv s) (hw : s.taskOf w = some t) : Inv (s.setWokenUp w true) := by
  refine ⟨h.nodup, h.started, fun w' t' hw' => ?_, h.fresh, fun t' ht' => ?_, fun w' hw' => ?_,
    fun t' w' hw' => ?_, h.panicked⟩
  · exact h.owners w' t' ((taskOf_setWokenUp true w').symm.trans hw')
  · refine (h.ready t' ht').imp_right fun ⟨w', hw', hmark⟩ => ⟨w', hw', ?_⟩
    rcases eq_or_ne w w' with rfl | hne
    · exact isWokenUp_setWokenUp_self hw true
    · rw [isWokenUp_setWokenUp_of_ne hne, hmark]
  · rw [taskOf_setWokenUp]
    exact h.stack w' hw'
  · rw [taskOf_setWokenUp]
    exact h.ctx t' w' hw'

omit [DecidableEq ι] in
/-- A task that sleeps on a waiter without a mark is not active. -/
theorem Inv.asleep_not_active (h : Inv s) (ht : s.Asleep w t) (hw : s.isWokenUp w = false) :
    t ∉ s.active := by
  obtain ⟨hstatus, hsleep, hcur, hnext⟩ := ht
  intro hmem
  rcases mem_append.1 hmem with hmem | hmem
  · rcases mem_append.1 hmem with hmem | hmem
    · exact hcur (mem_toList.1 hmem)
    · exact hnext (mem_toList.1 hmem)
  · rcases h.ready t hmem with hrun | ⟨w', hw', hmark⟩
    · cases hrun.symm.trans hstatus
    · cases hw'.symm.trans hsleep
      cases hmark.symm.trans hw

/-- `wake_up` of a waiter whose task sleeps on it, or that is marked. -/
theorem Inv.wakeUp (h : Inv s) (priority : ι → ℕ) (hw : s.Wakeable w) :
    ∃ s', s.wakeUp priority w = .ok s' ∧ Inv s' ∧ ∀ w', s.Wakeable w' → s'.Wakeable w' := by
  cases hx : s.waiters[w]? with
  | none => exact ⟨s, by simp only [Kernel.wakeUp, hx], h, fun _ => id⟩
  | some x =>
    have htask : s.taskOf w = some x.task := by
      rw [taskOf, hx]
      rfl
    have hmark : s.isWokenUp w = x.isWokenUp := by
      simp [isWokenUp, hx]
    cases hb : x.isWokenUp with
    | true =>
      exact ⟨s, by simp only [Kernel.wakeUp, hx, hb, if_true], h, fun _ => id⟩
    | false =>
      rw [hb] at hmark
      have hasleep : s.Asleep w x.task :=
        hw.elim (fun hmark' => by cases hmark'.symm.trans hmark) fun hall => hall _ htask
      have hmarked := isWokenUp_setWokenUp_self htask true
      obtain ⟨sched, hadd, hinv⟩ := (h.mark htask).addTask priority
        (h.asleep_not_active hasleep hmark) (h.owners w _ htask) (.inr ⟨w, hasleep.2.1, hmarked⟩)
      refine ⟨_, by simp only [Kernel.wakeUp, hx, hb]; exact hadd, hinv, fun w' hw' => ?_⟩
      rcases eq_or_ne w w' with rfl | hne
      · exact .inl hmarked
      · refine hw'.imp (fun hmark' => ?_) fun hall t' ht' => ?_
        · exact (isWokenUp_setWokenUp_of_ne hne).trans hmark'
        · exact hall t' ((taskOf_setWokenUp true w').symm.trans ht')

/-- `wake_up` of one waiter after the other. -/
theorem Inv.wakeUpAll {ws : List ℕ} :
    ∀ {s : Kernel ι κ}, Inv s → (∀ w ∈ ws, s.Wakeable w) → Good (s.wakeUpAll priority ws) := by
  induction ws with
  | nil => exact fun h _ => h
  | cons w ws ih =>
    intro s h hws
    obtain ⟨s', hwake, h', hkeep⟩ := h.wakeUp priority (hws w mem_cons_self)
    have heq : s.wakeUpAll priority (w :: ws) = s'.wakeUpAll priority ws := by
      simp only [Kernel.wakeUpAll, foldlM_cons, hwake]
      rfl
    rw [heq]
    exact ih h' fun w' hw' => hkeep w' (hws w' (mem_cons_of_mem w hw'))

/-! ### The switch -/

omit [DecidableEq ι] in
/-- `fetch_task` moves the front of the run queue to `next`. -/
theorem Inv.fetch (h : Inv s) (hnext : s.next = none)
    (hd : s.sched.dequeue = some (t, sched)) : Inv { s with sched, next := some t } := by
  have hlinked := PreemptScheduler.linked_of_dequeue hd
  have hactive : active { s with sched, next := some t } = s.active := by
    simp only [active, hlinked, hnext]
    simp
  refine ⟨hactive ▸ h.nodup, hactive ▸ h.started, h.owners, h.fresh, fun t' ht' => h.ready t' ?_,
    h.stack, h.ctx, h.panicked⟩
  rw [hlinked]
  exact mem_cons_of_mem t ht'

omit [DecidableEq ι] in
/-- The first switch of all. -/
theorem Inv.leaveBoot (h : Inv s) (hcur : s.current = none) (hnext : s.next = some next) :
    Inv { s with current := some next, next := none, stack := s.ctx next } := by
  have hactive : active { s with current := some next, next := none, stack := s.ctx next } =
      s.active := by
    simp only [active, hcur, hnext]
    simp
  exact ⟨hactive ▸ h.nodup, hactive ▸ h.started, h.owners, h.fresh, h.ready, h.ctx next, h.ctx,
    h.panicked⟩

/-- The processor goes on with `next`; the current task may be linked if it is runnable. -/
theorem Inv.handOver (h : Inv s) (ht : s.current = some t)
    (hnext : s.next = some next) (hsub : sched.linked.Subperm (t :: s.sched.linked))
    (hrun : t ∈ sched.linked → s.status t = .runnable)
    (hrest : ∀ w ∈ waitersOf rest, s.taskOf w = s.current) : Inv { s with
      sched, current := some next, next := none, ctx := update s.ctx t rest,
      stack := s.ctx next } := by
  have hactive : (next :: sched.linked).Subperm s.active := by
    rw [active, ht, hnext]
    exact ((subperm_cons next).2 hsub).trans (List.Perm.swap t next _).subperm
  refine ⟨?_, fun t' ht' => h.started t' (hactive.subset ht'), h.owners, h.fresh, fun t' ht' => ?_,
    h.ctx next, fun t' w hw => ?_, h.panicked⟩
  · obtain ⟨l, hl, hsublist⟩ := hactive
    exact hl.nodup (h.nodup.sublist hsublist)
  · rcases eq_or_ne t' t with rfl | hne
    · exact .inl (hrun ht')
    · have hready := h.ready t' ((mem_cons.1 (hsub.subset ht')).resolve_left hne)
      have hctx : update s.ctx t rest t' = s.ctx t' := update_of_ne hne _ _
      show s.status t' = .runnable ∨
        ∃ w, sleepsOn (update s.ctx t rest t') = some w ∧ s.isWokenUp w = true
      rw [hctx]
      exact hready
  · change w ∈ waitersOf (update s.ctx t rest t') at hw
    rcases eq_or_ne t' t with rfl | hne
    · rw [update_self] at hw
      exact (hrest w hw).trans ht
    · rw [update_of_ne hne] at hw
      exact h.ctx t' w hw

theorem Inv.switchToTask (h : Inv s) (hnext : s.next = some next)
    (hrest : ∀ w ∈ waitersOf rest, s.taskOf w = s.current) :
    Good (s.switchToTask priority next rest) := by
  unfold Kernel.switchToTask
  split_ifs with hlocks
  · nofun
  · split
    · next hcur => exact h.leaveBoot hcur hnext
    · next t hcur =>
      split_ifs with hrun
      · obtain ⟨sched, hadd, hperm⟩ := PreemptScheduler.exists_enqueue priority
          (h.current_not_linked hcur)
        simp only [Kernel.addTask, hadd]
        exact h.handOver hcur hnext hperm.subperm (fun _ => hrun) hrest
      · exact h.handOver hcur hnext (sublist_cons_self t _).subperm
          (fun hmem => absurd hmem (h.current_not_linked hcur)) hrest

theorem Inv.schedule (h : Inv s) (hstack : s.stack = .schedule :: rest) :
    Good (s.schedule priority rest) := by
  have hrest : waitersOf rest ⊆ waitersOf s.stack := by
    rw [hstack]
    exact fun _ => id
  unfold Kernel.schedule
  split
  · next t hnext => exact h.switchToTask hnext fun w hw => h.stack w (hrest hw)
  · next hnext =>
    split
    · next t sched hd => exact h.fetch hnext hd
    · exact h.of_stack hrest _ _ _ _ _

/-- `preempt` never switches: it holds the guard of the interrupts when it calls
`switch_to_task`. -/
theorem preempt_cases (s : Kernel ι κ) :
    s.preempt priority = .ok s ∨ s.preempt priority = .error .holdingLocks := by
  unfold preempt
  cases s.current with
  | none => exact .inl rfl
  | some t =>
    dsimp only
    split_ifs
    · cases s.sched.dequeue with
      | none => exact .inl rfl
      | some p => exact .inr rfl
    · exact .inl rfl

/-! ### One step -/

omit [DecidableEq ι] in
/-- The code of the current task goes on to frames with the same waiters. -/
theorem Inv.of_top {f : Frame κ} (h : Inv s) (hstack : s.stack = f :: rest)
    (hfs : waitersOf fs ⊆ waitersOf (f :: rest)) (queues : κ → List ℕ) (timers : List Timer) :
    Inv { s with stack := fs, queues, timers } :=
  h.of_stack (hstack ▸ hfs) _ _ _ _ _

variable [DecidableEq κ] {r : Except SchedPanic (Kernel ι κ)} {a : Act ι κ}

theorem Inv.advance (h : Inv s) (hr : s.advance priority = some r) : Good r := by
  cases hstack : s.stack with
  | nil =>
    simp only [Kernel.advance, hstack] at hr
    cases hr
  | cons f rest =>
    have htop : ∀ w ∈ f.waiter?, s.taskOf w = s.current := by
      intro w hw
      refine h.stack w ?_
      rw [hstack, waitersOf_cons]
      exact mem_append_left _ (mem_toList.2 hw)
    have hsub : waitersOf rest ⊆ waitersOf s.stack := by
      rw [hstack, waitersOf_cons]
      exact subset_append_right _ _
    simp only [Kernel.advance, hstack] at hr
    cases f with
    | create queue timeout =>
      dsimp only at hr
      split at hr
      · cases hr
        nofun
      · next t hcur =>
        cases hr
        refine h.newWaiter hcur fun w hw => ?_
        rw [waitersOf_cons] at hw
        rcases mem_append.1 hw with hw | hw
        · cases mem_toList.1 hw
          exact .inl rfl
        · exact .inr (hsub hw)
    | enqueue | dequeue | giveUp =>
      cases hr
      exact h.of_top hstack (by simp [Frame.waiter?]) _ _
    | arm c timeout =>
      cases timeout with
      | none | some =>
        cases hr
        exact h.of_top hstack (by simp [Frame.waiter?]) _ _
    | cancel c =>
      cases hr
      rw [cancelTimer_eq]
      exact h.of_top hstack (by simp) _ _
    | expired | loop =>
      cases hr
      refine h.of_top hstack ?_ _ _
      split_ifs <;> simp [Frame.waiter?]
    | sleep | awake =>
      cases hr
      exact h.setStatus (htop _ rfl) _ (by simp [hstack, Frame.waiter?])
    | clear c =>
      cases hr
      exact h.clear (htop _ rfl) (by simp [hstack, Frame.waiter?])
    | schedule =>
      cases hr
      exact h.schedule hstack
    | unreachable =>
      cases hr
      nofun
    | first | test | last => cases hr

omit [DecidableEq κ] in
/-- `Task::run` of a new task. -/
theorem Inv.run (h : Inv s) (ht : s.started t = false) :
    Good (Kernel.addTask priority
      { s with started := update s.started t true, stack := .schedule :: s.stack } t) := by
  have hstarted : ∀ t', s.started t' = true → update s.started t true t' = true := by
    intro t' ht'
    rcases eq_or_ne t' t with rfl | hne
    · exact update_self ..
    · rw [update_of_ne hne, ht']
  have h' : Inv { s with
      started := update s.started t true, stack := .schedule :: s.stack } := by
    refine ⟨h.nodup, fun t' ht' => hstarted t' (h.started t' ht'),
      fun w t' hw => hstarted t' (h.owners w t' hw), fun t' ht' => ?_, h.ready, h.stack, h.ctx,
      h.panicked⟩
    refine h.fresh t' (Bool.eq_false_iff.2 fun hs => ?_)
    cases ht'.symm.trans (hstarted t' hs)
  have hnew : t ∉ s.active := fun hmem => by cases ht.symm.trans (h.started t hmem)
  obtain ⟨sched, hadd, hinv⟩ := h'.addTask priority hnew (update_self ..) (.inl (h.fresh t ht))
  rw [hadd]
  exact hinv

omit [DecidableEq ι] [DecidableEq κ] in
theorem Inv.condReturns {holds : Bool} (h : Inv s) (hs : s.condReturns holds = some s') :
    Inv s' := by
  unfold Kernel.condReturns at hs
  split at hs
  · next queue timeout rest hstack =>
    cases hs
    refine h.of_top hstack ?_ _ _
    split_ifs <;> simp [Frame.waiter?]
  · next c rest hstack =>
    cases hs
    refine h.of_top hstack ?_ _ _
    split_ifs <;> simp [Frame.waiter?]
  · next rest hstack =>
    cases hs
    exact h.of_top hstack (by simp) _ _
  · cases hs

theorem Inv.exec (h : Inv s) (hw : s.WakesSleepers a) (hr : s.exec priority a = some r) :
    Good r := by
  cases a with
  | advance => exact h.advance hr
  | cond holds =>
    obtain ⟨s', hs, rfl⟩ := map_eq_some_iff.1 hr
    exact h.condReturns hs
  | wake irq all queue =>
    obtain ⟨-, ⟨⟩⟩ := ite_none_right_eq_some.1 hr
    exact h.wakeUpAll hw
  | tick ws =>
    obtain ⟨-, ⟨⟩⟩ := ite_none_right_eq_some.1 hr
    have htick : Inv s.tick := h.of_stack (List.Subset.refl _) _ _ _ _ _
    exact htick.wakeUpAll hw
  | doWait | yieldNow =>
    obtain ⟨-, ⟨⟩⟩ := ite_none_right_eq_some.1 hr
    exact h.of_stack (by simp [Frame.waiter?]) _ _ _ _ _
  | run t =>
    obtain ⟨hc, ⟨⟩⟩ := ite_none_right_eq_some.1 hr
    obtain ⟨-, ht⟩ := Bool.and_eq_true_iff.1 hc
    exact h.run (Bool.not_eq_true' _ ▸ ht)
  | preempt =>
    obtain ⟨-, ⟨⟩⟩ := ite_none_right_eq_some.1 hr
    rcases s.preempt_cases with hp | hp
    · rw [hp]
      exact h
    · rw [hp]
      nofun
  | exit =>
    simp only [Kernel.exec] at hr
    split at hr
    · next t hcur =>
      obtain ⟨-, ⟨⟩⟩ := ite_none_right_eq_some.1 hr
      exact h.exit hcur
    · cases hr
  | disable | enable =>
    obtain ⟨-, ⟨⟩⟩ := ite_none_right_eq_some.1 hr
    exact h.of_stack (List.Subset.refl _) _ _ _ _ _

theorem Inv.step (h : Inv s) (hw : s.WakesSleepers a) (hs : s.step priority a = some s') :
    Inv s' := by
  unfold Kernel.step at hs
  split at hs
  · next s1 _ hexec =>
    cases hs
    exact h.exec hw hexec
  · next p hp hexec =>
    cases hs
    have hgood : p ≠ .alreadyLinked := h.exec hw hexec
    exact ⟨h.nodup, h.started, h.owners, h.fresh, h.ready, h.stack, h.ctx,
      fun heq => hgood (Option.some.inj heq)⟩
  · cases hs

/-! ### All runs -/

/-- **Every task is linked at most once, and never while it is the current task**, so that
`enqueue` never meets a linked task, in every run where a waiter that is not marked is only woken
while its task sleeps on it. -/
theorem linked_unique
    (hr : ((lts priority).restrict WakesSleepers).Reachable (boot : Kernel ι κ) s) :
    s.sched.linked.Nodup ∧ (∀ t, s.current = some t → t ∉ s.sched.linked) ∧
      s.panicked ≠ some .alreadyLinked := by
  have h : Inv s := hr.invariant inv_boot fun _ _ _ h hs => h.step hs.1 hs.2
  exact ⟨h.nodup.sublist (sublist_append_right _ _), fun _ => h.current_not_linked, h.panicked⟩

/-! ### Two tasks -/

instance (s : Kernel ι κ) (w : ℕ) (t : ι) : Decidable (s.Asleep w t) :=
  inferInstanceAs (Decidable (_ ∧ _))

instance (s : Kernel ι κ) (w : ℕ) : Decidable (s.Wakeable w) :=
  inferInstanceAs (Decidable (_ ∨ ∀ t ∈ s.taskOf w, _))

instance (s : Kernel ι κ) (a : Act ι κ) : Decidable (s.WakesSleepers a) :=
  inferInstanceAs (Decidable (∀ w ∈ _, _))

/-- Task `i` runs, task `j` waits in the run queue. -/
def startTwo {α β : Type} (i j : α) : List (Act α β) :=
  [.run i, .advance, .advance, .run j, .advance, .advance, .yieldNow, .advance, .advance]

/-- The current task enters the wait queue. -/
def enterQueue (queue : Fin 2) : List (Act (Fin 2) (Fin 2)) :=
  [.doWait queue none, .cond false, .advance, .advance, .advance]

/-- The current task sleeps and gives up the processor. -/
def fallAsleep : List (Act (Fin 2) (Fin 2)) :=
  [.cond false, .advance, .advance, .advance, .advance, .advance]

/-- A task that sleeps is woken once. -/
theorem linked_unique_woken : ∃ s : Kernel (Fin 2) (Fin 2),
    ((lts fun _ => 100).restrict WakesSleepers).Reachable boot s ∧
      0 ∈ s.sched.linked ∧ s.sched.linked.Nodup := by
  obtain ⟨s, hr, hlinked⟩ := Lts.exists_run_restrict (step fun _ => 100) boot
    (startTwo 0 1 ++ enterQueue 0 ++ fallAsleep ++ [.wake false true 0])
    (fun s => 0 ∈ s.sched.linked) WakesSleepers (by decide +kernel)
  exact ⟨s, hr, hlinked, (linked_unique hr).1⟩

/-- A task that sleeps on the mutex that its condition needs is woken through both of its
waiters. -/
theorem exists_linked_twice : ∃ s : Kernel (Fin 2) (Fin 2),
    (lts fun _ => 100).Reachable boot s ∧ s.panicked = some .alreadyLinked :=
  Lts.exists_run (step fun _ => 100) boot (startTwo 0 1 ++ enterQueue 0 ++ enterQueue 1 ++
    fallAsleep ++ [.wake false false 0, .wake false false 1]) _ (by decide +kernel)

/-- An interrupt between `enqueue` and `wait` links the task that runs. -/
theorem exists_current_linked : ∃ s : Kernel (Fin 2) (Fin 2),
    (lts fun _ => 100).Reachable boot s ∧ s.current = some 0 ∧ 0 ∈ s.sched.linked :=
  Lts.exists_run (step fun _ => 100) boot (startTwo 0 1 ++ enterQueue 0 ++ [.wake true false 0]) _
    (by decide +kernel)

end Kernel

end Sched

end Jinux
