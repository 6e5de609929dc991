import Jinux.Fs.Channel
import Jinux.Lib.Mirror

/-!
# The events of a channel

`update_pollee` is meant to run in a critical region "so that pollee always reflects the true state
of the underlying ring buffer regardless of any race conditions".  Since the event lock is released
at once, the two ends can be in `update_pollee` together, and the events can end up wrong for good.

The event `IN` of the consumer mirrors that the ring buffer is not empty: the producer raises it and
the consumer lowers it.  `OUT` of the producer mirrors that it is not full, with the parts exchanged
(`inMirror`, `outMirror`).

* `Channel.ready_of_excluded` : in every run in which no end passes `lock_event` while the other one
  is in `update_pollee`, the events are right whenever neither end is in a call.
-/

namespace Jinux

open Bool

universe u

variable {α : Type u}

namespace ProducerPc

/-- In no call. -/
def outside : ProducerPc α → Bool
  | .idle | .returned _ | .dropped => true
  | _ => false

/-- Between `lock_event` and the end of `update_pollee`. -/
def updating : ProducerPc α → Bool
  | .testFull _ | .delOut _ | .testEmpty _ | .addIn _ => true
  | _ => false

/-- What the producer has to do about `IN`. -/
def inPhase : ProducerPc α → Phase
  | .lockEvent _ => .announced
  | .testFull _ | .delOut _ | .testEmpty _ => .testing
  | .addIn _ => .editing
  | _ => .away

/-- What the producer has to do about `OUT`. -/
def outPhase : ProducerPc α → Phase
  | .lockEvent _ => .announced
  | .testFull _ => .testing
  | .delOut _ => .editing
  | .testEmpty _ | .addIn _ => .leaving
  | _ => .away

theorem inside_inPhase (p : ProducerPc α) : p.inPhase.inside = p.updating := by cases p <;> rfl

theorem inside_outPhase (p : ProducerPc α) : p.outPhase.inside = p.updating := by cases p <;> rfl

end ProducerPc

namespace ConsumerPc

/-- In no call. -/
def outside : ConsumerPc → Bool
  | .idle | .returned .. | .dropped => true
  | _ => false

/-- Between `lock_event` and the end of `update_pollee`. -/
def updating : ConsumerPc → Bool
  | .testEmpty .. | .delIn .. | .testFull .. | .addOut .. => true
  | _ => false

/-- What the consumer has to do about `IN`. -/
def inPhase : ConsumerPc → Phase
  | .lockEvent .. => .announced
  | .testEmpty .. => .testing
  | .delIn .. => .editing
  | .testFull .. | .addOut .. => .leaving
  | _ => .away

/-- What the consumer has to do about `OUT`. -/
def outPhase : ConsumerPc → Phase
  | .lockEvent .. => .announced
  | .testEmpty .. | .delIn .. | .testFull .. => .testing
  | .addOut .. => .editing
  | _ => .away

theorem inside_inPhase (p : ConsumerPc) : p.inPhase.inside = p.updating := by cases p <;> rfl

theorem inside_outPhase (p : ConsumerPc) : p.outPhase.inside = p.updating := by cases p <;> rfl

end ConsumerPc

namespace Channel

variable {c c' : Channel α}

/-- `IN` mirrors that the ring buffer is not empty. -/
def inMirror (c : Channel α) : Mirror :=
  ⟨!c.rb.isEmpty, c.consumerEnd.pollee.pollIn, c.producer.inPhase, c.consumer.inPhase⟩

/-- `OUT` mirrors that the ring buffer is not full. -/
def outMirror (c : Channel α) : Mirror :=
  ⟨!c.rb.isFull, c.producerEnd.pollee.pollOut, c.consumer.outPhase, c.producer.outPhase⟩

/-- The condition: an end passes `lock_event` only while the other one is not in `update_pollee`. -/
def Excludes (c : Channel α) : ChannelOp α → Prop
  | .produce => c.producer.inPhase = .announced → c.consumer.updating = false
  | .consume => c.consumer.inPhase = .announced → c.producer.updating = false
  | _ => True

open Mirror

/-- The producer raises `IN` and lowers `OUT`. -/
theorem mirrors_produce (hok : c.Excludes .produce) (hs : c.produce = some c') :
    Steps c.inMirror c'.inMirror ∧ Steps c.outMirror c'.outMirror := by
  unfold inMirror outMirror
  cases hpc : c.producer <;> simp only [produce, hpc, Option.some.injEq] at hs
  case push buf =>
    subst hs
    refine ⟨.single (.inl (.change fun h => ?_)), .single (.lower_change fun h => ?_)⟩
    · simpa using mt RingBuf.isEmpty_pushSlice (by simpa using h)
    · simpa using mt RingBuf.isFull_pushSlice (by simpa using h)
  case lockEvent n =>
    have hin := hok (hpc ▸ rfl)
    subst hs
    exact ⟨.single (.inl (.enter (by rw [ConsumerPc.inside_inPhase, hin]))),
      .single (.lower_enter (by rw [ConsumerPc.inside_outPhase, hin]))⟩
  case testFull n =>
    split_ifs at hs with hfull
    · cases hs
      rw [hfull]
      exact ⟨.refl, .single .lower_test_false⟩
    · cases hs
      rw [not_eq_true] at hfull
      rw [hfull]
      exact ⟨.refl, .single .lower_test_true⟩
  case delOut n =>
    subst hs
    exact ⟨.refl, .single .lower_edit⟩
  case testEmpty n =>
    split_ifs at hs with hempty
    · cases hs
      rw [hempty]
      exact ⟨.single (.inl .test_true), .refl⟩
    · cases hs
      rw [not_eq_true] at hempty
      rw [hempty]
      exact ⟨.tail (.single (.inl .test_false)) (.inl .leave), .single .lower_leave⟩
  case addIn n =>
    subst hs
    exact ⟨.tail (.single (.inl .edit)) (.inl .leave), .single .lower_leave⟩
  all_goals
    try split_ifs at hs
    all_goals cases hs
    all_goals exact ⟨.refl, .refl⟩

/-- The consumer lowers `IN` and raises `OUT`. -/
theorem mirrors_consume (hok : c.Excludes .consume) (hs : c.consume = some c') :
    Steps c.inMirror c'.inMirror ∧ Steps c.outMirror c'.outMirror := by
  unfold inMirror outMirror
  cases hpc : c.consumer <;> simp only [consume, hpc, Option.some.injEq] at hs
  case pop len =>
    subst hs
    refine ⟨.single (.lower_change fun h => ?_), .single (.inl (.change fun h => ?_))⟩
    · simpa using mt RingBuf.isEmpty_popSlice (by simpa using h)
    · simpa using mt RingBuf.isFull_popSlice (by simpa using h)
  case lockEvent len n =>
    have hin := hok (hpc ▸ rfl)
    subst hs
    exact ⟨.single (.lower_enter (by rw [ProducerPc.inside_inPhase, hin])),
      .single (.inl (.enter (by rw [ProducerPc.inside_outPhase, hin])))⟩
  case testEmpty len n =>
    split_ifs at hs with hempty
    · cases hs
      rw [hempty]
      exact ⟨.single .lower_test_false, .refl⟩
    · cases hs
      rw [not_eq_true] at hempty
      rw [hempty]
      exact ⟨.single .lower_test_true, .refl⟩
  case delIn len n =>
    subst hs
    exact ⟨.single .lower_edit, .refl⟩
  case testFull len n =>
    split_ifs at hs with hfull
    · cases hs
      rw [hfull]
      exact ⟨.refl, .single (.inl .test_true)⟩
    · cases hs
      rw [not_eq_true] at hfull
      rw [hfull]
      exact ⟨.single .lower_leave, .tail (.single (.inl .test_false)) (.inl .leave)⟩
  case addOut len n =>
    subst hs
    exact ⟨.single .lower_leave, .tail (.single (.inl .edit)) (.inl .leave)⟩
  all_goals
    try split_ifs at hs
    all_goals cases hs
    all_goals exact ⟨.refl, .refl⟩

/-- Every step keeps both mirrors. -/
theorem mirrors_step {op : ChannelOp α} (hok : c.Excludes op) (hs : c.step op = some c') :
    Steps c.inMirror c'.inMirror ∧ Steps c.outMirror c'.outMirror := by
  cases op with
  | produce => exact mirrors_produce hok hs
  | consume => exact mirrors_consume hok hs
  | write | shutdownProducer | dropProducer =>
    simp only [step] at hs
    split_ifs at hs with hready
    cases hs
    unfold inMirror outMirror
    cases hpc : c.producer <;> simp only [hpc, ProducerPc.ready, false_eq_true] at hready <;>
      exact ⟨.refl, .refl⟩
  | read | shutdownConsumer | dropConsumer =>
    simp only [step] at hs
    split_ifs at hs with hready
    cases hs
    unfold inMirror outMirror
    cases hpc : c.consumer <;> simp only [hpc, ConsumerPc.ready, false_eq_true] at hready <;>
      exact ⟨.refl, .refl⟩

theorem mirrors_init {capacity : ℕ} (h : withCapacity capacity = .ok c) :
    c.inMirror.Inv ∧ c.outMirror.Inv := by
  unfold withCapacity at h
  split_ifs at h with hzero
  · cases h
  · cases h
    have hfull : (RingBuf.new capacity (Nat.pos_of_ne_zero hzero) : RingBuf α).isFull = false :=
      RingBuf.not_isFull_of_isEmpty rfl
    constructor
    · exact ⟨nofun, nofun, fun _ => .inl rfl, nofun, nofun⟩
    · refine ⟨nofun, fun _ => .inl rfl, fun h => ?_, nofun, nofun⟩
      simp [outMirror, hfull] at h

/-- **The events reflect the state of the ring buffer** whenever neither end is in a call, in every
run in which no end passes `lock_event` while the other one is in `update_pollee`. -/
theorem ready_of_excluded {capacity : ℕ} {c₀ : Channel α} (h₀ : withCapacity capacity = .ok c₀)
    (hr : ((lts α).restrict Excludes).Reachable c₀ c) (hp : c.producer.outside = true)
    (hc : c.consumer.outside = true) :
    (c.consumerEnd.pollee.pollIn = true ↔ c.rb.isEmpty = false) ∧
      (c.producerEnd.pollee.pollOut = true ↔ c.rb.isFull = false) := by
  have h : c.inMirror.Inv ∧ c.outMirror.Inv := by
    refine hr.invariant (P := fun c => c.inMirror.Inv ∧ c.outMirror.Inv) (mirrors_init h₀) ?_
    intro c op c' h hs
    obtain ⟨hin, hout⟩ := mirrors_step hs.1 hs.2
    exact ⟨h.1.steps hin, h.2.steps hout⟩
  have howes : c.producer.inPhase.owes = false ∧ c.producer.outPhase.owes = false := by
    cases hpc : c.producer <;> simp_all [ProducerPc.outside, ProducerPc.inPhase,
      ProducerPc.outPhase, Phase.owes]
  have howes' : c.consumer.inPhase.owes = false ∧ c.consumer.outPhase.owes = false := by
    cases hpc : c.consumer <;> simp_all [ConsumerPc.outside, ConsumerPc.inPhase,
      ConsumerPc.outPhase, Phase.owes]
  have hIn : c.consumerEnd.pollee.pollIn = !c.rb.isEmpty := h.1.flag_eq_cond howes.1 howes'.1
  have hOut : c.producerEnd.pollee.pollOut = !c.rb.isFull := h.2.flag_eq_cond howes'.2 howes.2
  rw [hIn, hOut, not_eq_true', not_eq_true']
  exact ⟨Iff.rfl, Iff.rfl⟩

instance (c : Channel α) (op : ChannelOp α) : Decidable (c.Excludes op) :=
  match op with
  | .produce => inferInstanceAs (Decidable (_ → _))
  | .consume => inferInstanceAs (Decidable (_ → _))
  | .write _ | .shutdownProducer | .dropProducer | .read _ | .shutdownConsumer | .dropConsumer =>
    inferInstanceAs (Decidable True)

/-- An element goes into a channel for one element. -/
def fillSlot : List (ChannelOp ℕ) := [.write [7]] ++ .replicate 8 .produce

theorem ready_fillSlot : ∃ c : Channel ℕ,
    Lts.run (Lts.guard Excludes step) oneSlot fillSlot = some c ∧
      c.rb.elems = [7] ∧ c.consumerEnd.pollee.pollIn = true ∧
      c.producerEnd.pollee.pollOut = false := by
  have hrun : (Lts.run (Lts.guard Excludes step) oneSlot fillSlot).map
      (fun c => (c.rb.elems, c.producer.outside, c.consumer.outside, c.rb.isEmpty, c.rb.isFull)) =
    some ([7], true, true, false, true) := by decide +kernel
  obtain ⟨c, hc, hfields⟩ := Option.map_eq_some_iff.1 hrun
  simp only [Prod.mk.injEq] at hfields
  obtain ⟨helems, hp, hc', hempty, hfull⟩ := hfields
  obtain ⟨hin, hout⟩ :=
    ready_of_excluded withCapacity_one (Lts.reachable_guard (Lts.reachable_run hc)) hp hc'
  refine ⟨c, hc, helems, hin.2 hempty, eq_false_iff.2 fun h => ?_⟩
  rw [hout.1 h] at hfull
  cases hfull

/-- The consumer takes the element and finds the buffer empty; the producer writes another one and
raises `IN`; and then the consumer lowers it. -/
def crossingUpdates : List (ChannelOp ℕ) :=
  fillSlot ++ [.read 1] ++ .replicate 4 .consume ++ [.write [8]] ++ .replicate 8 .produce ++
    .replicate 3 .consume

/-- Neither end is in a call and the buffer is not empty, but `IN` is not set. -/
theorem exists_not_ready : ∃ c : Channel ℕ,
    (lts ℕ).Reachable oneSlot c ∧ c.producer.outside = true ∧
      c.consumer.outside = true ∧ c.rb.elems = [8] ∧ c.consumerEnd.pollee.pollIn = false :=
  Lts.exists_run step oneSlot crossingUpdates _ (by decide +kernel)

end Channel

end Jinux
