import Jinux.Fs.Channel

/-!
# The end of a channel

`try_read` takes elements out of the ring buffer first and looks at the producer's flag afterwards.
A producer that writes and closes between these two steps makes a read return `Ok(0)`, which is the
end of the file, while there are elements in the buffer.

* `Channel.eof_sound` : in every run in which the producer does not close at such a moment, `Ok(0)`
  means that the producer has shut down and everything it wrote has been read.
-/

namespace Jinux

universe u

/-- The producer is in a `try_write` that has found its end open. -/
def ProducerPc.writing {α : Type u} : ProducerPc α → Bool
  | .loadPeer _ | .push _ | .lockEvent _ | .testFull _ | .delOut _ | .testEmpty _ | .addIn _ => true
  | _ => false

/-- The consumer is in a `try_read` that has found the ring buffer empty and has not yet tested
whether the producer has shut down. -/
def ConsumerPc.foundEmpty : ConsumerPc → Bool
  | .lockEvent len n | .testEmpty len n | .delIn len n | .testFull len n | .addOut len n
  | .loadPeer len n => 0 < len && n == 0
  | _ => false

namespace Channel

variable {α : Type u} {c c' : Channel α}

/-- The condition: the producer does not shut down while a `try_read` that found the ring buffer
empty is on its way to the test, unless the ring buffer still is empty. -/
def ClosesQuietly (c : Channel α) : ChannelOp α → Prop
  | .shutdownProducer | .dropProducer => c.consumer.foundEmpty = true → c.rb.isEmpty = true
  | _ => True

/-- What holds along the runs that close quietly. -/
structure EofInv (c : Channel α) : Prop where
  history : c.read ++ c.rb.elems = c.written
  writing : c.producer.writing = true → c.producerEnd.isShutdown = false
  foundEmpty : c.producerEnd.isShutdown = true → c.consumer.foundEmpty = true → c.rb.isEmpty = true
  eof : ∀ len, c.consumer = .returned len (.ok 0) → 0 < len →
    c.producerEnd.isShutdown = true ∧ c.rb.isEmpty = true

/-- Once the producer has shut down it pushes nothing. -/
theorem EofInv.produce (h : c.EofInv) (hs : c.produce = some c') : c'.EofInv := by
  have hwriting := h.writing
  cases hpc : c.producer with
  | push buf =>
    have hopen := hwriting (hpc ▸ rfl)
    simp only [Channel.produce, hpc, Option.some.injEq] at hs
    subst hs
    refine ⟨?_, fun _ => hopen, fun hclosed => ?_, fun len hret hlen => ?_⟩
    · simp only [RingBuf.elems_pushSlice, ← h.history, List.append_assoc]
    · exact absurd hclosed (by simp [hopen])
    · exact absurd (h.eof len hret hlen).1 (by simp [hopen])
  | _ =>
    -- every other step leaves the ring buffer and the flags as they are
    simp only [Channel.produce, hpc, reduceCtorEq] at hs
    try split_ifs at hs
    all_goals
      cases hs
      refine ⟨h.history, fun hw => ?_, h.foundEmpty, h.eof⟩
      simp_all [ProducerPc.writing]

theorem readResult_eq_zero {n : ℕ} {b : Bool} (h : readResult n b = .ok 0) : n = 0 ∧ b = true := by
  unfold readResult at h
  split_ifs at h with hb hn
  · exact ⟨Except.ok.inj h, hb⟩
  · exact absurd (Except.ok.inj h) hn.ne'
  · cases h

theorem EofInv.consume (h : c.EofInv) (hs : c.consume = some c') : c'.EofInv := by
  cases hpc : c.consumer with
  | pop len =>
    simp only [Channel.consume, hpc, Option.some.injEq] at hs
    subst hs
    refine ⟨?_, h.writing, fun _ hfound => ?_, fun len hret => ?_⟩
    · simp only [RingBuf.fst_popSlice, RingBuf.elems_popSlice, List.append_assoc,
        List.take_append_drop, h.history]
    · simp only [ConsumerPc.foundEmpty, Bool.and_eq_true, decide_eq_true_iff, beq_iff_eq] at hfound
      exact RingBuf.isEmpty_of_popSlice hfound.1 hfound.2
    · cases hret
  | loadPeer len n =>
    simp only [Channel.consume, hpc, Option.some.injEq] at hs
    subst hs
    refine ⟨h.history, h.writing, nofun, fun len' hret hlen => ?_⟩
    -- `Ok(0)` needs a pop that found nothing and a producer that has shut down
    obtain ⟨rfl, hres⟩ := ConsumerPc.returned.inj hret
    obtain ⟨rfl, hclosed⟩ := readResult_eq_zero hres
    exact ⟨hclosed, h.foundEmpty hclosed (by simpa [hpc, ConsumerPc.foundEmpty] using hlen)⟩
  | _ =>
    simp only [Channel.consume, hpc, reduceCtorEq] at hs
    try split_ifs at hs
    all_goals
      cases hs
      refine ⟨h.history, h.writing, fun hclosed hfound => ?_, fun len' hret hlen => ?_⟩
      · exact h.foundEmpty hclosed (by simp_all [ConsumerPc.foundEmpty])
      · simp_all

theorem EofInv.step {op : ChannelOp α} (h : c.EofInv) (hok : c.ClosesQuietly op)
    (hs : c.step op = some c') : c'.EofInv := by
  cases op with
  | produce => exact h.produce hs
  | consume => exact h.consume hs
  | write buf =>
    simp only [Channel.step] at hs
    split_ifs at hs
    cases hs
    exact ⟨h.history, nofun, h.foundEmpty, h.eof⟩
  | shutdownProducer | dropProducer =>
    simp only [Channel.step] at hs
    split_ifs at hs
    cases hs
    exact ⟨h.history, nofun, fun _ => hok,
      fun len hret hlen => ⟨rfl, (h.eof len hret hlen).2⟩⟩
  | read len | shutdownConsumer | dropConsumer =>
    simp only [Channel.step] at hs
    split_ifs at hs
    cases hs
    exact ⟨h.history, h.writing, nofun, nofun⟩

theorem EofInv.init {capacity : ℕ} (h : withCapacity capacity = .ok c) : c.EofInv := by
  unfold withCapacity at h
  split_ifs at h
  · cases h
  · cases h
    exact ⟨rfl, nofun, nofun, nofun⟩

/-- **End of file means the end**: in every run that closes quietly, a `try_read` with room in its
buffer returns `Ok(0)` only when the producer has shut down and all that was written has been
read. -/
theorem eof_sound {capacity len : ℕ} {c₀ : Channel α} (h₀ : withCapacity capacity = .ok c₀)
    (hr : ((lts α).restrict ClosesQuietly).Reachable c₀ c) (hlen : 0 < len)
    (hret : c.consumer = .returned len (.ok 0)) :
    c.producerEnd.isShutdown = true ∧ c.read = c.written := by
  have h : c.EofInv := hr.invariant (.init h₀) fun _ _ _ h hs => h.step hs.1 hs.2
  obtain ⟨hclosed, hempty⟩ := h.eof len hret hlen
  refine ⟨hclosed, ?_⟩
  rw [← h.history, RingBuf.isEmpty_iff.1 hempty, List.append_nil]

instance (c : Channel α) (op : ChannelOp α) : Decidable (c.ClosesQuietly op) :=
  match op with
  | .shutdownProducer | .dropProducer =>
    inferInstanceAs (Decidable (c.consumer.foundEmpty = true → c.rb.isEmpty = true))
  | .write _ | .produce | .read _ | .shutdownConsumer | .dropConsumer | .consume =>
    inferInstanceAs (Decidable True)

/-- Write an element, read it, close the producer and read again. -/
def readToEnd : List (ChannelOp ℕ) :=
  [.write [7]] ++ .replicate 8 .produce ++ [.read 1] ++ .replicate 8 .consume ++
    [.dropProducer, .read 1] ++ .replicate 8 .consume

theorem eof_readToEnd : ∃ c, Lts.run (Lts.guard ClosesQuietly step) oneSlot readToEnd = some c ∧
    c.consumer = .returned 1 (.ok 0) ∧ c.producerEnd.isShutdown = true ∧ c.read = c.written := by
  have hrun : (Lts.run (Lts.guard ClosesQuietly step) oneSlot readToEnd).map (·.consumer) =
    some (.returned 1 (.ok 0)) := by decide +kernel
  obtain ⟨c, hc, hret⟩ := Option.map_eq_some_iff.1 hrun
  exact ⟨c, hc, hret,
    eof_sound withCapacity_one (Lts.reachable_guard (Lts.reachable_run hc)) Nat.one_pos hret⟩

/-- A read finds the buffer empty; then an element is written and the producer closed. -/
def closeBehindRead : List (ChannelOp ℕ) :=
  [.read 1] ++ .replicate 2 .consume ++ [.write [7]] ++ .replicate 8 .produce ++ [.dropProducer] ++
    .replicate 4 .consume

/-- The read returns `Ok(0)` although an element has been written and not been read. -/
theorem exists_false_eof : ∃ c : Channel ℕ, (lts ℕ).Reachable oneSlot c ∧
    c.consumer = .returned 1 (.ok 0) ∧ c.written = [7] ∧ c.read = [] :=
  Lts.exists_run step oneSlot closeBehindRead _ (by decide +kernel)

end Channel

end Jinux
