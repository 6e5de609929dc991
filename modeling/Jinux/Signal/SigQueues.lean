import Mathlib.Algebra.Order.BigOperators.Group.Finset
import Mathlib.Data.Fintype.BigOperators
import Mathlib.Tactic.DeriveFintype
import Jinux.Kernel.Result

/-!
# Signals that are pending

A signal has a number from 1 to 64.  Of a standard signal at most one is pending; real-time signals
are queued.

* `SigMask` : a set of signals, as a word of 64 bits;
* `SigQueues` : the pending signals of a thread, and `SigQueues.dequeue`, which takes the first one
  that is not blocked;
* `SigQueues.Counted` : the counter that `dequeue` looks at first is the number of pending signals;
* `SigQueues.lawful_run` : **the law of the queues holds after every sequence of operations**.
-/

namespace Jinux

open Function List Finset BitVec Option

/-- `SigNum`, as the index that `num_to_idx` makes of the number: the number less one. -/
structure SigNum where
  idx : Fin 64
  deriving DecidableEq, Fintype

namespace SigNum

/-- `as_u8` -/
def asU8 (n : SigNum) : ℕ := n.idx + 1

/-- `TryFrom<u8>` -/
def tryFrom (n : ℕ) : Result SigNum :=
  if h : 1 ≤ n ∧ n ≤ 64 then .ok ⟨⟨n - 1, by omega⟩⟩
  else returnErrnoWithMessage .einval "invalid signal number"

/-- `is_std` -/
def isStd (n : SigNum) : Bool := n.asU8 ≤ 31

end SigNum

/-! ### The standard signals -/

def sighup : SigNum := ⟨0⟩
def sigint : SigNum := ⟨1⟩
def sigquit : SigNum := ⟨2⟩
def sigill : SigNum := ⟨3⟩
def sigtrap : SigNum := ⟨4⟩
def sigabrt : SigNum := ⟨5⟩
def sigbus : SigNum := ⟨6⟩
def sigfpe : SigNum := ⟨7⟩
def sigkill : SigNum := ⟨8⟩
def sigusr1 : SigNum := ⟨9⟩
def sigsegv : SigNum := ⟨10⟩
def sigusr2 : SigNum := ⟨11⟩
def sigpipe : SigNum := ⟨12⟩
def sigalrm : SigNum := ⟨13⟩
def sigterm : SigNum := ⟨14⟩
def sigstkflt : SigNum := ⟨15⟩
def sigchld : SigNum := ⟨16⟩
def sigcont : SigNum := ⟨17⟩
def sigstop : SigNum := ⟨18⟩
def sigtstp : SigNum := ⟨19⟩
def sigttin : SigNum := ⟨20⟩
def sigttou : SigNum := ⟨21⟩
def sigurg : SigNum := ⟨22⟩
def sigxcpu : SigNum := ⟨23⟩
def sigxfsz : SigNum := ⟨24⟩
def sigvtalrm : SigNum := ⟨25⟩
def sigprof : SigNum := ⟨26⟩
def sigwinch : SigNum := ⟨27⟩
def sigio : SigNum := ⟨28⟩
def sigpwr : SigNum := ⟨29⟩
def sigsys : SigNum := ⟨30⟩

/-! ### Sets of signals -/

/-- `SigMask` -/
structure SigMask where
  bits : BitVec 64
  deriving DecidableEq

namespace SigMask

/-- `From<SigNum>` -/
def ofSigNum (n : SigNum) : SigMask := ⟨1#64 <<< n.idx.val⟩

/-- `block` -/
def block (m : SigMask) (sets : BitVec 64) : SigMask := ⟨m.bits ||| sets⟩

/-- `unblock` -/
def unblock (m : SigMask) (sets : BitVec 64) : SigMask := ⟨m.bits &&& ~~~sets⟩

/-- `contains` -/
def contains (m : SigMask) (n : SigNum) : Bool := m.bits &&& 1#64 <<< n.idx.val ≠ 0#64

/-- `remove_signal` -/
def removeSignal (m : SigMask) (n : SigNum) : SigMask := ⟨m.bits &&& ~~~(1#64 <<< n.idx.val)⟩

theorem testBit_one (n : SigNum) (i : ℕ) :
    (1#64 <<< n.idx.val).getLsbD i = decide (i = n.idx.val) := by
  rcases Nat.lt_trichotomy i n.idx.val with h | h | h
  · simp [h, h.ne]
  · simp [h]
  · have hne : i - n.idx.val ≠ 0 := by omega
    simp [h.ne', hne]

/-- A signal is in the set if its bit is set. -/
theorem contains_eq (m : SigMask) (n : SigNum) : m.contains n = m.bits.getLsbD n.idx.val := by
  have hbit : m.bits &&& 1#64 <<< n.idx.val = 0#64 ↔ m.bits.getLsbD n.idx.val = false := by
    constructor
    · intro h
      have hzero : (m.bits &&& 1#64 <<< n.idx.val).getLsbD n.idx.val = false := by rw [h]; simp
      simpa using hzero
    · intro h
      refine eq_of_getLsbD_eq fun i _ => ?_
      rw [getLsbD_and, testBit_one]
      rcases eq_or_ne i n.idx.val with rfl | hne
      · rw [h, Bool.false_and, getLsbD_zero]
      · rw [decide_eq_false hne, Bool.and_false, getLsbD_zero]
  cases hb : m.bits.getLsbD n.idx.val with
  | true => exact decide_eq_true fun h => Bool.noConfusion ((hbit.1 h).symm.trans hb)
  | false => exact decide_eq_false (not_not.2 (hbit.2 hb))

@[simp] theorem contains_block (m : SigMask) (sets : BitVec 64) (n : SigNum) :
    (m.block sets).contains n = (m.contains n || (SigMask.mk sets).contains n) := by
  simp [contains_eq, block]

@[simp] theorem contains_unblock (m : SigMask) (sets : BitVec 64) (n : SigNum) :
    (m.unblock sets).contains n = (m.contains n && !(SigMask.mk sets).contains n) := by
  have hlt := n.idx.isLt
  simp [contains_eq, unblock]

@[simp] theorem contains_ofSigNum (n n' : SigNum) : (ofSigNum n).contains n' = decide (n' = n) := by
  rw [contains_eq, ofSigNum, testBit_one]
  refine decide_eq_decide.2 ⟨fun h => ?_, fun h => by rw [h]⟩
  exact congrArg SigNum.mk (Fin.ext h)

@[simp] theorem contains_removeSignal (m : SigMask) (n n' : SigNum) :
    (m.removeSignal n).contains n' = (m.contains n' && !decide (n' = n)) := by
  rw [← contains_ofSigNum]
  exact contains_unblock m (ofSigNum n).bits n'

end SigMask

/-! ### Pending signals -/

/-- A signal: its number and what its `siginfo_t` says. -/
structure Signal where
  num : SigNum
  /-- `si_code` -/
  code : BitVec 32
  /-- `siginfo_fields` -/
  fields : Fin 14 → BitVec 64 := fun _ => 0

/-- `SigQueues`, without the observers. -/
structure SigQueues where
  count : ℕ
  stdQueues : SigNum → Option Signal
  rtQueues : SigNum → List Signal

namespace SigQueues

/-- `SigQueues::new` -/
def new : SigQueues := ⟨0, fun _ => none, fun _ => []⟩

/-- `enqueue` -/
def enqueue (q : SigQueues) (signal : Signal) : SigQueues :=
  if signal.num.isStd then
    if (q.stdQueues signal.num).isSome then q
    else { q with
      stdQueues := update q.stdQueues signal.num (some signal)
      count := q.count + 1 }
  else { q with
    rtQueues := update q.rtQueues signal.num (q.rtQueues signal.num ++ [signal])
    count := q.count + 1 }

/-- `ORDERED_STD_SIGS` -/
def orderedStdSigs : List SigNum :=
  [sigkill, sigterm, sigstop, sigsegv, sigill, sighup, sigcont, sigint, sigquit, sigtrap,
    sigabrt, sigbus, sigfpe, sigusr1, sigusr2, sigpipe, sigalrm, sigstkflt, sigchld,
    sigtstp, sigttin, sigttou, sigurg, sigxcpu, sigxfsz, sigvtalrm, sigprof, sigwinch,
    sigio, sigpwr, sigsys]

/-- The real-time signals in the order of their numbers. -/
def orderedRtSigs : List SigNum := (List.finRange 64).filterMap fun i =>
  if 32 ≤ (SigNum.mk i).asU8 then some ⟨i⟩ else none

/-- The standard signal that `dequeue` takes. -/
def firstStd (q : SigQueues) (blocked : SigMask) : Option SigNum :=
  orderedStdSigs.find? fun n => !blocked.contains n && (q.stdQueues n).isSome

/-- The real-time signal that `dequeue` takes. -/
def firstRt (q : SigQueues) (blocked : SigMask) : Option SigNum :=
  orderedRtSigs.find? fun n => !blocked.contains n && !(q.rtQueues n).isEmpty

/-- `dequeue` -/
def dequeue (q : SigQueues) (blocked : SigMask) : Option Signal × SigQueues :=
  if q.count = 0 then (none, q)
  else match q.firstStd blocked with
    | some n => (q.stdQueues n,
        { q with stdQueues := update q.stdQueues n none, count := q.count - 1 })
    | none => match q.firstRt blocked with
      | some n => ((q.rtQueues n).head?,
          { q with
            rtQueues := update q.rtQueues n (q.rtQueues n).tail
            count := q.count - 1 })
      | none => (none, q)

/-! ### The counter -/

/-- The pending signals of a number. -/
def pendingAt (q : SigQueues) (n : SigNum) : ℕ :=
  (q.stdQueues n).toList.length + (q.rtQueues n).length

/-- The counter is the number of pending signals. -/
def Counted (q : SigQueues) : Prop := q.count = ∑ n, q.pendingAt n

theorem counted_new : Counted new := by
  simp [Counted, pendingAt, new]

/-! ### What the operations do -/

/-- The pending signals of a number, the oldest one first. -/
def pending (q : SigQueues) (n : SigNum) : List Signal :=
  if n.isStd then (q.stdQueues n).toList else q.rtQueues n

/-- A signal of this number is pending and not blocked. -/
def Ready (q : SigQueues) (blocked : SigMask) (n : SigNum) : Prop :=
  blocked.contains n = false ∧ q.pending n ≠ []

/-- `n` comes first: it is a standard signal, or the lowest of the real-time signals that are
ready and no standard signal is. -/
def First (q : SigQueues) (blocked : SigMask) (n : SigNum) : Prop :=
  q.Ready blocked n ∧
    (n.isStd = false → ∀ n', q.Ready blocked n' → n'.isStd = false ∧ n.idx ≤ n'.idx)

variable {q q' : SigQueues} {signal : Signal} {blocked : SigMask} {n : SigNum}

theorem Counted.pendingAt_le (h : q.Counted) (n : SigNum) : q.pendingAt n ≤ q.count :=
  h ▸ single_le_sum (fun _ _ => Nat.zero_le _) (mem_univ n)

/-- One queue changes. -/
theorem Counted.update {k : ℕ} (h : q.Counted) (hat : q'.pendingAt = update q.pendingAt n k)
    (hcount : q'.count + q.pendingAt n = q.count + k) : q'.Counted := by
  have hsum := sum_eq_add_sum_sdiff_singleton_of_mem (mem_univ n) q.pendingAt
  rw [Counted] at h ⊢
  rw [hat, sum_update_of_mem (mem_univ n)]
  omega

/-- What `enqueue` does: nothing if the signal is a standard one that is pending. -/
theorem enqueue_cases (q : SigQueues) (signal : Signal) :
    (signal.num.isStd && (q.stdQueues signal.num).isSome) = true ∧ q.enqueue signal = q ∨
      (signal.num.isStd && (q.stdQueues signal.num).isSome) = false ∧
        (q.enqueue signal).count = q.count + 1 ∧
        (q.enqueue signal).pendingAt =
          update q.pendingAt signal.num (q.pendingAt signal.num + 1) ∧
        (q.enqueue signal).pending =
          update q.pending signal.num (q.pending signal.num ++ [signal]) := by
  rw [enqueue]
  split_ifs with hstd hsome
  · exact .inl ⟨by simp [hstd, hsome], rfl⟩
  all_goals
    refine .inr ⟨by simp_all, rfl, ?_, ?_⟩ <;> funext n <;>
      rcases eq_or_ne n signal.num with rfl | hne <;>
        simp_all [pendingAt, pending, Nat.add_comm, Nat.add_left_comm]

theorem mem_orderedStdSigs : n ∈ orderedStdSigs ↔ n.isStd = true := by
  obtain ⟨i⟩ := n
  revert i
  decide

theorem mem_orderedRtSigs : n ∈ orderedRtSigs ↔ n.isStd = false := by
  obtain ⟨i⟩ := n
  revert i
  decide

theorem pairwise_orderedRtSigs : orderedRtSigs.Pairwise (·.idx ≤ ·.idx) := by decide

theorem ready_std (hn : n.isStd = true) :
    q.Ready blocked n ↔ (!blocked.contains n && (q.stdQueues n).isSome) = true := by
  cases hq : q.stdQueues n <;> simp [Ready, pending, hn, hq]

theorem ready_rt (hn : n.isStd = false) :
    q.Ready blocked n ↔ (!blocked.contains n && !(q.rtQueues n).isEmpty) = true := by
  simp [Ready, pending, hn]

/-- What `dequeue` does: it returns the oldest signal of the number that comes first. -/
theorem dequeue_cases (q : SigQueues) (blocked : SigMask) :
    (q.dequeue blocked = (none, q) ∧ (q.count = 0 ∨ ∀ n, ¬q.Ready blocked n)) ∨
      ∃ n signal rest q', q.dequeue blocked = (some signal, q') ∧ q.pending n = signal :: rest ∧
        q.First blocked n ∧ q'.count = q.count - 1 ∧ q'.pending = update q.pending n rest ∧
        q'.pendingAt = update q.pendingAt n (q.pendingAt n - 1) ∧ q.pendingAt n ≠ 0 := by
  rw [dequeue]
  split_ifs with hcount
  · exact .inl ⟨rfl, .inl hcount⟩
  cases hstd : q.firstStd blocked with
  | some n =>
    have hn : n.isStd = true := mem_orderedStdSigs.1 (mem_of_find?_eq_some hstd)
    have hp := find?_some hstd
    obtain ⟨signal, hs⟩ := isSome_iff_exists.1 (Bool.and_eq_true_iff.1 hp).2
    refine .inr ⟨n, signal, [], _, by simp only [hs]; rfl, by simp [pending, hn, hs],
      ⟨(ready_std hn).2 hp, by simp [hn]⟩, rfl, ?_, ?_, by simp [pendingAt, hs]⟩ <;> funext m <;>
      rcases eq_or_ne m n with rfl | hne <;> simp [pending, pendingAt, *]
  | none =>
    have hno : ∀ n, q.Ready blocked n → n.isStd = false := by
      intro n hready
      by_contra hn
      rw [Bool.not_eq_false] at hn
      exact find?_eq_none.1 hstd n (mem_orderedStdSigs.2 hn) ((ready_std hn).1 hready)
    cases hrt : q.firstRt blocked with
    | some n =>
      obtain ⟨hp, before, after, hsplit, hbefore⟩ := find?_eq_some_iff_append.1 hrt
      have hn : n.isStd = false := mem_orderedRtSigs.1 (mem_of_find?_eq_some hrt)
      obtain ⟨signal, rest, hs⟩ : ∃ signal rest, q.rtQueues n = signal :: rest :=
        exists_cons_of_ne_nil (by simpa using (Bool.and_eq_true_iff.1 hp).2)
      refine .inr ⟨n, signal, rest, _, by simp only [hs]; rfl, by simp [pending, hn, hs],
        ⟨(ready_rt hn).2 hp, fun _ n' hn' => ⟨hno n' hn', ?_⟩⟩, rfl, ?_, ?_,
        by simp [pendingAt, hs]⟩
      · -- the numbers before `n` in the order are not ready
        have hmem := mem_orderedRtSigs.2 (hno n' hn')
        have hsorted := pairwise_orderedRtSigs
        rw [hsplit] at hmem hsorted
        rcases mem_append.1 hmem with hmem | hmem
        · have hfalse := hbefore n' hmem
          rw [(ready_rt (hno n' hn')).1 hn'] at hfalse
          cases hfalse
        · rcases mem_cons.1 hmem with rfl | hmem
          · exact le_rfl
          · exact (pairwise_cons.1 (pairwise_append.1 hsorted).2.1).1 n' hmem
      all_goals
        funext m
        rcases eq_or_ne m n with rfl | hne <;> simp [pending, pendingAt, *]
    | none =>
      refine .inl ⟨rfl, .inr fun n hready => ?_⟩
      have hn := hno n hready
      exact find?_eq_none.1 hrt n (mem_orderedRtSigs.2 hn) ((ready_rt hn).1 hready)

theorem Counted.enqueue (h : q.Counted) (signal : Signal) : (q.enqueue signal).Counted := by
  rcases enqueue_cases q signal with ⟨-, heq⟩ | ⟨-, hcount, hat, -⟩
  · rwa [heq]
  · exact h.update hat (by omega)

theorem Counted.dequeue (h : q.Counted) (blocked : SigMask) : (q.dequeue blocked).2.Counted := by
  rcases dequeue_cases q blocked with ⟨heq, -⟩ | ⟨n, _, _, q', heq, -, -, hcount, -, hat, hpos⟩
  · rwa [heq]
  · have hle := h.pendingAt_le n
    rw [heq]
    change q'.Counted
    exact h.update hat (by omega)

/-- A standard signal is in the queue of its number. -/
def Placed (q : SigQueues) : Prop := ∀ n signal, q.stdQueues n = some signal → signal.num = n

theorem placed_new : Placed new := fun _ _ h => nomatch h

theorem Placed.enqueue (h : q.Placed) (signal : Signal) : (q.enqueue signal).Placed := by
  intro n signal' hn
  rw [SigQueues.enqueue] at hn
  split_ifs at hn with hstd hsome
  · exact h n signal' hn
  · dsimp only at hn
    rcases eq_or_ne n signal.num with rfl | hne
    · rw [update_self] at hn
      cases hn
      rfl
    · rw [update_of_ne hne] at hn
      exact h n signal' hn
  · exact h n signal' hn

theorem Placed.dequeue (h : q.Placed) (blocked : SigMask) : (q.dequeue blocked).2.Placed := by
  rw [SigQueues.dequeue]
  split_ifs
  · exact h
  · cases q.firstStd blocked with
    | some n =>
      intro n' signal hn
      dsimp only at hn
      rcases eq_or_ne n' n with rfl | hne
      · rw [update_self] at hn
        cases hn
      · rw [update_of_ne hne] at hn
        exact h n' signal hn
    | none => cases q.firstRt blocked <;> exact h

/-- A signal that is pending is counted. -/
theorem Counted.count_ne_zero (h : q.Counted) (hn : q.stdQueues n = some signal) : q.count ≠ 0 := by
  have hle := h.pendingAt_le n
  simp only [pendingAt, hn, toList_some, length_singleton] at hle
  omega

/-- The first standard signal of the order that is pending and not blocked is taken. -/
theorem dequeue_std (h : q.Counted) (hn : q.stdQueues n = some signal)
    (hfirst : q.firstStd blocked = some n) :
    q.dequeue blocked = (some signal,
      { q with stdQueues := update q.stdQueues n none, count := q.count - 1 }) := by
  rw [dequeue, if_neg (h.count_ne_zero hn), hfirst]
  dsimp only
  rw [hn]

/-- `SIGKILL` comes first. -/
theorem firstStd_sigkill (hn : q.stdQueues sigkill = some signal)
    (hblocked : blocked.contains sigkill = false) : q.firstStd blocked = some sigkill := by
  rw [firstStd, orderedStdSigs, find?_cons_of_pos]
  rw [hn, hblocked]
  rfl

/-- `SIGSTOP` comes after `SIGKILL` and `SIGTERM`. -/
theorem firstStd_sigstop (hn : q.stdQueues sigstop = some signal)
    (hblocked : blocked.contains sigstop = false)
    (hbefore : ∀ n ∈ [sigkill, sigterm], (q.stdQueues n).isSome → blocked.contains n = true) :
    q.firstStd blocked = some sigstop := by
  obtain ⟨ready, hready⟩ : ∃ ready : SigNum → Bool,
      ready = fun n => !blocked.contains n && (q.stdQueues n).isSome := ⟨_, rfl⟩
  have hskip : ∀ n ∈ [sigkill, sigterm], ¬ready n = true := by
    intro n hmem h
    rw [hready, Bool.and_eq_true] at h
    rw [hbefore n hmem h.2] at h
    cases h.1
  rw [firstStd, ← hready, orderedStdSigs, find?_cons_of_neg (hskip sigkill (by simp)),
    find?_cons_of_neg (hskip sigterm (by simp)), find?_cons_of_pos]
  rw [hready]
  dsimp only
  rw [hn, hblocked]
  rfl

/-! ### What goes through the queues -/

/-- An operation on the queues. -/
inductive Op where
  | enqueue (signal : Signal)
  | dequeue (blocked : SigMask)

/-- The queues, with the signals that `enqueue` has put into them and those that `dequeue` has
returned. -/
structure History where
  queues : SigQueues := .new
  accepted : List Signal := []
  delivered : List Signal := []

/-- One operation. -/
def History.step (h : History) : Op → History
  | .enqueue signal =>
    { h with
      queues := h.queues.enqueue signal
      accepted := h.accepted ++
        if signal.num.isStd && (h.queues.stdQueues signal.num).isSome then [] else [signal] }
  | .dequeue blocked =>
    let (signal, queues) := h.queues.dequeue blocked
    { h with queues, delivered := h.delivered ++ signal.toList }

/-- What every operation keeps. -/
structure History.Inv (h : History) : Prop where
  counted : h.queues.Counted
  /-- No signal is lost, delivered twice or overtaken by one of the same number. -/
  kept : ∀ n, h.accepted.filter (·.num = n) = h.delivered.filter (·.num = n) ++ h.queues.pending n

theorem Counted.pending_eq_nil (h : q.Counted) (hcount : q.count = 0) (n : SigNum) :
    q.pending n = [] := by
  have hzero := Nat.le_zero.1 (hcount ▸ h.pendingAt_le n)
  simp only [pendingAt, Nat.add_eq_zero_iff, length_eq_zero_iff] at hzero
  rw [pending, hzero.1, hzero.2, ite_self]

variable {h : History}

/-- A pending signal has the number of its queue. -/
theorem History.Inv.num_eq (hi : h.Inv) {rest : List Signal}
    (hn : h.queues.pending n = signal :: rest) : signal.num = n := by
  have hmem : signal ∈ h.accepted.filter (·.num = n) := by simp [hi.kept n, hn]
  simpa using (List.mem_filter.1 hmem).2

theorem History.Inv.step (hi : h.Inv) (op : Op) : (h.step op).Inv := by
  cases op with
  | enqueue signal =>
    refine ⟨hi.counted.enqueue signal, fun n => ?_⟩
    rcases enqueue_cases h.queues signal with ⟨hold, heq⟩ | ⟨hold, -, -, hpending⟩
    · simp [History.step, hold, heq, hi.kept n]
    · simp only [History.step, hold, filter_append, hi.kept n, hpending]
      rcases eq_or_ne n signal.num with rfl | hne
      · simp
      · simp [hne, hne.symm]
  | dequeue blocked =>
    refine ⟨hi.counted.dequeue blocked, fun n => ?_⟩
    rcases dequeue_cases h.queues blocked with
      ⟨heq, -⟩ | ⟨m, signal, rest, q', heq, hm, -, -, hq', -⟩
    · simp [History.step, heq, hi.kept n]
    · obtain rfl := hi.num_eq hm
      simp only [History.step, heq, hq', hi.kept n]
      rcases eq_or_ne n signal.num with rfl | hne
      · simp [hm]
      · simp [hne, hne.symm]

/-- The history of a sequence of operations. -/
def run (ops : List Op) : History := ops.foldl History.step {}

theorem inv_run (ops : List Op) : (run ops).Inv := by
  refine foldlRecOn ops History.step ⟨counted_new, fun n => ?_⟩ fun h hi op _ => hi.step op
  simp [pending, new]

/-- The law of the signal queues. -/
structure History.Lawful (h : History) : Prop extends h.Inv where
  /-- A standard signal that is pending is neither queued again nor overwritten. -/
  std : ∀ signal, signal.num.isStd = true → h.queues.pending signal.num ≠ [] →
    (h.queues.pending signal.num).length = 1 ∧ h.queues.enqueue signal = h.queues
  /-- No signal is taken exactly if all that are pending are blocked. -/
  none : ∀ blocked, (h.queues.dequeue blocked).1 = none ↔ ∀ n, ¬h.queues.Ready blocked n
  /-- Otherwise it is the oldest one of the number that comes first. -/
  some : ∀ blocked signal, (h.queues.dequeue blocked).1 = some signal →
    h.queues.First blocked signal.num ∧ (h.queues.pending signal.num).head? = some signal

/-- **The law holds after every sequence of operations.** -/
theorem lawful_run (ops : List Op) : (run ops).Lawful := by
  have hi := inv_run ops
  generalize run ops = h at hi
  refine ⟨hi, fun signal hstd hne => ?_, fun blocked => ?_, fun blocked => ?_⟩
  · cases hs : h.queues.stdQueues signal.num <;> simp_all [pending, enqueue]
  all_goals
    rcases dequeue_cases h.queues blocked with ⟨heq, hno⟩ | ⟨n, s, rest, q', heq, hn, hfirst, -⟩
  · refine iff_of_true (by rw [heq]) fun n hn => ?_
    rcases hno with hcount | hno
    · exact hn.2 (hi.counted.pending_eq_nil hcount n)
    · exact hno n hn
  · simpa [heq] using ⟨n, hfirst.1⟩
  · simp [heq]
  · obtain rfl := hi.num_eq hn
    rintro signal hs
    obtain rfl : s = signal := by simpa [heq] using hs
    exact ⟨hfirst, by rw [hn]; rfl⟩

end SigQueues

end Jinux
