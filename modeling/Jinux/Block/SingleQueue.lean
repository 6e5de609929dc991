import Jinux.Block.Bio
import Jinux.Lib.Lts

/-!
# The staging queue of a block device

Producers submit bios to a `BioSingleQueue`, and one consumer takes requests from it.  A new request
goes to the front and the oldest one is taken from the back; a bio is merged into the request at the
front if it can be.  The queue is behind a lock and the number of requests beside it, so a producer
counts its request after it has released the lock, and the consumer looks at the number before it
takes the lock.

* `Staging` : the queue, the producers that have yet to count, and the consumer at work;
* `Staging.merging_preserves_io` : **the requests that were taken do what their bios do in the order
  of their submission**, if a read that is merged in front of others goes to memory of its own;
* `Staging.exists_reordered_reads` : two reads to the same memory in the wrong order.
-/

namespace Jinux

open List

namespace Block

open BioRequest

/-- `BioSingleQueue`, without the wait queue. -/
structure BioSingleQueue where
  /-- The requests, the one at the front first. -/
  queue : List BioRequest
  /-- Counts objects in memory, so that `fetch_add` does not wrap around. -/
  numRequests : ℕ

namespace BioSingleQueue

/-- `enqueue` while it has the lock: the requests, and whether one of them is new. -/
def insert (queue : List BioRequest) (b : Bio) : Result (List BioRequest × Bool) :=
  match queue with
  | [] => pure ([ofBio b], true)
  | r :: rest =>
    if r.canMerge b then do
      let r ← r.mergeBio b
      pure (r :: rest, false)
    else pure (ofBio b :: r :: rest, true)

/-- `inc_num_requests` -/
def incNumRequests (q : BioSingleQueue) : BioSingleQueue :=
  { q with numRequests := q.numRequests + 1 }

/-- `dec_num_requests` -/
def decNumRequests (q : BioSingleQueue) : BioSingleQueue :=
  { q with numRequests := if q.numRequests = 0 then usizeBound - 1 else q.numRequests - 1 }

end BioSingleQueue

/-- Where the consumer is in `dequeue`. -/
inductive Consumer where
  /-- Outside, or waiting for a request. -/
  | idle
  /-- It has seen that there is a request. -/
  | ready
  /-- It has taken a request that it has not discounted yet. -/
  | popped (r : BioRequest)

/-- The requests that the consumer has taken and not discounted. -/
def Consumer.owed : Consumer → ℕ
  | .popped _ => 1
  | _ => 0

/-- A staging queue at work. -/
structure Staging where
  inner : BioSingleQueue
  /-- The calls of `enqueue` that have inserted a request and not counted it yet. -/
  counting : ℕ
  consumer : Consumer
  /-- The bios so far, in the order in which they were inserted. -/
  submitted : List Bio
  /-- The requests that the consumer has taken, in this order. -/
  dequeued : List BioRequest

namespace Staging

/-- What happens next. -/
inductive Act where
  | submit (b : Bio)
  /-- A producer counts the request it has inserted. -/
  | count
  /-- The consumer looks at the number of requests. -/
  | load
  | pop
  /-- The consumer discounts the request, and `dequeue` returns. -/
  | discount

/-- One step. -/
def step (s : Staging) : Act → Option Staging
  | .submit b =>
    match BioSingleQueue.insert s.inner.queue b with
    | .ok (queue, isNew) => some { s with
        inner := { s.inner with queue }
        counting := if isNew then s.counting + 1 else s.counting
        submitted := s.submitted ++ [b] }
    | .error _ => none
  | .count =>
    if 0 < s.counting then
      some { s with inner := s.inner.incNumRequests, counting := s.counting - 1 }
    else none
  | .load =>
    match s.consumer with
    | .idle => some { s with consumer := if 0 < s.inner.numRequests then .ready else .idle }
    | _ => none
  | .pop =>
    match s.consumer with
    | .ready =>
      match s.inner.queue.getLast? with
      | some r => some { s with
          inner := { s.inner with queue := s.inner.queue.dropLast }
          consumer := .popped r
          dequeued := s.dequeued ++ [r] }
      | none => some { s with consumer := .idle }
    | _ => none
  | .discount =>
    match s.consumer with
    | .popped _ => some { s with inner := s.inner.decNumRequests, consumer := .idle }
    | _ => none

/-- All runs of the producers and the consumer. -/
def lts : Lts Staging Act := .ofFun step

/-- The queue that `BioSingleQueue::new` returns. -/
def start : Staging := ⟨⟨[], 0⟩, 0, .idle, [], []⟩

/-- No call is between its first and its last step. -/
def Quiet (s : Staging) : Prop := s.counting = 0 ∧ s.consumer = .idle

/-- A read that is merged in front of others goes to memory of its own. -/
def ReadsApart (s : Staging) : Act → Prop
  | .submit b => ∀ r ∈ s.inner.queue.head?, r.canMerge b = true →
      b.sidRange.start ≠ r.sidRange.stop → r.ReadsApart b
  | _ => True

/-- The bios one after the other. -/
def executeBios (bios : List Bio) (io : Io) : Io := bios.foldl (fun io b => b.execute io) io

/-- The requests one after the other. -/
def executeRequests (rs : List BioRequest) (io : Io) : Io := rs.foldl (fun io r => r.execute io) io

/-! ### Requests and the bios they are made of -/

/-- The request is made of these bios, in the order of their submission, and does what they do. -/
structure Merged (r : BioRequest) (bios : List Bio) : Prop where
  covers : r.Covers
  perm : r.bios.Perm bios
  execute : ∀ io, r.execute io = executeBios bios io

variable {r : BioRequest} {b : Bio} {bios : List Bio}

theorem executeBios_append (bios bios' : List Bio) (io : Io) :
    executeBios (bios ++ bios') io = executeBios bios' (executeBios bios io) := foldl_append ..

theorem merged_ofBio (b : Bio) : Merged (ofBio b) [b] :=
  ⟨covers_ofBio b, Perm.refl _, fun _ => rfl⟩

theorem Merged.mergeBack (h : Merged r bios) (htype : b.type = r.type)
    (hadj : b.sidRange.start = r.sidRange.stop) : Merged (r.mergeBack b) (bios ++ [b]) := by
  refine ⟨h.covers.mergeBack hadj, h.perm.append_right [b], fun io => ?_⟩
  rw [execute_mergeBack h.covers htype hadj, h.execute, executeBios_append]
  rfl

theorem Merged.mergeFront (h : Merged r bios) (htype : b.type = r.type)
    (hadj : b.sidRange.stop = r.sidRange.start) (hreads : r.ReadsApart b) :
    Merged (r.mergeFront b) (bios ++ [b]) := by
  refine ⟨h.covers.mergeFront hadj, ?_, fun io => ?_⟩
  · exact (h.perm.cons b).trans (perm_append_singleton b bios).symm
  · rw [execute_mergeFront htype hadj hreads, h.execute, executeBios_append]
    rfl

/-- What `enqueue` does to the requests. -/
theorem insert_cases (queue : List BioRequest) (b : Bio) :
    BioSingleQueue.insert queue b = .ok (ofBio b :: queue, true) ∨
    ∃ r rest, queue = r :: rest ∧ r.canMerge b = true ∧ b.type = r.type ∧
      (b.sidRange.start = r.sidRange.stop ∧
          BioSingleQueue.insert queue b = .ok (r.mergeBack b :: rest, false) ∨
        b.sidRange.start ≠ r.sidRange.stop ∧ b.sidRange.stop = r.sidRange.start ∧
          BioSingleQueue.insert queue b = .ok (r.mergeFront b :: rest, false)) := by
  cases queue with
  | nil => exact .inl rfl
  | cons r rest =>
    by_cases hmerge : r.canMerge b = true
    · have htype : b.type = r.type := by
        by_contra hne
        rw [canMerge, if_pos hne] at hmerge
        cases hmerge
      have hadj : b.sidRange.start = r.sidRange.stop ∨ b.sidRange.stop = r.sidRange.start := by
        rw [canMerge, if_neg (not_not.2 htype)] at hmerge
        simpa using hmerge
      have hinsert : BioSingleQueue.insert (r :: rest) b = .ok
          ((if b.sidRange.start = r.sidRange.stop then r.mergeBack b else r.mergeFront b) :: rest,
            false) := by
        simp only [BioSingleQueue.insert, mergeBio, hmerge]
        rfl
      refine .inr ⟨r, rest, rfl, hmerge, htype, ?_⟩
      by_cases hback : b.sidRange.start = r.sidRange.stop
      · rw [if_pos hback] at hinsert
        exact .inl ⟨hback, hinsert⟩
      · rw [if_neg hback] at hinsert
        exact .inr ⟨hback, hadj.resolve_left hback, hinsert⟩
    · exact .inl (if_neg hmerge)

/-! ### What holds in every state -/

/-- The bios are in the requests in the order of their submission, and the number of requests is
that of the queue but for the calls that are at it. -/
structure Inv (s : Staging) : Prop where
  groups : ∃ done waiting, Forall₂ Merged s.dequeued done ∧
    Forall₂ Merged s.inner.queue waiting ∧
    s.submitted = done.flatten ++ waiting.reverse.flatten
  count : s.inner.numRequests + s.counting = s.inner.queue.length + s.consumer.owed
  positive : s.consumer ≠ .idle → 0 < s.inner.numRequests

variable {s s' : Staging} {groups : List (List Bio)} {rs : List BioRequest}

theorem inv_start : Inv start := ⟨⟨[], [], .nil, .nil, rfl⟩, rfl, fun h => absurd rfl h⟩

theorem Inv.submit (h : Inv s) (ha : s.ReadsApart (.submit b))
    (hs : s.step (.submit b) = some s') : Inv s' := by
  obtain ⟨done, waiting, hdone, hwaiting, hsub⟩ := h.groups
  rcases insert_cases s.inner.queue b with hinsert | ⟨r, rest, hqueue, hmerge, htype, hcases⟩
  · simp only [step, hinsert] at hs
    cases hs
    refine ⟨⟨done, [b] :: waiting, hdone, .cons (merged_ofBio b) hwaiting, ?_⟩, ?_, h.positive⟩
    · simp [hsub]
    · have := h.count
      simp only [if_true, length_cons]
      omega
  · rw [hqueue] at hwaiting
    obtain ⟨bios, waiting, hr, hrest, rfl⟩ := forall₂_cons_left_iff.1 hwaiting
    have hgroups : ∀ {r' : BioRequest}, Merged r' (bios ++ [b]) → ∃ done waiting,
        Forall₂ Merged s.dequeued done ∧ Forall₂ Merged (r' :: rest) waiting ∧
        s.submitted ++ [b] = done.flatten ++ waiting.reverse.flatten := fun h' =>
      ⟨done, (bios ++ [b]) :: waiting, hdone, .cons h' hrest, by simp [hsub]⟩
    have hcount := h.count
    rw [hqueue] at hcount
    rcases hcases with ⟨hback, hinsert⟩ | ⟨hback, hfront, hinsert⟩
    · simp only [step, hinsert] at hs
      cases hs
      exact ⟨hgroups (hr.mergeBack htype hback), hcount, h.positive⟩
    · simp only [step, hinsert] at hs
      cases hs
      have hreads : r.ReadsApart b := ha r (hqueue ▸ rfl) hmerge hback
      exact ⟨hgroups (hr.mergeFront htype hfront hreads), hcount, h.positive⟩

/-- The consumer takes the oldest request. -/
theorem Inv.pop (h : Inv s) (hready : s.consumer = .ready)
    (hlast : s.inner.queue.getLast? = some r) :
    Inv { s with
      inner := { s.inner with queue := s.inner.queue.dropLast }
      consumer := .popped r
      dequeued := s.dequeued ++ [r] } := by
  obtain ⟨done, waiting, hdone, hwaiting, hsub⟩ := h.groups
  obtain ⟨init, hqueue⟩ := getLast?_eq_some_iff.1 hlast
  rw [← forall₂_reverse_iff, hqueue, reverse_append] at hwaiting
  obtain ⟨bios, rest, hr, hrest, hrev⟩ := forall₂_cons_left_iff.1 hwaiting
  refine ⟨⟨done ++ [bios], rest.reverse, rel_append hdone (.cons hr .nil), ?_, ?_⟩, ?_,
    fun _ => h.positive (by rw [hready]; nofun)⟩
  · rw [← forall₂_reverse_iff]
    simpa [hqueue] using hrest
  · show s.submitted = _
    rw [hsub, hrev]
    simp
  · have hcount := h.count
    rw [hready, hqueue, length_append] at hcount
    rw [hqueue, dropLast_concat]
    exact hcount

theorem Inv.step {a : Act} (h : Inv s) (ha : s.ReadsApart a) (hs : s.step a = some s') :
    Inv s' := by
  have hcount := h.count
  cases a with
  | submit b => exact h.submit ha hs
  | count =>
    obtain ⟨hpos, ⟨⟩⟩ := Option.ite_none_right_eq_some.1 hs
    refine ⟨h.groups, ?_, fun _ => Nat.succ_pos _⟩
    show s.inner.numRequests + 1 + (s.counting - 1) = s.inner.queue.length + s.consumer.owed
    omega
  | load =>
    simp only [Staging.step] at hs
    split at hs
    next hidle =>
      cases hs
      rw [hidle] at hcount
      split
      next hpos => exact ⟨h.groups, hcount, fun _ => hpos⟩
      next => exact ⟨h.groups, hcount, fun hne => absurd rfl hne⟩
    next => cases hs
  | pop =>
    simp only [Staging.step] at hs
    split at hs
    next hready =>
      split at hs
      next r hlast =>
        cases hs
        exact h.pop hready hlast
      next hnone =>
        cases hs
        rw [hready] at hcount
        exact ⟨h.groups, hcount, fun hne => absurd rfl hne⟩
    next => cases hs
  | discount =>
    simp only [Staging.step] at hs
    split at hs
    next r hpopped =>
      cases hs
      have hpos := h.positive (by rw [hpopped]; nofun)
      rw [hpopped] at hcount
      refine ⟨h.groups, ?_, fun hne => absurd rfl hne⟩
      simp only [BioSingleQueue.decNumRequests, Consumer.owed, if_neg hpos.ne'] at hcount ⊢
      omega
    next => cases hs

/-! ### What the requests do -/

theorem executeRequests_of_merged (h : Forall₂ Merged rs groups) (io : Io) :
    executeRequests rs io = executeBios groups.flatten io := by
  induction h generalizing io with
  | nil => rfl
  | @cons r bios rs groups hr _ ih =>
    rw [flatten_cons, executeBios_append, ← hr.execute]
    exact ih (r.execute io)

theorem perm_of_merged (h : Forall₂ Merged rs groups) :
    (rs.flatMap BioRequest.bios).Perm groups.flatten := by
  induction h with
  | nil => exact Perm.refl _
  | cons hr _ ih =>
    exact hr.perm.append ih

/-- **The requests that were taken do what their bios do in the order of their submission.**  The
bios so far are those of the requests that were taken, followed by those of the requests in the
queue, and the number of requests is right when no call is at it. -/
theorem merging_preserves_io (hr : (lts.restrict ReadsApart).Reachable start s) :
    (∃ done waiting, s.submitted = done ++ waiting ∧
      (s.dequeued.flatMap BioRequest.bios).Perm done ∧
      (s.inner.queue.flatMap BioRequest.bios).Perm waiting ∧
      ∀ io, executeRequests s.dequeued io = executeBios done io) ∧
    (s.Quiet → s.inner.numRequests = s.inner.queue.length) := by
  have h : Inv s := hr.invariant inv_start fun _ _ _ h hs => h.step hs.1 hs.2
  constructor
  · obtain ⟨done, waiting, hdone, hwaiting, hsub⟩ := h.groups
    exact ⟨done.flatten, waiting.reverse.flatten, hsub, perm_of_merged hdone,
      (perm_of_merged hwaiting).trans (waiting.reverse_perm.flatten.symm),
      executeRequests_of_merged hdone⟩
  · rintro ⟨hcounting, hidle⟩
    have hcount := h.count
    rw [hcounting, hidle] at hcount
    exact hcount

/-! ### Reads of two sectors -/

/-- A sector of memory. -/
def sectorAt (n : ℕ) : BioSegment := ⟨n * sectorSize, sectorSize, ⟨n, Nat.mul_comm ..⟩, ⟨1, rfl⟩⟩

/-- A bio for one sector. -/
def oneSector (type : BioType) (sid n : ℕ) : Bio where
  type
  sidRange := ⟨sid, sid + 1⟩
  segments := [sectorAt n]
  covers := by simp [nsectors, BioSegment.nsectors, sectorAt, sectorSize]

instance (s : Staging) (a : Act) : Decidable (s.ReadsApart a) :=
  match a with
  | .submit _ => inferInstanceAs (Decidable (∀ _ ∈ _, _ → _ → _))
  | .count | .load | .pop | .discount => inferInstanceAs (Decidable True)

/-- A read is merged in front of another one. -/
theorem merging_preserves_io_two : ∃ s : Staging,
    (lts.restrict ReadsApart).Reachable start s ∧ s.inner.numRequests = 0 ∧
    ∀ io, executeRequests s.dequeued io =
      executeBios [oneSector .read 1 0, oneSector .read 0 1] io := by
  obtain ⟨s, hr, hsub, hqueue, hnum⟩ := Lts.exists_run_restrict step start
    [.submit (oneSector .read 1 0), .submit (oneSector .read 0 1), .count, .load, .pop, .discount]
    (fun s => s.submitted = [oneSector .read 1 0, oneSector .read 0 1] ∧ s.inner.queue = [] ∧
      s.inner.numRequests = 0) ReadsApart (by decide +kernel)
  obtain ⟨⟨done, waiting, hsplit, -, hwaiting, hexec⟩, -⟩ := merging_preserves_io hr
  rw [hqueue, flatMap_nil, nil_perm] at hwaiting
  rw [hwaiting, append_nil, hsub] at hsplit
  exact ⟨s, hr, hnum, hsplit ▸ hexec⟩

/-- Two reads to the same memory.  The second one is merged in front of the first one, so that the
memory ends up with the sector that should have been replaced. -/
theorem exists_reordered_reads : ∃ s : Staging, lts.Reachable start s ∧
    s.submitted = [oneSector .read 1 0, oneSector .read 0 0] ∧ s.inner.queue = [] ∧
    ∃ io, (executeRequests s.dequeued io).memory 0 ≠ (executeBios s.submitted io).memory 0 := by
  obtain ⟨s, hr, hsub, hqueue, hdequeued⟩ := Lts.exists_run step start
    [.submit (oneSector .read 1 0), .submit (oneSector .read 0 0), .count, .load, .pop]
    (fun s => s.submitted = [oneSector .read 1 0, oneSector .read 0 0] ∧ s.inner.queue = [] ∧
      s.dequeued = [⟨.read, ⟨0, 2⟩, [oneSector .read 0 0, oneSector .read 1 0]⟩])
    (by decide +kernel)
  refine ⟨s, hr, hsub, hqueue, ⟨fun a => if a < sectorSize then 0 else 1, fun _ => 0⟩, ?_⟩
  rw [hsub, hdequeued]
  decide +kernel

end Staging

end Block

end Jinux
