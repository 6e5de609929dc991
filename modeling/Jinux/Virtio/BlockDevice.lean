import Jinux.Block.SingleQueue
import Jinux.Virtio.FreeList

/-!
# The virtio block device

A kernel thread takes one request after another from the staging queue and hands it to the device:
the header, the segments of all bios of the request and the response are one chain of the virtqueue,
which has 64 descriptors.  The queue is locked until the device has answered, so that the virtqueue
is empty whenever a request comes.

* `DeviceInner.Ready` : the virtqueue between two requests, with the free list in its first order;
* `BlockDevice.requests_fit` : **every request fits**, in every run where a bio is merged only while
  the request has at most 62 segments with it;
* `BlockDevice.exists_overflow` : `enqueue` merges without a look at the number of segments.
-/

namespace Jinux

open List Option

namespace Virtio

open Block VirtQueue BioRequest

/-- `expect` -/
def expect {α : Type} : Except QueueFault α → Except Panic α
  | .ok a => .ok a
  | .error (.err _) => .error .unwrap
  | .error (.panic p) => .error p

/-- `DeviceInner` -/
structure DeviceInner where
  queue : VirtQueue
  /-- The physical addresses of the frames for the headers and for the responses. -/
  blockRequests : ℕ
  blockResponses : ℕ
  /-- The free identifiers, the one that `pop` returns first. -/
  idAllocator : List ℕ

namespace DeviceInner

/-- `size_of::<BlockReq>()` -/
def reqSize : ℕ := 16

/-- `size_of::<BlockResp>()` -/
def respSize : ℕ := 1

/-- `req_reader` -/
def reqReader (d : DeviceInner) (id : ℕ) : Buf := ⟨d.blockRequests + id * reqSize, reqSize⟩

/-- `resp_writer` -/
def respWriter (d : DeviceInner) (id : ℕ) : Buf := ⟨d.blockResponses + id * respSize, respSize⟩

/-- The device is done with the chain. -/
def answer (q : VirtQueue) (token : ℕ) : VirtQueue :=
  { q with
    used := Function.update q.used (q.usedRingIdx &&& (q.queueSize - 1)) ⟨token, respSize⟩
    usedRingIdx := (q.usedRingIdx + 1) % 2 ^ 16 }

/-- What `read` and `write` have in common: the buffers are added, the device answers, and the chain
is taken back. -/
def request (d : DeviceInner) (inputs outputs : ℕ → List Buf) : Except Panic DeviceInner :=
  match d.idAllocator with
  | [] => .error .unwrap
  | id :: ids => do
    let added ← expect (d.queue.add (inputs id) (outputs id))
    let popped ← expect ((answer added.2 added.1).popUsedWithToken added.1)
    pure { d with queue := popped.2, idAllocator := id :: ids }

/-- `read` -/
def read (d : DeviceInner) (buf : List Buf) : Except Panic DeviceInner :=
  d.request (fun id => [d.reqReader id]) fun id => buf ++ [d.respWriter id]

/-- `write` -/
def write (d : DeviceInner) (buf : List Buf) : Except Panic DeviceInner :=
  d.request (fun id => d.reqReader id :: buf) fun id => [d.respWriter id]

/-- The buffers of a request. -/
def bufsOf (r : BioRequest) : List Buf := r.segments.map fun seg => ⟨seg.addr, seg.len⟩

/-- `handle_requests`, after `dequeue` -/
def handle (d : DeviceInner) (r : BioRequest) : Except Panic DeviceInner :=
  match r.type with
  | .read => d.read (bufsOf r)
  | .write => d.write (bufsOf r)
  | .flush | .discard => .error .notImplemented

/-- `init`, with the new virtqueue -/
def init (q : VirtQueue) (blockRequests blockResponses : ℕ) : DeviceInner :=
  ⟨q, blockRequests, blockResponses, (range 64).reverse⟩

end DeviceInner

/-- `BlockDevice`, and the thread that handles the requests. -/
structure BlockDevice where
  staging : Staging
  /-- The request that the thread has taken. -/
  current : Option BioRequest
  device : DeviceInner
  panicked : Option Panic

namespace BlockDevice

/-- What happens next. -/
inductive Act where
  /-- A step of a producer, or of the thread in `dequeue`. -/
  | staging (a : Staging.Act)
  | handle

/-- The request that `dequeue` returns. -/
def returned (s : BlockDevice) : Staging.Act → Option BioRequest
  | .discount =>
    match s.staging.consumer with
    | .popped r => some r
    | _ => none
  | _ => s.current

/-- The thread is not in `dequeue` while it handles a request. -/
def Allows (s : BlockDevice) : Staging.Act → Prop
  | .load => s.current = none
  | _ => True

instance (s : BlockDevice) (a : Staging.Act) : Decidable (s.Allows a) :=
  match a with
  | .load => inferInstanceAs (Decidable (_ = _))
  | .submit _ | .count | .pop | .discount => inferInstanceAs (Decidable True)

/-- One step, if nothing has panicked. -/
def exec (s : BlockDevice) : Act → Option BlockDevice
  | .staging a =>
    if s.Allows a then
      (s.staging.step a).map fun staging => { s with staging, current := s.returned a }
    else none
  | .handle =>
    match s.current with
    | none => none
    | some r =>
      match s.device.handle r with
      | .ok device => some { s with device, current := none }
      | .error p => some { s with panicked := some p }

/-- One step; a panic stops the kernel. -/
def step (s : BlockDevice) (a : Act) : Option BlockDevice :=
  if s.panicked = none then s.exec a else none

/-- All runs. -/
def lts : Lts BlockDevice Act := .ofFun step

/-- A device after `init`. -/
def start (q : VirtQueue) (blockRequests blockResponses : ℕ) : BlockDevice :=
  ⟨Staging.start, none, .init q blockRequests blockResponses, none⟩

/-- The segments that fit between the header and the response. -/
def maxSegments : ℕ := 62

/-- The bio alone is not too large. -/
def Small (_ : BlockDevice) : Act → Prop
  | .staging (.submit b) => b.segments.length ≤ maxSegments
  | _ => True

/-- A bio is merged only into a request that is not too large with it. -/
def MergesSmall (s : BlockDevice) : Act → Prop
  | .staging (.submit b) => ∀ r ∈ s.staging.inner.queue.head?, r.canMerge b = true →
      r.segments.length + b.segments.length ≤ maxSegments
  | _ => True

end BlockDevice

/-! ### One request after another -/

namespace DeviceInner

variable {d : DeviceInner} {q : VirtQueue}

/-- The virtqueue between two requests. -/
structure Ready (d : DeviceInner) : Prop where
  inv : QueueSystem.Inv (QueueSystem.start d.queue)
  size : d.queue.queueSize = 64
  free : d.queue.freeList = range 64
  idx : d.queue.lastUsedIdx = d.queue.usedRingIdx
  idx_lt : d.queue.usedRingIdx < 2 ^ 16
  hasId : d.idAllocator ≠ []

theorem Ready.freeHead (h : d.Ready) : d.queue.freeHead = 0 := by
  have hused : d.queue.numUsed = 0 := h.inv.numUsed
  have hfree := h.free
  rw [freeList, hused, h.size] at hfree
  exact (cons.inj hfree).1

/-- The head of the only chain is 0, and the index before it is the last one of the free list or of
the chain. -/
theorem recycle_only {c : List Link} (hsize : q.queueSize = 64)
    (hinv : QueueSystem.Inv ⟨q, [c], none⟩) (hsplit : ids c ++ q.freeList = range 64)
    (hne : c ≠ []) :
    ∃ descs numUsed, ∃ q' : VirtQueue,
      q' = { q with descs, numUsed, freeHead := 0 } ∧ q.recycleDescriptors 0 = .ok q' ∧
      q'.freeList = range 64 ∧ QueueSystem.Inv ⟨q', [], none⟩ := by
  have hlast : (ids c ++ q.freeList).getLast? = some 63 := by
    rw [hsplit]
    rfl
  have hhead : (ids c).head? = some 0 := by
    cases c with
    | nil => exact absurd rfl hne
    | cons l rest => exact congrArg some (cons.inj hsplit).1
  have hbefore : q.lastFreeHead 0 = 63 := by
    rw [lastFreeHead, if_pos rfl, hsize]
  have hapart : ∃ l ∈ (⟨q, [c], none⟩ : QueueSystem).lists,
      l.getLast? = some (q.lastFreeHead 0) := by
    rw [hbefore]
    rw [getLast?_append, or_eq_some_iff] at hlast
    rcases hlast with hfree | ⟨-, hchain⟩
    · exact ⟨_, mem_cons_self, hfree⟩
    · exact ⟨_, mem_cons_of_mem _ mem_cons_self, hchain⟩
  have hchains : (⟨q, [c], none⟩ : QueueSystem).chains = [] ++ c :: [] := rfl
  obtain ⟨-, descs, numUsed, q', hq', hrecycle, hfree, hinv'⟩ :=
    hinv.recycleDescriptors hchains hhead hapart
  exact ⟨descs, numUsed, q', hq', hrecycle, hfree.trans hsplit, hinv'⟩

/-- A request that fits leaves the virtqueue as it was. -/
theorem Ready.request (h : d.Ready) {inputs outputs : ℕ → List Buf}
    (hempty : ∀ id, ¬ ((inputs id).isEmpty && (outputs id).isEmpty) = true)
    (hfull : ∀ id, (inputs id).length + (outputs id).length ≤ 64) :
    ∃ d', d.request inputs outputs = .ok d' ∧ d'.Ready := by
  obtain ⟨id, rest, hids⟩ := exists_cons_of_ne_nil h.hasId
  have hused : d.queue.numUsed = 0 := h.inv.numUsed
  obtain ⟨f, hadd, hsplit, hinv⟩ := h.inv.add_ok (hempty id)
    (show (inputs id).length + (outputs id).length + d.queue.numUsed ≤ d.queue.queueSize by
      rw [hused, h.size]
      exact hfull id)
  rw [show (QueueSystem.start d.queue).queue = d.queue from rfl] at hadd hsplit
  rw [h.freeHead] at hadd
  rw [h.free] at hsplit
  -- the device answers, and the driver finds the token
  obtain ⟨q, hq⟩ : ∃ q, q =
      answer (d.queue.submit f ((inputs id).length + (outputs id).length)) 0 := ⟨_, rfl⟩
  have hchain := (hinv.holds _ mem_cons_self).1
  obtain ⟨descs, numUsed, q', hq', hrecycle, hfree, hinv'⟩ :=
    recycle_only (q := q) (hq ▸ h.size)
      (hq ▸ ⟨hinv.perm, hinv.holds, hinv.numUsed, rfl⟩) (hq ▸ hsplit.symm) hchain
  have hready : q.canPop = true := by
    rw [hq]
    simp only [canPop, answer, submit, h.idx, decide_eq_true_eq]
    omega
  have htoken : q.nextHead = 0 := by
    rw [hq]
    simp [nextHead, nextUsed, answer, submit, h.idx]
  have hpop : q.popNext = .ok { q' with lastUsedIdx := (q'.lastUsedIdx + 1) % 2 ^ 16 } := by
    rw [popNext, htoken, hrecycle]
    rfl
  have hpopped : expect (q.popUsedWithToken 0) =
      .ok (q.nextUsed.len, { q' with lastUsedIdx := (q'.lastUsedIdx + 1) % 2 ^ 16 }) := by
    simp only [popUsedWithToken, hready, htoken, hpop]
    rfl
  refine ⟨{ d with
    queue := { q' with lastUsedIdx := (q'.lastUsedIdx + 1) % 2 ^ 16 }
    idAllocator := id :: rest }, ?_, ?_⟩
  · rw [DeviceInner.request, hids]
    dsimp only
    rw [hadd]
    show (do
      let popped ← expect ((answer (d.queue.submit f _) 0).popUsedWithToken 0)
      pure { d with queue := popped.2, idAllocator := id :: rest }) = _
    rw [← hq, hpopped]
    rfl
  · subst hq' hq
    exact ⟨⟨hinv'.perm, hinv'.holds, hinv'.numUsed, rfl⟩, h.size, hfree,
      congrArg (fun i => (i + 1) % 2 ^ 16) h.idx, Nat.mod_lt _ (by decide), cons_ne_nil _ _⟩

/-- Requests of at most 62 segments can be handed to the device. -/
theorem Ready.handle (h : d.Ready) {r : BioRequest}
    (hle : r.segments.length ≤ BlockDevice.maxSegments) (htype : r.type = .read ∨ r.type = .write) :
    ∃ d', d.handle r = .ok d' ∧ d'.Ready := by
  have hlen : (bufsOf r).length ≤ 62 := by
    rw [bufsOf, length_map]
    exact hle
  rcases htype with htype | htype
  · rw [DeviceInner.handle, htype]
    refine h.request (fun _ => nofun) fun id => ?_
    rw [length_append, length_singleton, length_singleton]
    omega
  · rw [DeviceInner.handle, htype]
    refine h.request (fun _ => nofun) fun id => ?_
    rw [length_cons, length_singleton]
    omega

theorem ready_init {legacy : Bool} (hnew : new 64 legacy zeroMemory = .ok q) (req resp : ℕ) :
    (init q req resp).Ready := by
  have hinv := QueueSystem.inv_start hnew
  have hsize : q.queueSize = 64 ∧ q.lastUsedIdx = 0 ∧ q.usedRingIdx = 0 := by
    unfold new at hnew
    split_ifs at hnew
    cases hnew
    exact ⟨rfl, rfl, rfl⟩
  refine ⟨hinv, hsize.1, ?_, hsize.2.1.trans hsize.2.2.symm, ?_,
    show (range 64).reverse ≠ [] by decide⟩
  · rw [← hsize.1]
    exact QueueSystem.freeList_of_new hnew
  · exact hsize.2.2 ▸ (by decide)

end DeviceInner

/-! ### All requests -/

namespace BlockDevice

variable {s s' : BlockDevice} {a : Staging.Act}

/-- The requests of a staging queue fit. -/
structure Fit (st : Staging) : Prop where
  queue : ∀ r ∈ st.inner.queue, r.segments.length ≤ maxSegments
  popped : ∀ r, st.consumer = .popped r → r.segments.length ≤ maxSegments

theorem Fit.step {st st' : Staging} (h : Fit st)
    (hsmall : ∀ b, a = .submit b → b.segments.length ≤ maxSegments ∧
      ∀ r ∈ st.inner.queue.head?, r.canMerge b = true →
        r.segments.length + b.segments.length ≤ maxSegments) (hs : st.step a = some st') :
    Fit st' := by
  cases a with
  | submit b =>
    obtain ⟨hb, hmerge⟩ := hsmall b rfl
    rcases Staging.insert_cases st.inner.queue b with
      hinsert | ⟨r, rest, hqueue, hcan, -, hcases⟩
    · simp only [Staging.step, hinsert] at hs
      cases hs
      refine ⟨forall_mem_cons.2 ⟨?_, h.queue⟩, h.popped⟩
      rwa [segments, ofBio, flatMap_singleton]
    · have hsum := hmerge r (hqueue ▸ rfl) hcan
      have hrest : ∀ r' ∈ rest, r'.segments.length ≤ maxSegments := fun r' hr' =>
        h.queue r' (hqueue ▸ mem_cons_of_mem r hr')
      rcases hcases with ⟨-, hinsert⟩ | ⟨-, -, hinsert⟩
      · simp only [Staging.step, hinsert] at hs
        cases hs
        refine ⟨forall_mem_cons.2 ⟨?_, hrest⟩, h.popped⟩
        rwa [segments_mergeBack, length_append]
      · simp only [Staging.step, hinsert] at hs
        cases hs
        refine ⟨forall_mem_cons.2 ⟨?_, hrest⟩, h.popped⟩
        rwa [segments_mergeFront, length_append, Nat.add_comm]
  | count =>
    obtain ⟨-, ⟨⟩⟩ := ite_none_right_eq_some.1 hs
    exact ⟨h.queue, h.popped⟩
  | load =>
    simp only [Staging.step] at hs
    split at hs
    · cases hs
      refine ⟨h.queue, fun r hr => ?_⟩
      split_ifs at hr
    · cases hs
  | pop =>
    simp only [Staging.step] at hs
    split at hs
    · split at hs
      next r hlast =>
        cases hs
        refine ⟨fun r' hr' => h.queue r' (dropLast_subset _ hr'), ?_⟩
        rintro _ ⟨⟩
        exact h.queue r (mem_of_getLast? hlast)
      next =>
        cases hs
        exact ⟨h.queue, by simp⟩
    · cases hs
  | discount =>
    simp only [Staging.step] at hs
    split at hs
    · cases hs
      exact ⟨h.queue, by simp⟩
    · cases hs

/-- Every request fits, and the device is ready for the next one. -/
structure Inv (s : BlockDevice) : Prop where
  fit : Fit s.staging
  current : ∀ r, s.current = some r → r.segments.length ≤ maxSegments
  device : s.device.Ready
  panicked : s.panicked = none ∨ s.panicked = some .notImplemented

theorem Inv.staging (h : Inv s) (hsmall : s.Small (.staging a))
    (hmerge : s.MergesSmall (.staging a)) (hs : s.exec (.staging a) = some s') : Inv s' := by
  obtain ⟨-, hs⟩ := ite_none_right_eq_some.1 hs
  obtain ⟨st, hst, rfl⟩ := map_eq_some_iff.1 hs
  have hfit : Fit st := by
    refine h.fit.step ?_ hst
    rintro b rfl
    exact ⟨hsmall, hmerge⟩
  refine ⟨hfit, fun r hr => ?_, h.device, h.panicked⟩
  cases a with
  | discount =>
    simp only [returned] at hr
    split at hr
    next hpopped =>
      cases hr
      exact h.fit.popped r hpopped
    next => cases hr
  | submit | count | load | pop => exact h.current r hr

theorem Inv.handle (h : Inv s) (hs : s.exec .handle = some s') : Inv s' := by
  simp only [exec] at hs
  split at hs
  next => cases hs
  next r hcurrent =>
    have hcases : (r.type = .read ∨ r.type = .write) ∨ r.type = .flush ∨ r.type = .discard := by
      cases r.type <;> simp
    rcases hcases with htype | htype
    · obtain ⟨d', hhandle, hready⟩ := h.device.handle (h.current r hcurrent) htype
      rw [hhandle] at hs
      cases hs
      exact ⟨h.fit, nofun, hready, h.panicked⟩
    · have hhandle : s.device.handle r = .error .notImplemented := by
        rcases htype with htype | htype <;> rw [DeviceInner.handle, htype]
      rw [hhandle] at hs
      cases hs
      exact ⟨h.fit, h.current, h.device, Or.inr rfl⟩

/-- **Every request fits into the virtqueue**: the thread does not panic unless it finds a type that
it does not handle, and each read and each write that it has taken can be handed to the device. -/
theorem requests_fit {q : VirtQueue} {legacy : Bool} {req resp : ℕ}
    (hnew : new 64 legacy zeroMemory = .ok q)
    (hr : (lts.restrict fun s a => s.Small a ∧ s.MergesSmall a).Reachable (start q req resp) s) :
    (s.panicked = none ∨ s.panicked = some .notImplemented) ∧
      ∀ r, s.current = some r → r.type = .read ∨ r.type = .write →
        ∃ d', s.device.handle r = .ok d' := by
  have h : Inv s := by
    refine hr.invariant ⟨⟨nofun, nofun⟩, nofun, DeviceInner.ready_init hnew req resp, Or.inl rfl⟩
      fun s a s' h hs => ?_
    obtain ⟨-, hexec⟩ := ite_none_right_eq_some.1 hs.2
    cases a with
    | staging a => exact h.staging hs.1.1 hs.1.2 hexec
    | handle => exact h.handle hexec
  refine ⟨h.panicked, fun r hcurrent htype => ?_⟩
  obtain ⟨d', hhandle, -⟩ := h.device.handle (h.current r hcurrent) htype
  exact ⟨d', hhandle⟩

/-! ### Bios of many segments -/

/-- A bio with some segments of one sector each. -/
def bioOf (type : BioType) (sid n : ℕ) : Bio where
  type
  sidRange := ⟨sid, sid + n⟩
  segments := (range n).map Staging.sectorAt
  covers := by
    have hone : BioSegment.nsectors ∘ Staging.sectorAt = fun _ => 1 := by
      funext i
      exact Nat.div_self (show 0 < sectorSize by decide)
    simp [nsectors, hone]

/-- A new virtqueue of 64 descriptors. -/
def sixtyFour : VirtQueue := QueueSystem.fresh 64

theorem sixtyFour_new : new 64 false zeroMemory = .ok sixtyFour :=
  QueueSystem.new_eq_fresh ⟨6, rfl⟩ (by decide)

instance (s : BlockDevice) (a : Act) : Decidable (s.Small a) :=
  match a with
  | .staging (.submit _) => inferInstanceAs (Decidable (_ ≤ _))
  | .staging .count | .staging .load | .staging .pop | .staging .discount | .handle =>
    inferInstanceAs (Decidable True)

instance (s : BlockDevice) (a : Act) : Decidable (s.MergesSmall a) :=
  match a with
  | .staging (.submit _) => inferInstanceAs (Decidable (∀ _ ∈ _, _ → _))
  | .staging .count | .staging .load | .staging .pop | .staging .discount | .handle =>
    inferInstanceAs (Decidable True)

/-- What the thread does until it has a request. -/
def takes : List Act := [.staging .load, .staging .pop, .staging .discount]

/-- Two bios are merged into a request of two segments, which can be handed to the device. -/
theorem requests_fit_two : ∃ s : BlockDevice, ∃ r,
    (lts.restrict fun s a => s.Small a ∧ s.MergesSmall a).Reachable (start sixtyFour 0 4096) s ∧
      s.current = some r ∧ r.segments.length = 2 ∧ ∃ d', s.device.handle r = .ok d' := by
  obtain ⟨s, hr, heq⟩ := Lts.exists_run_restrict step (start sixtyFour 0 4096)
    ([.staging (.submit (bioOf .write 8 1)), .staging (.submit (bioOf .write 9 1)),
      .staging .count] ++ takes)
    (fun s => s.current.map (fun r => (r.type, r.segments.length)) = some (.write, 2))
    (fun s a => s.Small a ∧ s.MergesSmall a) (by decide +kernel)
  obtain ⟨r, hcurrent, heq⟩ := map_eq_some_iff.1 heq
  obtain ⟨htype, hlen⟩ := Prod.mk.inj heq
  exact ⟨s, r, hr, hcurrent, hlen, (requests_fit sixtyFour_new hr).2 r hcurrent (Or.inr htype)⟩

/-- A bio of 62 segments and one more: `add_vm` returns `BufferTooSmall`. -/
theorem exists_overflow : ∃ s : BlockDevice,
    new 64 false zeroMemory = .ok sixtyFour ∧
    (lts.restrict Small).Reachable (start sixtyFour 0 4096) s ∧ s.panicked = some .unwrap := by
  obtain ⟨s, hr, hpanicked⟩ := Lts.exists_run_restrict step (start sixtyFour 0 4096)
    ([.staging (.submit (bioOf .read 0 62)), .staging (.submit (bioOf .read 62 1)),
      .staging .count] ++ takes ++ [.handle]) (fun s => s.panicked = some .unwrap) Small
    (by decide +kernel)
  exact ⟨s, sixtyFour_new, hr, hpanicked⟩

end BlockDevice

end Virtio

end Jinux
