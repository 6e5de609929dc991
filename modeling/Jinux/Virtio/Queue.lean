import Mathlib.Data.List.Iterate
import Jinux.Kernel.Result
import Jinux.Lib.Lts

/-!
# Virtqueues

A virtqueue has a table of descriptors.  A request is a chain of descriptors that are linked by
their `next` fields; the driver takes them from the free list, which is threaded through the same
fields, and puts the head of the chain into the available ring.  The device puts the head of a chain
that it is done with into the used ring, and the driver takes it from there and gives the
descriptors back.

* `VirtQueue.add` : `add_buf` and `add_vm`, which differ only in how they are given the buffers;
* `VirtQueue.popUsed`, `VirtQueue.popUsedWithToken` : with `recycleDescriptors`;
* `QueueSystem` : a virtqueue with the chains that are in flight, and a device that may write
  anything to the used ring.

The `Vec` of the descriptors has one entry more than the table, so that an index equal to the size
of the queue passes the check of the bounds.  In the source that entry lies over the available ring
of a legacy device, and else in the rest of the frame or, with 256 descriptors, outside of it; in
`descs` it is an entry like the others.
-/

namespace Jinux

open Function

namespace Virtio

/-- `QueueError` -/
inductive QueueError where
  | invalidArgs
  | bufferTooSmall
  | notReady
  | alreadyUsed
  | wrongToken
  deriving DecidableEq, Repr

/-- A call that does not return a value. -/
inductive QueueFault where
  | err (e : QueueError)
  | panic (p : Panic)
  deriving DecidableEq, Repr

/-- `DescFlags`, of which the driver uses two. -/
structure DescFlags where
  next : Bool
  write : Bool
  deriving DecidableEq, Repr

/-- `Descriptor` -/
structure Descriptor where
  addr : ℕ
  len : ℕ
  flags : DescFlags
  next : ℕ
  deriving DecidableEq, Repr

/-- The descriptor without the flag `NEXT`. -/
def Descriptor.withoutNext (d : Descriptor) : Descriptor :=
  { d with flags := { d.flags with next := false } }

/-- `UsedElem` -/
structure UsedElem where
  id : ℕ
  len : ℕ
  deriving DecidableEq, Repr

/-- A buffer: its physical address and its length in bytes. -/
structure Buf where
  addr : ℕ
  len : ℕ
  deriving DecidableEq, Repr

/-- `VirtQueue`, with the memory that it shares with the device. -/
structure VirtQueue where
  descs : ℕ → Descriptor
  /-- The available ring and its index. -/
  avail : ℕ → ℕ
  availRingIdx : ℕ
  /-- The used ring and its index, which the device writes. -/
  used : ℕ → UsedElem
  usedRingIdx : ℕ
  queueSize : ℕ
  numUsed : ℕ
  freeHead : ℕ
  availIdx : ℕ
  lastUsedIdx : ℕ

namespace VirtQueue

/-- The memory of the descriptors, the available ring and the used ring before `new`. -/
structure Memory where
  descs : ℕ → Descriptor
  avail : ℕ → ℕ
  availRingIdx : ℕ
  used : ℕ → UsedElem
  usedRingIdx : ℕ

/-- The memory of frames that were just allocated. -/
def zeroMemory : Memory where
  descs _ := ⟨0, 0, ⟨false, false⟩, 0⟩
  avail _ := 0
  availRingIdx := 0
  used _ := ⟨0, 0⟩
  usedRingIdx := 0

/-- The largest size that `new` accepts. -/
def maxSize (legacy : Bool) : ℕ := if legacy then 128 else 256

/-- `VirtQueue::new` -/
def new (size : ℕ) (legacy : Bool) (m : Memory) : Except QueueFault VirtQueue :=
  if ¬size.isPowerOfTwo then .error (.err .invalidArgs)
  else if maxSize legacy < size then .error (.err .invalidArgs)
  else .ok {
    descs i := if i < size - 1 then { m.descs i with next := i + 1 } else m.descs i
    avail := m.avail
    availRingIdx := m.availRingIdx
    used := m.used
    usedRingIdx := m.usedRingIdx
    queueSize := size
    numUsed := 0
    freeHead := 0
    availIdx := 0
    lastUsedIdx := 0 }

/-! ### Adding buffers -/

/-- The local variables of the loops of `add_buf` and `add_vm`. -/
structure Filling where
  descs : ℕ → Descriptor
  freeHead : ℕ
  last : ℕ

/-- The body of the loops: the next free descriptor is given to a buffer, which the device writes if
`b.2` holds. -/
def fillOne (size : ℕ) (f : Filling) (b : Buf × Bool) : Except QueueFault Filling :=
  if f.freeHead ≤ size then
    .ok {
      descs := update f.descs f.freeHead
        ⟨b.1.addr, b.1.len % 2 ^ 32, ⟨true, b.2⟩, (f.descs f.freeHead).next⟩
      freeHead := (f.descs f.freeHead).next
      last := f.freeHead }
  else .error (.panic .outOfBounds)

/-- The buffers in the order in which they are added: the inputs first. -/
def bufs (inputs outputs : List Buf) : List (Buf × Bool) :=
  inputs.map (·, false) ++ outputs.map (·, true)

/-- What `add_buf` and `add_vm` do after the loops: the last descriptor loses the flag `NEXT`, and
the head of the chain goes into the available ring. -/
def submit (q : VirtQueue) (f : Filling) (count : ℕ) : VirtQueue :=
  { q with
    descs := update f.descs f.last (f.descs f.last).withoutNext
    freeHead := f.freeHead
    numUsed := q.numUsed + count
    avail := update q.avail (q.availIdx &&& (q.queueSize - 1)) q.freeHead
    availRingIdx := (q.availIdx + 1) % 2 ^ 16
    availIdx := (q.availIdx + 1) % 2 ^ 16 }

/-- `add_buf` and `add_vm` -/
def add (q : VirtQueue) (inputs outputs : List Buf) : Except QueueFault (ℕ × VirtQueue) := do
  if inputs.isEmpty && outputs.isEmpty then .error (.err .invalidArgs)
  else if q.queueSize < inputs.length + outputs.length + q.numUsed then
    .error (.err .bufferTooSmall)
  else
    let f ← (bufs inputs outputs).foldlM (fillOne q.queueSize) ⟨q.descs, q.freeHead, q.freeHead⟩
    pure (q.freeHead, q.submit f (inputs.length + outputs.length))

/-! ### Taking back what the device is done with -/

/-- `can_pop` -/
def canPop (q : VirtQueue) : Bool := q.lastUsedIdx ≠ q.usedRingIdx

/-- The loop of `recycle_descriptors`.  It takes at most `num_used` turns, since `num_used` goes
down by one in each of them. -/
def recycleLoop (size origin : ℕ) : (fuel : ℕ) → (ℕ → Descriptor) → (head numUsed : ℕ) →
    Except QueueFault ((ℕ → Descriptor) × ℕ)
  | 0, _, _, _ => .error (.panic .subOverflow)
  | fuel + 1, descs, head, numUsed =>
    if size < head then .error (.panic .outOfBounds)
    else if numUsed = 0 then .error (.panic .subOverflow)
    else if (descs head).flags.next then
      recycleLoop size origin fuel descs (descs head).next (numUsed - 1)
    else
      .ok (update descs head { descs head with next := origin }, numUsed - 1)

/-- The index before the head of a chain, in `recycle_descriptors`. -/
def lastFreeHead (q : VirtQueue) (head : ℕ) : ℕ := if head = 0 then q.queueSize - 1 else head - 1

/-- `recycle_descriptors` -/
def recycleDescriptors (q : VirtQueue) (head : ℕ) : Except QueueFault VirtQueue :=
  let last := q.lastFreeHead head
  if q.queueSize < last then .error (.panic .outOfBounds)
  else do
    let descs := update q.descs last { q.descs last with next := head }
    let r ← recycleLoop q.queueSize q.freeHead (q.numUsed + 1) descs head q.numUsed
    pure { q with descs := r.1, numUsed := r.2, freeHead := head }

/-- The descriptors that the loop of `recycle_descriptors` reads. -/
def visited (descs : ℕ → Descriptor) : (fuel head : ℕ) → List ℕ
  | 0, _ => []
  | fuel + 1, head =>
    head :: if (descs head).flags.next then visited descs fuel (descs head).next else []

/-- The descriptors that `recycle_descriptors` reads or writes. -/
def touched (q : VirtQueue) (head : ℕ) : List ℕ :=
  let last := q.lastFreeHead head
  last :: visited (update q.descs last { q.descs last with next := head }) (q.numUsed + 1)
    head

/-- The next element of the used ring. -/
def nextUsed (q : VirtQueue) : UsedElem := q.used (q.lastUsedIdx &&& (q.queueSize - 1))

/-- The index that the next element of the used ring is cast to. -/
def nextHead (q : VirtQueue) : ℕ := q.nextUsed.id % 2 ^ 16

/-- The part of `pop_used` and `pop_used_with_token` that changes the queue. -/
def popNext (q : VirtQueue) : Except QueueFault VirtQueue := do
  let q ← q.recycleDescriptors q.nextHead
  pure { q with lastUsedIdx := (q.lastUsedIdx + 1) % 2 ^ 16 }

/-- `pop_used` -/
def popUsed (q : VirtQueue) : Except QueueFault ((ℕ × ℕ) × VirtQueue) := do
  if ¬q.canPop then .error (.err .notReady)
  else
    let q' ← q.popNext
    pure ((q.nextHead, q.nextUsed.len), q')

/-- `pop_used_with_token` -/
def popUsedWithToken (q : VirtQueue) (token : ℕ) : Except QueueFault (ℕ × VirtQueue) := do
  if ¬q.canPop then .error (.err .notReady)
  else if q.nextHead ≠ token then .error (.err .wrongToken)
  else
    let q' ← q.popNext
    pure (q.nextUsed.len, q')

/-- The field `next` of each descriptor. -/
def nextOf (q : VirtQueue) (i : ℕ) : ℕ := (q.descs i).next

/-- The free descriptors: `next` is followed from `free_head` on as often as there are any. -/
def freeList (q : VirtQueue) : List ℕ :=
  List.iterate q.nextOf q.freeHead (q.queueSize - q.numUsed)

end VirtQueue

/-! ### The driver and the device -/

/-- A descriptor of a chain, as it was given to the device. -/
structure Link where
  desc : ℕ
  buf : Buf
  write : Bool
  deriving DecidableEq, Repr

/-- The indices of a chain. -/
def ids (c : List Link) : List ℕ := c.map Link.desc

/-- The descriptors of the table are those of the chain: they have the addresses, the lengths and
the flags of the buffers, and each one but the last is linked to the next one. -/
def Holds (descs : ℕ → Descriptor) : List Link → Prop
  | [] => True
  | l :: rest =>
    (descs l.desc).addr = l.buf.addr ∧ (descs l.desc).len = l.buf.len % 2 ^ 32 ∧
      (descs l.desc).flags = ⟨!rest.isEmpty, l.write⟩ ∧
      (∀ l' ∈ rest.head?, (descs l.desc).next = l'.desc) ∧ Holds descs rest

instance decidableHolds (descs : ℕ → Descriptor) : (c : List Link) → Decidable (Holds descs c)
  | [] => inferInstanceAs (Decidable True)
  | _ :: rest =>
    have := decidableHolds descs rest
    inferInstanceAs (Decidable (_ ∧ _ ∧ _ ∧ _ ∧ _))

/-- The chain that the next call of `add` makes. -/
def chainOf (q : VirtQueue) (bufs : List (Buf × Bool)) : List Link :=
  List.zipWith (fun i b => ⟨i, b.1, b.2⟩) (List.iterate q.nextOf q.freeHead bufs.length) bufs

/-- A virtqueue and the chains that are in flight. -/
structure QueueSystem where
  queue : VirtQueue
  chains : List (List Link)
  panicked : Option Panic

namespace QueueSystem

/-- The descriptors that are in flight. -/
def inFlight (s : QueueSystem) : List ℕ := s.chains.flatMap ids

/-- The heads of the chains that are in flight. -/
def heads (s : QueueSystem) : List ℕ := s.chains.filterMap fun c => (ids c).head?

/-- What happens next. -/
inductive Act where
  | add (inputs outputs : List Buf)
  | device (usedRingIdx : ℕ) (used : ℕ → UsedElem)
  /-- The driver calls `pop_used`. -/
  | popUsed
  /-- The driver calls `pop_used_with_token`. -/
  | popUsedWithToken (token : ℕ)

/-- The state after a call of the driver. -/
def after {α : Type} (s : QueueSystem) (r : Except QueueFault (α × VirtQueue))
    (chains : List (List Link)) : QueueSystem :=
  match r with
  | .ok p => { s with queue := p.2, chains }
  | .error (.err _) => s
  | .error (.panic p) => { s with panicked := some p }

/-- The chains without the one that the next element of the used ring names. -/
def remaining (s : QueueSystem) : List (List Link) :=
  s.chains.eraseP fun c => (ids c).head? = some s.queue.nextHead

/-- One step. -/
def exec (s : QueueSystem) : Act → QueueSystem
  | .add inputs outputs =>
    s.after (s.queue.add inputs outputs)
      (chainOf s.queue (VirtQueue.bufs inputs outputs) :: s.chains)
  | .device usedRingIdx used => { s with queue := { s.queue with usedRingIdx, used } }
  | .popUsed => s.after s.queue.popUsed s.remaining
  | .popUsedWithToken token => s.after (s.queue.popUsedWithToken token) s.remaining

/-- One step; a panic stops the driver. -/
def step (s : QueueSystem) (a : Act) : Option QueueSystem :=
  if s.panicked = none then some (s.exec a) else none

/-- All runs of the driver and a device. -/
def lts : Lts QueueSystem Act := .ofFun step

/-- A new virtqueue. -/
def start (q : VirtQueue) : QueueSystem := ⟨q, [], none⟩

/-- The step gives back the descriptors of a chain. -/
def Recycles (s : QueueSystem) : Act → Prop
  | .popUsed => s.queue.canPop = true
  | .popUsedWithToken token => s.queue.canPop = true ∧ s.queue.nextHead = token
  | _ => False

/-- The device returns the head of a chain that is in flight. -/
def Honest (s : QueueSystem) (a : Act) : Prop := s.Recycles a → s.queue.nextHead ∈ s.heads

/-- The index before the head of the chain that is given back is the last one of a chain in flight
or of the free list. -/
def Apart (s : QueueSystem) (a : Act) : Prop :=
  s.Recycles a →
    s.queue.lastFreeHead s.queue.nextHead ∈ s.queue.freeList.getLast? ∨
      ∃ c ∈ s.chains, s.queue.lastFreeHead s.queue.nextHead ∈ (ids c).getLast?

end QueueSystem

end Virtio

end Jinux
