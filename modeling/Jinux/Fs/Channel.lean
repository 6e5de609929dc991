import Jinux.Kernel.Result
import Jinux.Lib.Lts
import Jinux.Lib.RingBuf

/-!
# Channels

A `Channel` is the ring buffer of a pipe or a stream socket with a producer and a consumer.  Each
end has a set of events (its pollee) and a flag that says whether it has shut down.  The two ends
run concurrently: `Channel.step` lets one of them take one atomic step, that is, one access to the
ring buffer under its lock, one load or store of a flag, or one change of a set of events.

`lock_event();` is a statement of its own in the source.  The guard it returns is a temporary that
is dropped at the end of that statement, so no lock is held while the ring buffer is tested and the
events are changed.

* `try_write` is `ProducerPc.loadThis` to `ProducerPc.returned`, and `write` is a number of calls;
* `try_read` is `ConsumerPc.loadThis` to `ConsumerPc.returned`, and `read` is a number of calls.
-/

namespace Jinux

universe u

variable {α : Type u}

/-- `IoEvents`: the events that a channel reports. -/
structure IoEvents where
  pollIn : Bool := false
  pollOut : Bool := false
  pollErr : Bool := false
  pollHup : Bool := false
  deriving DecidableEq, Repr

/-- `EndPointInner`, without the lock of its half of the ring buffer. -/
structure EndPointInner where
  pollee : IoEvents
  isShutdown : Bool := false
  deriving DecidableEq, Repr

/-- Where the producer is in `try_write` or in `drop`. -/
inductive ProducerPc (α : Type u) where
  | idle
  | loadThis (buf : List α)
  /-- Before the test whether the peer has shut down. -/
  | loadPeer (buf : List α)
  /-- Before the elements go into the ring buffer. -/
  | push (buf : List α)
  /-- In `update_pollee`, before `lock_event`. -/
  | lockEvent (writtenLen : ℕ)
  | testFull (writtenLen : ℕ)
  | delOut (writtenLen : ℕ)
  | testEmpty (writtenLen : ℕ)
  | addIn (writtenLen : ℕ)
  | returned (res : Result ℕ)
  /-- In `drop`, after `shutdown`. -/
  | dropLock
  | dropHup
  | dropped

/-- Where the consumer is in `try_read` or in `drop`; `len` is the length of the reader's buffer. -/
inductive ConsumerPc where
  | idle
  | loadThis (len : ℕ)
  /-- Before the elements are taken out of the ring buffer. -/
  | pop (len : ℕ)
  /-- In `update_pollee`, before `lock_event`. -/
  | lockEvent (len readLen : ℕ)
  | testEmpty (len readLen : ℕ)
  | delIn (len readLen : ℕ)
  | testFull (len readLen : ℕ)
  | addOut (len readLen : ℕ)
  /-- Before the test whether the peer has shut down. -/
  | loadPeer (len readLen : ℕ)
  | returned (len : ℕ) (res : Result ℕ)
  /-- In `drop`, after `shutdown`. -/
  | dropLock
  | dropErr
  | dropped
  deriving DecidableEq

/-- A channel whose two ends are in use, and what went through it so far. -/
structure Channel (α : Type u) where
  rb : RingBuf α
  producerEnd : EndPointInner := { pollee := { pollOut := true } }
  consumerEnd : EndPointInner := { pollee := {} }
  producer : ProducerPc α := .idle
  consumer : ConsumerPc := .idle
  /-- All elements ever written. -/
  written : List α := []
  /-- All elements ever read. -/
  read : List α := []

/-- What the two ends do: they begin a call, or go on with the one they are in. -/
inductive ChannelOp (α : Type u) where
  | write (buf : List α)
  | shutdownProducer
  | dropProducer
  | produce
  | read (len : ℕ)
  | shutdownConsumer
  | dropConsumer
  | consume

namespace Channel

/-- `Channel::with_capacity` -/
def withCapacity (capacity : ℕ) : Result (Channel α) :=
  if h : capacity = 0 then returnErrnoWithMessage .einval "capacity cannot be zero"
  else .ok { rb := .new capacity (Nat.pos_of_ne_zero h) }

/-- What `try_write` returns after a push. -/
def writeResult (writtenLen : ℕ) : Result ℕ :=
  if 0 < writtenLen then .ok writtenLen else returnErrnoWithMessage .eagain "try write later"

/-- What `try_read` returns after a pop. -/
def readResult (readLen : ℕ) (isPeerShutdown : Bool) : Result ℕ :=
  if isPeerShutdown then .ok readLen
  else if 0 < readLen then .ok readLen
  else returnErrnoWithMessage .eagain "try read later"

/-- The next step of the producer in its call. -/
def produce (c : Channel α) : Option (Channel α) :=
  match c.producer with
  | .idle | .returned _ | .dropped => none
  | .loadThis buf =>
    if c.producerEnd.isShutdown then some { c with producer := .returned (returnErrno .epipe) }
    else some { c with producer := .loadPeer buf }
  | .loadPeer buf =>
    if c.consumerEnd.isShutdown then some { c with producer := .returned (returnErrno .epipe) }
    else if buf.isEmpty then some { c with producer := .returned (.ok 0) }
    else some { c with producer := .push buf }
  | .push buf =>
    let (writtenLen, rb) := c.rb.pushSlice buf
    some { c with
      rb, written := c.written ++ buf.take writtenLen, producer := .lockEvent writtenLen }
  -- the event lock is released as soon as it has been taken
  | .lockEvent writtenLen => some { c with producer := .testFull writtenLen }
  | .testFull writtenLen =>
    if c.rb.isFull then some { c with producer := .delOut writtenLen }
    else some { c with producer := .testEmpty writtenLen }
  | .delOut writtenLen =>
    some { c with
      producerEnd.pollee.pollOut := false, producer := .testEmpty writtenLen }
  | .testEmpty writtenLen =>
    if !c.rb.isEmpty then some { c with producer := .addIn writtenLen }
    else some { c with producer := .returned (writeResult writtenLen) }
  | .addIn writtenLen =>
    some { c with
      consumerEnd.pollee.pollIn := true, producer := .returned (writeResult writtenLen) }
  | .dropLock => some { c with producer := .dropHup }
  | .dropHup => some { c with consumerEnd.pollee.pollHup := true, producer := .dropped }

/-- The next step of the consumer in its call. -/
def consume (c : Channel α) : Option (Channel α) :=
  match c.consumer with
  | .idle | .returned .. | .dropped => none
  | .loadThis len =>
    if c.consumerEnd.isShutdown then
      some { c with consumer := .returned len (returnErrno .epipe) }
    else if len = 0 then some { c with consumer := .returned len (.ok 0) }
    else some { c with consumer := .pop len }
  | .pop len =>
    let (elems, rb) := c.rb.popSlice len
    some { c with rb, read := c.read ++ elems, consumer := .lockEvent len elems.length }
  -- the event lock is released as soon as it has been taken
  | .lockEvent len readLen => some { c with consumer := .testEmpty len readLen }
  | .testEmpty len readLen =>
    if c.rb.isEmpty then some { c with consumer := .delIn len readLen }
    else some { c with consumer := .testFull len readLen }
  | .delIn len readLen =>
    some { c with consumerEnd.pollee.pollIn := false, consumer := .testFull len readLen }
  | .testFull len readLen =>
    if !c.rb.isFull then some { c with consumer := .addOut len readLen }
    else some { c with consumer := .loadPeer len readLen }
  | .addOut len readLen =>
    some { c with producerEnd.pollee.pollOut := true, consumer := .loadPeer len readLen }
  | .loadPeer len readLen =>
    some { c with consumer := .returned len (readResult readLen c.producerEnd.isShutdown) }
  | .dropLock => some { c with consumer := .dropErr }
  | .dropErr => some { c with producerEnd.pollee.pollErr := true, consumer := .dropped }

end Channel

/-- The producer is in no call, and can begin one. -/
def ProducerPc.ready {α : Type u} : ProducerPc α → Bool
  | .idle | .returned _ => true
  | _ => false

/-- The consumer is in no call, and can begin one. -/
def ConsumerPc.ready : ConsumerPc → Bool
  | .idle | .returned .. => true
  | _ => false

namespace Channel

/-- One step of one end; `none` where the end cannot take it. -/
def step (c : Channel α) : ChannelOp α → Option (Channel α)
  | .write buf => if c.producer.ready then some { c with producer := .loadThis buf } else none
  | .shutdownProducer =>
    if c.producer.ready then some { c with producerEnd.isShutdown := true, producer := .idle }
    else none
  | .dropProducer =>
    if c.producer.ready then some { c with producerEnd.isShutdown := true, producer := .dropLock }
    else none
  | .produce => c.produce
  | .read len => if c.consumer.ready then some { c with consumer := .loadThis len } else none
  | .shutdownConsumer =>
    if c.consumer.ready then some { c with consumerEnd.isShutdown := true, consumer := .idle }
    else none
  | .dropConsumer =>
    if c.consumer.ready then some { c with consumerEnd.isShutdown := true, consumer := .dropLock }
    else none
  | .consume => c.consume

/-- All interleavings of the two ends. -/
def lts (α : Type u) : Lts (Channel α) (ChannelOp α) := .ofFun step

/-- A channel for one element. -/
def oneSlot : Channel ℕ := { rb := .new 1 Nat.one_pos }

theorem withCapacity_one : withCapacity 1 = .ok oneSlot := rfl

end Channel

end Jinux
