import Jinux.Kernel.Result
import Jinux.Lib.Bytes

/-!
# Block I/O and requests

A `Bio` is a read or a write of a range of sectors, with the pieces of memory that the sectors go to
or come from.  Bios with the same type and adjacent ranges are merged into one `BioRequest`.

* `BioRequest.canMerge`, `BioRequest.mergeBio` : a bio goes in front of the others or behind them;
* `BioRequest.execute` : what a request does to the disk and to the memory, which is how `do_read`
  and `do_write` hand it to the device;
* `BioRequest.execute_mergeBack`, `BioRequest.execute_mergeFront` : **a merged request does what the
  request and then the bio do**, where in front of a request only the memory of reads matters.
-/

namespace Jinux

open List

namespace Block

/-- `SECTOR_SIZE` -/
def sectorSize : ℕ := 512

/-- `BioType` -/
inductive BioType where
  | read
  | write
  | flush
  | discard
  deriving DecidableEq, Repr

/-- `BioSegment`: the physical address of the offset into the pages, and the length.  Both are
aligned (`AlignedUsize`). -/
structure BioSegment where
  addr : ℕ
  len : ℕ
  addr_aligned : sectorSize ∣ addr
  len_aligned : sectorSize ∣ len
  deriving DecidableEq

/-- `nsectors` -/
def BioSegment.nsectors (seg : BioSegment) : ℕ := seg.len / sectorSize

/-- The segments have no byte in common. -/
def BioSegment.Apart (seg seg' : BioSegment) : Prop :=
  seg.len = 0 ∨ seg'.len = 0 ∨ seg.addr + seg.len ≤ seg'.addr ∨ seg'.addr + seg'.len ≤ seg.addr

instance (seg seg' : BioSegment) : Decidable (seg.Apart seg') :=
  inferInstanceAs (Decidable (_ ∨ _ ∨ _ ∨ _))

/-- The sectors of some segments. -/
def nsectors (segs : List BioSegment) : ℕ := (segs.map BioSegment.nsectors).sum

/-- `Bio`, without the status, the wait queue and the callback. -/
structure Bio where
  type : BioType
  sidRange : Span ℕ
  segments : List BioSegment
  /-- The range has as many sectors as the segments. -/
  covers : sidRange.stop = sidRange.start + nsectors segments
  deriving DecidableEq

/-- `Bio::new` -/
def Bio.new (type : BioType) (startSid : ℕ) (segments : List BioSegment) : Result Bio :=
  if startSid + nsectors segments < usizeBound then
    .ok ⟨type, ⟨startSid, startSid + nsectors segments⟩, segments, rfl⟩
  else .error (.panic .addOverflow)

/-- `BioRequest` -/
structure BioRequest where
  type : BioType
  sidRange : Span ℕ
  /-- The bios, the one at the front first. -/
  bios : List Bio
  deriving DecidableEq

namespace BioRequest

/-- `can_merge` -/
def canMerge (r : BioRequest) (b : Bio) : Bool :=
  if b.type ≠ r.type then false
  else b.sidRange.start = r.sidRange.stop || b.sidRange.stop = r.sidRange.start

/-- The request with the bio behind the others. -/
def mergeBack (r : BioRequest) (b : Bio) : BioRequest :=
  { r with sidRange := { r.sidRange with stop := b.sidRange.stop }, bios := r.bios ++ [b] }

/-- The request with the bio in front of the others. -/
def mergeFront (r : BioRequest) (b : Bio) : BioRequest :=
  { r with sidRange := { r.sidRange with start := b.sidRange.start }, bios := b :: r.bios }

/-- `merge_bio` -/
def mergeBio (r : BioRequest) (b : Bio) : Result BioRequest := do
  assert (r.canMerge b)
  pure (if b.sidRange.start = r.sidRange.stop then r.mergeBack b else r.mergeFront b)

/-- `From<SubmittedBio>` -/
def ofBio (b : Bio) : BioRequest := ⟨b.type, b.sidRange, [b]⟩

/-- The segments of all bios in order, as `do_read` and `do_write` collect them. -/
def segments (r : BioRequest) : List BioSegment := r.bios.flatMap Bio.segments

end BioRequest

/-! ### What a request does -/

/-- The bytes of the disk and of the memory. -/
structure Io where
  disk : Bytes
  memory : Bytes

namespace Io

/-- One segment is read from the disk or written to it, at an offset in bytes. -/
def transfer (io : Io) (type : BioType) (offset : ℕ) (seg : BioSegment) : Io :=
  match type with
  | .read => { io with memory := writeAt io.memory seg.addr (readAt io.disk offset seg.len) }
  | .write => { io with disk := writeAt io.disk offset (readAt io.memory seg.addr seg.len) }
  -- the driver hands no such request to the device
  | .flush | .discard => io

/-- The segments one after the other. -/
def transferAll (type : BioType) : (offset : ℕ) → List BioSegment → Io → Io
  | _, [], io => io
  | offset, seg :: segs, io =>
    transferAll type (offset + seg.len) segs (io.transfer type offset seg)

end Io

/-- What the device does for a request. -/
def BioRequest.execute (r : BioRequest) : Io → Io :=
  Io.transferAll r.type (r.sidRange.start * sectorSize) r.segments

/-- What the device does for a bio alone. -/
def Bio.execute (b : Bio) : Io → Io := (BioRequest.ofBio b).execute

/-! ### Transfers in another order -/

/-- The bytes of some segments. -/
def nbytes (segs : List BioSegment) : ℕ := (segs.map BioSegment.len).sum

theorem nbytes_eq : ∀ segs : List BioSegment, nbytes segs = nsectors segs * sectorSize
  | [] => rfl
  | seg :: segs => by
    have hseg : seg.nsectors * sectorSize = seg.len := Nat.div_mul_cancel seg.len_aligned
    have hrest := nbytes_eq segs
    simp only [nbytes, nsectors, map_cons, sum_cons, Nat.add_mul] at hrest ⊢
    rw [hseg, hrest]

namespace Io

variable {type : BioType} {segs segs' : List BioSegment} {offset offset' : ℕ}

theorem transferAll_append : ∀ (segs segs' : List BioSegment) (offset : ℕ) (io : Io),
    transferAll type offset (segs ++ segs') io =
      transferAll type (offset + nbytes segs) segs' (transferAll type offset segs io)
  | [], _, _, _ => rfl
  | seg :: segs, segs', offset, io => by
    have hlen : offset + nbytes (seg :: segs) = offset + seg.len + nbytes segs := by
      rw [Nat.add_assoc]
      rfl
    rw [hlen]
    exact transferAll_append segs segs' (offset + seg.len) _

/-- What commutes with the transfer of each segment commutes with that of all. -/
theorem commute_transferAll {f : Io → Io} (offset : ℕ) (segs : List BioSegment)
    (h : ∀ seg ∈ segs, ∀ o, offset ≤ o → o + seg.len ≤ offset + nbytes segs →
      Function.Commute f fun io => io.transfer type o seg) :
    Function.Commute f (transferAll type offset segs) := by
  induction segs generalizing offset with
  | nil => exact fun _ => rfl
  | cons seg segs ih =>
    have hlen : nbytes (seg :: segs) = seg.len + nbytes segs := sum_cons
    have hseg : Function.Commute f fun io => io.transfer type offset seg :=
      h seg mem_cons_self offset (Nat.le_refl _) (by omega)
    have hsegs : Function.Commute f (transferAll type (offset + seg.len) segs) :=
      ih _ fun seg' hseg' o hle hlt => h seg' (mem_cons_of_mem _ hseg') o (by omega) (by omega)
    exact hsegs.comp_right hseg

/-- Writes to parts of the disk without a common byte commute. -/
theorem transferAll_write_comm (h : offset + nbytes segs ≤ offset') :
    Function.Commute (transferAll .write offset segs) (transferAll .write offset' segs') := by
  refine commute_transferAll _ _ fun seg' _ o' hle' _ => Function.Commute.symm ?_
  refine commute_transferAll _ _ fun seg _ o _ hle io => ?_
  refine congrArg (Io.mk · io.memory) (writeAt_comm fun a _ hlt => ?_)
  rw [length_readAt] at hlt
  exact Or.inl (by omega)

/-- Reads to parts of the memory without a common byte commute. -/
theorem transferAll_read_comm (h : ∀ seg ∈ segs, ∀ seg' ∈ segs', seg.Apart seg') :
    Function.Commute (transferAll .read offset segs) (transferAll .read offset' segs') := by
  refine commute_transferAll _ _ fun seg' hseg' o' _ _ => Function.Commute.symm ?_
  refine commute_transferAll _ _ fun seg hseg o _ _ io => ?_
  refine congrArg (Io.mk io.disk) (writeAt_comm fun a hle hlt => ?_)
  rw [length_readAt] at hlt ⊢
  rcases h seg hseg seg' hseg' with h | h | h | h <;> omega

/-- Nothing is done for the other types. -/
theorem transferAll_none (h : type = .flush ∨ type = .discard) :
    ∀ (segs : List BioSegment) (offset : ℕ) (io : Io), transferAll type offset segs io = io
  | [], _, _ => rfl
  | seg :: segs, offset, io => by
    have hseg : io.transfer type offset seg = io := by
      rcases h with rfl | rfl <;> rfl
    rw [transferAll, hseg]
    exact transferAll_none h segs _ io

end Io

namespace BioRequest

variable {r : BioRequest} {b : Bio}

/-- The range of the request has as many sectors as its segments. -/
def Covers (r : BioRequest) : Prop := r.sidRange.stop = r.sidRange.start + nsectors r.segments

theorem covers_ofBio (b : Bio) : (ofBio b).Covers := by
  rw [Covers, segments, ofBio, flatMap_singleton]
  exact b.covers

theorem nsectors_append (segs segs' : List BioSegment) :
    nsectors (segs ++ segs') = nsectors segs + nsectors segs' := by
  rw [nsectors, map_append, sum_append]
  rfl

theorem segments_mergeBack (r : BioRequest) (b : Bio) :
    (r.mergeBack b).segments = r.segments ++ b.segments := by
  rw [segments, mergeBack, flatMap_append, flatMap_singleton]
  rfl

theorem segments_mergeFront (r : BioRequest) (b : Bio) :
    (r.mergeFront b).segments = b.segments ++ r.segments := flatMap_cons

theorem Covers.mergeBack (h : r.Covers) (hadj : b.sidRange.start = r.sidRange.stop) :
    (r.mergeBack b).Covers := by
  have hb := b.covers
  rw [Covers, segments_mergeBack, nsectors_append]
  show b.sidRange.stop = r.sidRange.start + _
  rw [hb, hadj, h, Nat.add_assoc]

theorem Covers.mergeFront (h : r.Covers) (hadj : b.sidRange.stop = r.sidRange.start) :
    (r.mergeFront b).Covers := by
  have hb := b.covers
  rw [Covers, segments_mergeFront, nsectors_append]
  show r.sidRange.stop = b.sidRange.start + _
  rw [h, ← hadj, hb, Nat.add_assoc]

theorem execute_bio (b : Bio) :
    b.execute = Io.transferAll b.type (b.sidRange.start * sectorSize) b.segments := by
  rw [Bio.execute, execute, segments, ofBio, flatMap_singleton]

/-- A bio behind a request is executed after it. -/
theorem execute_mergeBack (h : r.Covers) (htype : b.type = r.type)
    (hadj : b.sidRange.start = r.sidRange.stop) (io : Io) :
    (r.mergeBack b).execute io = b.execute (r.execute io) := by
  have hoffset : r.sidRange.start * sectorSize + nbytes r.segments =
      b.sidRange.start * sectorSize := by
    rw [nbytes_eq, ← Nat.add_mul, ← h, hadj]
  rw [execute, segments_mergeBack, Io.transferAll_append, execute_bio, htype]
  exact congrArg (fun o => Io.transferAll r.type o b.segments _) hoffset

/-- The memory of a read is apart from that of the request. -/
def ReadsApart (r : BioRequest) (b : Bio) : Prop :=
  b.type = .read → ∀ seg ∈ b.segments, ∀ seg' ∈ r.segments, seg.Apart seg'

instance (r : BioRequest) (b : Bio) : Decidable (r.ReadsApart b) :=
  inferInstanceAs (Decidable (_ → _))

/-- A bio in front of a request could as well be executed after it. -/
theorem execute_mergeFront (htype : b.type = r.type)
    (hadj : b.sidRange.stop = r.sidRange.start) (hreads : r.ReadsApart b) (io : Io) :
    (r.mergeFront b).execute io = b.execute (r.execute io) := by
  have hoffset : b.sidRange.start * sectorSize + nbytes b.segments =
      r.sidRange.start * sectorSize := by
    rw [nbytes_eq, ← Nat.add_mul, ← b.covers, hadj]
  have hfront : (r.mergeFront b).execute io = r.execute (b.execute io) := by
    rw [execute, segments_mergeFront, Io.transferAll_append, execute_bio, htype]
    exact congrArg (fun o => Io.transferAll r.type o r.segments _) hoffset
  rw [hfront, execute_bio, execute, ← htype]
  have hcases : b.type = .read ∨ b.type = .write ∨ b.type = .flush ∨ b.type = .discard := by
    cases b.type <;> simp
  rcases hcases with h | h | h
  · rw [h]
    exact (Io.transferAll_read_comm (hreads h)).symm io
  · rw [h]
    exact (Io.transferAll_write_comm hoffset.le).symm io
  · simp [Io.transferAll_none h]

end BioRequest

end Block

end Jinux
