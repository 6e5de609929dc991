import Jinux.Kernel.Result
import Jinux.Lib.Bytes
import Jinux.Lib.Lts

/-!
# The vDSO and its readers

The kernel keeps the data that user programs need to compute the time in a page of the vDSO.  A
timer calls `update_instant`, which writes the fields one by one.  A user program reads them without
a lock, by the protocol of the Linux vDSO: it reads the sequence number, starts again while it is
odd, reads the fields, reads the sequence number again and starts again if it has changed.

The protocol needs a number that every update leaves different from what it was.  `update_instant`
writes 1 when it begins and 0 when it ends.

* `VdsoSystem` : the page, the writes that the current update has still to do, and a reader; each
  write and each read is a step.  The timer is set again at the end of an update, so there is one
  update at a time.
* `VdsoSystem.accepted_of_undisturbed` : **if no update ends while the reader is at it, then what
  the reader accepts comes from one update**.
* `VdsoSystem.exists_torn_read` : a reader that accepts the cycles of one update and the time of the
  next.
-/

namespace Jinux

open List ByteWrite

variable {m : Bytes} {d p : VdsoData} {startSecs : UInt64} {r : Reader}

/-! ### The data of the vDSO -/

/-- `ClockID` -/
inductive ClockId where
  | realtime
  | monotonic
  | processCputimeId
  | threadCputimeId
  | monotonicRaw
  | realtimeCoarse
  | monotonicCoarse
  | boottime
  deriving DecidableEq, Repr

/-- `clock_id as usize` -/
def ClockId.index : ClockId → ℕ
  | .realtime => 0
  | .monotonic => 1
  | .processCputimeId => 2
  | .threadCputimeId => 3
  | .monotonicRaw => 4
  | .realtimeCoarse => 5
  | .monotonicCoarse => 6
  | .boottime => 7

/-- `ALL_SUPPORTED_CLOCK_IDS` -/
def allSupportedClockIds : List ClockId :=
  [.realtime, .realtimeCoarse, .monotonic, .monotonicCoarse, .monotonicRaw, .boottime]

/-- `REALTIME_IDS` -/
def realtimeIds : List ClockId := [.realtime, .realtimeCoarse]

/-- `VDSO_BASES` -/
def vdsoBases : ℕ := 12

/-- `Instant` -/
structure Instant where
  secs : UInt64
  nanos : UInt32
  deriving DecidableEq, Repr

/-- `VdsoInstant` -/
structure VdsoInstant where
  secs : UInt64
  nanosLshift : UInt64
  deriving DecidableEq, Repr

/-- `VdsoData`.  The sequence number is 0 here; the updates write it to the page only. -/
structure VdsoData where
  /-- The field `clock_mode`. -/
  clockMode : ℕ
  lastCycles : UInt64
  /-- The factor of the clock source. -/
  mult : ℕ
  /-- The shift of the clock source, which `Coeff::new` chooses. -/
  shift : ℕ
  shift_le : shift ≤ 32
  /-- The time of each clock. -/
  basetime : ℕ → VdsoInstant

namespace VdsoData

/-- `update_clock_instant` -/
def updateClockInstant (d : VdsoData) (clockId : ℕ) (secs nanosLshift : UInt64) : VdsoData :=
  { d with basetime := Function.update d.basetime clockId ⟨secs, nanosLshift⟩ }

/-- The seconds of a clock: the real time counts from 1970 on. -/
def clockSecs (startSecs : UInt64) (instant : Instant) (clockId : ClockId) : Result UInt64 :=
  if clockId ∈ realtimeIds then
    if instant.secs.toNat + startSecs.toNat < 2 ^ 64 then .ok (instant.secs + startSecs)
    else .error (.panic .addOverflow)
  else .ok instant.secs

/-- The loop of `update_instant` over the clocks. -/
def updateClocks (startSecs : UInt64) (instant : Instant) :
    List ClockId → VdsoData → Result VdsoData
  | [], d => .ok d
  | clockId :: rest, d => do
    let secs ← clockSecs startSecs instant clockId
    updateClocks startSecs instant rest
      (d.updateClockInstant clockId.index secs (instant.nanos.toUInt64 <<< UInt64.ofNat d.shift))

/-- `VdsoData::update_instant` -/
def updateInstant (d : VdsoData) (startSecs : UInt64) (instant : Instant) (cycles : UInt64) :
    Result VdsoData :=
  updateClocks startSecs instant allSupportedClockIds { d with lastCycles := cycles }

/-- The bytes of an entry of `basetime`. -/
def basetimeBytes (d : VdsoData) (k : ℕ) : List UInt8 :=
  toLe 8 (d.basetime k).secs.toNat ++ toLe 8 (d.basetime k).nanosLshift.toNat

/-- `as_bytes` -/
def asBytes (d : VdsoData) : List UInt8 :=
  (toLe 4 0 ++ toLe 4 d.clockMode) ++ toLe 8 d.lastCycles.toNat ++
    (toLe 8 0 ++ toLe 4 d.mult ++ toLe 4 d.shift) ++
    ((range vdsoBases).flatMap d.basetimeBytes ++ replicate 16 0)

end VdsoData

/-! ### The page -/

/-- The offset of the data in the vDSO, where the sequence number is. -/
def seqOffset : ℕ := 0x80

/-- The offset of `last_cycles`. -/
def cyclesOffset : ℕ := 0x88

/-- `secs_offset` -/
def secsOffset (clockIndex : ℕ) : ℕ := 0xa0 + clockIndex * 0x10

/-- `nanos_lshift_offset` -/
def nanosOffset (clockIndex : ℕ) : ℕ := 0xa8 + clockIndex * 0x10

namespace VdsoData

/-- `update_vmo_instant` -/
def instantWrites (d : VdsoData) (clockId : ClockId) : List ByteWrite :=
  [(secsOffset clockId.index, toLe 8 (d.basetime clockId.index).secs.toNat),
    (nanosOffset clockId.index, toLe 8 (d.basetime clockId.index).nanosLshift.toNat)]

/-- The fields that `Vdso::update_instant` writes. -/
def fieldWrites (d : VdsoData) : List ByteWrite :=
  (cyclesOffset, toLe 8 d.lastCycles.toNat) :: allSupportedClockIds.flatMap d.instantWrites

/-- The writes of `Vdso::update_instant`, in order. -/
def updateWrites (d : VdsoData) : List ByteWrite :=
  (seqOffset, toLe 4 1) :: (d.fieldWrites ++ [(seqOffset, toLe 4 0)])

end VdsoData

/-- A `u32` of the page. -/
def readU32 (m : Bytes) (o : ℕ) : ℕ := ofLe (readAt m o 4)

/-- A `u64` of the page. -/
def readU64 (m : Bytes) (o : ℕ) : UInt64 := UInt64.ofNat (ofLe (readAt m o 8))

/-! ### The system -/

/-- What a reader gets: the cycles and the time of a clock. -/
structure Sample where
  clock : ℕ
  cycles : UInt64
  time : VdsoInstant
  deriving DecidableEq, Repr

/-- How far a reader is.  It knows the clock it asks for and the sequence number it has seen. -/
inductive Reader where
  | idle
  | begun (clock seq : ℕ)
  | readCycles (clock seq : ℕ) (cycles : UInt64)
  | readSecs (clock seq : ℕ) (cycles secs : UInt64)
  | readAll (seq : ℕ) (sample : Sample)
  | accepted (sample : Sample)
  deriving DecidableEq

/-- The kernel's side of the vDSO and a reader. -/
structure VdsoSystem where
  /-- The kernel's copy of the data. -/
  data : VdsoData
  /-- The first page of the vDSO. -/
  mem : Bytes
  /-- What the current update has still to write. -/
  pending : List ByteWrite
  reader : Reader
  /-- The data of all updates, the last one first. -/
  updates : List VdsoData

/-- A step of the kernel or of the reader. -/
inductive VdsoStep where
  | update (instant : Instant) (cycles : UInt64)
  | write
  /-- The reader reads the sequence number, for the time of a clock. -/
  | start (clock : ℕ)
  | read

namespace VdsoSystem

/-- `Vdso::new`, from the data of the default clock source. -/
def new (d : VdsoData) : VdsoSystem where
  data := d
  mem := writeAt (fun _ => 0) seqOffset d.asBytes
  pending := []
  reader := .idle
  updates := [d]

/-- The next read of a reader. -/
def nextRead (m : Bytes) : Reader → Option Reader
  | .idle => none
  | .begun k seq => some (.readCycles k seq (readU64 m cyclesOffset))
  | .readCycles k seq cycles => some (.readSecs k seq cycles (readU64 m (secsOffset k)))
  | .readSecs k seq cycles secs =>
    some (.readAll seq ⟨k, cycles, secs, readU64 m (nanosOffset k)⟩)
  | .readAll seq sample =>
    some (if readU32 m seqOffset = seq then .accepted sample else .idle)
  | .accepted _ => none

/-- A reader begins, or it sees an odd number and has to wait. -/
def startRead (m : Bytes) (k : ℕ) : Reader → Option Reader
  | .idle | .accepted _ =>
    some (if readU32 m seqOffset % 2 = 0 then .begun k (readU32 m seqOffset) else .idle)
  | _ => none

/-- One step. -/
def step (startSecs : UInt64) (s : VdsoSystem) : VdsoStep → Option VdsoSystem
  | .update instant cycles =>
    match s.pending, s.data.updateInstant startSecs instant cycles with
    | [], .ok d => some { s with data := d, pending := d.updateWrites, updates := d :: s.updates }
    | _, _ => none
  | .write =>
    match s.pending with
    | [] => none
    | w :: ws => some { s with mem := apply s.mem w, pending := ws }
  | .start k =>
    if k < vdsoBases then (startRead s.mem k s.reader).map fun r => { s with reader := r } else none
  | .read => (nextRead s.mem s.reader).map fun r => { s with reader := r }

/-- Any interleaving of updates and reads. -/
def lts (startSecs : UInt64) : Lts VdsoSystem VdsoStep := Lts.ofFun (step startSecs)

end VdsoSystem

/-- The reader has read the sequence number and has not come back to it yet. -/
def Reader.busy : Reader → Bool
  | .idle => false
  | .accepted _ => false
  | _ => true

/-- The sample consists of what one update wrote. -/
def Sample.ComesFrom (r : Sample) (d : VdsoData) : Prop :=
  r.cycles = d.lastCycles ∧ r.time = d.basetime r.clock

instance (r : Sample) (d : VdsoData) : Decidable (r.ComesFrom d) :=
  inferInstanceAs (Decidable (_ ∧ _))

/-- The step does not end an update while the reader is at it. -/
def VdsoStep.Undisturbed (s : VdsoSystem) : VdsoStep → Prop
  | .write => s.pending.length = 1 → s.reader.busy = false
  | _ => True

instance (s : VdsoSystem) : (l : VdsoStep) → Decidable (l.Undisturbed s)
  | .write => inferInstanceAs (Decidable (_ → _))
  | .update _ _ => .isTrue trivial
  | .start _ => .isTrue trivial
  | .read => .isTrue trivial

/-! ### What the page holds -/

/-- The page shows the data, and no update is under way. -/
structure VdsoData.Shown (d : VdsoData) (m : Bytes) : Prop where
  seq : readU32 m seqOffset = 0
  cycles : readU64 m cyclesOffset = d.lastCycles
  time : ∀ k < vdsoBases, VdsoInstant.mk (readU64 m (secsOffset k)) (readU64 m (nanosOffset k)) =
    d.basetime k

/-- Data that an update can lead to: the clocks that it does not write are the same. -/
def VdsoData.Follows (d p : VdsoData) : Prop :=
  ∀ k, (∀ c ∈ allSupportedClockIds, c.index ≠ k) → d.basetime k = p.basetime k

section Shown

variable {o k : ℕ} {instant : Instant} {w : ByteWrite}

theorem readU32_of_bytes {b : ℕ} (h : readAt m o 4 = toLe 4 b) (hb : b < 2 ^ 32) :
    readU32 m o = b := by
  rw [readU32, h, ofLe_toLe (by simpa using hb)]

theorem readU64_of_bytes {x : UInt64} (h : readAt m o 8 = toLe 8 x.toNat) : readU64 m o = x := by
  rw [readU64, h, ofLe_toLe (by simpa using x.toNat_lt), UInt64.ofNat_toNat]

theorem follows_updateClocks {cs : List ClockId} (h : d.updateClocks startSecs instant cs = .ok p)
    (hk : ∀ c ∈ cs, c.index ≠ k) : p.basetime k = d.basetime k := by
  induction cs generalizing d with
  | nil =>
    cases h
    rfl
  | cons c cs ih =>
    obtain ⟨secs, -, h⟩ := Result.bind_ok.1 h
    rw [ih h fun c' hc' => hk c' (mem_cons_of_mem _ hc')]
    exact Function.update_of_ne (hk c mem_cons_self).symm _ _

theorem follows_updateInstant {cycles : UInt64}
    (h : p.updateInstant startSecs instant cycles = .ok d) : d.Follows p := by
  intro k hk
  rw [follows_updateClocks h hk]

theorem length_basetimeBytes (d : VdsoData) (k : ℕ) : (d.basetimeBytes k).length = 16 := by
  simp [VdsoData.basetimeBytes]

/-- The entries before `k`, the entry `k` and the entries after it. -/
theorem flatMap_basetimeBytes (d : VdsoData) (hk : k < vdsoBases) :
    ∃ cs, (range vdsoBases).flatMap d.basetimeBytes =
      (range k).flatMap d.basetimeBytes ++ d.basetimeBytes k ++ cs := by
  obtain ⟨r, hr⟩ := Nat.exists_eq_add_of_lt hk
  rw [hr, Nat.add_assoc, range_add, range_succ_eq_map, map_cons, flatMap_append,
    flatMap_cons, ← append_assoc]
  exact ⟨_, rfl⟩

theorem length_flatMap_basetimeBytes (d : VdsoData) (k : ℕ) :
    ((range k).flatMap d.basetimeBytes).length = k * 16 := by
  simp [length_basetimeBytes]

/-- Where an entry is in the bytes of the data. -/
theorem asBytes_basetime (d : VdsoData) (hk : k < vdsoBases) :
    ∃ as cs, d.asBytes = as ++ d.basetimeBytes k ++ cs ∧ as.length = 0x20 + k * 16 := by
  obtain ⟨cs, hcs⟩ := flatMap_basetimeBytes d hk
  refine ⟨toLe 4 0 ++ toLe 4 d.clockMode ++ toLe 8 d.lastCycles.toNat ++
    (toLe 8 0 ++ toLe 4 d.mult ++ toLe 4 d.shift) ++ (range k).flatMap d.basetimeBytes,
    cs ++ replicate 16 0, ?_, ?_⟩
  · simp only [VdsoData.asBytes, hcs, append_assoc]
  · simp only [length_append, length_toLe, length_flatMap_basetimeBytes]

/-- The two words of an entry. -/
theorem basetime_of_bytes {t : VdsoInstant}
    (h : readAt m o 16 = toLe 8 t.secs.toNat ++ toLe 8 t.nanosLshift.toNat) :
    VdsoInstant.mk (readU64 m o) (readU64 m (o + 8)) = t := by
  rw [readAt_add m o 8 8] at h
  obtain ⟨hsecs, hnanos⟩ := append_inj h (by simp)
  rw [readU64_of_bytes hsecs, readU64_of_bytes hnanos]

theorem basetime_congr {m' : Bytes} (h : readAt m o 16 = readAt m' o 16) :
    VdsoInstant.mk (readU64 m o) (readU64 m (o + 8)) = ⟨readU64 m' o, readU64 m' (o + 8)⟩ := by
  rw [readAt_add m o 8 8, readAt_add m' o 8 8] at h
  obtain ⟨hsecs, hnanos⟩ := append_inj h (by simp)
  rw [readU64, readU64, readU64, readU64, hsecs, hnanos]

theorem nanosOffset_eq (k : ℕ) : nanosOffset k = secsOffset k + 8 := by
  unfold nanosOffset secsOffset
  omega

/-- The page that `Vdso::new` writes shows its data. -/
theorem VdsoData.shown_new (d : VdsoData) :
    d.Shown (writeAt (fun _ => 0) seqOffset d.asBytes) where
  seq := by
    have hread := readAt_writeAt_part (fun _ => 0) seqOffset [] (toLe 4 0) (d.asBytes.drop 4)
    exact readU32_of_bytes hread (by decide)
  cycles := by
    refine readU64_of_bytes ?_
    have hread := readAt_writeAt_part (fun _ => 0) seqOffset (toLe 4 0 ++ toLe 4 d.clockMode)
      (toLe 8 d.lastCycles.toNat) (d.asBytes.drop 16)
    rwa [length_toLe] at hread
  time k hk := by
    obtain ⟨as, cs, hbytes, hlen⟩ := asBytes_basetime d hk
    have hread := readAt_writeAt_part (fun _ => 0) seqOffset as (d.basetimeBytes k) cs
    rw [← hbytes, hlen] at hread
    have hsecs : seqOffset + (0x20 + k * 16) = secsOffset k := by
      unfold seqOffset secsOffset
      omega
    rw [hsecs] at hread
    rw [nanosOffset_eq]
    exact basetime_of_bytes hread

/-! ### The writes of an update -/

theorem fieldWrites_apart (d : VdsoData) : d.fieldWrites.Pairwise fun w w' => w'.Apart w := by
  simp [VdsoData.fieldWrites, VdsoData.instantWrites, allSupportedClockIds, Apart,
    cyclesOffset, secsOffset, nanosOffset, ClockId.index]

theorem mem_fieldWrites : w ∈ d.fieldWrites ↔
    w = (cyclesOffset, toLe 8 d.lastCycles.toNat) ∨
      ∃ c ∈ allSupportedClockIds, w ∈ d.instantWrites c := by
  rw [VdsoData.fieldWrites, mem_cons, mem_flatMap]

theorem apart_seq (hw : w ∈ d.fieldWrites) (b : ℕ) : w.Apart (seqOffset, toLe 4 b) := by
  refine .inr ?_
  rw [length_toLe]
  rcases mem_fieldWrites.1 hw with rfl | ⟨c, -, hw⟩
  · exact Nat.le_of_ble_eq_true rfl
  · simp only [VdsoData.instantWrites, mem_cons, not_mem_nil, or_false] at hw
    rcases hw with rfl | rfl <;> simp only [seqOffset, secsOffset, nanosOffset] <;> omega

/-- A clock that the update does not write stays. -/
theorem apart_time (hw : w ∈ d.fieldWrites) (hk : ∀ c ∈ allSupportedClockIds, c.index ≠ k) :
    w.Apart (secsOffset k, d.basetimeBytes k) := by
  unfold Apart
  rw [length_basetimeBytes]
  rcases mem_fieldWrites.1 hw with rfl | ⟨c, hc, hw⟩
  · rw [length_toLe]
    simp only [cyclesOffset, secsOffset]
    omega
  · have hne := hk c hc
    simp only [VdsoData.instantWrites, mem_cons, not_mem_nil, or_false] at hw
    rcases hw with rfl | rfl <;> simp only [length_toLe, secsOffset, nanosOffset] <;> omega

theorem updateWrites_foldl (d : VdsoData) (m : Bytes) : d.updateWrites.foldl apply m =
    apply (d.fieldWrites.foldl apply (apply m (seqOffset, toLe 4 1)))
      (seqOffset, toLe 4 0) := by
  rw [VdsoData.updateWrites, foldl_cons, foldl_append, foldl_cons, foldl_nil]

/-- A field that the update writes. -/
theorem readAt_update_of_mem {bs : List UInt8} (h : (o, bs) ∈ d.fieldWrites) :
    readAt (d.updateWrites.foldl apply m) o bs.length = bs := by
  rw [updateWrites_foldl, readAt_apply_of_apart (apart_seq h 0).symm,
    readAt_foldl_of_mem (fieldWrites_apart d) h]

/-- A clock that the update does not write. -/
theorem readAt_update_of_apart (hk : ∀ c ∈ allSupportedClockIds, c.index ≠ k) :
    readAt (d.updateWrites.foldl apply m) (secsOffset k) 16 = readAt m (secsOffset k) 16 := by
  have hseq : ∀ b, Apart (seqOffset, toLe 4 b) (secsOffset k, d.basetimeBytes k) := by
    intro b
    refine .inl ?_
    rw [length_toLe]
    simp only [seqOffset, secsOffset]
    omega
  rw [← length_basetimeBytes d k, updateWrites_foldl, readAt_apply_of_apart (hseq 0),
    readAt_foldl_of_apart fun w hw => apart_time hw hk, readAt_apply_of_apart (hseq 1)]

/-- **After all writes of an update the page shows its data.** -/
theorem VdsoData.Shown.update (h : p.Shown m) (hd : d.Follows p) :
    d.Shown (d.updateWrites.foldl apply m) where
  seq := by
    have hread := readAt_writeAt
      (d.fieldWrites.foldl apply (apply m (seqOffset, toLe 4 1))) seqOffset
      (toLe 4 0)
    exact readU32_of_bytes hread (by decide)
  cycles := by
    have hmem : (cyclesOffset, toLe 8 d.lastCycles.toNat) ∈ d.fieldWrites := mem_cons_self
    have hread := readAt_update_of_mem (m := m) hmem
    exact readU64_of_bytes hread
  time k hk := by
    by_cases hc : ∃ c ∈ allSupportedClockIds, c.index = k
    · obtain ⟨c, hc, rfl⟩ := hc
      have hmem : ∀ w ∈ d.instantWrites c, w ∈ d.fieldWrites := fun w hw =>
        mem_fieldWrites.2 (.inr ⟨c, hc, hw⟩)
      have hsecs := readAt_update_of_mem (m := m) (hmem _ mem_cons_self)
      have hnanos := readAt_update_of_mem (m := m) (hmem _ (mem_cons_of_mem _ mem_cons_self))
      rw [readU64_of_bytes hsecs, readU64_of_bytes hnanos]
    · have hc : ∀ c ∈ allSupportedClockIds, c.index ≠ k := fun c hmem hidx => hc ⟨c, hmem, hidx⟩
      rw [hd k hc, ← h.time k hk, nanosOffset_eq]
      exact basetime_congr (readAt_update_of_apart hc)

/-- In the middle of an update the sequence number is 1. -/
theorem seq_of_updating {done pending : List ByteWrite} (h : done ++ pending = d.updateWrites)
    (hdone : done ≠ []) (hpending : pending ≠ []) : readU32 (done.foldl apply m) seqOffset = 1 := by
  obtain ⟨w, done, rfl⟩ := exists_cons_of_ne_nil hdone
  obtain ⟨pending, w', rfl⟩ := eq_nil_or_concat pending |>.resolve_left hpending
  rw [VdsoData.updateWrites, cons_append, cons.injEq, concat_eq_append, ← append_assoc] at h
  obtain ⟨rfl, h⟩ := h
  obtain ⟨hfields, -⟩ := append_inj' h rfl
  have hapart : ∀ w ∈ done, w.Apart (seqOffset, toLe 4 1) := fun w hw =>
    apart_seq (hfields ▸ mem_append_left _ hw) 1
  have hread := (readAt_foldl_of_apart hapart).trans (readAt_writeAt m seqOffset (toLe 4 1))
  exact readU32_of_bytes hread (by decide)

end Shown

/-! ### The invariant -/

/-- What the reader has read so far fits the data. -/
def Reader.Fits (p : VdsoData) : Reader → Prop
  | .idle => True
  | .begun k seq => k < vdsoBases ∧ seq = 0
  | .readCycles k seq cycles => k < vdsoBases ∧ seq = 0 ∧ cycles = p.lastCycles
  | .readSecs k seq cycles secs =>
    k < vdsoBases ∧ seq = 0 ∧ cycles = p.lastCycles ∧ secs = (p.basetime k).secs
  | .readAll seq sample => seq = 0 ∧ sample.ComesFrom p
  | .accepted _ => True

/-- The sequence number that the reader has seen is 0. -/
def Reader.SawZero : Reader → Prop
  | .idle => True
  | .begun _ seq => seq = 0
  | .readCycles _ seq _ => seq = 0
  | .readSecs _ seq _ _ => seq = 0
  | .readAll seq _ => seq = 0
  | .accepted _ => True

theorem Reader.Fits.sawZero (h : r.Fits p) : r.SawZero := by
  cases r with
  | idle | accepted sample => trivial
  | begun k seq => exact h.2
  | readCycles k seq cycles | readSecs k seq cycles secs => exact h.2.1
  | readAll seq sample => exact h.1

theorem Reader.fits_of_not_busy (h : r.busy = false) : r.Fits p := by
  cases r with
  | idle | accepted sample => trivial
  | begun k seq => cases h
  | readCycles k seq cycles | readSecs k seq cycles secs | readAll seq sample => cases h

namespace VdsoSystem

variable {s s' : VdsoSystem} {r r' : Reader}

/-- Where the kernel is.  Before the first write of an update the page shows the data `p` of an
update and the reader has read nothing else; after it, the sequence number is 1. -/
inductive Phase (s : VdsoSystem) : Prop
  | quiet (p : VdsoData) (hp : p ∈ s.updates) (hshown : p.Shown s.mem) (hreader : s.reader.Fits p)
      (hpending : s.pending = [] ∧ s.data = p ∨ s.pending = s.data.updateWrites ∧ s.data.Follows p)
  | updating (p : VdsoData) (m : Bytes) (done : List ByteWrite) (hshown : p.Shown m)
      (hwrites : done ++ s.pending = s.data.updateWrites) (hdone : done ≠ [])
      (hpending : s.pending ≠ []) (hmem : s.mem = done.foldl apply m)
      (hfollows : s.data.Follows p) (hreader : s.reader.SawZero)

/-- The invariant of all runs in which no update ends while the reader is at it. -/
structure Inv (s : VdsoSystem) : Prop where
  phase : s.Phase
  data_mem : s.data ∈ s.updates
  accepted : ∀ x, s.reader = .accepted x → ∃ u ∈ s.updates, x.ComesFrom u

theorem inv_new (d : VdsoData) : (new d).Inv where
  phase := .quiet d mem_cons_self d.shown_new trivial (.inl ⟨rfl, rfl⟩)
  data_mem := mem_cons_self
  accepted _ h := nomatch h

theorem Inv.update (h : s.Inv) (hpending : s.pending = []) (hd : d.Follows s.data) :
    Inv { s with data := d, pending := d.updateWrites, updates := d :: s.updates } where
  phase := by
    cases h.phase with
    | updating p m done hshown hwrites hdone hne => exact absurd hpending hne
    | quiet p hp hshown hreader hcases =>
      refine .quiet p (mem_cons_of_mem _ hp) hshown hreader (.inr ⟨rfl, ?_⟩)
      rcases hcases with ⟨-, rfl⟩ | ⟨hall, -⟩
      · exact hd
      · rw [hpending] at hall
        cases hall
  data_mem := mem_cons_self
  accepted x hx := by
    obtain ⟨u, hu, hfrom⟩ := h.accepted x hx
    exact ⟨u, mem_cons_of_mem _ hu, hfrom⟩

theorem Inv.write (h : s.Inv) {ws : List ByteWrite} (hpending : s.pending = w :: ws)
    (hquiet : s.pending.length = 1 → s.reader.busy = false) :
    Inv { s with mem := apply s.mem w, pending := ws } where
  phase := by
    cases h.phase with
    | quiet p hp hshown hreader hcases =>
      rcases hcases with ⟨hnil, -⟩ | ⟨hall, hfollows⟩
      · rw [hpending] at hnil
        cases hnil
      · rw [hpending] at hall
        refine .updating p s.mem [w] hshown hall (cons_ne_nil _ _) ?_ rfl hfollows hreader.sawZero
        rintro rfl
        cases hall
    | updating p m done hshown hwrites hdone hne hmem hfollows hreader =>
      have hmem' : apply s.mem w = (done ++ [w]).foldl apply m := by
        rw [foldl_append, hmem]
        rfl
      have hwrites' : done ++ [w] ++ ws = s.data.updateWrites := by
        rw [← hwrites, hpending, append_assoc]
        rfl
      by_cases hlast : ws = []
      · subst hlast
        rw [append_nil] at hwrites'
        have hbusy : s.reader.busy = false := hquiet (hpending ▸ rfl)
        refine .quiet s.data h.data_mem ?_ (Reader.fits_of_not_busy hbusy) (.inl ⟨rfl, rfl⟩)
        rw [hmem', hwrites']
        exact hshown.update hfollows
      · have hdone' : done ++ [w] ≠ [] :=
          append_ne_nil_of_right_ne_nil _ (cons_ne_nil _ _)
        exact .updating p m (done ++ [w]) hshown hwrites' hdone' hlast hmem' hfollows hreader
  data_mem := h.data_mem
  accepted := h.accepted

/-- A step of the reader keeps the invariant if what it leads to fits the page, and in the middle of
an update if it has not accepted. -/
theorem Inv.reader (h : s.Inv) (hquiet : ∀ p, p.Shown s.mem → s.reader.Fits p →
      r.Fits p ∧ ∀ x, r = .accepted x → x.ComesFrom p)
    (hupdating : readU32 s.mem seqOffset = 1 → s.reader.SawZero →
      r.SawZero ∧ ∀ x, r ≠ .accepted x) : Inv { s with reader := r } := by
  cases h.phase with
  | quiet p hp hshown hreader hcases =>
    obtain ⟨hfits, hfrom⟩ := hquiet p hshown hreader
    exact ⟨.quiet p hp hshown hfits hcases, h.data_mem, fun x hx => ⟨p, hp, hfrom x hx⟩⟩
  | updating p m done hshown hwrites hdone hne hmem hfollows hreader =>
    have hseq : readU32 s.mem seqOffset = 1 := hmem ▸ seq_of_updating hwrites hdone hne
    obtain ⟨hzero, hnot⟩ := hupdating hseq hreader
    exact ⟨.updating p m done hshown hwrites hdone hne hmem hfollows hzero, h.data_mem,
      fun x hx => absurd hx (hnot x)⟩

theorem Inv.startRead (h : s.Inv) {k : ℕ} (hk : k < vdsoBases)
    (hr : VdsoSystem.startRead s.mem k s.reader = some r) : Inv { s with reader := r } := by
  have hr' : r = if readU32 s.mem seqOffset % 2 = 0 then .begun k (readU32 s.mem seqOffset)
      else .idle := by
    unfold VdsoSystem.startRead at hr
    split at hr
    · exact (Option.some.inj hr).symm
    · exact (Option.some.inj hr).symm
    · cases hr
  subst hr'
  refine h.reader (fun p hshown _ => ?_) fun hseq _ => ?_
  · rw [hshown.seq]
    exact ⟨⟨hk, rfl⟩, nofun⟩
  · rw [hseq]
    exact ⟨trivial, nofun⟩

/-- While no update is under way, the reader reads the data that the page shows. -/
theorem fits_nextRead (hshown : p.Shown m) (hfits : r.Fits p) (hr : nextRead m r = some r') :
    r'.Fits p ∧ ∀ x, r' = .accepted x → x.ComesFrom p := by
  cases r with
  | idle | accepted x => cases hr
  | begun k seq =>
    cases hr
    exact ⟨⟨hfits.1, hfits.2, hshown.cycles⟩, nofun⟩
  | readCycles k seq cycles =>
    cases hr
    obtain ⟨hk, hseq, hcycles⟩ := hfits
    refine ⟨⟨hk, hseq, hcycles, ?_⟩, nofun⟩
    rw [← hshown.time k hk]
  | readSecs k seq cycles secs =>
    cases hr
    obtain ⟨hk, hseq, hcycles, rfl⟩ := hfits
    refine ⟨⟨hseq, hcycles, ?_⟩, nofun⟩
    rw [← hshown.time k hk]
  | readAll seq x =>
    obtain ⟨rfl, hfrom⟩ := hfits
    rw [nextRead, if_pos hshown.seq] at hr
    cases hr
    refine ⟨trivial, fun y hy => ?_⟩
    cases hy
    exact hfrom

/-- In the middle of an update no reader accepts. -/
theorem sawZero_nextRead (hseq : readU32 m seqOffset = 1) (hzero : r.SawZero)
    (hr : nextRead m r = some r') : r'.SawZero ∧ ∀ x, r' ≠ .accepted x := by
  cases r with
  | idle | accepted x => cases hr
  | begun k seq | readCycles k seq cycles | readSecs k seq cycles secs =>
    cases hr
    exact ⟨hzero, nofun⟩
  | readAll seq x =>
    change seq = 0 at hzero
    rw [nextRead, if_neg (by omega)] at hr
    cases hr
    exact ⟨trivial, nofun⟩

theorem Inv.nextRead (h : s.Inv) (hr : VdsoSystem.nextRead s.mem s.reader = some r) :
    Inv { s with reader := r } :=
  h.reader (fun _ hshown hfits => fits_nextRead hshown hfits hr)
    fun hseq hzero => sawZero_nextRead hseq hzero hr

theorem Inv.step (h : s.Inv) {l : VdsoStep} (hl : l.Undisturbed s)
    (hs : VdsoSystem.step startSecs s l = some s') : s'.Inv := by
  cases l with
  | update instant cycles =>
    rw [VdsoSystem.step] at hs
    split at hs
    next d hpending hd =>
      cases hs
      exact h.update hpending (follows_updateInstant hd)
    next => cases hs
  | write =>
    rw [VdsoSystem.step] at hs
    split at hs
    next => cases hs
    next w ws hpending =>
      cases hs
      exact h.write hpending hl
  | start k =>
    rw [VdsoSystem.step] at hs
    split_ifs at hs with hk
    obtain ⟨r, hr, rfl⟩ := Option.map_eq_some_iff.1 hs
    exact h.startRead hk hr
  | read =>
    obtain ⟨r, hr, rfl⟩ := Option.map_eq_some_iff.1 hs
    exact h.nextRead hr

/-- **Torn reads need an update that ends under the reader.**  In every run in which no update does
its last write while the reader is between its two reads of the sequence number, all values that the
reader accepts come from the same update. -/
theorem accepted_of_undisturbed {d : VdsoData}
    (h : ((lts startSecs).restrict fun s l => l.Undisturbed s).Reachable (new d) s) {x : Sample}
    (hx : s.reader = .accepted x) : ∃ u ∈ s.updates, x.ComesFrom u :=
  (h.invariant (inv_new d) fun _ _ _ hs hstep => hs.step hstep.1 hstep.2).accepted x hx

/-- The data at boot. -/
def bootData : VdsoData := ⟨1, 0, 1, 0, Nat.zero_le _, fun _ => ⟨0, 0⟩⟩

/-- A whole update, five seconds after the boot. -/
def wholeUpdate : List VdsoStep := .update ⟨5, 0⟩ 100 :: replicate 15 .write

/-- A read of the monotonic clock after the update. -/
def readAfterUpdate : List VdsoStep := wholeUpdate ++ .start 1 :: replicate 4 .read

theorem accepted_after_update : ∃ s : VdsoSystem,
    ((lts 0).restrict fun s l => l.Undisturbed s).Reachable (new bootData) s ∧
      s.reader = .accepted ⟨1, 100, 5, 0⟩ ∧ ∃ u ∈ s.updates, Sample.ComesFrom ⟨1, 100, 5, 0⟩ u := by
  obtain ⟨s, hreach, hreader⟩ := Lts.exists_run_restrict (VdsoSystem.step 0) (new bootData)
    readAfterUpdate (fun s => s.reader = .accepted ⟨1, 100, 5, 0⟩) (fun s l => l.Undisturbed s)
    (by decide +kernel)
  exact ⟨s, hreach, hreader, accepted_of_undisturbed hreach hreader⟩

/-- The update takes place after the reader has read the cycles. -/
def updateDuringRead : List VdsoStep :=
  [.start 1, .read] ++ wholeUpdate ++ replicate 3 .read

/-- The reader accepts the cycles of the boot with the time of the update. -/
theorem exists_torn_read : ∃ s : VdsoSystem, (lts 0).Reachable (new bootData) s ∧
    ∃ x, s.reader = .accepted x ∧ ∀ u ∈ s.updates, ¬ x.ComesFrom u := by
  obtain ⟨s, hreach, hreader, hnone⟩ := Lts.exists_run (VdsoSystem.step 0) (new bootData)
    updateDuringRead (fun s => s.reader = .accepted ⟨1, 0, 5, 0⟩ ∧
      ∀ u ∈ s.updates, ¬ Sample.ComesFrom ⟨1, 0, 5, 0⟩ u) (by decide +kernel)
  exact ⟨s, hreach, _, hreader, hnone⟩

end VdsoSystem

end Jinux
