import Mathlib.Data.List.TakeWhile
import Jinux.Ext2.Dir

/-!
# The records of a directory

A page cache represents a list of records if their headers and names stand in its bytes one after
the other and the records fill it (`PageCache.Rep`).

* `Rep.readEntries_eq`, `Rep.entries_eq` : the reader yields the records and ends;
* `Rep.splice` : overwriting some records by others of the same extent leaves the rest alone.
-/

namespace Jinux

open Result List DirEntry Nat

variable {o : ℕ} {r : Record} {rs ts : List Record} {e : DirEntry}

/-- A name of a directory entry, up to 255 bytes and without the null terminator. -/
structure FileName where
  bytes : List UInt8
  length_le : bytes.length ≤ maxFnameLen
  nul_notMem : 0 ∉ bytes
  deriving DecidableEq

/-- What a directory entry says: the inode number and the type of a name.  Inode numbers start from
1, since 0 marks the end of a directory. -/
structure Link where
  name : FileName
  ino : ℕ
  type : FileType
  ino_pos : 0 < ino
  ino_lt : ino < u32Bound
  deriving DecidableEq

/-- A record of a directory: an entry and the distance to the next one. -/
structure Record where
  link : Link
  len : ℕ

namespace Link

/-- The length of the header and the name, aligned. -/
def actualLen (l : Link) : ℕ := align4 (headerLen + l.name.bytes.length)

/-- The entry as it is stored, in a record of length `len`. -/
def entry (l : Link) (len : ℕ) : DirEntry :=
  ⟨l.ino, len, l.name.bytes.length, l.type.indicator, l.name.bytes⟩

/-- The entry under another name. -/
def rename (l : Link) (name : FileName) : Link := { l with name := name }

variable (l : Link)

theorem headerLen_add_le_actualLen : 8 + l.name.bytes.length ≤ l.actualLen := by
  unfold actualLen align4 headerLen
  omega

theorem actualLen_le : l.actualLen ≤ 264 := by
  have hname : l.name.bytes.length ≤ 255 := l.name.length_le
  unfold actualLen align4 headerLen
  omega

@[simp] theorem actualLen_entry (len : ℕ) : (l.entry len).actualLen = l.actualLen := rfl

@[simp] theorem recordLen_entry (len : ℕ) : (l.entry len).recordLen = len := rfl

@[simp] theorem name_entry (len : ℕ) : (l.entry len).name = l.name.bytes := rfl

@[simp] theorem type_entry (len : ℕ) : (l.entry len).type = .ok l.type :=
  FileType.ofIndicator_indicator l.type

theorem setRecordLen_entry {len len' : ℕ} (hle : l.actualLen ≤ len') (hlt : len' < u16Bound) :
    (l.entry len).setRecordLen len' = .ok (l.entry len') := by
  simp only [setRecordLen, bind_ok, debugAssert_ok]
  exact ⟨(), hle, by rw [mod_eq_of_lt hlt]; rfl⟩

end Link

theorem FileName.cStr256_bytes (n : FileName) : cStr256 n.bytes = n.bytes := by
  have hall : n.bytes.takeWhile (· ≠ 0) = n.bytes := by
    refine takeWhile_eq_self_iff.2 fun b hb => ?_
    have hne : b ≠ 0 := fun h => n.nul_notMem (h ▸ hb)
    simpa using hne
  rw [cStr256, hall]
  exact take_of_length_le n.length_le

/-- The entry that `DirEntry::new` makes. -/
theorem DirEntry.new_link (l : Link) :
    new l.ino l.name.bytes l.type = .ok (l.entry l.actualLen) := by
  have hname : l.name.bytes.length ≤ 255 := l.name.length_le
  have hlen := l.actualLen_le
  have hmod : l.actualLen % u16Bound = l.actualLen := mod_eq_of_lt (by unfold u16Bound; omega)
  simp only [new, bind_ok, debugAssert_ok, pure_ok]
  refine ⟨(), l.name.length_le, ?_⟩
  change (⟨_, l.actualLen % u16Bound, _ % 256, _, _⟩ : DirEntry) = _
  rw [hmod, mod_eq_of_lt (by omega), l.name.cStr256_bytes]
  rfl

theorem DirEntry.length_headerBytes (e : DirEntry) : e.headerBytes.length = 8 := by
  simp [headerBytes]

/-- Reading a header back. -/
theorem DirEntry.ofHeaderBytes_headerBytes (hino : e.ino < u32Bound) (hlen : e.recordLen < u16Bound)
    (hname : e.nameLen < 256) (htype : e.fileType < 256) :
    ofHeaderBytes e.headerBytes = { e with name := [] } := by
  have hbytes : e.headerBytes =
      toLe 4 e.ino ++ (toLe 2 e.recordLen ++ (toLe 1 e.nameLen ++ toLe 1 e.fileType)) := by
    simp [headerBytes]
  have h4 : e.headerBytes.drop 4 = toLe 2 e.recordLen ++ (toLe 1 e.nameLen ++ toLe 1 e.fileType) :=
    by rw [hbytes, drop_left' (length_toLe _ _)]
  have h6 : e.headerBytes.drop 6 = toLe 1 e.nameLen ++ toLe 1 e.fileType := by
    rw [show 6 = 4 + 2 by rfl, ← drop_drop, h4, drop_left' (length_toLe _ _)]
  have h7 : e.headerBytes.drop 7 = toLe 1 e.fileType := by
    rw [show 7 = 6 + 1 by rfl, ← drop_drop, h6, drop_left' (length_toLe _ _)]
  unfold ofHeaderBytes
  rw [h4, h6, h7, hbytes, take_left' (length_toLe _ _), take_left' (length_toLe _ _),
    take_left' (length_toLe _ _), take_of_length_le (length_toLe _ _).le,
    ofLe_toLe hino, ofLe_toLe hlen, ofLe_toLe hname, ofLe_toLe htype]

namespace Record

/-- The free bytes behind the name. -/
def gap (r : Record) : ℕ := r.len - r.link.actualLen

/-- The record is long enough for its entry, and its length is a `u16`. -/
structure Valid (r : Record) : Prop where
  actualLen_le : r.link.actualLen ≤ r.len
  len_lt : r.len < u16Bound

/-- How many bytes some records take. -/
def extent (rs : List Record) : ℕ := (rs.map len).sum

@[simp] theorem extent_nil : extent [] = 0 := rfl

@[simp] theorem extent_cons (r : Record) (rs : List Record) :
    extent (r :: rs) = r.len + extent rs := rfl

@[simp] theorem extent_append (rs ts : List Record) :
    extent (rs ++ ts) = extent rs + extent ts := by
  simp [extent]

/-- The entry `r` stands at the offset `o`. -/
def Holds (b : Bytes) (o : ℕ) (r : Record) : Prop :=
  readAt b o 8 = (r.link.entry r.len).headerBytes ∧
    readAt b (o + 8) r.link.name.bytes.length = r.link.name.bytes

/-- The records stand one after the other from the offset `o` on. -/
def Stored (b : Bytes) : ℕ → List Record → Prop
  | _, [] => True
  | o, r :: rs => r.Holds b o ∧ Stored b (o + r.len) rs

/-- The records with their offsets, as the reader yields them. -/
def withOffsets : ℕ → List Record → List (ℕ × DirEntry)
  | _, [] => []
  | o, r :: rs => (o, r.link.entry r.len) :: withOffsets (o + r.len) rs

variable {b b' : Bytes}

theorem Holds.congr (h : r.Holds b o) (hb : ∀ a, o ≤ a → a < o + r.link.actualLen → b' a = b a) :
    r.Holds b' o := by
  have hlen := r.link.headerLen_add_le_actualLen
  refine ⟨?_, ?_⟩
  · rw [← h.1]
    exact readAt_congr fun a h1 h2 => hb a h1 (by omega)
  · nth_rewrite 2 [← h.2]
    exact readAt_congr fun a h1 h2 => hb a (by omega) (by omega)

theorem stored_append : Stored b o (rs ++ ts) ↔ Stored b o rs ∧ Stored b (o + extent rs) ts := by
  induction rs generalizing o with
  | nil => simp [Stored]
  | cons r rs ih => simp [Stored, ih, and_assoc, add_assoc]

theorem Stored.congr (h : Stored b o rs) (hv : ∀ r ∈ rs, r.Valid)
    (hb : ∀ a, o ≤ a → a < o + extent rs → b' a = b a) : Stored b' o rs := by
  induction rs generalizing o with
  | nil => trivial
  | cons r rs ih =>
    have hr := (hv r mem_cons_self).actualLen_le
    rw [extent_cons] at hb
    refine ⟨h.1.congr fun a h1 h2 => hb a h1 (by omega), ?_⟩
    exact ih h.2 (fun r hr => hv r (mem_cons_of_mem _ hr)) fun a h1 h2 => hb a (by omega) (by omega)

@[simp] theorem withOffsets_append :
    withOffsets o (rs ++ ts) = withOffsets o rs ++ withOffsets (o + extent rs) ts := by
  induction rs generalizing o with
  | nil => simp [withOffsets]
  | cons r rs ih => simp [withOffsets, ih, add_assoc]

theorem length_le_extent (hv : ∀ r ∈ rs, r.Valid) : rs.length ≤ extent rs := by
  induction rs with
  | nil => rfl
  | cons r rs ih =>
    have hr := (hv r mem_cons_self).actualLen_le
    have hlen := r.link.headerLen_add_le_actualLen
    have hrs := ih fun r hr => hv r (mem_cons_of_mem _ hr)
    rw [length_cons, extent_cons]
    omega

end Record

namespace PageCache

open Record

variable {c : PageCache} {n : ℕ}

theorem readBytes_of_le {len : ℕ} (h : o + len ≤ c.size) :
    c.readBytes o len = .ok (readAt c.bytes o len) := if_neg (by omega)

theorem readEntry_of_holds (h : r.Holds c.bytes o) (hv : r.Valid) (hle : o + r.len ≤ c.size) :
    c.readEntry o = .ok (r.link.entry r.len) := by
  have hlen := r.link.headerLen_add_le_actualLen
  have hfits := hv.actualLen_le
  have hname : r.link.name.bytes.length ≤ 255 := r.link.name.length_le
  have hdecode := ofHeaderBytes_headerBytes (e := r.link.entry r.len) r.link.ino_lt
    hv.len_lt (show r.link.name.bytes.length < 256 by omega)
    (show r.link.type.indicator < 256 by cases r.link.type <;> decide)
  have hino : (r.link.entry r.len).ino ≠ 0 := r.link.ino_pos.ne'
  have hheader : c.readBytes o headerLen =
      .ok (r.link.entry r.len).headerBytes := by
    rw [headerLen, readBytes_of_le (by omega)]
    exact congrArg _ h.1
  have hbytes : c.readBytes (o + headerLen) r.link.name.bytes.length =
      .ok r.link.name.bytes := by
    rw [headerLen, readBytes_of_le (by omega)]
    exact congrArg _ h.2
  rw [readEntry, bind_ok]
  refine ⟨_, hheader, ?_⟩
  rw [hdecode, if_neg hino, bind_ok]
  refine ⟨_, hbytes, ?_⟩
  rw [r.link.name.cStr256_bytes]
  rfl

theorem readEntry_of_size_le (h : c.size ≤ o) : ∃ f, c.readEntry o = .error f := by
  refine ⟨.err ⟨.einval, some "read range exceeds vmo size"⟩, ?_⟩
  rw [readEntry, readBytes, headerLen, if_pos (by omega)]
  rfl

/-- Writing a record. -/
theorem writeEntry_record (hv : r.Valid) (hle : o + r.len ≤ c.size) :
    ∃ b, c.writeEntry o (r.link.entry r.len) = .ok ⟨c.size, b⟩ ∧ r.Holds b o ∧
      ∀ a, a < o ∨ o + r.link.actualLen ≤ a → b a = c.bytes a := by
  have hlen := r.link.headerLen_add_le_actualLen
  have hfits := hv.actualLen_le
  have hheader := length_headerBytes (r.link.entry r.len)
  refine ⟨writeAt (writeAt c.bytes o (r.link.entry r.len).headerBytes) (o + 8)
    r.link.name.bytes, ?_, ⟨?_, readAt_writeAt _ _ _⟩, fun a ha => ?_⟩
  · simp only [writeEntry, writeBytes, bind_ok, debugAssert_ok]
    refine ⟨_, ⟨(), by omega, rfl⟩, (), ?_, rfl⟩
    change o + 8 + r.link.name.bytes.length ≤ c.size
    omega
  · have hkeep : readAt (writeAt (writeAt c.bytes o (r.link.entry r.len).headerBytes) (o + 8)
        r.link.name.bytes) o 8 =
        readAt (writeAt c.bytes o (r.link.entry r.len).headerBytes) o 8 :=
      readAt_congr fun a _ h => writeAt_of_lt (by omega)
    rw [hkeep]
    exact readAt_writeAt _ _ _
  · rw [writeAt_of_disjoint (by omega), writeAt_of_disjoint (by omega)]

/-- The page cache holds the records, and nothing behind them. -/
structure Rep (c : PageCache) (rs : List Record) : Prop where
  stored : Stored c.bytes 0 rs
  extent_eq : extent rs = c.size
  valid : ∀ r ∈ rs, r.Valid

theorem readEntries_of_ok (h : c.readEntry o = .ok e) :
    c.readEntries (n + 1) o = (o, e) :: c.readEntries n (o + e.recordLen) := by
  rw [readEntries, h]

theorem readEntries_of_error {f : Fault} (h : c.readEntry o = .error f) :
    c.readEntries n o = [] := by
  cases n with
  | zero => rfl
  | succ n => rw [readEntries, h]

theorem readEntries_of_stored (h : Stored c.bytes o rs)
    (hv : ∀ r ∈ rs, r.Valid) (hsize : o + extent rs = c.size) {rounds : ℕ}
    (hrounds : rs.length ≤ rounds) : c.readEntries rounds o = withOffsets o rs := by
  induction rs generalizing o rounds with
  | nil =>
    obtain ⟨f, hf⟩ := readEntry_of_size_le (c := c) (o := o) (by simp at hsize; omega)
    exact readEntries_of_error hf
  | cons r rs ih =>
    obtain ⟨rounds, rfl⟩ := Nat.exists_eq_add_of_lt (show 0 < rounds by simp at hrounds; omega)
    rw [extent_cons] at hsize
    have hread := readEntry_of_holds h.1 (hv r mem_cons_self) (by omega)
    rw [readEntries_of_ok hread]
    refine congrArg _ (ih h.2 (fun r hr => hv r (mem_cons_of_mem _ hr)) (by omega) ?_)
    rw [length_cons] at hrounds
    omega

/-- The reader yields the records from the one it starts at, and then ends. -/
theorem Rep.readEntries_eq (h : c.Rep (rs ++ ts)) {rounds : ℕ} (hrounds : c.size ≤ rounds) :
    c.readEntries rounds (extent rs) = withOffsets (extent rs) ts := by
  have hv : ∀ r ∈ ts, r.Valid := fun r hr => h.valid r (mem_append_right _ hr)
  have hstored := (stored_append.1 h.stored).2
  have hsize := h.extent_eq
  have hlen := length_le_extent hv
  rw [zero_add] at hstored
  rw [extent_append] at hsize
  exact readEntries_of_stored hstored hv hsize (by omega)

theorem Rep.entries_eq (h : c.Rep (rs ++ ts)) :
    c.entries (extent rs) = withOffsets (extent rs) ts := h.readEntries_eq le_rfl

theorem Rep.entries_zero (h : c.Rep rs) : c.entries 0 = withOffsets 0 rs :=
  (show c.Rep ([] ++ rs) from h).entries_eq

/-- Overwriting some records by others of the same extent. -/
theorem Rep.splice {xs ms ys : List Record} {b : Bytes} (h : c.Rep (xs ++ ms ++ ys))
    (ms' : List Record) (hms : Stored b (extent xs) ms') (hext : extent ms' = extent ms)
    (hv : ∀ r ∈ ms', r.Valid)
    (hb : ∀ a, a < extent xs ∨ extent xs + extent ms ≤ a → b a = c.bytes a) :
    Rep ⟨c.size, b⟩ (xs ++ ms' ++ ys) := by
  obtain ⟨hxs, hys⟩ := stored_append.1 h.stored
  obtain ⟨hxs, -⟩ := stored_append.1 hxs
  have hsize := h.extent_eq
  rw [zero_add, extent_append] at hys
  rw [extent_append, extent_append] at hsize
  have hvx : ∀ r ∈ xs, r.Valid := fun r hr => h.valid r (by simp [hr])
  have hvy : ∀ r ∈ ys, r.Valid := fun r hr => h.valid r (by simp [hr])
  refine ⟨stored_append.2 ⟨stored_append.2 ⟨?_, ?_⟩, ?_⟩, ?_, fun r hr => ?_⟩
  · exact hxs.congr hvx fun a _ ha => hb a (by omega)
  · rwa [zero_add]
  · rw [zero_add, extent_append, hext]
    exact hys.congr hvy fun a ha _ => hb a (by omega)
  · rw [extent_append, extent_append, hext]
    exact hsize
  · simp only [mem_append] at hr
    rcases hr with (hr | hr) | hr
    · exact hvx r hr
    · exact hv r hr
    · exact hvy r hr

end PageCache

end Jinux
