import Jinux.Ext2.Groups
import Jinux.Lib.Bytes

/-!
# Directory entries

A directory is a file of records.  A record is a header (inode number, record length, name length
and type indicator), the name, and a gap up to the next record.  `DirEntryReader` follows the record
lengths from an offset on, until a header cannot be read or has the inode number 0; `DirEntryWriter`
adds, removes and renames entries in place, and leaves old bytes behind in the gaps.

Names are the bytes of the source's strings; that they are valid UTF-8 plays no role here.
-/

namespace Jinux

/-- `FileType` -/
inductive FileType where
  | fifo
  | char
  | dir
  | block
  | file
  | symlink
  | socket
  deriving DecidableEq, Repr

/-- `DirEntryFileType::from(file_type) as u8` -/
def FileType.indicator : FileType → ℕ
  | .file => 1
  | .dir => 2
  | .char => 3
  | .block => 4
  | .fifo => 5
  | .socket => 6
  | .symlink => 7

/-- The type of an indicator; `Unknown` is 0. -/
def FileType.ofIndicator : ℕ → Result FileType
  | 1 => .ok .file
  | 2 => .ok .dir
  | 3 => .ok .char
  | 4 => .ok .block
  | 5 => .ok .fifo
  | 6 => .ok .socket
  | 7 => .ok .symlink
  | _ => .error (.panic .unwrap)

@[simp] theorem FileType.ofIndicator_indicator (t : FileType) :
    FileType.ofIndicator t.indicator = .ok t := by
  cases t <;> rfl

/-- The page cache of a file: the size and the bytes of its VMO. -/
structure PageCache where
  /-- The size, in bytes. -/
  size : ℕ
  bytes : Bytes

namespace PageCache

/-- `read_bytes` -/
def readBytes (c : PageCache) (o len : ℕ) : Result (List UInt8) :=
  if c.size < o + len then returnErrnoWithMessage .einval "read range exceeds vmo size"
  else pure (readAt c.bytes o len)

/-- `write_bytes` -/
def writeBytes (c : PageCache) (o : ℕ) (bs : List UInt8) : Result PageCache := do
  debugAssert (o + bs.length ≤ c.size)
  pure { c with bytes := writeAt c.bytes o bs }

/-- `resize`: what is cut off is gone, and a page that is new is zero. -/
def resize (c : PageCache) (newSize : ℕ) : Result PageCache := do
  let newSize ← alignUp newSize pageSize
  pure ⟨newSize, fun a => if a < c.size ∧ a < newSize then c.bytes a else 0⟩

end PageCache

/-- `BLOCK_SIZE` -/
def blockSize : ℕ := 4096

/-- `MAX_FNAME_LEN` -/
def maxFnameLen : ℕ := 255

/-- `CStr256::from`: the bytes before the first zero, and no more than 255. -/
def cStr256 (bs : List UInt8) : List UInt8 := (bs.takeWhile (· ≠ 0)).take 255

/-- `align_up(4)`, of the length of a record without its gap. -/
def align4 (n : ℕ) : ℕ := (n + 3) / 4 * 4

/-- `DirEntry`: the fields of the header and the name. -/
structure DirEntry where
  ino : ℕ
  recordLen : ℕ
  nameLen : ℕ
  fileType : ℕ
  name : List UInt8
  deriving DecidableEq

namespace DirEntry

/-- `header_len` -/
def headerLen : ℕ := 8

/-- `DirEntry::new` -/
def new (ino : ℕ) (name : List UInt8) (fileType : FileType) : Result DirEntry := do
  debugAssert (name.length ≤ maxFnameLen)
  pure ⟨ino, align4 (headerLen + name.length) % u16Bound, name.length % 256, fileType.indicator,
    cStr256 name⟩

/-- The name "." -/
def selfName : List UInt8 := [46]

/-- The name ".." -/
def parentName : List UInt8 := [46, 46]

/-- `self_entry` -/
def selfEntry (ino : ℕ) : Result DirEntry := new ino selfName .dir

/-- `parent_entry` -/
def parentEntry (ino : ℕ) : Result DirEntry := new ino parentName .dir

/-- `type_` -/
def type (e : DirEntry) : Result FileType := FileType.ofIndicator e.fileType

/-- `actual_len` -/
def actualLen (e : DirEntry) : ℕ := align4 (headerLen + e.name.length)

/-- `set_record_len` -/
def setRecordLen (e : DirEntry) (recordLen : ℕ) : Result DirEntry := do
  debugAssert (e.actualLen ≤ recordLen)
  pure { e with recordLen := recordLen % u16Bound }

/-- `gap_len` -/
def gapLen (e : DirEntry) : Result ℕ := subUsize e.recordLen e.actualLen

/-- The bytes of the header. -/
def headerBytes (e : DirEntry) : List UInt8 :=
  toLe 4 e.ino ++ toLe 2 e.recordLen ++ toLe 1 e.nameLen ++ toLe 1 e.fileType

/-- The entry with the header in `bs` and no name. -/
def ofHeaderBytes (bs : List UInt8) : DirEntry where
  ino := ofLe (bs.take 4)
  recordLen := ofLe ((bs.drop 4).take 2)
  nameLen := ofLe ((bs.drop 6).take 1)
  fileType := ofLe ((bs.drop 7).take 1)
  name := []

end DirEntry

namespace PageCache

/-- `DirEntryReader::read_entry` -/
def readEntry (c : PageCache) (o : ℕ) : Result DirEntry := do
  let header ← c.readBytes o DirEntry.headerLen
  let e := DirEntry.ofHeaderBytes header
  if e.ino = 0 then returnErrno .enoent
  else do
    let name ← c.readBytes (o + DirEntry.headerLen) e.nameLen
    pure { e with name := cStr256 name }

/-- What `DirEntryReader` yields from an offset on, with the offset of each entry, for at most
`rounds` entries. -/
def readEntries (c : PageCache) : ℕ → ℕ → List (ℕ × DirEntry)
  | 0, _ => []
  | rounds + 1, o =>
    match c.readEntry o with
    | .ok e => (o, e) :: readEntries c rounds (o + e.recordLen)
    | .error _ => []

/-- What `DirEntryReader` yields from an offset on.  A reader that only meets records of positive
length ends within as many rounds as there are bytes; at a record of length 0 it would not end. -/
def entries (c : PageCache) (o : ℕ) : List (ℕ × DirEntry) := c.readEntries c.size o

/-- `DirEntryWriter::write_entry`, at the offset `o` of the writer. -/
def writeEntry (c : PageCache) (o : ℕ) (e : DirEntry) : Result PageCache := do
  let c ← c.writeBytes o e.headerBytes
  c.writeBytes (o + DirEntry.headerLen) e.name

/-- The first entry that has a gap of `len` bytes. -/
def findGap (len : ℕ) : List (ℕ × DirEntry) → Result (Option (ℕ × DirEntry))
  | [] => pure none
  | (o, e) :: es => do
    let gap ← e.gapLen
    if len ≤ gap then pure (some (o, e)) else findGap len es

/-- `DirEntryWriter::append_entry`, with the writer at `o`. -/
def appendEntry (c : PageCache) (o : ℕ) (new : DirEntry) : Result PageCache := do
  match ← findGap new.recordLen (c.entries o) with
  | none =>
    -- resize and append it at the new block
    let c' ← c.resize (c.size + blockSize)
    let new ← new.setRecordLen blockSize
    c'.writeEntry c.size new
  | some (o, e) =>
    -- write in the gap between existing entries
    let gap ← e.gapLen
    let new ← new.setRecordLen gap
    let e ← e.setRecordLen e.actualLen
    let c ← c.writeEntry o e
    c.writeEntry (o + e.recordLen) new

/-- The pairs of entries that `remove_entry` goes through: a reader from the start, and one that
starts behind a record of the length of `"."`. -/
def entryPairs (c : PageCache) : Result (List ((ℕ × DirEntry) × (ℕ × DirEntry))) := do
  let selfEntry ← DirEntry.selfEntry 0
  pure ((c.entries 0).zip (c.entries selfEntry.recordLen))

/-- `DirEntryWriter::remove_entry` -/
def removeEntry (c : PageCache) (name : List UInt8) : Result (DirEntry × PageCache) := do
  match (← c.entryPairs).find? (fun p => p.2.2.name = name) with
  | none => returnErrno .enoent
  | some ((preOffset, pre), (o, e)) =>
    if (c.entries o).head? = none ∧ preOffset / blockSize ≠ o / blockSize then do
      -- shrink the size
      let newSize ← alignUp preOffset blockSize
      let c ← c.resize newSize
      let pre ← pre.setRecordLen (newSize - preOffset)
      let c ← c.writeEntry preOffset pre
      pure (e, c)
    else do
      -- update the previous entry
      let pre ← pre.setRecordLen (pre.recordLen + e.recordLen)
      let c ← c.writeEntry preOffset pre
      pure (e, c)

/-- `DirEntryWriter::rename_entry`, with the writer at `o`. -/
def renameEntry (c : PageCache) (o : ℕ) (oldName newName : List UInt8) : Result PageCache := do
  match (c.entries o).find? (fun p => p.2.name = oldName) with
  | none => returnErrno .enoent
  | some (o, e) => do
    let type ← e.type
    let new ← DirEntry.new e.ino newName type
    if new.recordLen ≤ e.recordLen then do
      let new ← new.setRecordLen e.recordLen
      c.writeEntry o new
    else do
      -- move to another position
      let (_, c) ← c.removeEntry oldName
      c.appendEntry 0 new

/-- The directory part of `Inner::init_dir`, on the empty page cache of a new inode. -/
def initDir (selfIno parentIno : ℕ) : Result PageCache := do
  let c ← appendEntry ⟨0, fun _ => 0⟩ 0 (← DirEntry.selfEntry selfIno)
  c.appendEntry 0 (← DirEntry.parentEntry parentIno)

end PageCache

end Jinux
