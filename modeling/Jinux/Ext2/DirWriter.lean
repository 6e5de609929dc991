import Jinux.Ext2.DirRecords

/-!
# What the writer does to the records

`Record.append` and `Record.remove` are `append_entry` and `remove_entry` on the list of records
that a page cache represents; `Appended`, `Removed` and `Renamed` say where the lists differ.

* `Rep.appendEntry`, `Rep.removeEntry`, `Rep.renameEntry` : the writer refines them;
* `Rep.removeEntry_notMem`, `Rep.renameEntry_notMem` : when it returns `ENOENT`.

The branch of `remove_entry` that shrinks the directory is never taken: it asks whether a reader
that starts at the entry to remove ends at once, and that reader finds the entry.
-/

namespace Jinux

open Result List DirEntry PageCache Link

namespace Record

/-- `append_entry` on the records from the writer on. -/
def append (l : Link) : List Record → List Record
  | [] => [⟨l, blockSize⟩]
  | r :: rs =>
    if l.actualLen ≤ r.gap then ⟨r.link, r.link.actualLen⟩ :: ⟨l, r.gap⟩ :: rs
    else r :: append l rs

/-- `remove_entry` on the records: the entry that is removed and the records that are left. -/
def remove (name : List UInt8) : List Record → Option (Link × List Record)
  | p :: e :: rs =>
    if e.link.name.bytes = name then some (e.link, ⟨p.link, p.len + e.len⟩ :: rs)
    else (remove name (e :: rs)).map fun x => (x.1, p :: x.2)
  | _ => none

/-- `l` is appended: in the gap of a record, or in a new block. -/
inductive Appended (l : Link) : List Record → List Record → Prop
  | gap {xs ys : List Record} {r : Record} (h : l.actualLen ≤ r.gap) :
    Appended l (xs ++ r :: ys) (xs ++ ⟨r.link, r.link.actualLen⟩ :: ⟨l, r.gap⟩ :: ys)
  | block (rs : List Record) : Appended l rs (rs ++ [⟨l, blockSize⟩])

/-- The first record of the name, other than the very first record, is merged into the one before
it. -/
inductive Removed (name : List UInt8) : List Record → Link → List Record → Prop
  | merge {xs ys : List Record} {p e : Record} (he : e.link.name.bytes = name)
    (hfirst : ∀ r ∈ (xs ++ [p]).tail, r.link.name.bytes ≠ name) :
    Removed name (xs ++ p :: e :: ys) e.link (xs ++ ⟨p.link, p.len + e.len⟩ :: ys)

/-- A record of the name is renamed in place if the new name fits, and moved otherwise. -/
inductive Renamed (oldName : List UInt8) (newName : FileName) : List Record → List Record → Prop
  | inPlace {xs ys : List Record} {e : Record} (he : e.link.name.bytes = oldName)
    (hfits : (e.link.rename newName).actualLen ≤ e.len) :
    Renamed oldName newName (xs ++ e :: ys) (xs ++ ⟨e.link.rename newName, e.len⟩ :: ys)
  | moved {rs rs₁ rs₂ : List Record} {e : Record} {l : Link} (hmem : e ∈ rs)
    (he : e.link.name.bytes = oldName) (hremove : Removed oldName rs l rs₁)
    (happend : Appended (e.link.rename newName) rs₁ rs₂) : Renamed oldName newName rs rs₂

theorem Removed.extent_eq {name : List UInt8} {rs rs' : List Record} {l : Link}
    (h : Removed name rs l rs') : extent rs' = extent rs := by
  cases h
  simp [add_assoc]

theorem gapLen_entry {r : Record} (hv : r.Valid) : (r.link.entry r.len).gapLen = .ok r.gap := by
  rw [gapLen, subUsize_ok]
  exact ⟨hv.actualLen_le, rfl⟩

/-- The search of `append_entry`. -/
theorem findGap_withOffsets (l : Link) {rs : List Record} (hv : ∀ r ∈ rs, r.Valid) (o : ℕ) :
    (findGap l.actualLen (withOffsets o rs) = .ok none ∧
        append l rs = rs ++ [⟨l, blockSize⟩]) ∨
      ∃ xs r ys, rs = xs ++ r :: ys ∧ l.actualLen ≤ r.gap ∧
        append l rs = xs ++ ⟨r.link, r.link.actualLen⟩ :: ⟨l, r.gap⟩ :: ys ∧
        findGap l.actualLen (withOffsets o rs) =
          .ok (some (o + extent xs, r.link.entry r.len)) := by
  induction rs generalizing o with
  | nil => exact .inl ⟨rfl, rfl⟩
  | cons r rs ih =>
    have hstep : findGap l.actualLen (withOffsets o (r :: rs)) =
        if l.actualLen ≤ r.gap then .ok (some (o, r.link.entry r.len))
        else findGap l.actualLen (withOffsets (o + r.len) rs) := by
      rw [withOffsets, findGap, gapLen_entry (hv r mem_cons_self)]
      rfl
    by_cases hgap : l.actualLen ≤ r.gap
    · refine .inr ⟨[], r, rs, rfl, hgap, if_pos hgap, ?_⟩
      rw [hstep, if_pos hgap, extent_nil, add_zero]
    · have happend : append l (r :: rs) = r :: append l rs := if_neg hgap
      rw [hstep, if_neg hgap, happend]
      rcases ih (fun r hr => hv r (mem_cons_of_mem _ hr)) (o + r.len) with
        ⟨hfind, hrs⟩ | ⟨xs, r', ys, rfl, hlen, hrs, hfind⟩
      · exact .inl ⟨hfind, congrArg _ hrs⟩
      · refine .inr ⟨r :: xs, r', ys, rfl, hlen, congrArg _ hrs, ?_⟩
        rw [hfind, extent_cons, add_assoc]

/-- The search for a name among the records. -/
theorem find_withOffsets (name : List UInt8) (rs : List Record) (o : ℕ) :
    ((withOffsets o rs).find? (fun p => p.2.name = name) = none ∧
        ∀ r ∈ rs, r.link.name.bytes ≠ name) ∨
      ∃ xs e ys, rs = xs ++ e :: ys ∧ e.link.name.bytes = name ∧
        (∀ r ∈ xs, r.link.name.bytes ≠ name) ∧
        (withOffsets o rs).find? (fun p => p.2.name = name) =
          some (o + extent xs, e.link.entry e.len) := by
  induction rs generalizing o with
  | nil => exact .inl ⟨rfl, by simp⟩
  | cons r rs ih =>
    rw [withOffsets]
    by_cases hr : r.link.name.bytes = name
    · refine .inr ⟨[], r, rs, rfl, hr, by simp, ?_⟩
      rw [find?_cons_of_pos (by simp [hr]), extent_nil, add_zero]
    · rw [find?_cons_of_neg (by simp [hr])]
      rcases ih (o + r.len) with ⟨hnone, hall⟩ | ⟨xs, e, ys, rfl, he, hxs, hfind⟩
      · refine .inl ⟨hnone, ?_⟩
        simpa [hr] using hall
      · refine .inr ⟨r :: xs, e, ys, rfl, he, ?_, ?_⟩
        · simpa [hr] using hxs
        · rw [hfind, extent_cons, add_assoc]

/-- The search of `remove_entry`, over the pairs of a record and the next one. -/
theorem find_pairs (name : List UInt8) (p : Record) (rs : List Record) (o : ℕ) :
    (((withOffsets o (p :: rs)).zip (withOffsets (o + p.len) rs)).find?
          (fun q => q.2.2.name = name) = none ∧ ∀ r ∈ rs, r.link.name.bytes ≠ name) ∨
      ∃ xs q e ys, p :: rs = xs ++ q :: e :: ys ∧ e.link.name.bytes = name ∧
        (∀ r ∈ (xs ++ [q]).tail, r.link.name.bytes ≠ name) ∧
        remove name (p :: rs) = some (e.link, xs ++ ⟨q.link, q.len + e.len⟩ :: ys) ∧
        ((withOffsets o (p :: rs)).zip (withOffsets (o + p.len) rs)).find?
            (fun q => q.2.2.name = name) =
          some ((o + extent xs, q.link.entry q.len),
            (o + extent xs + q.len, e.link.entry e.len)) := by
  induction rs generalizing p o with
  | nil => exact .inl ⟨by simp [withOffsets], by simp⟩
  | cons r rs ih =>
    have hzip : (withOffsets o (p :: r :: rs)).zip (withOffsets (o + p.len) (r :: rs)) =
        ((o, p.link.entry p.len), (o + p.len, r.link.entry r.len)) ::
          (withOffsets (o + p.len) (r :: rs)).zip (withOffsets (o + p.len + r.len) rs) := rfl
    rw [hzip]
    by_cases hr : r.link.name.bytes = name
    · refine .inr ⟨[], p, r, rs, rfl, hr, by simp, if_pos hr, ?_⟩
      rw [find?_cons_of_pos (by simp [hr]), extent_nil, add_zero]
    · rw [find?_cons_of_neg (by simp [hr])]
      rcases ih r (o + p.len) with ⟨hnone, hall⟩ | ⟨xs, q, e, ys, hrs, he, hxs, hrem, hfind⟩
      · refine .inl ⟨hnone, ?_⟩
        simpa [hr] using hall
      · refine .inr ⟨p :: xs, q, e, ys, by rw [hrs]; rfl, he, ?_, ?_, ?_⟩
        · -- the first record of the shorter list is `r`, whose name is another one
          have hhead : (xs ++ [q]).head? = some r := by
            cases xs with
            | nil | cons x xs => cases hrs; rfl
          intro r' hr'
          rw [cons_append, ← cons_head?_tail hhead] at hr'
          rcases mem_cons.1 hr' with rfl | hr'
          · exact hr
          · exact hxs r' hr'
        · rw [remove, if_neg hr, hrem]
          rfl
        · rw [hfind, extent_cons, add_assoc o]

end Record

namespace PageCache

open Record

variable {c c' : PageCache} {rs : List Record}

/-- The size of a directory with all of its direct blocks. -/
def maxDirSize : ℕ := 12 * blockSize

theorem resize_add_block (hdvd : blockSize ∣ c.size) (hsize : c.size ≤ maxDirSize) :
    ∃ b, c.resize (c.size + blockSize) = .ok ⟨c.size + blockSize, b⟩ ∧
      ∀ a, a < c.size → b a = c.bytes a := by
  obtain ⟨k, hk⟩ := hdvd
  have halign : alignUp (c.size + blockSize) pageSize = .ok (c.size + blockSize) := by
    unfold maxDirSize blockSize at hsize
    simp only [alignUp, bind_ok, assert_ok, unwrap_ok, pure_ok]
    refine ⟨(), ⟨by decide, by decide⟩, c.size + blockSize + (pageSize - 1), ?_, ?_⟩
    · rw [if_pos (by unfold usizeBound pageSize blockSize; omega)]
    · rw [hk]
      unfold blockSize pageSize
      omega
  rw [resize, halign]
  exact ⟨_, rfl, fun a ha => if_pos ⟨ha, by omega⟩⟩

variable {l : Link} {xs ys : List Record} {p r e : Record} {as bs : List Record}
  {name oldName : List UInt8}

/-- An entry in a new block. -/
theorem Rep.append_block (h : c.Rep rs) {b b' : Bytes} (hb : ∀ a, a < c.size → b a = c.bytes a)
    (hvalid : (⟨l, blockSize⟩ : Record).Valid) (hholds : Holds b' c.size ⟨l, blockSize⟩)
    (hb' : ∀ a, a < c.size ∨ c.size + l.actualLen ≤ a → b' a = b a) :
    Rep ⟨c.size + blockSize, b'⟩ (rs ++ [⟨l, blockSize⟩]) := by
  have hext := h.extent_eq
  refine ⟨stored_append.2 ⟨h.stored.congr h.valid fun a _ ha => ?_, ?_, trivial⟩, ?_, ?_⟩
  · rw [hext, zero_add] at ha
    change b' a = c.bytes a
    rw [hb' a (.inl ha), hb a ha]
  · rwa [hext, zero_add]
  · rw [extent_append, hext]
    rfl
  · intro r hr
    rcases mem_append.1 hr with hr | hr
    · exact h.valid r hr
    · rw [mem_singleton.1 hr]
      exact hvalid

/-- An entry in the gap of a record. -/
theorem Rep.append_gap (h : c.Rep (xs ++ r :: ys)) (hgap : l.actualLen ≤ r.gap) :
    ∃ b b', c.writeEntry (extent xs) (r.link.entry r.link.actualLen) = .ok ⟨c.size, b⟩ ∧
      writeEntry ⟨c.size, b⟩ (extent xs + r.link.actualLen) (l.entry r.gap) = .ok ⟨c.size, b'⟩ ∧
      Rep ⟨c.size, b'⟩ (xs ++ ⟨r.link, r.link.actualLen⟩ :: ⟨l, r.gap⟩ :: ys) := by
  have hr := h.valid r (by simp)
  have hactual := hr.actualLen_le
  have hlt := hr.len_lt
  have hsize := h.extent_eq
  have hlen : r.gap = r.len - r.link.actualLen := rfl
  rw [extent_append, extent_cons] at hsize
  have hv1 : (⟨r.link, r.link.actualLen⟩ : Record).Valid := ⟨le_rfl, by simp only; omega⟩
  have hv2 : (⟨l, r.gap⟩ : Record).Valid := ⟨hgap, by simp only; omega⟩
  obtain ⟨b, hwrite, hholds, hb⟩ := writeEntry_record (c := c) (o := extent xs) hv1
    (by simp only; omega)
  obtain ⟨b', hwrite', hholds', hb'⟩ := writeEntry_record (c := ⟨c.size, b⟩)
    (o := extent xs + r.link.actualLen) hv2 (by simp only; omega)
  simp only at hb hb'
  refine ⟨b, b', hwrite, hwrite', ?_⟩
  have hrep : c.Rep (xs ++ [r] ++ ys) := by simpa using h
  have hnew := hrep.splice [⟨r.link, r.link.actualLen⟩, ⟨l, r.gap⟩]
    ⟨hholds.congr fun a _ ha => hb' a (.inl ha), hholds', trivial⟩ ?_ ?_ fun a ha => ?_
  · simpa using hnew
  · simp only [extent_cons]
    omega
  · intro r' hr'
    rcases mem_cons.1 hr' with rfl | hr'
    · exact hv1
    · rw [mem_singleton.1 hr']
      exact hv2
  · simp only [extent_cons] at ha
    rw [hb' a (by omega), hb a (by omega)]

/-- Appending an entry when the search for a gap ends at the record `r`. -/
theorem Rep.appendEntry_of_find (h : c.Rep (xs ++ r :: ys)) {o : ℕ} (hgap : l.actualLen ≤ r.gap)
    (hfind : findGap l.actualLen (c.entries o) = .ok (some (extent xs, r.link.entry r.len))) :
    ∃ c', c.appendEntry o (l.entry l.actualLen) = .ok c' ∧
      c'.Rep (xs ++ ⟨r.link, r.link.actualLen⟩ :: ⟨l, r.gap⟩ :: ys) := by
  have hr := h.valid r (by simp)
  have hlt := hr.len_lt
  have hactual := hr.actualLen_le
  have hlen : r.gap = r.len - r.link.actualLen := rfl
  obtain ⟨b, b', hwrite, hwrite', hrep⟩ := h.append_gap hgap
  refine ⟨_, ?_, hrep⟩
  rw [appendEntry, bind_ok]
  refine ⟨some _, hfind, ?_⟩
  simp only [bind_ok]
  exact ⟨_, gapLen_entry hr, _, l.setRecordLen_entry hgap (by omega), _,
    r.link.setRecordLen_entry le_rfl (by simp only [actualLen_entry]; omega), _, hwrite,
    hwrite'⟩

/-- Appending an entry, with the writer at the start of a record. -/
theorem Rep.appendEntry (h : c.Rep (as ++ bs)) (hdvd : blockSize ∣ c.size)
    (hsize : c.size ≤ maxDirSize) (l : Link) :
    ∃ c', c.appendEntry (extent as) (l.entry l.actualLen) = .ok c' ∧
      c'.Rep (as ++ append l bs) ∧ Appended l (as ++ bs) (as ++ append l bs) := by
  have hv : ∀ r ∈ bs, r.Valid := fun r hr => h.valid r (mem_append_right _ hr)
  rcases findGap_withOffsets l hv (extent as) with
    ⟨hfind, hrs⟩ | ⟨xs, r, ys, rfl, hgap, hrs, hfind⟩
  · have hvalid : (⟨l, blockSize⟩ : Record).Valid :=
      ⟨l.actualLen_le.trans (show 264 ≤ blockSize by decide), show blockSize < u16Bound by decide⟩
    obtain ⟨b, hresize, hb⟩ := resize_add_block hdvd hsize
    obtain ⟨b', hwrite, hholds, hb'⟩ := writeEntry_record (c := ⟨c.size + blockSize, b⟩) hvalid
      (show c.size + blockSize ≤ c.size + blockSize from le_rfl)
    rw [hrs, ← append_assoc]
    refine ⟨_, ?_, h.append_block hb hvalid hholds hb', .block _⟩
    rw [← h.entries_eq] at hfind
    rw [PageCache.appendEntry, bind_ok]
    refine ⟨none, hfind, ?_⟩
    simp only [bind_ok]
    exact ⟨_, hresize, _, l.setRecordLen_entry hvalid.actualLen_le hvalid.len_lt, hwrite⟩
  · rw [← h.entries_eq, ← extent_append] at hfind
    rw [hrs, ← append_assoc, ← append_assoc]
    rw [← append_assoc] at h
    obtain ⟨c', happend, hrep⟩ := h.appendEntry_of_find hgap hfind
    exact ⟨c', happend, hrep, .gap hgap⟩

/-- The pairs that `remove_entry` searches, if the first record has the length of `"."`. -/
theorem Rep.entryPairs_eq (h : c.Rep (p :: rs)) (hp : p.len = 12) :
    c.entryPairs = .ok ((withOffsets 0 (p :: rs)).zip (withOffsets (0 + p.len) rs)) := by
  have hself : selfEntry 0 = .ok ⟨0, 12, 1, 2, selfName⟩ := by decide +kernel
  have htail := (show c.Rep ([p] ++ rs) from h).entries_eq
  simp only [extent_cons, extent_nil, add_zero] at htail
  rw [entryPairs, bind_ok]
  refine ⟨_, hself, ?_⟩
  rw [pure_ok, h.entries_zero, zero_add, ← htail, hp]

/-- A name that no record but the first has is not removed. -/
theorem Rep.removeEntry_notMem (h : c.Rep (p :: rs)) (hp : p.len = 12)
    (hname : ∀ r ∈ rs, r.link.name.bytes ≠ name) : c.removeEntry name = returnErrno .enoent := by
  rcases find_pairs name p rs 0 with ⟨hfind, -⟩ | ⟨xs, q, e, ys, hrs, he, -⟩
  · simp only [removeEntry, h.entryPairs_eq hp, bind, Except.bind, hfind]
  · refine absurd he (hname e ?_)
    have hmem : e ∈ (p :: rs).tail := by
      rw [hrs]
      cases xs <;> simp
    exact hmem

/-- A record in the place of others of the same extent. -/
theorem Rep.write {ms : List Record} (h : c.Rep (xs ++ ms ++ ys)) (hv : r.Valid)
    (hext : r.len = extent ms) :
    ∃ b, c.writeEntry (extent xs) (r.link.entry r.len) = .ok ⟨c.size, b⟩ ∧
      Rep ⟨c.size, b⟩ (xs ++ r :: ys) := by
  have hsize := h.extent_eq
  have hactual := hv.actualLen_le
  rw [extent_append, extent_append] at hsize
  obtain ⟨b, hwrite, hholds, hb⟩ := writeEntry_record (c := c) (o := extent xs) hv (by omega)
  have hnew := h.splice [r] ⟨hholds, trivial⟩ (by simpa using hext) (by simpa using hv)
    fun a ha => hb a (by omega)
  exact ⟨b, hwrite, by simpa using hnew⟩

/-- Merging a record into the one before it. -/
theorem Rep.merge (h : c.Rep (xs ++ p :: e :: ys)) (hsize : c.size < u16Bound) :
    ∃ b, c.writeEntry (extent xs) (p.link.entry (p.len + e.len)) = .ok ⟨c.size, b⟩ ∧
      Rep ⟨c.size, b⟩ (xs ++ ⟨p.link, p.len + e.len⟩ :: ys) := by
  have hactual := (h.valid p (by simp)).actualLen_le
  have hext := h.extent_eq
  rw [extent_append, extent_cons, extent_cons] at hext
  have hv : (⟨p.link, p.len + e.len⟩ : Record).Valid :=
    ⟨by simp only; omega, by simp only; omega⟩
  have hrep : c.Rep (xs ++ [p, e] ++ ys) := by simpa using h
  exact hrep.write hv rfl

/-- Removing a name that a record behind the first has. -/
theorem Rep.removeEntry (h : c.Rep (p :: rs)) (hp : p.len = 12) (hsize : c.size < u16Bound)
    (hname : ∃ r ∈ rs, r.link.name.bytes = name) :
    ∃ l len c' rs', c.removeEntry name = .ok (entry l len, c') ∧ c'.Rep rs' ∧
      remove name (p :: rs) = some (l, rs') ∧ Removed name (p :: rs) l rs' := by
  rcases find_pairs name p rs 0 with ⟨-, hall⟩ | ⟨xs, q, e, ys, hrs, he, hfirst, hrem, hfind⟩
  · obtain ⟨r, hr, hn⟩ := hname
    exact absurd hn (hall r hr)
  · have hpairs := h.entryPairs_eq hp
    rw [hrs] at h
    obtain ⟨b, hwrite, hrep⟩ := h.merge hsize
    have hq := (h.valid q (by simp)).actualLen_le
    have hext := h.extent_eq
    have hentries := (show c.Rep ((xs ++ [q]) ++ e :: ys) by simpa using h).entries_eq
    rw [extent_append, extent_cons, extent_cons] at hext
    refine ⟨e.link, e.len, _, _, ?_, hrep, hrem, hrs ▸ .merge he hfirst⟩
    rw [PageCache.removeEntry, bind_ok]
    refine ⟨_, hpairs, ?_⟩
    rw [hfind, zero_add]
    simp only
    -- the reader that starts at the entry finds the entry, so the size never shrinks
    rw [if_neg ?_]
    · simp only [bind_ok]
      exact ⟨_, q.link.setRecordLen_entry (by simp only [recordLen_entry]; omega)
        (by simp only [recordLen_entry]; omega), _, hwrite, rfl⟩
    · rintro ⟨hnone, -⟩
      simp only [extent_append, extent_cons, extent_nil, add_zero] at hentries
      rw [hentries] at hnone
      cases hnone

/-- Another entry in the place of one. -/
theorem Rep.overwrite (h : c.Rep (xs ++ e :: ys)) (hfits : l.actualLen ≤ e.len) :
    ∃ b, c.writeEntry (extent xs) (l.entry e.len) = .ok ⟨c.size, b⟩ ∧
      Rep ⟨c.size, b⟩ (xs ++ ⟨l, e.len⟩ :: ys) := by
  have hv : (⟨l, e.len⟩ : Record).Valid := ⟨hfits, (h.valid e (by simp)).len_lt⟩
  have hrep : c.Rep (xs ++ [e] ++ ys) := by simpa using h
  obtain ⟨b, hwrite, hnew⟩ := hrep.write hv (by simp)
  exact ⟨b, hwrite, hnew⟩

/-- Renaming an entry, with the writer at the start of a record: the first record of the name from
there on gives the inode number and the type, and if the new name fits in it no record changes its
length. -/
theorem Rep.renameEntry (hrs : p :: rs = as ++ bs) (h : c.Rep (p :: rs)) (hp : p.len = 12)
    (hdvd : blockSize ∣ c.size) (hsize : c.size ≤ maxDirSize) {newName : FileName}
    (hold : ∃ r ∈ bs, r.link.name.bytes = oldName) (hne : p.link.name.bytes ≠ oldName) :
    ∃ c' rs' q, c.renameEntry (extent as) oldName newName.bytes = .ok c' ∧
      Renamed oldName newName (p :: rs) rs' ∧ c'.Rep rs' ∧
      (c.entries (extent as)).find? (fun p => p.2.name = oldName) = some q ∧
      (align4 (headerLen + newName.bytes.length) ≤ q.2.recordLen →
        rs'.map len = (p :: rs).map len) := by
  have hsmall : c.size < u16Bound := hsize.trans_lt (by decide)
  have hmem : ∃ r ∈ rs, r.link.name.bytes = oldName := by
    obtain ⟨r, hr, hname⟩ := hold
    have hr : r ∈ p :: rs := by simp [hrs, hr]
    exact ⟨r, (mem_cons.1 hr).resolve_left fun heq => hne (heq ▸ hname), hname⟩
  rcases find_withOffsets oldName bs (extent as) with
    ⟨-, hall⟩ | ⟨xs, e, ys, rfl, he, -, hfind⟩
  · obtain ⟨r, hr, hn⟩ := hold
    exact absurd hn (hall r hr)
  · rw [← (hrs ▸ h : c.Rep (as ++ (xs ++ e :: ys))).entries_eq] at hfind
    have hnew : new (e.link.entry e.len).ino newName.bytes e.link.type =
        .ok ((e.link.rename newName).entry (e.link.rename newName).actualLen) :=
      new_link (e.link.rename newName)
    have hgo : ∀ {c'}, (if (e.link.rename newName).actualLen ≤ e.len then do
          let new ← ((e.link.rename newName).entry
            (e.link.rename newName).actualLen).setRecordLen e.len
          c.writeEntry (extent as + extent xs) new
        else do
          let p ← c.removeEntry oldName
          p.2.appendEntry 0 ((e.link.rename newName).entry (e.link.rename newName).actualLen)) =
          .ok c' → c.renameEntry (extent as) oldName newName.bytes = .ok c' := by
      intro c' hc'
      simp only [renameEntry, hfind, type_entry, bind, Except.bind, hnew]
      exact hc'
    by_cases hfits : (e.link.rename newName).actualLen ≤ e.len
    · rw [if_pos hfits] at hgo
      have hsplit : p :: rs = (as ++ xs) ++ e :: ys := by rw [hrs, append_assoc]
      rw [hsplit] at h ⊢
      obtain ⟨b, hwrite, hrep⟩ := h.overwrite hfits
      have hlt := (h.valid e (by simp)).len_lt
      rw [extent_append] at hwrite
      exact ⟨_, _, _, hgo (bind_ok.2 ⟨_, setRecordLen_entry _ hfits hlt, hwrite⟩),
        .inPlace he hfits, hrep, hfind, fun _ => by simp⟩
    · rw [if_neg hfits] at hgo
      obtain ⟨l, len, c1, rs1, hremove, hrep1, -, hremoved⟩ := h.removeEntry hp hsmall hmem
      have hsame : c1.size = c.size := by
        rw [← hrep1.extent_eq, hremoved.extent_eq, h.extent_eq]
      obtain ⟨c2, happend, hrep2, happended⟩ := (show c1.Rep ([] ++ rs1) from hrep1).appendEntry
        (hsame ▸ hdvd) (hsame ▸ hsize) (e.link.rename newName)
      refine ⟨c2, _, _, hgo (bind_ok.2 ⟨_, hremove, happend⟩), ?_, hrep2, hfind,
        fun hle => absurd hle hfits⟩
      exact .moved (by rw [hrs]; simp) he hremoved happended

/-- A name that no record from the writer on has is not renamed. -/
theorem Rep.renameEntry_notMem (h : c.Rep (as ++ bs)) {newName : List UInt8}
    (hold : ∀ r ∈ bs, r.link.name.bytes ≠ oldName) :
    c.renameEntry (extent as) oldName newName = returnErrno .enoent := by
  rcases find_withOffsets oldName bs (extent as) with ⟨hfind, -⟩ | ⟨xs, e, ys, rfl, he, -⟩
  · rw [← h.entries_eq] at hfind
    simp [PageCache.renameEntry, hfind]
  · exact absurd he (hold e (by simp))

end PageCache

end Jinux
