import Jinux.Ext2.DirWriter
import Jinux.Lib.Lts

/-!
# A directory is a map

What the reader of a directory yields is a map from names to inode numbers and types
(`PageCache.dirMap`).  `dirLts` is any sequence of calls of the writer that keeps the directory
within its direct blocks.

* `DirInv` : in such a directory the first record is `"."`, no longer than it needs to be, and the
  second one is `".."`; names are unique;
* `dir_refines_map` : **each call changes the map by its own insertion, deletion or renaming**, as
  long as `"."` and `".."` are not renamed;
* `exists_wrong_removal` : `remove_entry` takes the first record to be 12 bytes long, which a
  renaming of `".."` breaks: it then removes the entry behind the one it is asked to remove.
-/

namespace Jinux

open Record Function List DirEntry Result Option

variable {l : Link} {name : List UInt8} {rs rs' : List Record} {newName : FileName} {o : ℕ}

/-- The inode numbers: 0 is none. -/
abbrev Ino := {n : ℕ // 0 < n ∧ n < u32Bound}

namespace Link

/-- The entry `"."` -/
def self (ino : Ino) : Link :=
  ⟨⟨selfName, by decide, by decide⟩, ino, .dir, ino.2.1, ino.2.2⟩

/-- The entry `".."` -/
def parent (ino : Ino) : Link :=
  ⟨⟨parentName, by decide, by decide⟩, ino, .dir, ino.2.1, ino.2.2⟩

theorem actualLen_self (ino : Ino) : (self ino).actualLen = 12 := by
  change align4 (8 + 1) = 12
  rfl

theorem actualLen_parent (ino : Ino) : (parent ino).actualLen = 12 := by
  change align4 (8 + 2) = 12
  rfl

end Link

/-- What a directory says about names. -/
abbrev DirMap := List UInt8 → Option (ℕ × Result FileType)

namespace PageCache

/-- The names that the reader yields. -/
def names (c : PageCache) : List (List UInt8) := (c.entries 0).map fun p => p.2.name

/-- The offsets that the reader yields. -/
def offsets (c : PageCache) : List ℕ := (c.entries 0).map Prod.fst

/-- The inode number and the type that the reader finds for a name. -/
def dirMap (c : PageCache) : DirMap :=
  fun name => ((c.entries 0).find? fun p => p.2.name = name).map fun p => (p.2.ino, p.2.type)

end PageCache

/-- The calls of `DirEntryWriter`, with the offset of the writer where it matters. -/
inductive DirOp where
  | append (o : ℕ) (l : Link)
  | remove (name : List UInt8)
  | rename (o : ℕ) (oldName : List UInt8) (newName : FileName)

namespace DirOp

/-- Perform the call. -/
def run (c : PageCache) : DirOp → Result PageCache
  | .append o l => do c.appendEntry o (← new l.ino l.name.bytes l.type)
  | .remove name => do
    let (_, c) ← c.removeEntry name
    pure c
  | .rename o oldName newName => c.renameEntry o oldName newName.bytes

/-- What the call is meant to do to the map. -/
def apply (m : DirMap) : DirOp → DirMap
  | .append _ l => update m l.name.bytes (some (l.ino, .ok l.type))
  | .remove name => update m name none
  | .rename _ oldName newName =>
    update (update m oldName none) newName.bytes (m oldName)

/-- No name is added twice, `"."` and `".."` are not removed, and the writer is at a record. -/
def Fresh (c : PageCache) : DirOp → Prop
  | .append o l => o ∈ c.offsets ∧ l.name.bytes ∉ c.names
  | .remove name => name ≠ selfName ∧ name ≠ parentName
  | .rename o _ newName => o ∈ c.offsets ∧ newName.bytes ∉ c.names

/-- `"."` and `".."` are not renamed. -/
def KeepsDots : DirOp → Prop
  | .rename _ oldName _ => oldName ≠ selfName ∧ oldName ≠ parentName
  | _ => True

/-- The name that the call is about is not there. -/
def Missing (c : PageCache) : DirOp → Prop
  | .append _ _ => False
  | .remove name => name ∉ c.names
  | .rename o oldName _ => oldName ∉ (c.entries o).map fun p => p.2.name

instance (c : PageCache) : DecidablePred (Fresh c)
  | .append o l => inferInstanceAs (Decidable (o ∈ c.offsets ∧ l.name.bytes ∉ c.names))
  | .remove name =>
    inferInstanceAs (Decidable (name ≠ selfName ∧ name ≠ parentName))
  | .rename o _ newName => inferInstanceAs (Decidable (o ∈ c.offsets ∧ newName.bytes ∉ c.names))

end DirOp

namespace PageCache

/-- A call that succeeds and keeps the directory within its direct blocks. -/
def dirStep (c : PageCache) (op : DirOp) : Option PageCache :=
  match op.run c with
  | .ok c' => if c'.size ≤ maxDirSize then some c' else none
  | .error _ => none

/-- Any sequence of calls. -/
def dirLts : Lts PageCache DirOp := Lts.ofFun dirStep

theorem dirStep_eq_some {c c' : PageCache} {op : DirOp} :
    c.dirStep op = some c' ↔ op.run c = .ok c' ∧ c'.size ≤ maxDirSize := by
  unfold dirStep
  cases hrun : op.run c with
  | error f => simp
  | ok c1 =>
    by_cases hsize : c1.size ≤ maxDirSize
    · simp only [hsize, if_true, some.injEq, Except.ok.injEq]
      exact ⟨fun h => ⟨h, h ▸ hsize⟩, fun h => h.1⟩
    · simp only [hsize, Except.ok.injEq]
      exact ⟨nofun, fun h => absurd (h.1 ▸ h.2) hsize⟩

end PageCache

/-! ### The entries of the records -/

/-- The map of some entries. -/
def linkMap (ls : List Link) : DirMap :=
  fun name => (ls.find? fun l => l.name.bytes = name).map fun l => (l.ino, .ok l.type)

/-- The names of some entries. -/
def linkNames (ls : List Link) : List (List UInt8) := ls.map fun l => l.name.bytes

/-- The entries of some records. -/
def links (rs : List Record) : List Link := rs.map Record.link

@[simp] theorem links_append (rs ts : List Record) : links (rs ++ ts) = links rs ++ links ts :=
  map_append

@[simp] theorem links_cons (r : Record) (rs : List Record) : links (r :: rs) = r.link :: links rs :=
  rfl

section Links

variable {ls ls' : List Link}

theorem linkMap_cons (l : Link) (ls : List Link) :
    linkMap (l :: ls) = update (linkMap ls) l.name.bytes (some (l.ino, .ok l.type)) := by
  funext name
  by_cases h : l.name.bytes = name
  · subst h
    simp [linkMap]
  · rw [update_of_ne (Ne.symm h)]
    simp [linkMap, h]

theorem linkMap_of_notMem (h : name ∉ linkNames ls) : linkMap ls name = none := by
  rw [linkMap, map_eq_none_iff, find?_eq_none]
  intro l hl hname
  exact h (mem_map.2 ⟨l, hl, by simpa using hname⟩)

theorem linkMap_of_mem (hnodup : (linkNames ls).Nodup) (hl : l ∈ ls) :
    linkMap ls l.name.bytes = some (l.ino, .ok l.type) := by
  have hfind : ls.find? (fun l' => l'.name.bytes = l.name.bytes) = some l := by
    obtain ⟨l', hl', hname⟩ : ∃ l', ls.find? (fun l' => l'.name.bytes = l.name.bytes) = some l' ∧
        l'.name.bytes = l.name.bytes := by
      cases hfind : ls.find? (fun l' => l'.name.bytes = l.name.bytes) with
      | none =>
        have hno := find?_eq_none.1 hfind l hl
        simp at hno
      | some l' => exact ⟨l', rfl, by simpa using find?_some hfind⟩
    rw [hl', inj_on_of_nodup_map hnodup (mem_of_find?_eq_some hl') hl hname]
  rw [linkMap, hfind]
  rfl

theorem linkMap_perm (h : ls.Perm ls') (hnodup : (linkNames ls).Nodup) :
    linkMap ls = linkMap ls' := by
  have hnames : (linkNames ls).Perm (linkNames ls') := h.map _
  funext name
  by_cases hname : name ∈ linkNames ls
  · obtain ⟨l, hl, rfl⟩ := mem_map.1 hname
    rw [linkMap_of_mem hnodup hl, linkMap_of_mem (hnames.nodup_iff.1 hnodup) (h.mem_iff.1 hl)]
  · rw [linkMap_of_notMem hname, linkMap_of_notMem fun hmem => hname (hnames.mem_iff.2 hmem)]

end Links

namespace Record

theorem Appended.perm (h : Appended l rs rs') : (links rs').Perm (l :: links rs) := by
  cases h with
  | gap _ =>
    simp only [links_append]
    exact (Perm.append_left _ (Perm.swap _ _ _)).trans perm_middle
  | block =>
    rw [links_append]
    exact perm_append_singleton _ _

theorem Removed.perm (h : Removed name rs l rs') : (links rs).Perm (l :: links rs') := by
  cases h
  simp only [links_append]
  exact (Perm.append_left _ (Perm.swap _ _ _)).trans perm_middle

theorem Removed.name_eq (h : Removed name rs l rs') : l.name.bytes = name := by
  cases h
  assumption

/-- A renaming replaces one entry. -/
theorem Renamed.perm (h : Renamed name newName rs rs') (hnodup : (linkNames (links rs)).Nodup) :
    ∃ l ls, l.name.bytes = name ∧ (links rs).Perm (l :: ls) ∧
      (links rs').Perm (l.rename newName :: ls) := by
  cases h with
  | @inPlace xs ys e he hfits =>
    refine ⟨e.link, links xs ++ links ys, he, ?_, ?_⟩
    · rw [links_append]
      exact perm_middle
    · rw [links_append]
      exact perm_middle
  | moved hmem he hremove happend =>
    have hperm := hremove.perm
    have hmem : _ ∈ links rs := mem_map.2 ⟨_, hmem, rfl⟩
    have hsame := inj_on_of_nodup_map hnodup hmem (hperm.mem_iff.2 mem_cons_self)
      (he.trans hremove.name_eq.symm)
    refine ⟨_, _, he, hsame ▸ hperm, happend.perm⟩

section

variable (hfits : ∀ r ∈ rs, r.link.actualLen ≤ r.len)

include hfits

theorem Appended.extent_eq (h : Appended l rs rs') :
    extent rs' = extent rs ∨ extent rs' = extent rs + blockSize := by
  cases h with
  | @gap xs ys r hgap =>
    have hactual := hfits r (by simp)
    have hlen : r.gap = r.len - r.link.actualLen := rfl
    simp only [extent_append, extent_cons]
    omega
  | block =>
    simp

theorem Removed.fits (h : Removed name rs l rs') : ∀ r ∈ rs', r.link.actualLen ≤ r.len := by
  cases h with
  | @merge xs ys p e _ _ =>
    have hp := hfits p (by simp)
    intro r hr
    simp only [mem_append, mem_cons] at hr
    rcases hr with hr | rfl | hr
    · exact hfits r (by simp [hr])
    · exact hp.trans (Nat.le_add_right _ _)
    · exact hfits r (by simp [hr])

theorem Renamed.extent_eq (h : Renamed name newName rs rs') :
    extent rs' = extent rs ∨ extent rs' = extent rs + blockSize := by
  cases h with
  | inPlace => simp
  | moved _ _ hremove happend =>
    rw [← hremove.extent_eq]
    exact happend.extent_eq (hremove.fits hfits)

end

theorem mem_offsets (h : o ∈ (withOffsets 0 rs).map Prod.fst) :
    ∃ as bs, rs = as ++ bs ∧ o = extent as := by
  suffices hall : ∀ o0, o ∈ (withOffsets o0 rs).map Prod.fst →
      ∃ as bs, rs = as ++ bs ∧ o = o0 + extent as by
    obtain ⟨as, bs, hrs, ho⟩ := hall 0 h
    exact ⟨as, bs, hrs, by omega⟩
  clear h
  induction rs with
  | nil => simp [withOffsets]
  | cons r rs ih =>
    intro o0 ho
    rw [withOffsets, map_cons, mem_cons] at ho
    rcases ho with rfl | ho
    · exact ⟨[], r :: rs, rfl, rfl⟩
    · obtain ⟨as, bs, rfl, rfl⟩ := ih _ ho
      exact ⟨r :: as, bs, rfl, by rw [extent_cons, Nat.add_assoc]⟩

/-- The first two records are `"."`, no longer than it needs to be, and `".."`. -/
def Proper (rs : List Record) : Prop :=
  ∃ p q ts, rs = p :: q :: ts ∧ p.link.name.bytes = selfName ∧ p.len = 12 ∧
    q.link.name.bytes = parentName

/-- Behind the first two records anything may change. -/
theorem Proper.replace {x y : Record} {xs ts ts' : List Record}
    (h : Proper ((x :: y :: xs) ++ ts)) : Proper ((x :: y :: xs) ++ ts') := by
  obtain ⟨p, q, us, heq, hp, hlen, hq⟩ := h
  cases heq
  exact ⟨x, y, xs ++ ts', rfl, hp, hlen, hq⟩

theorem Appended.proper (h : Appended l rs rs') (hp : Proper rs) : Proper rs' := by
  cases h with
  | @gap xs ys r hgap =>
    match xs, hp with
    | [], ⟨p, q, ts, heq, hself, hlen, hq⟩ =>
      -- the record of `"."` has no gap
      cases heq
      have hl := l.headerLen_add_le_actualLen
      have hactual : r.link.actualLen = 12 := by
        rw [Link.actualLen, hself]
        rfl
      have hgap' : l.actualLen ≤ r.len - r.link.actualLen := hgap
      omega
    | [x], ⟨p, q, ts, heq, hself, hlen, hq⟩ =>
      cases heq
      exact ⟨x, ⟨r.link, _⟩, _, rfl, hself, hlen, hq⟩
    | x :: y :: xs, hp => exact hp.replace
  | block =>
    obtain ⟨p, q, ts, rfl, hself, hlen, hq⟩ := hp
    exact ⟨p, q, _, rfl, hself, hlen, hq⟩

theorem Removed.proper (h : Removed name rs l rs') (hp : Proper rs)
    (hname : name ≠ parentName) : Proper rs' := by
  cases h with
  | @merge xs ys p e he hfirst =>
    match xs, hp with
    | [], ⟨p', q, ts, heq, hself, hlen, hq⟩ =>
      cases heq
      exact absurd (he.symm.trans hq) hname
    | [x], ⟨p', q, ts, heq, hself, hlen, hq⟩ =>
      cases heq
      exact ⟨x, ⟨p.link, _⟩, ys, rfl, hself, hlen, hq⟩
    | x :: y :: xs, hp => exact hp.replace

theorem Renamed.proper (h : Renamed name newName rs rs') (hp : Proper rs)
    (hself : name ≠ selfName) (hparent : name ≠ parentName) : Proper rs' := by
  cases h with
  | @inPlace xs ys e he hfits =>
    match xs, hp with
    | [], ⟨p, q, ts, heq, hdot, hlen, hq⟩ =>
      cases heq
      exact absurd (he.symm.trans hdot) hself
    | [x], ⟨p, q, ts, heq, hdot, hlen, hq⟩ =>
      cases heq
      exact absurd (he.symm.trans hq) hparent
    | x :: y :: xs, hp => exact hp.replace
  | moved _ _ hremove happend => exact happend.proper (hremove.proper hp hparent)

end Record

namespace PageCache

variable {c c' : PageCache} {as bs : List Record} {op : DirOp}

theorem names_withOffsets (rs : List Record) (o : ℕ) :
    (withOffsets o rs).map (fun p => p.2.name) = linkNames (links rs) := by
  induction rs generalizing o with
  | nil => rfl
  | cons r rs ih => exact congrArg (cons _) (ih _)

theorem Rep.names_eq (h : c.Rep rs) : c.names = linkNames (links rs) := by
  rw [names, h.entries_zero, names_withOffsets]

theorem find_links (rs : List Record) (o : ℕ) (name : List UInt8) :
    ((withOffsets o rs).find? fun p => p.2.name = name).map (fun p => (p.2.ino, p.2.type)) =
      linkMap (links rs) name := by
  induction rs generalizing o with
  | nil => rfl
  | cons r rs ih =>
    rw [withOffsets, links_cons, linkMap_cons]
    by_cases hr : r.link.name.bytes = name
    · rw [find?_cons_of_pos (by simp [hr]), hr, update_self, map_some, Link.type_entry]
      rfl
    · rw [find?_cons_of_neg (by simp [hr]), update_of_ne (Ne.symm hr), ih]

theorem Rep.dirMap_eq (h : c.Rep rs) : c.dirMap = linkMap (links rs) := by
  funext name
  rw [dirMap, h.entries_zero, find_links]

theorem Rep.dvd_size (h : c.Rep rs) (h' : c'.Rep rs')
    (hext : extent rs' = extent rs ∨ extent rs' = extent rs + blockSize)
    (hdvd : blockSize ∣ c.size) : blockSize ∣ c'.size := by
  rw [h.extent_eq, h'.extent_eq] at hext
  rcases hext with hext | hext
  · rw [hext]
    exact hdvd
  · rw [hext]
    exact Nat.dvd_add_self_right.2 hdvd

theorem Rep.fits (h : c.Rep rs) : ∀ r ∈ rs, r.link.actualLen ≤ r.len :=
  fun r hr => (h.valid r hr).actualLen_le

/-- What holds of every directory in use. -/
structure DirInv (c : PageCache) (rs : List Record) : Prop where
  rep : c.Rep rs
  proper : Proper rs
  nodup : (linkNames (links rs)).Nodup
  dvd : blockSize ∣ c.size

theorem Rep.exists_at (h : c.Rep rs) (ho : o ∈ c.offsets) :
    ∃ as bs, rs = as ++ bs ∧ o = extent as := by
  rw [offsets, h.entries_zero] at ho
  exact mem_offsets ho

section

variable (h : DirInv c rs)

include h

/-- After an append. -/
theorem DirInv.of_appended (hrep : c'.Rep rs') (happ : Appended l rs rs')
    (hname : l.name.bytes ∉ linkNames (links rs)) : DirInv c' rs' where
  rep := hrep
  proper := happ.proper h.proper
  nodup := by
    have hperm : (linkNames (links rs')).Perm (linkNames (l :: links rs)) := happ.perm.map _
    exact hperm.nodup_iff.2 (nodup_cons.2 ⟨hname, h.nodup⟩)
  dvd := h.rep.dvd_size hrep (happ.extent_eq h.rep.fits) h.dvd

/-- After a renaming, which takes one entry away and adds the renamed one. -/
theorem DirInv.of_renamed (hrep : c'.Rep rs') (hren : Renamed name newName rs rs')
    (hnew : newName.bytes ∉ linkNames (links rs)) (hself : name ≠ selfName)
    (hparent : name ≠ parentName) :
    DirInv c' rs' ∧ ∃ l ls, (links rs).Perm (l :: ls) ∧ (links rs').Perm (l.rename newName :: ls) ∧
      l.name.bytes = name ∧ name ∉ linkNames ls := by
  obtain ⟨l, ls, hname, hperm, hperm'⟩ := hren.perm h.nodup
  have hnames : (linkNames (links rs)).Perm (linkNames (l :: ls)) := hperm.map _
  have hnames' : (linkNames (links rs')).Perm (linkNames (l.rename newName :: ls)) := hperm'.map _
  have hnodup := nodup_cons.1 (hnames.nodup_iff.1 h.nodup)
  have hnotMem : newName.bytes ∉ linkNames ls := fun hmem =>
    hnew (hnames.mem_iff.2 (mem_cons_of_mem _ hmem))
  refine ⟨⟨hrep, hren.proper h.proper hself hparent, ?_, ?_⟩, l, ls, hperm, hperm', hname, ?_⟩
  · exact hnames'.nodup_iff.2 (nodup_cons.2 ⟨hnotMem, hnodup.2⟩)
  · exact h.rep.dvd_size hrep (hren.extent_eq h.rep.fits) h.dvd
  · exact hname ▸ hnodup.1

/-- After a removal. -/
theorem DirInv.of_removed (hrep : c'.Rep rs') (hrem : Removed name rs l rs')
    (hname : name ≠ parentName) : DirInv c' rs' ∧ name ∉ linkNames (links rs') := by
  have hperm : (linkNames (links rs)).Perm (linkNames (l :: links rs')) := hrem.perm.map _
  have hnodup := nodup_cons.1 (hperm.nodup_iff.1 h.nodup)
  exact ⟨⟨hrep, hrem.proper h.proper hname, hnodup.2,
    h.rep.dvd_size hrep (.inl hrem.extent_eq) h.dvd⟩, hrem.name_eq ▸ hnodup.1⟩

/-- The call of `append_entry`. -/
theorem DirInv.append (hsize : c.size ≤ maxDirSize) (ho : o ∈ c.offsets)
    (hname : l.name.bytes ∉ c.names) :
    ∃ c' rs', (DirOp.append o l).run c = .ok c' ∧ DirInv c' rs' ∧
      c'.dirMap = (DirOp.append o l).apply c.dirMap := by
  obtain ⟨as, bs, rfl, rfl⟩ := h.rep.exists_at ho
  obtain ⟨c', hrun, hrep, happ⟩ := h.rep.appendEntry h.dvd hsize l
  rw [h.rep.names_eq] at hname
  have hinv := h.of_appended hrep happ hname
  refine ⟨c', _, bind_ok.2 ⟨_, new_link l, hrun⟩, hinv, ?_⟩
  rw [hrep.dirMap_eq, h.rep.dirMap_eq, linkMap_perm happ.perm hinv.nodup, linkMap_cons]
  rfl

/-- The call of `remove_entry`. -/
theorem DirInv.remove (hsize : c.size ≤ maxDirSize)
    (hself : name ≠ selfName) (hparent : name ≠ parentName) :
    (∃ c' rs', (DirOp.remove name).run c = .ok c' ∧ DirInv c' rs' ∧
        c'.dirMap = (DirOp.remove name).apply c.dirMap) ∨
      (DirOp.remove name).run c = returnErrno .enoent ∧ name ∉ c.names := by
  obtain ⟨p, q, ts, rfl, hp, hlen, hq⟩ := h.proper
  by_cases hmem : ∃ r ∈ q :: ts, r.link.name.bytes = name
  · left
    obtain ⟨l, len, c', rs', hrun, hrep, -, hrem⟩ :=
      h.rep.removeEntry hlen (hsize.trans_lt (by decide)) hmem
    obtain ⟨hinv, hgone⟩ := h.of_removed hrep hrem hparent
    refine ⟨c', rs', bind_ok.2 ⟨_, hrun, rfl⟩, hinv, ?_⟩
    rw [hrep.dirMap_eq, h.rep.dirMap_eq, linkMap_perm hrem.perm h.nodup, linkMap_cons,
      hrem.name_eq, DirOp.apply, update_idem]
    exact (update_eq_self_iff.2 (linkMap_of_notMem hgone).symm).symm
  · right
    push Not at hmem
    refine ⟨bind_err.2 (.inl (h.rep.removeEntry_notMem hlen hmem)), ?_⟩
    rw [h.rep.names_eq]
    intro hmem'
    obtain ⟨l, hl, hname⟩ := mem_map.1 hmem'
    obtain ⟨r, hr, rfl⟩ := mem_map.1 hl
    rcases mem_cons.1 hr with rfl | hr
    · exact hself (hname.symm.trans hp)
    · exact hmem r hr hname

/-- The call of `rename_entry`. -/
theorem DirInv.rename (hsize : c.size ≤ maxDirSize) {oldName : List UInt8} (ho : o ∈ c.offsets)
    (hnew : newName.bytes ∉ c.names) (hself : oldName ≠ selfName) (hparent : oldName ≠ parentName) :
    (∃ c' rs', (DirOp.rename o oldName newName).run c = .ok c' ∧ DirInv c' rs' ∧
        c'.dirMap = (DirOp.rename o oldName newName).apply c.dirMap) ∨
      (DirOp.rename o oldName newName).run c = returnErrno .enoent ∧
        (DirOp.rename o oldName newName).Missing c := by
  obtain ⟨as, bs, hrs, rfl⟩ := h.rep.exists_at ho
  have hrep := h.rep
  rw [hrs] at hrep
  by_cases hold : ∃ r ∈ bs, r.link.name.bytes = oldName
  · left
    obtain ⟨p, q, ts, rfl, hp, hlen, hq⟩ := h.proper
    obtain ⟨c', rs', -, hrun, hren, hrep', -⟩ :=
      h.rep.renameEntry hrs hlen h.dvd hsize hold (hp ▸ hself.symm)
    rw [h.rep.names_eq] at hnew
    obtain ⟨hinv, l, ls, hperm, hperm', hname, hgone⟩ :=
      h.of_renamed hrep' hren hnew hself hparent
    refine ⟨c', rs', hrun, hinv, ?_⟩
    have hls : update (linkMap ls) oldName none = linkMap ls :=
      update_eq_self_iff.2 (linkMap_of_notMem hgone).symm
    rw [hrep'.dirMap_eq, h.rep.dirMap_eq, linkMap_perm hperm h.nodup, linkMap_perm hperm'
      hinv.nodup, linkMap_cons, linkMap_cons, hname, DirOp.apply, update_idem, hls, update_self]
    rfl
  · right
    push Not at hold
    refine ⟨hrep.renameEntry_notMem hold, ?_⟩
    rw [DirOp.Missing, hrep.entries_eq, names_withOffsets]
    intro hmem
    obtain ⟨l, hl, hname⟩ := mem_map.1 hmem
    obtain ⟨r, hr, rfl⟩ := mem_map.1 hl
    exact hold r hr hname

end

theorem rep_empty : Rep ⟨0, fun _ => 0⟩ [] := ⟨trivial, rfl, by simp⟩

theorem append_parent_self (selfIno parentIno : Ino) :
    append (.parent parentIno) (append (.self selfIno) []) =
      [⟨.self selfIno, 12⟩, ⟨.parent parentIno, 4084⟩] := by
  have hgap : (⟨.self selfIno, blockSize⟩ : Record).gap = 4084 := by
    rw [Record.gap, Link.actualLen_self]
    rfl
  change append _ [⟨.self selfIno, blockSize⟩] = _
  rw [append, hgap, Link.actualLen_self, Link.actualLen_parent]
  rfl

/-- What `init_dir` makes. -/
theorem initDir_ok (selfIno parentIno : Ino) :
    ∃ c₀, initDir selfIno parentIno = .ok c₀ ∧
      DirInv c₀ [⟨.self selfIno, 12⟩, ⟨.parent parentIno, 4084⟩] ∧ c₀.size ≤ maxDirSize := by
  obtain ⟨c1, hrun1, hrep1, -⟩ := (show Rep _ ([] ++ []) from rep_empty).appendEntry
    (Nat.dvd_zero _) (Nat.zero_le _) (.self selfIno)
  have hsize1 : c1.size = blockSize := hrep1.extent_eq.symm
  obtain ⟨c2, hrun2, hrep2, -⟩ := hrep1.appendEntry (hsize1 ▸ dvd_rfl) (hsize1 ▸ by decide)
    (.parent parentIno)
  rw [append_parent_self] at hrep2
  have hsize : c2.size = blockSize := hrep2.extent_eq.symm
  have hnames : selfName ≠ parentName := by decide
  refine ⟨c2, ?_, ⟨hrep2, ⟨_, _, _, rfl, rfl, rfl, rfl⟩, ?_, hsize ▸ dvd_rfl⟩, hsize ▸ by decide⟩
  · rw [initDir, bind_ok]
    exact ⟨_, new_link (.self selfIno), bind_ok.2 ⟨_, hrun1,
      bind_ok.2 ⟨_, new_link (.parent parentIno), hrun2⟩⟩⟩
  · exact nodup_cons.2 ⟨fun hmem => hnames (mem_singleton.1 hmem), nodup_singleton _⟩

/-- A step of a run. -/
theorem DirInv.run (h : DirInv c rs) (hsize : c.size ≤ maxDirSize) (hfresh : op.Fresh c)
    (hdots : op.KeepsDots) :
    (∃ c' rs', op.run c = .ok c' ∧ DirInv c' rs' ∧ c'.dirMap = op.apply c.dirMap) ∨
      op.run c = returnErrno .enoent ∧ op.Missing c := by
  cases op with
  | append o l => exact .inl (h.append hsize hfresh.1 hfresh.2)
  | remove name => exact h.remove hsize hfresh.1 hfresh.2
  | rename o oldName newName => exact h.rename hsize hfresh.1 hfresh.2 hdots.1 hdots.2

theorem DirInv.of_reachable {c₀ : PageCache} {rs₀ : List Record} (h₀ : DirInv c₀ rs₀)
    (hsize : c₀.size ≤ maxDirSize)
    (hr : (dirLts.restrict fun c op => op.Fresh c ∧ op.KeepsDots).Reachable c₀ c) :
    (∃ rs, DirInv c rs) ∧ c.size ≤ maxDirSize := by
  refine hr.invariant (P := fun c => (∃ rs, DirInv c rs) ∧ c.size ≤ maxDirSize)
    ⟨⟨rs₀, h₀⟩, hsize⟩ ?_
  rintro c op c' ⟨⟨rs, h⟩, hsize⟩ ⟨⟨hfresh, hdots⟩, hstep⟩
  obtain ⟨hrun, hsize'⟩ := dirStep_eq_some.1 hstep
  refine ⟨?_, hsize'⟩
  rcases h.run hsize hfresh hdots with ⟨c1, rs1, hrun1, h1, -⟩ | ⟨hfail, -⟩
  · rw [hrun1] at hrun
    cases hrun
    exact ⟨rs1, h1⟩
  · rw [hfail] at hrun
    cases hrun

/-- **A directory is a map.**  In every directory reached from `init_dir` by calls of the writer
that add no name twice, remove neither `"."` nor `".."` and rename neither of them, the reader ends
and yields every name once.  Each further call of this kind inserts, deletes or renames just its own
entry, or returns `ENOENT` because the name is not there. -/
theorem dir_refines_map (selfIno parentIno : Ino) :
    ∃ c₀, initDir selfIno parentIno = .ok c₀ ∧
      c₀.dirMap = linkMap [.self selfIno, .parent parentIno] ∧
      ∀ c, (dirLts.restrict fun c op => op.Fresh c ∧ op.KeepsDots).Reachable c₀ c →
        c.names.Nodup ∧ (∀ rounds, c.size ≤ rounds → c.readEntries rounds 0 = c.entries 0) ∧
        ∀ op : DirOp, op.Fresh c → op.KeepsDots →
          (∃ c', op.run c = .ok c' ∧ c'.dirMap = op.apply c.dirMap) ∨
            op.run c = returnErrno .enoent ∧ op.Missing c := by
  obtain ⟨c₀, hinit, h0, hsize0⟩ := initDir_ok selfIno parentIno
  refine ⟨c₀, hinit, h0.rep.dirMap_eq, fun c hr => ?_⟩
  obtain ⟨⟨rs, h⟩, hsize⟩ := h0.of_reachable hsize0 hr
  refine ⟨?_, fun rounds hrounds => ?_, fun op hfresh hdots => ?_⟩
  · rw [h.rep.names_eq]
    exact h.nodup
  · rw [h.rep.entries_zero]
    exact (show c.Rep ([] ++ rs) from h.rep).readEntries_eq hrounds
  · refine (h.run hsize hfresh hdots).imp_left ?_
    rintro ⟨c', rs', hrun, -, hmap⟩
    exact ⟨c', hrun, hmap⟩

/-- A file with a name of one letter. -/
def oneLetter (b : UInt8) (hb : b ≠ 0) (ino : Ino) : Link :=
  ⟨⟨[b], Nat.le_of_ble_eq_true rfl, by simpa using hb.symm⟩, ino, .file, ino.2.1, ino.2.2⟩

/-- Two files `X` and `Y`, and `".."` renamed to `"abcde"`, which needs a longer record. -/
def moveParent : List DirOp :=
  [.append 0 (oneLetter 88 (by decide) ⟨11, by decide⟩),
    .append 0 (oneLetter 89 (by decide) ⟨12, by decide⟩),
    .rename 0 parentName ⟨[97, 98, 99, 100, 101], by decide, by decide⟩]

/-- The removal of `X` then removes `Y`, and `X` is still there. -/
theorem exists_wrong_removal :
    ∃ c₀ c c', initDir 2 2 = .ok c₀ ∧
      (dirLts.restrict fun c op => op.Fresh c).Reachable c₀ c ∧ (DirOp.remove [88]).Fresh c ∧
      dirLts.step c (.remove [88]) c' ∧ c.dirMap [89] = some (12, .ok .file) ∧
      c'.dirMap [89] = none ∧ c'.dirMap [88] = some (11, .ok .file) := by
  have hrun : (initDir 2 2).toOption.bind (fun c₀ =>
      (Lts.run (Lts.guard (fun c op => op.Fresh c) dirStep) c₀ moveParent).bind fun c =>
        (c.dirStep (.remove [88])).map fun c' =>
          decide (c.dirMap [89] = some (12, .ok .file) ∧ c'.dirMap [89] = none ∧
            c'.dirMap [88] = some (11, .ok .file))) = some true := by decide +kernel
  obtain ⟨c₀, hinit, hrun⟩ := bind_eq_some_iff.1 hrun
  obtain ⟨c, hc, hrun⟩ := bind_eq_some_iff.1 hrun
  obtain ⟨c', hstep, hmaps⟩ := map_eq_some_iff.1 hrun
  refine ⟨c₀, c, c', ?_, Lts.reachable_guard (Lts.reachable_run hc), ⟨by decide, by decide⟩, hstep,
    of_decide_eq_true hmaps⟩
  cases hres : initDir 2 2 with
  | ok c1 => rw [hres] at hinit; exact congrArg _ (some.inj hinit)
  | error f => rw [hres] at hinit; cases hinit

end PageCache

end Jinux
