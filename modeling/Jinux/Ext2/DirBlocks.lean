import Jinux.Ext2.DirMap

/-!
# The blocks of a directory

In the format of ext2 no record of a directory crosses a block boundary, so that the records that
start in a block tile it (`PageCache.Tiled`).  A new block starts with a record of its own, and a
record that is split stays in its block.  A removal merges a record into the one before it, also
when that one is in another block: the branch of `remove_entry` that would drop the block instead is
never taken.

* `Record.Blocked` : the same of a list of records;
* `tiled_of_blockwise` : **as long as no entry that starts a block is removed or moved, every block
  is tiled**, and a removal keeps this just if the entry does not start a block;
* `exists_record_across_blocks` : the removal of the only entry of the second block makes a record
  that crosses the boundary, and the directory keeps its size.
-/

namespace Jinux

open Record List DirEntry DirOp Nat

variable {rs rs' : List Record} {l : Link} {name : List UInt8} {newName : FileName}

namespace PageCache

/-- No record crosses a block boundary, and each byte of a block is in just one of the records that
start in this block. -/
structure Tiled (c : PageCache) : Prop where
  within : ∀ p ∈ c.entries 0, p.1 % blockSize + p.2.recordLen ≤ blockSize
  tiles : ∀ a < c.size, ∃! p, p ∈ c.entries 0 ∧ p.1 / blockSize = a / blockSize ∧ p.1 ≤ a ∧
    a < p.1 + p.2.recordLen

/-- The first entry of the name behind `"."`, which is the one that `remove_entry` takes. -/
def removalTarget (c : PageCache) (name : List UInt8) : Option (ℕ × DirEntry) :=
  (c.entries 0).tail.find? fun p => p.2.name = name

/-- The entry to be removed starts a block. -/
def StartsBlock (c : PageCache) (name : List UInt8) : Prop :=
  ∃ p, c.removalTarget name = some p ∧ blockSize ∣ p.1

/-- The entry to be removed is the only one of the last block. -/
def AloneInLastBlock (c : PageCache) (name : List UInt8) : Prop :=
  ∃ p, c.removalTarget name = some p ∧ p.1 / blockSize = (c.size - 1) / blockSize ∧
    ∀ q ∈ c.entries 0, q.1 / blockSize = p.1 / blockSize → q.1 = p.1

/-- The first entry of `oldName` from `o` on has room for `newName`. -/
def HasRoom (c : PageCache) (o : ℕ) (oldName : List UInt8) (newName : FileName) : Prop :=
  ∀ p, (c.entries o).find? (fun p => p.2.name = oldName) = some p →
    align4 (headerLen + newName.bytes.length) ≤ p.2.recordLen

end PageCache

/-- The writer is at a record, `"."` and `".."` are left alone, and no entry that starts a block is
removed or moved. -/
def DirOp.Blockwise (c : PageCache) : DirOp → Prop
  | .append o _ => o ∈ c.offsets
  | .remove name =>
    name ≠ selfName ∧ name ≠ parentName ∧ ¬ c.StartsBlock name
  | .rename o oldName newName =>
    o ∈ c.offsets ∧ oldName ≠ selfName ∧ oldName ≠ parentName ∧
      (c.HasRoom o oldName newName ∨ ¬ c.StartsBlock oldName)

namespace Record

variable {ts : List Record} {r p e : Record} {o a : ℕ}

/-- No record crosses a block boundary, with the first one at `o`. -/
def Blocked : ℕ → List Record → Prop
  | _, [] => True
  | o, r :: rs => o % blockSize + r.len ≤ blockSize ∧ Blocked (o + r.len) rs

instance : (o : ℕ) → (rs : List Record) → Decidable (Blocked o rs)
  | _, [] => inferInstanceAs (Decidable True)
  | o, r :: rs =>
    have := instDecidableBlocked (o + r.len) rs
    inferInstanceAs (Decidable (_ ∧ _))

theorem blocked_append : Blocked o (rs ++ ts) ↔ Blocked o rs ∧ Blocked (o + extent rs) ts := by
  induction rs generalizing o with
  | nil => simp [Blocked]
  | cons r rs ih => simp [Blocked, ih, and_assoc, add_assoc]

theorem blocked_congr (h : rs'.map len = rs.map len) : Blocked o rs' ↔ Blocked o rs := by
  induction rs generalizing rs' o with
  | nil => rw [map_eq_nil_iff.1 h]
  | cons r rs ih =>
    obtain ⟨r', ts, rfl, hr, hts⟩ := map_eq_cons_iff.1 h
    rw [Blocked, Blocked, hr, ih hts]

theorem blocked_iff :
    Blocked o rs ↔ ∀ p ∈ withOffsets o rs, p.1 % blockSize + p.2.recordLen ≤ blockSize := by
  induction rs generalizing o with
  | nil => simp [Blocked, withOffsets]
  | cons r rs ih => simp [Blocked, withOffsets, ih]

/-- A record that is split stays in its block. -/
theorem blocked_split {m n : ℕ} {l₁ l₂ : Link} (hm : 0 < m) (hn : 0 < n)
    (h : Blocked o (⟨l, m + n⟩ :: rs)) : Blocked o (⟨l₁, m⟩ :: ⟨l₂, n⟩ :: rs) := by
  simp only [Blocked, ← add_assoc] at h ⊢
  unfold blockSize at *
  exact ⟨by omega, by omega, h.2⟩

/-- Two records that are merged stay in their block just if the second one does not start one. -/
theorem blocked_merge (hp : 0 < p.len) (he : 0 < e.len) (h : Blocked o (p :: e :: rs)) :
    Blocked o (⟨l, p.len + e.len⟩ :: rs) ↔ ¬ blockSize ∣ o + p.len := by
  simp only [Blocked, ← add_assoc]
  obtain ⟨h1, h2, h3⟩ := h
  simp only [h3, and_true]
  unfold blockSize at *
  omega

theorem extent_le_append (l : Link) (rs : List Record) : extent rs ≤ extent (append l rs) := by
  induction rs with
  | nil => exact zero_le _
  | cons r rs ih =>
    rw [append]
    split_ifs
    · have hlen : r.gap = r.len - r.link.actualLen := rfl
      simp only [extent_cons]
      omega
    · simp only [extent_cons]
      omega

/-- Each byte is in one record. -/
theorem existsUnique_covering (hlo : o ≤ a) (hhi : a < o + extent rs) :
    ∃! p, p ∈ withOffsets o rs ∧ p.1 ≤ a ∧ a < p.1 + p.2.recordLen := by
  have hge : ∀ (ts : List Record) (o' : ℕ), ∀ p ∈ withOffsets o' ts, o' ≤ p.1 := by
    intro ts
    induction ts with
    | nil => simp [withOffsets]
    | cons t ts ih =>
      intro o' p hp
      rcases mem_cons.1 hp with rfl | hp
      · exact le_rfl
      · exact (le_add_right _ _).trans (ih _ p hp)
  induction rs generalizing o with
  | nil => simp at hhi; omega
  | cons r rs ih =>
    rw [extent_cons, ← add_assoc] at hhi
    by_cases ha : a < o + r.len
    · refine ⟨(o, r.link.entry r.len), ⟨mem_cons_self, hlo, ha⟩, ?_⟩
      rintro q ⟨hq, hqlo, -⟩
      rcases mem_cons.1 hq with rfl | hq
      · rfl
      · have := hge _ _ q hq
        omega
    · obtain ⟨q, ⟨hq, hcover⟩, huniq⟩ := ih (by omega) hhi
      refine ⟨q, ⟨mem_cons_of_mem _ hq, hcover⟩, ?_⟩
      rintro q' ⟨hq', hcover'⟩
      rcases mem_cons.1 hq' with rfl | hq'
      · exact absurd hcover'.2 ha
      · exact huniq q' ⟨hq', hcover'⟩

theorem Appended.blocked (h : Appended l rs rs') (hfits : ∀ r ∈ rs, r.link.actualLen ≤ r.len)
    (hdvd : blockSize ∣ extent rs) (hb : Blocked 0 rs) : Blocked 0 rs' := by
  cases h with
  | @gap xs ys r hgap =>
    have hr := hfits r (by simp)
    have hpos := r.link.headerLen_add_le_actualLen
    have hpos' := l.headerLen_add_le_actualLen
    have hlen : r.link.actualLen + r.gap = r.len := Nat.add_sub_cancel' hr
    rw [blocked_append] at hb ⊢
    refine ⟨hb.1, blocked_split (l := r.link) (by omega) (by omega) ?_⟩
    rw [hlen]
    exact hb.2
  | block =>
    rw [blocked_append]
    refine ⟨hb, ?_, trivial⟩
    rw [zero_add, mod_eq_zero_of_dvd hdvd, zero_add]

/-- The search for the entry to remove. -/
theorem Removed.find_tail (h : Removed name rs l rs') :
    ∃ xs p e ys, rs = xs ++ p :: e :: ys ∧ rs' = xs ++ ⟨p.link, p.len + e.len⟩ :: ys ∧
      (withOffsets 0 rs).tail.find? (fun p => p.2.name = name) =
        some (extent xs + p.len, e.link.entry e.len) := by
  cases h with
  | @merge xs ys p e he hfirst =>
    refine ⟨xs, p, e, ys, rfl, rfl, ?_⟩
    have hsplit : withOffsets 0 (xs ++ p :: e :: ys) = withOffsets 0 (xs ++ [p]) ++
        (extent xs + p.len, e.link.entry e.len) :: withOffsets (extent xs + p.len + e.len) ys := by
      simp [withOffsets]
    have hnames : ∀ q ∈ (withOffsets 0 (xs ++ [p])).tail, q.2.name ≠ name := by
      intro q hq
      have hq' := mem_map_of_mem (f := fun q => q.2.name) hq
      rw [map_tail, PageCache.names_withOffsets, linkNames, links, map_map, ← map_tail] at hq'
      obtain ⟨r, hr, hname⟩ := mem_map.1 hq'
      exact hname ▸ hfirst r hr
    rw [hsplit, tail_append_of_ne_nil (by cases xs <;> simp [withOffsets]), find?_append,
      find?_eq_none.2 (by simpa using hnames), Option.none_or, find?_cons_of_pos (by simp [he])]

theorem Renamed.blocked (h : Renamed name newName rs rs')
    (hfits : ∀ r ∈ rs, r.link.actualLen ≤ r.len) (hdvd : blockSize ∣ extent rs) (hb : Blocked 0 rs)
    (hremove : ∀ {l ts}, Removed name rs l ts → Blocked 0 ts) : Blocked 0 rs' := by
  cases h with
  | inPlace => exact (blocked_congr (by simp)).1 hb
  | moved _ _ hrem happ =>
    exact happ.blocked (hrem.fits hfits) (hrem.extent_eq ▸ hdvd) (hremove hrem)

end Record

namespace PageCache

variable {c c' : PageCache} {op : DirOp}

/-- A directory is tiled if its records are blocked. -/
theorem Rep.tiled_iff (h : c.Rep rs) : c.Tiled ↔ Blocked 0 rs := by
  rw [blocked_iff, ← h.entries_zero]
  refine ⟨Tiled.within, fun hwithin => ⟨hwithin, fun a ha => ?_⟩⟩
  rw [← h.extent_eq, ← zero_add (extent rs)] at ha
  obtain ⟨p, ⟨hp, hlo, hhi⟩, huniq⟩ := existsUnique_covering (zero_le a) ha
  rw [← h.entries_zero] at hp huniq
  have hblock : p.1 / blockSize = a / blockSize := by
    have := hwithin p hp
    unfold blockSize at *
    omega
  exact ⟨p, ⟨hp, hblock, hlo, hhi⟩, fun q hq => huniq q ⟨hq.1, hq.2.2⟩⟩

/-- The only entry of the last block starts it. -/
theorem Tiled.startsBlock (h : c.Tiled) (hpos : 0 < c.size) (halone : c.AloneInLastBlock name) :
    c.StartsBlock name := by
  obtain ⟨p, htarget, hlast, honly⟩ := halone
  refine ⟨p, htarget, ?_⟩
  -- the first byte of the block is in a record that starts in this block
  obtain ⟨q, ⟨hq, hblock, hle, -⟩, -⟩ := h.tiles (p.1 / blockSize * blockSize)
    (by unfold blockSize at *; omega)
  have hsame := honly q hq (by unfold blockSize at *; omega)
  unfold blockSize at *
  omega

/-- What holds of a directory in which no entry that starts a block was removed. -/
structure BlockInv (c : PageCache) (rs : List Record) : Prop where
  rep : c.Rep rs
  proper : Proper rs
  blocked : Blocked 0 rs
  dvd : blockSize ∣ c.size

theorem BlockInv.of_appended (h : BlockInv c rs) (hrep : c'.Rep rs') (happ : Appended l rs rs') :
    BlockInv c' rs' where
  rep := hrep
  proper := happ.proper h.proper
  blocked := happ.blocked h.rep.fits (h.rep.extent_eq ▸ h.dvd) h.blocked
  dvd := h.rep.dvd_size hrep (happ.extent_eq h.rep.fits) h.dvd

/-- A removal keeps the records in their blocks just if the entry does not start one. -/
theorem BlockInv.blocked_removed (h : BlockInv c rs) (hrem : Removed name rs l rs') :
    Blocked 0 rs' ↔ ¬ c.StartsBlock name := by
  have hpos : ∀ r ∈ rs, 0 < r.len := fun r hr => by
    have hlen := r.link.headerLen_add_le_actualLen
    have hactual := (h.rep.valid r hr).actualLen_le
    omega
  obtain ⟨xs, p, e, ys, rfl, rfl, hfind⟩ := hrem.find_tail
  have hblocked := blocked_append.1 h.blocked
  have hmerge := blocked_merge (l := p.link) (hpos p (by simp)) (hpos e (by simp)) hblocked.2
  rw [blocked_append, hmerge, and_iff_right hblocked.1, zero_add]
  have htarget : c.removalTarget name = some (extent xs + p.len, e.link.entry e.len) := by
    rw [removalTarget, h.rep.entries_zero, hfind]
  refine not_congr ⟨fun hdvd => ⟨_, htarget, hdvd⟩, ?_⟩
  rintro ⟨q, htarget', hdvd⟩
  rw [htarget] at htarget'
  obtain rfl := Option.some.inj htarget'
  exact hdvd

theorem BlockInv.of_removed (h : BlockInv c rs) (hrep : c'.Rep rs') (hrem : Removed name rs l rs')
    (hparent : name ≠ parentName) (hstart : ¬ c.StartsBlock name) : BlockInv c' rs' where
  rep := hrep
  proper := hrem.proper h.proper hparent
  blocked := (h.blocked_removed hrem).2 hstart
  dvd := h.rep.dvd_size hrep (.inl hrem.extent_eq) h.dvd

section

variable (hsize : c.size ≤ maxDirSize)

include hsize

/-- The call of `append_entry`. -/
theorem BlockInv.append {as bs : List Record} (h : BlockInv c (as ++ bs)) (l : Link) :
    ∃ c', (append (extent as) l).run c = .ok c' ∧ BlockInv c' (as ++ Record.append l bs) := by
  obtain ⟨c', hrun, hrep, happ⟩ := h.rep.appendEntry h.dvd hsize l
  exact ⟨c', Result.bind_ok.2 ⟨_, new_link l, hrun⟩, h.of_appended hrep happ⟩

/-- The call of `remove_entry`, when a record behind the first has the name. -/
theorem BlockInv.remove_of_mem (h : BlockInv c rs)
    (hmem : ∃ r ∈ rs.tail, r.link.name.bytes = name) :
    ∃ c' l rs', (DirOp.remove name).run c = .ok c' ∧ c'.Rep rs' ∧
      Record.remove name rs = some (l, rs') ∧ Removed name rs l rs' := by
  obtain ⟨p, q, ts, rfl, hp, hlen, hq⟩ := h.proper
  obtain ⟨l, len, c', rs', hrun, hrep, hremove, hrem⟩ :=
    h.rep.removeEntry hlen (hsize.trans_lt (by decide)) hmem
  exact ⟨c', l, rs', Result.bind_ok.2 ⟨_, hrun, rfl⟩, hrep, hremove, hrem⟩

/-- The call of `remove_entry`, when it succeeds. -/
theorem BlockInv.remove (h : BlockInv c rs)
    (hrun : (DirOp.remove name).run c = .ok c') : ∃ l rs', c'.Rep rs' ∧ Removed name rs l rs' := by
  by_cases hmem : ∃ r ∈ rs.tail, r.link.name.bytes = name
  · obtain ⟨c1, l, rs', hrun1, hrep, -, hrem⟩ := h.remove_of_mem hsize hmem
    rw [hrun1] at hrun
    cases hrun
    exact ⟨l, rs', hrep, hrem⟩
  · obtain ⟨p, q, ts, rfl, hp, hlen, hq⟩ := h.proper
    push Not at hmem
    rw [DirOp.run, h.rep.removeEntry_notMem hlen hmem] at hrun
    cases hrun

/-- The call of `rename_entry`, when it succeeds. -/
theorem BlockInv.rename (h : BlockInv c rs) {o : ℕ} {oldName : List UInt8}
    (hop : (rename o oldName newName).Blockwise c)
    (hrun : (rename o oldName newName).run c = .ok c') : ∃ rs', BlockInv c' rs' := by
  obtain ⟨ho, hself, hparent, hmove⟩ := hop
  obtain ⟨as, bs, hrs, rfl⟩ := h.rep.exists_at ho
  by_cases hold : ∃ r ∈ bs, r.link.name.bytes = oldName
  · obtain ⟨p, q, ts, rfl, hp, hlen, hq⟩ := h.proper
    obtain ⟨c1, rs', e, hrun1, hren, hrep, hfind, hlens⟩ :=
      h.rep.renameEntry hrs hlen h.dvd hsize hold (hp ▸ hself.symm)
    rw [run, hrun1] at hrun
    cases hrun
    refine ⟨rs', hrep, hren.proper h.proper hself hparent, ?_,
      h.rep.dvd_size hrep (hren.extent_eq h.rep.fits) h.dvd⟩
    rcases hmove with hroom | hstart
    · exact (blocked_congr (hlens (hroom e hfind))).2 h.blocked
    · exact hren.blocked h.rep.fits (h.rep.extent_eq ▸ h.dvd) h.blocked
        fun hrem => (h.blocked_removed hrem).2 hstart
  · push Not at hold
    rw [run, (hrs ▸ h.rep : c.Rep (as ++ bs)).renameEntry_notMem hold] at hrun
    cases hrun

/-- A step of a run. -/
theorem BlockInv.run (h : BlockInv c rs) (hop : op.Blockwise c)
    (hrun : op.run c = .ok c') : ∃ rs', BlockInv c' rs' := by
  cases op with
  | append o l =>
    obtain ⟨as, bs, rfl, rfl⟩ := h.rep.exists_at hop
    obtain ⟨c1, hrun1, hinv⟩ := h.append hsize l
    rw [hrun1] at hrun
    cases hrun
    exact ⟨_, hinv⟩
  | remove name =>
    obtain ⟨l, rs', hrep, hrem⟩ := h.remove hsize hrun
    exact ⟨rs', h.of_removed hrep hrem hop.2.1 hop.2.2⟩
  | rename o oldName newName => exact h.rename hsize hop hrun

end

theorem BlockInv.of_reachable {c₀ : PageCache} {rs₀ : List Record} (h₀ : BlockInv c₀ rs₀)
    (hsize : c₀.size ≤ maxDirSize) (hr : (dirLts.restrict Blockwise).Reachable c₀ c) :
    (∃ rs, BlockInv c rs) ∧ c.size ≤ maxDirSize := by
  refine hr.invariant (P := fun c => (∃ rs, BlockInv c rs) ∧ c.size ≤ maxDirSize)
    ⟨⟨rs₀, h₀⟩, hsize⟩ ?_
  rintro c op c' ⟨⟨rs, h⟩, hsize⟩ ⟨hop, hstep⟩
  obtain ⟨hrun, hsize'⟩ := dirStep_eq_some.1 hstep
  exact ⟨h.run hsize hop hrun, hsize'⟩

theorem initDir_blockInv (selfIno parentIno : Ino) :
    ∃ c₀, initDir selfIno parentIno = .ok c₀ ∧ c₀.size ≤ maxDirSize ∧
      BlockInv c₀ [⟨.self selfIno, 12⟩, ⟨.parent parentIno, 4084⟩] := by
  obtain ⟨c₀, hinit, h0, hsize0⟩ := initDir_ok selfIno parentIno
  exact ⟨c₀, hinit, hsize0, h0.rep, h0.proper,
    ⟨show 0 % 4096 + 12 ≤ 4096 by decide, show (0 + 12) % 4096 + 4084 ≤ 4096 by decide, trivial⟩,
    h0.dvd⟩

/-- **Blocks are tiled until an entry that starts one is removed.**  In every directory reached from
`init_dir` by calls of the writer that leave `"."` and `".."` alone and neither remove nor move an
entry that starts a block, the records that start in a block tile it.  The only entry of the last
block starts this block.  A removal never changes the size of the directory, and it keeps the blocks
tiled just if the entry does not start a block. -/
theorem tiled_of_blockwise (selfIno parentIno : Ino) :
    ∃ c₀, initDir selfIno parentIno = .ok c₀ ∧
      ∀ c, (dirLts.restrict Blockwise).Reachable c₀ c →
        c.Tiled ∧ (∀ name, c.AloneInLastBlock name → c.StartsBlock name) ∧
        ∀ name c', dirLts.step c (.remove name) c' →
          c'.size = c.size ∧ (c'.Tiled ↔ ¬ c.StartsBlock name) := by
  obtain ⟨c₀, hinit, hsize0, h0⟩ := initDir_blockInv selfIno parentIno
  refine ⟨c₀, hinit, fun c hr => ?_⟩
  obtain ⟨⟨rs, h⟩, hsize⟩ := h0.of_reachable hsize0 hr
  have htiled : c.Tiled := h.rep.tiled_iff.2 h.blocked
  refine ⟨htiled, fun name => htiled.startsBlock ?_, fun name c' hstep => ?_⟩
  · obtain ⟨p, q, ts, rfl, hp, hlen, hq⟩ := h.proper
    rw [← h.rep.extent_eq, extent_cons, hlen]
    exact Nat.add_pos_left (by decide) _
  · obtain ⟨l, rs', hrep, hrem⟩ := h.remove hsize (dirStep_eq_some.1 hstep).1
    rw [hrep.tiled_iff, h.blocked_removed hrem, ← hrep.extent_eq, hrem.extent_eq, h.rep.extent_eq]
    exact ⟨rfl, Iff.rfl⟩

/-- Appending some entries, the last one of the list first. -/
theorem BlockInv.fill (h : BlockInv c rs) (hsize : c.size ≤ maxDirSize) {ls : List Link}
    (hfill : extent (ls.foldr Record.append rs) ≤ maxDirSize) :
    ∃ c', (dirLts.restrict Blockwise).Reachable c c' ∧ BlockInv c' (ls.foldr Record.append rs) := by
  induction ls with
  | nil => exact ⟨c, .refl c, h⟩
  | cons l ls ih =>
    obtain ⟨c1, hr, h1⟩ := ih ((extent_le_append l _).trans hfill)
    have hsize1 : c1.size ≤ maxDirSize := (h.of_reachable hsize hr).2
    obtain ⟨c2, hrun, h2⟩ := (show BlockInv c1 ([] ++ _) from h1).append hsize1 l
    refine ⟨c2, hr.step ⟨?_, dirStep_eq_some.2 ⟨hrun, ?_⟩⟩, h2⟩
    · obtain ⟨p, q, ts, hrs, -⟩ := h1.proper
      rw [Blockwise, offsets, h1.rep.entries_zero, hrs]
      exact mem_cons_self
    · rw [← h2.rep.extent_eq]
      exact hfill

/-- Sixteen names of 255 bytes. -/
def longName (i : Fin 16) : FileName :=
  ⟨List.replicate i 97 ++ 98 :: List.replicate (254 - i) 97, by simp [maxFnameLen]; omega, by simp⟩

/-- A file for each of them: fifteen fit in the first block. -/
def longFiles : List Link :=
  (List.finRange 16).reverse.map fun i =>
    ⟨longName i, i + 11, .file, by omega, by unfold u32Bound; omega⟩

/-- The records of a directory with these files, in the root directory. -/
def longRecords : List Record :=
  longFiles.foldr Record.append [⟨.self ⟨2, by decide⟩, 12⟩, ⟨.parent ⟨2, by decide⟩, 4084⟩]

/-- The removal of the only entry of the second block leaves the size as it is and makes a record
that crosses the boundary. -/
theorem exists_record_across_blocks :
    ∃ c₀ c c', initDir 2 2 = .ok c₀ ∧ (dirLts.restrict Blockwise).Reachable c₀ c ∧
      c.AloneInLastBlock (longName 15).bytes ∧
      dirLts.step c (.remove (longName 15).bytes) c' ∧ c'.size = c.size ∧
      ∃ p ∈ c'.entries 0, blockSize < p.1 % blockSize + p.2.recordLen := by
  obtain ⟨c₀, hinit, hsize0, h0⟩ := initDir_blockInv ⟨2, by decide⟩ ⟨2, by decide⟩
  obtain ⟨c, hr, h⟩ : ∃ c, (dirLts.restrict Blockwise).Reachable c₀ c ∧
      BlockInv c longRecords :=
    h0.fill hsize0 (show extent longRecords ≤ maxDirSize by decide +kernel)
  have hsize := (h0.of_reachable hsize0 hr).2
  obtain ⟨c', l, rs', hrun, hrep, hremove, hrem⟩ := h.remove_of_mem hsize
    (show ∃ r ∈ longRecords.tail, r.link.name.bytes = (longName 15).bytes by decide +kernel)
  have hsame : c'.size = c.size := by
    rw [← hrep.extent_eq, hrem.extent_eq, h.rep.extent_eq]
  have hacross : (Record.remove (longName 15).bytes longRecords).map
      (fun x => decide (Blocked 0 x.2)) = some false := by decide +kernel
  have hblocked : ¬ Blocked 0 rs' := by
    rw [hremove] at hacross
    exact of_decide_eq_false (Option.some.inj hacross)
  refine ⟨c₀, c, c', hinit, hr, ?_, dirStep_eq_some.2 ⟨hrun, hsame ▸ hsize⟩, hsame, ?_⟩
  · have halone : ((withOffsets 0 longRecords).tail.find?
        fun p => p.2.name = (longName 15).bytes).map (fun p =>
          decide (p.1 / blockSize = (extent longRecords - 1) / blockSize ∧
            ∀ q ∈ withOffsets 0 longRecords, q.1 / blockSize = p.1 / blockSize → q.1 = p.1)) =
          some true := by decide +kernel
    obtain ⟨p, hp, halone⟩ := Option.map_eq_some_iff.1 halone
    rw [AloneInLastBlock, removalTarget, h.rep.entries_zero, ← h.rep.extent_eq]
    exact ⟨p, hp, of_decide_eq_true halone⟩
  · rw [blocked_iff, ← hrep.entries_zero] at hblocked
    push Not at hblocked
    exact hblocked

end PageCache

end Jinux
