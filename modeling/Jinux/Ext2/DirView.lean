import Jinux.Ext2.DirMap
import Jinux.Ext2.Namespace
import Jinux.Ext2.Resizing

/-!
# Directories of a volume

What the functions of `Inner` do to the entries of a directory and to its count of links.

* `Inode.children` : the entries that the reader of a directory yields, without `"."` and `".."`;
* `Volume.nodes` : the namespace that a volume shows;
* `Volume.Sound` : the inode caches lead to the inodes, and the directories are well formed;
* `Sound.appendEntry`, `Sound.removeEntry`, `Sound.create`, … : what a call does to the namespace.
-/

namespace Jinux

open DirEntry Record List Table PageCache Link Except Inode

/-! ### Entries -/

/-- What an entry says. -/
def DirEntry.child (e : DirEntry) : Child := ⟨e.name, e.ino, e.type⟩

/-- The name is `"."` or `".."`. -/
def DirEntry.IsDot (name : List UInt8) : Prop := name = selfName ∨ name = parentName

instance (name : List UInt8) : Decidable (IsDot name) :=
  inferInstanceAs (Decidable (name = selfName ∨ name = parentName))

/-- The entries of a directory, without `"."` and `".."`. -/
def Inode.children (x : Inode) : List Child :=
  if x.desc.type = .dir then
    ((x.pageCache.entries 0).map fun p => p.2.child).filter fun c => ¬IsDot c.name
  else []

/-- The inode as others see it. -/
def Inode.node (x : Inode) : Node := ⟨x.ino, x.desc.type, x.desc.hardLinks, x.children⟩

/-- The namespace of a volume. -/
def Volume.nodes {n : ℕ} (v : Volume n) : List Node := v.inodes.map node

/-- The entry of a record. -/
def Link.child (l : Link) : Child := ⟨l.name.bytes, l.ino, .ok l.type⟩

/-- The entries of some records, without `"."` and `".."`. -/
def kidsOf (ls : List Link) : Multiset Child :=
  ((ls.map Link.child).filter fun c => ¬IsDot c.name : List Child)

variable {ls : List Link} {l : Link} {as bs rs rs' : List Record} {r : Record} {x y : Inode}
  {name : List UInt8}

theorem kidsOf_perm {ls' : List Link} (h : ls.Perm ls') : kidsOf ls = kidsOf ls' :=
  Multiset.coe_eq_coe.2 ((h.map _).filter _)

theorem kidsOf_cons (h : ¬IsDot l.name.bytes) : kidsOf (l :: ls) = l.child ::ₘ kidsOf ls := by
  have hdot : ¬IsDot l.child.name := h
  rw [kidsOf, map_cons, filter_cons_of_pos (by simpa using hdot)]
  rfl

theorem kidsOf_cons_dot (h : IsDot l.name.bytes) : kidsOf (l :: ls) = kidsOf ls := by
  have hdot : IsDot l.child.name := h
  rw [kidsOf, map_cons, filter_cons_of_neg (by simpa using hdot)]
  rfl

theorem mem_kidsOf {c : Child} : c ∈ kidsOf ls ↔ (∃ l ∈ ls, l.child = c) ∧ ¬IsDot c.name := by
  simp [kidsOf]

theorem nodup_kidsOf (h : (linkNames ls).Nodup) : ((kidsOf ls).map Child.name).Nodup := by
  have hsub :=
    (filter_sublist (p := fun c => ¬IsDot c.name) (l := ls.map Link.child)).map Child.name
  rw [map_map] at hsub
  exact h.sublist hsub

theorem Link.child_entry (l : Link) (len : ℕ) : (l.entry len).child = l.child := by
  rw [DirEntry.child, type_entry]
  rfl

theorem map_child_withOffsets (rs : List Record) (o : ℕ) :
    (withOffsets o rs).map (fun p => p.2.child) = (links rs).map Link.child := by
  induction rs generalizing o with
  | nil => rfl
  | cons r rs ih =>
    rw [withOffsets, links_cons, map_cons, map_cons, ih, child_entry]

theorem Inode.children_eq (htype : x.desc.type = .dir) (h : x.pageCache.Rep rs) :
    (x.children : Multiset Child) = kidsOf (links rs) := by
  rw [children, if_pos htype, h.entries_zero, map_child_withOffsets]
  rfl

/-! ### Directories -/

/-- The page cache holds the records, and its size is that of the inode.  It lies within the direct
blocks: the code reads and writes no others. -/
structure Inode.Shape (x : Inode) (rs : List Record) : Prop where
  type : x.desc.type = .dir
  rep : x.pageCache.Rep rs
  dvd : blockSize ∣ x.pageCache.size
  size_eq : x.desc.size = x.pageCache.size
  size_le : x.pageCache.size ≤ maxDirSize

/-- A directory in use: the first records are `"."` and `".."`, and no name stands there twice. -/
structure Inode.DirOk (x : Inode) (rs : List Record) : Prop extends x.Shape rs where
  proper : Proper rs
  nodup : (linkNames (links rs)).Nodup

/-- A record of another name stays where it is. -/
theorem Record.Removed.exists_record (h : Removed name rs l rs') (hrs : rs = as ++ r :: bs)
    (hr : r.link.name.bytes ≠ name) :
    ∃ as' r' bs', rs' = as' ++ r' :: bs' ∧ extent as' = extent as ∧ r'.link = r.link := by
  cases h with
  | @merge xs ys p e he hfirst =>
    rcases append_eq_append_iff.1 hrs with ⟨ts, rfl, hts⟩ | ⟨ts, rfl, hts⟩
    · match ts, hts with
      | [], hts =>
        cases hts
        exact ⟨xs, _, ys, rfl, by simp, rfl⟩
      | [q], hts =>
        cases hts
        exact absurd he hr
      | q :: q' :: ts, hts =>
        cases hts
        refine ⟨xs ++ ⟨p.link, p.len + e.len⟩ :: ts, r, bs, by simp, ?_, rfl⟩
        simp only [extent_append, extent_cons]
        omega
    · match ts, hts with
      | [], hts =>
        cases hts
        exact ⟨as, ⟨r.link, r.len + e.len⟩, ys, by simp, rfl, rfl⟩
      | q :: ts, hts =>
        cases hts
        exact ⟨as, r, ts ++ ⟨p.link, p.len + e.len⟩ :: ys, by simp, rfl, rfl⟩

/-- Another entry of the same name in the place of one. -/
theorem Record.Proper.overwrite (h : Proper (as ++ r :: bs))
    (hname : l.name = r.link.name) : Proper (as ++ ⟨l, r.len⟩ :: bs) := by
  match as, h with
  | [], ⟨p, q, ts, heq, hp, hlen, hq⟩ =>
    cases heq
    exact ⟨⟨l, r.len⟩, q, ts, rfl, hname ▸ hp, hlen, hq⟩
  | [x], ⟨p, q, ts, heq, hp, hlen, hq⟩ =>
    cases heq
    exact ⟨x, ⟨l, r.len⟩, bs, rfl, hp, hlen, hname ▸ hq⟩
  | x :: y :: as, h => exact h.replace

namespace Inode

theorem DirOk.dirInv (h : x.DirOk rs) : DirInv x.pageCache rs :=
  ⟨h.rep, h.proper, h.nodup, h.dvd⟩

theorem Shape.dirOk (h : y.Shape rs) (hinv : DirInv y.pageCache rs) : y.DirOk rs :=
  ⟨h, hinv.proper, hinv.nodup⟩

theorem Shape.node_kids (h : x.Shape rs) : x.node.kids = kidsOf (links rs) :=
  children_eq h.type h.rep

section

variable (h : x.DirOk rs) {o : ℕ} {e : DirEntry}

include h

/-- A directory with at most two entries has only `"."` and `".."`. -/
theorem DirOk.kids_eq_zero (hcount : x.entryCount ≤ 2) : x.node.kids = 0 := by
  obtain ⟨p, q, ts, rfl, hp, -, hq⟩ := h.proper
  have hlen : x.entryCount = (p :: q :: ts).length := by
    rw [entryCount, h.rep.entries_zero]
    have hmap := congrArg length (map_child_withOffsets (p :: q :: ts) 0)
    simpa [links] using hmap
  have hts : ts = [] := by
    rw [hlen, length_cons, length_cons] at hcount
    exact length_eq_zero_iff.1 (by omega)
  subst hts
  rw [h.node_kids, links_cons, links_cons, kidsOf_cons_dot (.inl hp), kidsOf_cons_dot (.inr hq)]
  rfl

theorem DirOk.kids_nodup : (x.node.kids.map Child.name).Nodup := by
  rw [h.node_kids]
  exact nodup_kidsOf h.nodup

/-- No two entries have the same name. -/
theorem DirOk.child_eq {c c' : Child} (hc : c ∈ x.node.kids)
    (hc' : c' ∈ x.node.kids) (hname : c.name = c'.name) : c = c' :=
  Multiset.inj_on_of_nodup_map h.kids_nodup c hc c' hc' hname

theorem DirOk.notMem_linkNames (hdot : ¬IsDot name)
    (hkids : ∀ c ∈ x.node.kids, c.name ≠ name) : name ∉ linkNames (links rs) := by
  intro hmem
  obtain ⟨l, hl, rfl⟩ := mem_map.1 hmem
  refine hkids l.child ?_ rfl
  rw [h.node_kids]
  exact mem_kidsOf.2 ⟨⟨l, hl, rfl⟩, hdot⟩

/-- What the search for a name finds. -/
theorem DirOk.getEntry_eq_some (hget : x.getEntry name 0 = some (o, e)) :
    ∃ as r bs, rs = as ++ r :: bs ∧ o = extent as ∧ e = r.link.entry r.len ∧
      r.link.name.bytes = name := by
  rw [getEntry, h.rep.entries_zero] at hget
  rcases find_withOffsets name rs 0 with ⟨hnone, -⟩ | ⟨as, r, bs, rfl, hr, -, hfind⟩
  · rw [hnone] at hget
    cases hget
  · rw [hfind] at hget
    cases hget
    exact ⟨as, r, bs, rfl, Nat.zero_add _, rfl, hr⟩

theorem DirOk.getEntry_eq_none (hget : x.getEntry name 0 = none) : name ∉ linkNames (links rs) := by
  rw [getEntry, h.rep.entries_zero] at hget
  rcases find_withOffsets name rs 0 with ⟨-, hall⟩ | ⟨as, r, bs, rfl, hr, -, hfind⟩
  · intro hmem
    obtain ⟨l, hl, hname⟩ := mem_map.1 hmem
    obtain ⟨r, hr, rfl⟩ := mem_map.1 hl
    exact hall r hr hname
  · rw [hfind] at hget
    cases hget

/-- A name that the search does not find is neither `"."` nor `".."`. -/
theorem DirOk.not_isDot (hget : x.getEntry name 0 = none) : ¬IsDot name := by
  have hnames := h.getEntry_eq_none hget
  obtain ⟨p, q, ts, rfl, hp, -, hq⟩ := h.proper
  rintro (rfl | rfl)
  · exact hnames (mem_cons.2 (.inl hp.symm))
  · exact hnames (mem_cons_of_mem _ (mem_cons.2 (.inl hq.symm)))

theorem DirOk.child_mem (hdot : ¬IsDot name) (hget : x.getEntry name 0 = some (o, e)) :
    e.child ∈ x.node.kids ∧ e.child.name = name := by
  obtain ⟨as, r, bs, rfl, -, rfl, rfl⟩ := h.getEntry_eq_some hget
  rw [h.node_kids, child_entry]
  exact ⟨mem_kidsOf.2 ⟨⟨r.link, by simp, rfl⟩, hdot⟩, rfl⟩

theorem DirOk.child_ne (hget : x.getEntry name 0 = none) : ∀ c ∈ x.node.kids, c.name ≠ name := by
  rintro c hc rfl
  rw [h.node_kids] at hc
  obtain ⟨⟨l, hl, rfl⟩, -⟩ := mem_kidsOf.1 hc
  exact h.getEntry_eq_none hget (mem_map.2 ⟨l, hl, rfl⟩)

end

end Inode

namespace Volume

open StateRules

variable {n g d : ℕ} {v v' v'' : Volume n} {i : ℕ} {u : Unit} {z : Inode} {j count perm : ℕ}
  {newName : FileName} {type : FileType}

/-! ### One inode changes -/

/-- The inode `i` changes from `x` to `y`, and no inode number is allocated or freed. -/
structure Changes (i : ℕ) (v v' : Volume n) (x y : Inode) : Prop where
  before : v.inodes[i]? = some x
  inodes : v'.inodes = v.inodes.set i y
  ino : y.ino = x.ino
  type : y.desc.type = x.desc.type
  cache : v'.cache = v.cache
  sized : v.fs.Sized → v'.fs.Sized
  allocated : ∀ ino, v'.fs.Allocated .inode ino ↔ v.fs.Allocated .inode ino

theorem Changes.after (h : Changes i v v' x y) : v'.inodes[i]? = some y := by
  rw [h.inodes, List.getElem?_set_self (List.getElem?_eq_some_iff.1 h.before).1]

theorem Changes.other (h : Changes i v v' x y) (hne : j ≠ i)
    (hz : v.inodes[j]? = some z) : v'.inodes[j]? = some z := by
  rw [h.inodes, getElem?_set_ne hne.symm, hz]

theorem Changes.exists_inode (h : Changes i v v' x y) (hz : v.inodes[j]? = some z) :
    ∃ z', v'.inodes[j]? = some z' ∧ z'.ino = z.ino ∧ z'.desc.type = z.desc.type := by
  rcases eq_or_ne j i with rfl | hne
  · obtain rfl := Option.mem_unique h.before hz
    exact ⟨y, h.after, h.ino, h.type⟩
  · exact ⟨z, h.other hne hz, rfl, rfl⟩

theorem Changes.trans (h : Changes i v v' x y) (h' : Changes i v' v'' y z) :
    Changes i v v'' x z where
  before := h.before
  inodes := by rw [h'.inodes, h.inodes, set_set]
  ino := h'.ino.trans h.ino
  type := h'.type.trans h.type
  cache := h'.cache.trans h.cache
  sized hs := h'.sized (h.sized hs)
  allocated ino := (h'.allocated ino).trans (h.allocated ino)

theorem Changes.refl (hx : v.inodes[i]? = some x) : Changes i v v x x where
  before := hx
  inodes := by
    obtain ⟨hlt, rfl⟩ := List.getElem?_eq_some_iff.1 hx
    rw [set_getElem_self]
  ino := rfl
  type := rfl
  cache := rfl
  sized := id
  allocated _ := Iff.rfl

theorem Changes.set (hx : v.inodes[i]? = some x) (hino : y.ino = x.ino)
    (htype : y.desc.type = x.desc.type) : Changes i v { v with inodes := v.inodes.set i y } x y :=
  ⟨hx, rfl, hino, htype, rfl, id, fun _ => Iff.rfl⟩

theorem Changes.of_resizing (h : Resizing i v v') (hx : v.inodes[i]? = some x) :
    ∃ y, Changes i v v' x y ∧ x.SameMeta y := by
  obtain ⟨y, hy, hxy⟩ := h.inode x hx
  refine ⟨y, ⟨hx, ?_, hxy.ino, hxy.type, h.cache, h.sized, h.allocated⟩, hxy⟩
  refine ext_getElem? fun j => ?_
  rcases eq_or_ne j i with rfl | hne
  · rw [hy, List.getElem?_set_self (List.getElem?_eq_some_iff.1 hx).1]
  · rw [h.others j hne, getElem?_set_ne hne.symm]

theorem Changes.nodes (h : Changes i v v' x y) : v'.nodes = v.nodes.set i y.node := by
  rw [Volume.nodes, h.inodes, map_set]
  rfl

theorem Changes.node_eq (h : Changes i v v' x y) {kids : Multiset Child}
    (hcount : y.desc.hardLinks = count) (hkids : y.node.kids = kids) :
    y.node = { x.node with count := count, kids := kids } := by
  rw [← hcount, ← hkids, node, node, h.ino, h.type]

theorem getElem?_nodes (hx : v.inodes[i]? = some x) : v.nodes[i]? = some x.node := by
  rw [nodes, getElem?_map, hx]
  rfl

/-- The inode caches lead to the inodes, which have allocated numbers. -/
structure Numbered (v : Volume n) : Prop where
  sized : v.fs.Sized
  owner : ∀ (i : ℕ) (x : Inode), v.inodes[i]? = some x →
    v.cache x.ino = some i ∧ v.fs.Allocated .inode x.ino
  cached : ∀ ino i, v.cache ino = some i → ∃ x, v.inodes[i]? = some x ∧ x.ino = ino

/-- A file system whose directories are well formed. -/
structure Sound (v : Volume n) : Prop extends v.Numbered where
  dirs : ∀ (i : ℕ) (x : Inode), v.inodes[i]? = some x → x.desc.type = .dir → ∃ rs, x.DirOk rs

theorem Numbered.changes (h : v.Numbered) (hc : Changes i v v' x y) : v'.Numbered := by
  refine ⟨hc.sized h.sized, fun j z hz => ?_, fun ino j hj => ?_⟩
  · rw [hc.cache, hc.allocated]
    rw [hc.inodes] at hz
    rcases (getElem?_set_eq_some hc.before).1 hz with ⟨rfl, rfl⟩ | ⟨-, hz⟩
    · rw [hc.ino]
      exact h.owner j x hc.before
    · exact h.owner j z hz
  · rw [hc.cache] at hj
    obtain ⟨z, hz, hino⟩ := h.cached ino j hj
    rcases eq_or_ne j i with rfl | hne
    · obtain rfl := Option.mem_unique hc.before hz
      exact ⟨y, hc.after, hc.ino.trans hino⟩
    · exact ⟨z, hc.other hne hz, hino⟩

/-- One inode changes, and the others were well formed. -/
theorem Numbered.sound (h : v.Numbered) (hc : Changes i v v' x y)
    (hothers : ∀ (j : ℕ) (z : Inode), j ≠ i → v.inodes[j]? = some z → z.desc.type = .dir →
      ∃ rs, z.DirOk rs) (hdir : y.desc.type = .dir → ∃ rs, y.DirOk rs) : v'.Sound := by
  refine ⟨h.changes hc, fun j z hz htype => ?_⟩
  rw [hc.inodes] at hz
  rcases (getElem?_set_eq_some hc.before).1 hz with ⟨rfl, rfl⟩ | ⟨hne, hz⟩
  · exact hdir htype
  · exact hothers j z hne hz htype

theorem Sound.changes (h : v.Sound) (hc : Changes i v v' x y)
    (hdir : y.desc.type = .dir → ∃ rs, y.DirOk rs) : v'.Sound :=
  h.toNumbered.sound hc (fun j z _ => h.dirs j z) hdir

section

variable (hx : v.inodes[i]? = some x)

include hx

theorem Numbered.ino_inj (h : v.Numbered)
    (hy : v.inodes[j]? = some y) (hino : x.ino = y.ino) : i = j := by
  have hcache := (h.owner i x hx).1
  rw [hino, (h.owner j y hy).1] at hcache
  exact (Option.some.inj hcache).symm

theorem Numbered.ino_bounds (h : v.Numbered) : 0 < x.ino ∧ x.ino < u32Bound := by
  obtain ⟨hlt, p, hloc, -⟩ := (h.owner i x hx).2
  exact ⟨(Ext2.locate_ok.1 hloc).1, hlt⟩

/-! ### Counts and sizes -/

theorem setPages_changes {pages : PageCache}
    (hrun : setPages i pages v = .ok u v') : Changes i v v' x { x with pageCache := pages } := by
  obtain ⟨y, hy, rfl⟩ := setPages_ok.1 hrun
  obtain rfl := Option.mem_unique hx hy
  exact .set hx rfl rfl

theorem incHardLinks_changes (hrun : incHardLinks i v = .ok u v') :
    Changes i v v' x (x.withLinks (x.desc.hardLinks + 1)) := by
  obtain ⟨y, hy, rfl⟩ := incHardLinks_ok hrun
  obtain rfl := Option.mem_unique hx hy
  exact .set hx rfl rfl

theorem decHardLinks_changes (hrun : decHardLinks i v = .ok u v') :
    Changes i v v' x (x.withLinks (x.desc.hardLinks - 1)) := by
  obtain ⟨y, hy, rfl⟩ := decHardLinks_ok hrun
  obtain rfl := Option.mem_unique hx hy
  exact .set hx rfl rfl

theorem resizeImpl_changes {newSize : ℕ} (hrun : resizeImpl i newSize v = .ok u v') :
    ∃ y, Changes i v v' x y ∧ x.SameMeta y ∧ y.desc.size = newSize := by
  have hkeeps : Resizing i v (after (resizeImpl i newSize) v) := resizeImpl_resizing v
  rw [after_of_ok hrun] at hkeeps
  obtain ⟨y, hy, hxy⟩ := Changes.of_resizing hkeeps hx
  refine ⟨y, hy, hxy, ?_⟩
  obtain ⟨v2, z, -, hz, rfl⟩ := resizeImpl_ok hx hrun
  have hafter := hy.after
  rw [List.getElem?_set_self (List.getElem?_eq_some_iff.1 hz).1] at hafter
  rw [← Option.some.inj hafter]

/-- A directory that gets one more block stays within its direct blocks. -/
theorem resizeImpl_le (htype : x.desc.type = .dir) (hdvd : blockSize ∣ x.desc.size)
    (hle : x.desc.size ≤ maxDirSize) (hrun : resizeImpl i (x.desc.size + blockSize) v = .ok u v') :
    x.desc.size + blockSize ≤ maxDirSize := by
  obtain ⟨k, hk⟩ := hdvd
  have hk12 : k ≤ 12 := by
    rw [hk] at hle
    unfold maxDirSize blockSize at hle
    omega
  have hold : x.desc.realBlocks = k := by
    rw [InodeDesc.realBlocks, if_pos htype, hk]
    unfold blockSize u32Bound
    omega
  have hnew : x.desc.blocksFor (x.desc.size + blockSize) = k + 1 := by
    rw [InodeDesc.blocksFor, if_neg (by rw [htype]; exact fun h => nomatch h.1), hk]
    unfold blockSize u32Bound
    omega
  obtain ⟨v2, -, hchange, -⟩ := resizeImpl_ok hx hrun
  rw [hold, hnew, changeBlocks, if_pos (Nat.lt_succ_self k)] at hchange
  obtain ⟨_, v3, hgrow, -⟩ := bind_ok.1 hchange
  have hround : ∀ j, Triple (fun _ => j ≤ 12) (growBlock i j : FsM n Unit)
      fun _ _ => j + 1 ≤ 12 := by
    intro j w _ w' _ hw
    obtain ⟨_, _, hassert, -⟩ := bind_ok.1 hw
    exact debugAssert_ok.1 (liftR_ok.1 hassert).1
  have hlt := Triple.forM_range' (I := fun j _ => j ≤ 12) (fun j _ _ => hround j) v _ v3 hk12 hgrow
  rw [hk]
  unfold maxDirSize blockSize
  omega

end

/-- The end of a call of the writer: the size of the inode follows that of the page cache. -/
theorem resize_shape {c : PageCache} {big : Prop} [Decidable big] (hshape : x.Shape rs)
    (hrep : c.Rep rs') (hext : extent rs' = extent rs ∨ extent rs' = extent rs + blockSize)
    (hx : v.inodes[i]? = some { x with pageCache := c }) (hbig : big ↔ c.size ≠ x.desc.size)
    (hrun : onlyIf big (resizeImpl i c.size) v = .ok u v') :
    ∃ y, Changes i v v' { x with pageCache := c } y ∧ y.Shape rs' ∧
      y.desc.hardLinks = x.desc.hardLinks := by
  have hdvd := hshape.rep.dvd_size hrep hext hshape.dvd
  rw [hrep.extent_eq, hshape.rep.extent_eq, ← hshape.size_eq] at hext
  rcases onlyIf_ok.1 hrun with ⟨hne, hrun⟩ | ⟨heq, rfl⟩
  · have hgrown : c.size = x.desc.size + blockSize := hext.resolve_left (hbig.1 hne)
    obtain ⟨y, hy, hxy, hsize⟩ := resizeImpl_changes hx hrun
    rw [hgrown] at hrun
    have hle := resizeImpl_le hx hshape.type (hshape.size_eq ▸ hshape.dvd)
      (hshape.size_eq ▸ hshape.size_le) hrun
    refine ⟨y, hy, ⟨hxy.type.trans hshape.type, ?_, ?_, ?_, ?_⟩, hxy.hardLinks⟩
    · rw [hxy.pageCache]
      exact hrep
    · rw [hxy.pageCache]
      exact hdvd
    · rw [hxy.pageCache, hsize]
    · rw [hxy.pageCache]
      exact hgrown ▸ hle
  · have hsame : c.size = x.desc.size := not_not.1 fun hne => heq (hbig.2 hne)
    refine ⟨_, .refl hx, ⟨hshape.type, hrep, hdvd, hsame.symm, ?_⟩, rfl⟩
    rw [hsame, hshape.size_eq]
    exact hshape.size_le

/-! ### Entries of directories -/

section

variable (hx : v.inodes[i]? = some x)

include hx

/-- `append_entry` -/
theorem appendEntry_shape (hshape : x.Shape rs)
    (hrun : appendEntry i (l.entry l.actualLen) 0 v = .ok u v') :
    ∃ y, Changes i v v' x y ∧ y.Shape (append l rs) ∧ Appended l rs (append l rs) ∧
      y.desc.hardLinks = x.desc.hardLinks +
        if l.type = .dir ∧ l.name.bytes ≠ parentName then 1 else 0 := by
  simp only [appendEntry, bind_ok, liftR_ok, inode_ok] at hrun
  obtain ⟨type, _, ⟨htype, rfl⟩, x', _, ⟨hx', rfl⟩, c, _, ⟨hwrite, rfl⟩, _, v1, hpages, _, v2,
    hresize, hcount⟩ := hrun
  obtain rfl := Option.mem_unique hx hx'
  obtain ⟨c', hwrite', hrep, happ⟩ := (show x.pageCache.Rep ([] ++ rs) from hshape.rep).appendEntry
    hshape.dvd hshape.size_le l
  obtain rfl := ok.inj (hwrite'.symm.trans hwrite)
  have hext := happ.extent_eq hshape.rep.fits
  have hbig : x.desc.size < c'.size ↔ c'.size ≠ x.desc.size := by
    have hsize := hshape.size_eq
    rw [← hrep.extent_eq, hsize, ← hshape.rep.extent_eq]
    omega
  have hpages := setPages_changes hx hpages
  obtain ⟨y, hy, hyshape, hylinks⟩ := resize_shape hshape hrep hext hpages.after hbig hresize
  rw [type_entry] at htype
  obtain rfl := ok.inj htype
  rcases onlyIf_ok.1 hcount with ⟨hdir, hinc⟩ | ⟨hdir, rfl⟩
  · have hz := incHardLinks_changes hy.after hinc
    refine ⟨_, (hpages.trans hy).trans hz, ?_, happ, ?_⟩
    · exact ⟨hyshape.type, hyshape.rep, hyshape.dvd, hyshape.size_eq, hyshape.size_le⟩
    · rw [name_entry] at hdir
      rw [if_pos hdir, ← hylinks]
      rfl
  · refine ⟨y, hpages.trans hy, hyshape, happ, ?_⟩
    rw [name_entry] at hdir
    rw [if_neg hdir, hylinks, Nat.add_zero]

/-- `remove_entry` -/
theorem removeEntry_dirOk (hok : x.DirOk rs)
    (hdot : ¬IsDot name) (hrun : removeEntry i name v = .ok u v') :
    ∃ y rs' l, Changes i v v' x y ∧ y.DirOk rs' ∧ Removed name rs l rs' ∧
      y.desc.hardLinks = x.desc.hardLinks - if l.type = .dir then 1 else 0 := by
  simp only [removeEntry, bind_ok, liftR_ok, inode_ok] at hrun
  obtain ⟨x', _, ⟨hx', rfl⟩, ⟨e, c⟩, _, ⟨hwrite, rfl⟩, _, v1, hpages, type, _, ⟨htype, rfl⟩, _, v2,
    hresize, hcount⟩ := hrun
  obtain rfl := Option.mem_unique hx hx'
  obtain ⟨p, q, ts, rfl, hp, hlen, hq⟩ := hok.proper
  have hmem : ∃ r ∈ q :: ts, r.link.name.bytes = name := by
    by_contra hnone
    push Not at hnone
    rw [hok.rep.removeEntry_notMem hlen hnone] at hwrite
    cases hwrite
  obtain ⟨l, len, c', rs', hwrite', hrep, -, hrem⟩ :=
    hok.rep.removeEntry hlen (hok.size_le.trans_lt (by decide)) hmem
  obtain ⟨rfl, rfl⟩ := Prod.mk.inj (ok.inj (hwrite'.symm.trans hwrite))
  rw [type_entry] at htype
  obtain rfl := ok.inj htype
  have hsame : c'.size = x.desc.size := by
    rw [hok.size_eq, ← hrep.extent_eq, hrem.extent_eq, hok.rep.extent_eq]
  have hpages := setPages_changes hx hpages
  obtain ⟨y, hy, hyshape, hylinks⟩ := resize_shape hok.toShape hrep (.inl hrem.extent_eq)
    hpages.after (by dsimp only; omega) hresize
  have hinv := (hok.dirInv.of_removed hyshape.rep hrem fun hname => hdot (.inr hname)).1
  rcases onlyIf_ok.1 hcount with ⟨hdir, hdec⟩ | ⟨hdir, rfl⟩
  · have hz := decHardLinks_changes hy.after hdec
    refine ⟨_, rs', l, (hpages.trans hy).trans hz, ⟨?_, hinv.proper, hinv.nodup⟩, hrem, ?_⟩
    · exact ⟨hyshape.type, hyshape.rep, hyshape.dvd, hyshape.size_eq, hyshape.size_le⟩
    · rw [if_pos hdir, ← hylinks]
      rfl
  · refine ⟨y, rs', l, hpages.trans hy, hyshape.dirOk hinv, hrem, ?_⟩
    rw [if_neg hdir, hylinks, Nat.sub_zero]

/-- `rename_entry`, with the writer at the entry. -/
theorem renameEntry_dirOk (hok : x.DirOk rs) (hrs : rs = as ++ r :: bs)
    (hname : r.link.name.bytes = name) (hdot : ¬IsDot name)
    (hnew : newName.bytes ∉ linkNames (links rs))
    (hrun : renameEntry i name newName.bytes (extent as) v = .ok u v') :
    ∃ y rs' l ls, Changes i v v' x y ∧ y.DirOk rs' ∧ (links rs).Perm (l :: ls) ∧
      (links rs').Perm (l.rename newName :: ls) ∧ l.name.bytes = name ∧
      y.desc.hardLinks = x.desc.hardLinks := by
  simp only [renameEntry, bind_ok, liftR_ok, inode_ok] at hrun
  obtain ⟨x', _, ⟨hx', rfl⟩, c, _, ⟨hwrite, rfl⟩, _, v1, hpages, hresize⟩ := hrun
  obtain rfl := Option.mem_unique hx hx'
  obtain ⟨p, q, ts, hpq, hp, hlen, hq⟩ := hok.proper
  subst hpq
  obtain ⟨c', rs', -, hwrite', hren, hrep, -⟩ := hok.rep.renameEntry hrs hlen hok.dvd hok.size_le
    ⟨r, mem_cons_self, hname⟩ (hp ▸ Ne.symm (not_or.1 hdot).1)
  obtain rfl := ok.inj (hwrite'.symm.trans hwrite)
  have hpages := setPages_changes hx hpages
  obtain ⟨y, hy, hyshape, hylinks⟩ := resize_shape hok.toShape hrep
    (hren.extent_eq hok.rep.fits) hpages.after Iff.rfl hresize
  obtain ⟨hinv, l, ls, hperm, hperm', hlname, -⟩ :=
    hok.dirInv.of_renamed hyshape.rep hren hnew (not_or.1 hdot).1 (not_or.1 hdot).2
  exact ⟨y, rs', l, ls, hpages.trans hy, hyshape.dirOk hinv, hperm, hperm', hlname, hylinks⟩

/-- `set_parent_ino` -/
theorem setParentIno_dirOk {parentIno : ℕ} (hok : x.DirOk rs) (hpos : 0 < parentIno)
    (hlt : parentIno < u32Bound) (hrun : setParentIno i parentIno v = .ok u v') :
    ∃ y rs', Changes i v v' x y ∧ y.DirOk rs' ∧ kidsOf (links rs') = kidsOf (links rs) ∧
      y.desc.hardLinks = x.desc.hardLinks := by
  simp only [setParentIno, bind_ok, liftR_ok, inode_ok, unwrap_ok] at hrun
  obtain ⟨x', _, ⟨hx', rfl⟩, ⟨o, e⟩, _, ⟨hget, rfl⟩, c, _, ⟨hwrite, rfl⟩, hpages⟩ := hrun
  obtain rfl := Option.mem_unique hx hx'
  obtain ⟨as, r, bs, rfl, rfl, rfl, hname⟩ := hok.getEntry_eq_some hget
  obtain ⟨b, hwrite', hrep⟩ := hok.rep.overwrite
    (l := ⟨r.link.name, parentIno, r.link.type, hpos, hlt⟩) (hok.rep.valid r (by simp)).actualLen_le
  obtain rfl := ok.inj (hwrite'.symm.trans hwrite)
  refine ⟨_, _, setPages_changes hx hpages,
    ⟨⟨hok.type, hrep, hok.dvd, hok.size_eq, hok.size_le⟩, ?_, ?_⟩, ?_, rfl⟩
  · exact hok.proper.overwrite rfl
  · have hnodup := hok.nodup
    simpa [linkNames] using hnodup
  · rw [links_append, links_append, links_cons, links_cons, kidsOf_perm perm_middle,
      kidsOf_perm (perm_middle (a := r.link)), kidsOf_cons_dot (l := r.link) (.inr hname)]
    exact kidsOf_cons_dot (.inr hname)

/-- `init_dir` -/
theorem initDir_dirOk {selfIno parentIno : Ino} (hshape : x.Shape [])
    (hrun : initDir i selfIno parentIno v = .ok u v') :
    ∃ y, Changes i v v' x y ∧ y.DirOk [⟨.self selfIno, 12⟩, ⟨.parent parentIno, 4084⟩] ∧
      y.desc.hardLinks = x.desc.hardLinks + 1 := by
  simp only [initDir, bind_ok, liftR_ok] at hrun
  obtain ⟨e, _, ⟨he, rfl⟩, _, v1, happend, e', _, ⟨he', rfl⟩, happend'⟩ := hrun
  obtain rfl := ok.inj ((new_link (.self selfIno)).symm.trans he)
  obtain rfl := ok.inj ((new_link (.parent parentIno)).symm.trans he')
  obtain ⟨y, hy, hyshape, -, hylinks⟩ := appendEntry_shape hx hshape happend
  obtain ⟨z, hz, hzshape, -, hzlinks⟩ := appendEntry_shape hy.after hyshape happend'
  rw [append_parent_self] at hzshape
  have hnames : selfName ≠ parentName := by decide
  refine ⟨z, hy.trans hz, ⟨hzshape, ⟨_, _, _, rfl, rfl, rfl, rfl⟩, ?_⟩, ?_⟩
  · exact nodup_cons.2 ⟨fun hmem => hnames (mem_singleton.1 hmem), nodup_singleton _⟩
  · rw [hzlinks, if_neg fun hne => hne.2 rfl, hylinks, if_pos ⟨rfl, hnames⟩]

/-! ### The namespace -/

/-- `append_entry` puts an entry into a directory. -/
theorem Sound.appendEntry (h : v.Sound) (htype : x.desc.type = .dir)
    (hdot : ¬IsDot l.name.bytes) (hnew : ∀ c ∈ x.node.kids, c.name ≠ l.name.bytes)
    (hrun : appendEntry i (l.entry l.actualLen) 0 v = .ok u v') :
    ∃ y, v'.Sound ∧ Changes i v v' x y ∧
      y.node = { x.node with
        kids := l.child ::ₘ x.node.kids, count := x.node.count + l.child.dirLinks } := by
  obtain ⟨rs, hok⟩ := h.dirs i x hx htype
  obtain ⟨y, hc, hshape, happ, hlinks⟩ := appendEntry_shape hx hok.toShape hrun
  have hinv := hok.dirInv.of_appended hshape.rep happ (hok.notMem_linkNames hdot hnew)
  refine ⟨y, h.changes hc fun _ => ⟨_, hshape.dirOk hinv⟩, hc, hc.node_eq ?_ ?_⟩
  · rw [hlinks]
    simp only [(not_or.1 hdot).2, ne_eq, not_false_eq_true, and_true, Child.dirLinks, Link.child,
      ok.injEq]
    rfl
  · rw [hshape.node_kids, kidsOf_perm happ.perm, hok.node_kids]
    exact kidsOf_cons hdot

/-- `remove_entry` takes an entry from a directory. -/
theorem Sound.removeEntry (h : v.Sound) (hok : x.DirOk rs)
    (hdot : ¬IsDot name) (hrun : removeEntry i name v = .ok u v') :
    ∃ y rs' l, v'.Sound ∧ Changes i v v' x y ∧ y.DirOk rs' ∧ Removed name rs l rs' ∧
      x.node.kids = l.child ::ₘ y.node.kids ∧
      y.node = { x.node with kids := y.node.kids, count := x.node.count - l.child.dirLinks } := by
  obtain ⟨y, rs', l, hc, hok', hrem, hlinks⟩ := removeEntry_dirOk hx hok hdot hrun
  refine ⟨y, rs', l, h.changes hc fun _ => ⟨rs', hok'⟩, hc, hok', hrem, ?_, hc.node_eq ?_ rfl⟩
  · rw [hok.node_kids, kidsOf_perm hrem.perm, hok'.node_kids]
    exact kidsOf_cons (hrem.name_eq ▸ hdot)
  · rw [hlinks]
    simp only [Child.dirLinks, Link.child, ok.injEq]
    rfl

/-- `rename_entry`, with the writer at the entry, gives it another name. -/
theorem Sound.renameEntry (h : v.Sound) (hok : x.DirOk (as ++ r :: bs))
    (hname : r.link.name.bytes = name) (hdot : ¬IsDot name) (hdot' : ¬IsDot newName.bytes)
    (hnew : ∀ c ∈ x.node.kids, c.name ≠ newName.bytes)
    (hrun : renameEntry i name newName.bytes (extent as) v = .ok u v') :
    ∃ y c ks, v'.Sound ∧ Changes i v v' x y ∧ x.node.kids = c ::ₘ ks ∧
      y.node = { x.node with kids := { c with name := newName.bytes } ::ₘ ks } := by
  obtain ⟨y, rs', l, ls, hc, hok', hperm, hperm', hlname, hlinks⟩ := renameEntry_dirOk hx hok rfl
    hname hdot (hok.notMem_linkNames hdot' hnew) hrun
  refine ⟨y, l.child, kidsOf ls, h.changes hc fun _ => ⟨rs', hok'⟩, hc, ?_, hc.node_eq hlinks ?_⟩
  · rw [hok.node_kids, kidsOf_perm hperm]
    exact kidsOf_cons (hlname ▸ hdot)
  · rw [hok'.node_kids, kidsOf_perm hperm']
    exact kidsOf_cons hdot'

/-- `set_parent_ino` changes no entry but `".."`. -/
theorem Sound.setParentIno (h : v.Sound) (htype : x.desc.type = .dir) (hz : v.inodes[j]? = some z)
    (hrun : setParentIno i z.ino v = .ok u v') : v'.Sound ∧ v'.nodes = v.nodes := by
  obtain ⟨rs, hok⟩ := h.dirs i x hx htype
  obtain ⟨hpos, hlt⟩ := h.ino_bounds hz
  obtain ⟨y, rs', hc, hok', hkids, hlinks⟩ := setParentIno_dirOk hx hok hpos hlt hrun
  refine ⟨h.changes hc fun _ => ⟨rs', hok'⟩, ?_⟩
  have hnode : y.node = x.node :=
    hc.node_eq hlinks (hok'.node_kids.trans (hkids.trans hok.node_kids.symm))
  rw [hc.nodes, hnode]
  obtain ⟨hlt, hget⟩ := List.getElem?_eq_some_iff.1 (getElem?_nodes hx)
  rw [← hget, set_getElem_self]

end

/-- A count of links changes. -/
theorem Sound.withLinks (h : v.Sound) (hc : Changes i v v' x (x.withLinks count)) :
    v'.Sound ∧ v'.nodes = v.nodes.set i { x.node with count := count } := by
  refine ⟨h.changes hc fun htype => ?_, hc.nodes⟩
  obtain ⟨rs, hok⟩ := h.dirs i x hc.before htype
  exact ⟨rs, ⟨hok.type, hok.rep, hok.dvd, hok.size_eq, hok.size_le⟩, hok.proper, hok.nodup⟩

/-- `Ext2::create_inode` -/
theorem Sound.createInode (h : v.Sound) (hrun : createInode g type perm v = .ok i v') :
    ∃ x, i = v.inodes.length ∧ v'.inodes = v.inodes ++ [x] ∧ v'.Numbered ∧
      x.desc = .new type perm ∧ x.pageCache = ⟨0, fun _ => 0⟩ ∧ ∀ z ∈ v.inodes, z.ino ≠ x.ino := by
  obtain ⟨g', ino, fs, halloc, rfl, rfl⟩ := createInode_ok hrun
  obtain ⟨hsized, hfree, hiff⟩ := Ext2.alloc_spec h.sized halloc
  have hfresh : ∀ (j : ℕ) (z : Inode), v.inodes[j]? = some z → z.ino ≠ ino := by
    rintro j z hz rfl
    exact hfree (h.owner j z hz).2
  refine ⟨_, rfl, rfl, ⟨hsized, fun j z hz => ?_, fun k j hj => ?_⟩, rfl, rfl, fun z hz => ?_⟩
  · rw [hiff]
    rcases getElem?_concat_eq_some.1 hz with hz | ⟨rfl, rfl⟩
    · refine ⟨?_, .inr (h.owner j z hz).2⟩
      change Function.update _ _ _ _ = _
      rw [Function.update_of_ne (hfresh j z hz)]
      exact (h.owner j z hz).1
    · exact ⟨Function.update_self .., .inl ⟨rfl, rfl⟩⟩
  · rcases update_some_eq_some.1 hj with ⟨rfl, rfl⟩ | ⟨-, hj⟩
    · exact ⟨_, getElem?_concat_length, rfl⟩
    · obtain ⟨z, hz, hino⟩ := h.cached k j hj
      exact ⟨z, getElem?_concat_eq_some.2 (.inl hz), hino⟩
  · obtain ⟨j, hj⟩ := getElem?_of_mem hz
    exact hfresh j z hj

/-- A new directory has no records. -/
theorem shape_new (hdesc : x.desc = .new .dir perm)
    (hpages : x.pageCache = ⟨0, fun _ => 0⟩) : x.Shape [] := by
  refine ⟨by rw [hdesc]; rfl, ?_, ?_, ?_, ?_⟩
  · rw [hpages]
    exact rep_empty
  · rw [hpages]
    exact Nat.dvd_zero _
  · rw [hpages, hdesc]
    rfl
  · rw [hpages]
    exact Nat.zero_le _

/-- `Inode::init`, of a new inode. -/
theorem Numbered.init (h : v.Numbered) (hx : v.inodes[i]? = some x) (hz : v.inodes[d]? = some z)
    (hdesc : x.desc = .new type perm) (hpages : x.pageCache = ⟨0, fun _ => 0⟩)
    (hrun : init i z.ino v = .ok u v') :
    ∃ y, Changes i v v' x y ∧ (y.desc.type = .dir → ∃ rs, y.DirOk rs) ∧
      y.node = ⟨x.ino, type, if type = .dir then 2 else 1, 0⟩ := by
  simp only [Volume.init, bind_ok, inode_ok] at hrun
  obtain ⟨_, _, ⟨hx', rfl⟩, hrun⟩ := hrun
  obtain rfl := Option.mem_unique hx hx'
  have htype : x.desc.type = type := by rw [hdesc]; rfl
  have hlinks : x.desc.hardLinks = 1 := by rw [hdesc]; rfl
  rcases onlyIf_ok.1 hrun with ⟨hdir, hrun⟩ | ⟨hdir, rfl⟩
  · have hshape := shape_new (by rw [hdesc, htype.symm.trans hdir]) hpages
    have hinit : initDir i (⟨x.ino, h.ino_bounds hx⟩ : Ino) (⟨z.ino, h.ino_bounds hz⟩ : Ino) v =
        .ok u v' := hrun
    obtain ⟨y, hc, hok, hcount⟩ := initDir_dirOk hx hshape hinit
    have hkids : y.node.kids = 0 := by
      rw [hok.node_kids, links_cons, links_cons, kidsOf_cons_dot (.inl rfl),
        kidsOf_cons_dot (.inr rfl)]
      rfl
    refine ⟨y, hc, fun _ => ⟨_, hok⟩, (hc.node_eq hcount hkids).trans ?_⟩
    rw [node, htype, hlinks, if_pos (htype.symm.trans hdir)]
  · refine ⟨x, .refl hx, fun h => absurd h hdir, ?_⟩
    rw [node, children, if_neg hdir, htype, hlinks, if_neg (htype ▸ hdir)]
    rfl

/-- A new inode, after `init`. -/
theorem Sound.create (h : v.Sound) (hx : v.inodes[d]? = some x)
    (hcreate : Volume.createInode g type perm v = .ok i v') (hz : v'.inodes[i]? = some z)
    (hrun : init i x.ino v' = .ok u v'') :
    v''.Sound ∧ v''.inodes[d]? = some x ∧ (∀ m ∈ v.nodes, m.ino ≠ z.ino) ∧
      v''.nodes = v.nodes ++ [⟨z.ino, type, if type = .dir then 2 else 1, 0⟩] := by
  obtain ⟨z', rfl, hinodes, hnum, hdesc, hpages, hfresh⟩ := h.createInode hcreate
  have hnew : v'.inodes[v.inodes.length]? = some z' := by rw [hinodes, getElem?_concat_length]
  obtain rfl := Option.mem_unique hnew hz
  have hxd : v'.inodes[d]? = some x := by
    rw [hinodes]
    exact getElem?_concat_eq_some.2 (.inl hx)
  obtain ⟨y, hc, hdirs, hnode⟩ := hnum.init hz hxd hdesc hpages hrun
  refine ⟨hnum.sound hc (fun j m hj hm => h.dirs j m ?_) hdirs, ?_, ?_, ?_⟩
  · rw [hinodes] at hm
    exact (getElem?_concat_eq_some.1 hm).resolve_right fun hlast => hj hlast.1
  · have hne : d ≠ v.inodes.length := Nat.ne_of_lt (List.getElem?_eq_some_iff.1 hx).1
    rw [hc.inodes, getElem?_set_ne hne.symm, hxd]
  · intro m hm
    obtain ⟨k, hk, rfl⟩ := mem_map.1 hm
    exact hfresh k hk
  · rw [hc.nodes, hnode, nodes, hinodes]
    simp [nodes]

end Volume

end Jinux
