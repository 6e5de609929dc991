import Jinux.Ext2.DirView
import Jinux.Ext2.Slots

/-!
# Link counts

`create`, `link`, `unlink`, `rmdir` and `rename` keep the counts of hard links.

* `Volume.LinkLaw` : the law, in terms of the entries that the readers of the directories yield;
* `Volume.Lawful` : the law in the middle of an operation, when some entries are in no directory;
* `Volume.link_counts` : **the law holds in every volume that a sequence of successful operations on
  names reaches**.
-/

namespace Jinux

open DirEntry Namespace Record StateRules List

variable {n root : ℕ} {v v' : Volume n}

/-- The number of subdirectories. -/
def Inode.subdirs (x : Inode) : ℕ := x.children.countP fun c => c.type = .ok .dir

namespace Volume

variable {v'' : Volume n} {i j d : ℕ} {u : Unit} {x y z : Inode} {name : List UInt8}
  {flying : Multiset Child} {c : Child} {ino : ℕ} {p : ℕ × DirEntry} {type srcType : FileType}
  {e : DirEntry} {isDir : Prop}

/-- The entries of all directories, without `"."` and `".."`. -/
def entries (v : Volume n) : List Child := v.inodes.flatMap Inode.children

/-- The number of entries that name an inode. -/
def numEntries (v : Volume n) (ino : ℕ) : ℕ := v.entries.countP fun c => c.ino = ino

/-- The inode is the root, or an entry names it. -/
def IsLive (v : Volume n) (root ino : ℕ) : Prop := ino = root ∨ 0 < v.numEntries ino

/-- The law of link counts. -/
structure LinkLaw (root : ℕ) (v : Volume n) : Prop where
  file : ∀ x ∈ v.inodes, x.desc.type ≠ .dir → x.desc.hardLinks = v.numEntries x.ino
  live : ∀ x ∈ v.inodes, x.desc.type = .dir → v.IsLive root x.ino →
    x.desc.hardLinks = 2 + x.subdirs
  removed : ∀ x ∈ v.inodes, x.desc.type = .dir → ¬v.IsLive root x.ino → x.desc.hardLinks = 0

/-- The directories are a tree: an entry names an inode of its type, a directory has one place, and
a removed directory is empty. -/
structure IsTree (root : ℕ) (v : Volume n) : Prop where
  root_mem : ∃ x ∈ v.inodes, x.ino = root
  known : ∀ c ∈ v.entries, ∃ x ∈ v.inodes, x.ino = c.ino ∧ c.type = .ok x.desc.type
  once : ∀ x ∈ v.inodes, x.desc.type = .dir →
    v.numEntries x.ino + (if x.ino = root then 1 else 0) ≤ 1
  empty : ∀ x ∈ v.inodes, x.desc.type = .dir → ¬v.IsLive root x.ino → x.children = []

/-! ### The namespace of a volume -/

theorem kids_nodes (v : Volume n) : kids v.nodes = v.entries := by
  rw [kids, nodes, entries, map_map]
  induction v.inodes with
  | nil => rfl
  | cons x xs ih =>
    rw [map_cons, sum_cons, ih]
    rfl

theorem named_kids_nodes (v : Volume n) (ino : ℕ) :
    named (kids v.nodes) ino = v.numEntries ino := by
  rw [kids_nodes, named, numEntries, Multiset.coe_countP]

theorem live_iff : Namespace.Live root (kids v.nodes) ino ↔ v.IsLive root ino := by
  rw [Namespace.Live, IsLive, named_kids_nodes]

theorem subdirs_node (x : Inode) : x.node.subdirs = x.subdirs := Multiset.coe_countP _ _

theorem known_iff :
    (∃ m ∈ v.nodes, m.ino = c.ino ∧ c.type = .ok m.type) ↔
      ∃ x ∈ v.inodes, x.ino = c.ino ∧ c.type = .ok x.desc.type := by
  simp only [nodes, mem_map, exists_exists_and_eq_and]
  rfl

/-- The law holds in the namespace of a volume that is a tree. -/
theorem IsTree.law (ht : v.IsTree root) (hl : v.LinkLaw root) (h : v.Sound) :
    Law root 0 v.nodes := by
  refine ⟨fun i j m m' hm hm' hino => ?_, ?_, fun c hc => ?_, fun m hm => ?_⟩
  · rw [nodes, getElem?_map, Option.map_eq_some_iff] at hm hm'
    obtain ⟨x, hx, rfl⟩ := hm
    obtain ⟨y, hy, rfl⟩ := hm'
    exact h.ino_inj hx hy hino
  · obtain ⟨x, hx, hino⟩ := ht.root_mem
    exact ⟨x.node, mem_map_of_mem hx, hino⟩
  · rw [add_zero, kids_nodes] at hc
    exact known_iff.2 (ht.known c hc)
  · obtain ⟨x, hx, rfl⟩ := mem_map.1 hm
    rw [add_zero]
    refine ⟨fun htype => ?_, fun htype => ?_, fun htype hlive => ?_, fun htype hdead => ?_⟩
    · rw [named_kids_nodes]
      exact hl.file x hx htype
    · rw [named_kids_nodes]
      exact ht.once x hx htype
    · rw [subdirs_node]
      exact hl.live x hx htype (live_iff.1 hlive)
    · have hdead := mt live_iff.2 hdead
      exact ⟨hl.removed x hx htype hdead, congrArg _ (ht.empty x hx htype hdead)⟩

theorem LinkLaw.of_law (h : Law root 0 v.nodes) : v.LinkLaw root := by
  have hnode : ∀ x ∈ v.inodes, NodeLaw root (kids v.nodes) x.node := fun x hx =>
    add_zero (kids v.nodes) ▸ h.node x.node (mem_map_of_mem hx)
  refine ⟨fun x hx htype => ?_, fun x hx htype hlive => ?_, fun x hx htype hdead => ?_⟩
  · rw [← named_kids_nodes]
    exact (hnode x hx).file htype
  · rw [← subdirs_node]
    exact (hnode x hx).live htype (live_iff.2 hlive)
  · exact ((hnode x hx).removed htype (mt live_iff.1 hdead)).1

/-! ### The middle of an operation -/

/-- A sound volume with the law, where the entries `flying` are in no directory. -/
structure Lawful (root : ℕ) (flying : Multiset Child) (v : Volume n) : Prop where
  sound : v.Sound
  law : Law root flying v.nodes

/-- The object of an inode number. -/
theorem Sound.lookupInode (h : v.Sound) (hrun : lookupInode ino v = .ok i v')
    (hx : v.inodes[i]? = some x) : x.ino = ino := by
  obtain ⟨-, hcache, -⟩ := lookupInode_ok hrun
  obtain ⟨y, hy, hino⟩ := h.cached ino i hcache
  obtain rfl := Option.mem_unique hx hy
  exact hino

/-- All objects keep their numbers and types. -/
def KeepsObjects (v v' : Volume n) : Prop :=
  ∀ (j : ℕ) (z : Inode), v.inodes[j]? = some z →
    ∃ z', v'.inodes[j]? = some z' ∧ z'.ino = z.ino ∧ z'.desc.type = z.desc.type

theorem Changes.keepsObjects (h : Changes i v v' x y) : v.KeepsObjects v' :=
  fun _ _ hz => h.exists_inode hz

theorem KeepsObjects.trans (h : v.KeepsObjects v') (h' : v'.KeepsObjects v'') :
    v.KeepsObjects v'' := by
  intro j z hz
  obtain ⟨z', hz', hino, htype⟩ := h j z hz
  obtain ⟨z'', hz'', hino', htype'⟩ := h' j z' hz'
  exact ⟨z'', hz'', hino'.trans hino, htype'.trans htype⟩

/-- An entry has the type of its inode. -/
theorem Lawful.type_eq (h : v.Lawful root flying) (hc : c ∈ kids v.nodes + flying)
    (hx : v.inodes[i]? = some x) (hino : x.ino = c.ino) : c.type = .ok x.desc.type := by
  obtain ⟨y, hy, hyino, htype⟩ := known_iff.1 (h.law.known c hc)
  obtain ⟨j, hj⟩ := getElem?_of_mem hy
  obtain rfl := h.sound.ino_inj hx hj (hino.trans hyino.symm)
  obtain rfl := Option.mem_unique hx hj
  exact htype

theorem mem_kids_nodes (hx : v.inodes[i]? = some x) (hc : c ∈ x.node.kids) : c ∈ kids v.nodes := by
  rw [kids_nodes]
  exact mem_flatMap.2 ⟨x, mem_of_getElem? hx, hc⟩

/-- What `DirEntry::new` makes for an inode. -/
theorem Numbered.new_entry (h : v.Numbered) (hz : v.inodes[j]? = some z) (hnul : 0 ∉ name)
    (hlen : ¬maxFnameLen < name.length) (hentry : new z.ino name type = .ok e) :
    ∃ l : Link, e = l.entry l.actualLen ∧ l.child = ⟨name, z.ino, .ok type⟩ := by
  obtain ⟨hpos, hlt⟩ := h.ino_bounds hz
  have hlink := new_link ⟨⟨name, Nat.le_of_not_lt hlen, hnul⟩, z.ino, type, hpos, hlt⟩
  exact ⟨_, Except.ok.inj (hentry.symm.trans hlink), rfl⟩

section

variable (hx : v.inodes[i]? = some x)

include hx

/-- `remove_entry` of a name that the search finds. -/
theorem Lawful.removeEntry {rs : List Record} (h : v.Lawful root flying)
    (hok : x.DirOk rs) (hdot : ¬IsDot name)
    (hget : x.getEntry name 0 = some p) (hrun : removeEntry i name v = .ok u v') :
    ∃ y rs' l, v'.Lawful root (p.2.child ::ₘ flying) ∧ Changes i v v' x y ∧ y.DirOk rs' ∧
      Removed name rs l rs' ∧ (∀ c ∈ y.node.kids, c.name ≠ name) ∧ y.desc.hardLinks ≠ 0 := by
  obtain ⟨y, rs', l, hsound, hc, hok', hrem, hkids, hnode⟩ :=
    h.sound.removeEntry hx hok hdot hrun
  obtain ⟨hmem, hname⟩ := hok.child_mem hdot hget
  have hlname : l.child.name = name := hrem.name_eq
  have hl : l.child = p.2.child := by
    refine hok.child_eq ?_ hmem (hlname.trans hname.symm)
    rw [hkids]
    exact Multiset.mem_cons_self _ _
  have htype : x.node.type = .dir := hok.type
  have hcount := h.law.count_eq (getElem?_nodes hx) htype hkids
  refine ⟨y, rs', l, ⟨hsound, ?_⟩, hc, hok', hrem, ?_, ?_⟩
  · rw [hc.nodes, hnode, ← hl]
    exact h.law.take (getElem?_nodes hx) htype hkids
  · intro c hc heq
    have hnodup := hok.kids_nodup
    rw [hkids, Multiset.map_cons, Multiset.nodup_cons, hlname] at hnodup
    exact hnodup.1 (heq ▸ Multiset.mem_map_of_mem _ hc)
  · have hlinks : y.node.count = x.node.count - l.child.dirLinks := by rw [hnode]
    change y.node.count ≠ 0
    omega

/-- `append_entry` of the entry that `DirEntry::new` makes for an inode that waits for it. -/
theorem Lawful.addEntry (h : v.Lawful root (c ::ₘ flying)) (htype : x.desc.type = .dir)
    (hused : x.desc.hardLinks ≠ 0) (hnul : 0 ∉ name) (hlen : ¬maxFnameLen < name.length)
    (hdot : ¬IsDot name) (hnew : ∀ k ∈ x.node.kids, k.name ≠ name) (hino : c.ino = ino)
    (hctype : c.type = .ok type) (hentry : new ino name type = .ok e)
    (hrun : appendEntry i e 0 v = .ok u v') : v'.Lawful root flying ∧ ∃ y, Changes i v v' x y := by
  have hc : c ∈ kids v.nodes + (c ::ₘ flying) := by
    rw [Multiset.add_cons]
    exact Multiset.mem_cons_self _ _
  obtain ⟨z, hz, hzino, -⟩ := known_iff.1 (h.law.known c hc)
  obtain ⟨j, hj⟩ := getElem?_of_mem hz
  rw [← hino, ← hzino] at hentry
  obtain ⟨l, rfl, hl⟩ := h.sound.new_entry hj hnul hlen hentry
  have hname : l.name.bytes = name := congrArg Child.name hl
  obtain ⟨y, hsound, hc, hnode⟩ := h.sound.appendEntry hx htype (hname ▸ hdot) (hname ▸ hnew) hrun
  refine ⟨⟨hsound, ?_⟩, y, hc⟩
  rw [hc.nodes, hnode, hl]
  exact h.law.put (getElem?_nodes hx) htype hused hzino hctype.symm

/-- The inode of an entry loses the link of it. -/
theorem Lawful.dropEntry [Decidable isDir] (h : v.Lawful root (c ::ₘ flying)) (hino : c.ino = x.ino)
    (hdir : isDir ↔ x.desc.type = .dir) (hempty : x.desc.type = .dir → x.node.kids = 0)
    (hrun : dropEntry i isDir v = .ok u v') : v'.Lawful root flying ∧ v.KeepsObjects v' := by
  obtain ⟨_, v1, hdec, hdec'⟩ := bind_ok.1 hrun
  have hc := decHardLinks_changes hx hdec
  rcases onlyIf_ok.1 hdec' with ⟨hd, hdec'⟩ | ⟨hd, rfl⟩
  · have hc' := hc.trans (decHardLinks_changes hc.after hdec')
    obtain ⟨hsound, hnodes⟩ := h.sound.withLinks hc'
    refine ⟨⟨hsound, ?_⟩, hc'.keepsObjects⟩
    rw [hnodes]
    exact h.law.dropDir (getElem?_nodes hx) hino (hdir.1 hd) (hempty (hdir.1 hd))
  · obtain ⟨hsound, hnodes⟩ := h.sound.withLinks hc
    refine ⟨⟨hsound, ?_⟩, hc.keepsObjects⟩
    rw [hnodes]
    exact h.law.dropFile (getElem?_nodes hx) hino (mt hdir.2 hd)

/-- `set_parent_ino` -/
theorem Lawful.setParentIno (h : v.Lawful root flying)
    (htype : x.desc.type = .dir) (hz : v.inodes[j]? = some z)
    (hrun : setParentIno i z.ino v = .ok u v') : v'.Lawful root flying := by
  obtain ⟨hsound, hnodes⟩ := h.sound.setParentIno hx htype hz hrun
  exact ⟨hsound, hnodes ▸ h.law⟩

end

/-- An inode that is no directory or is empty is not the directory that has an entry. -/
theorem ne_of_empty (hx : v.inodes[d]? = some x) (htype : x.desc.type = .dir) (hc : c ∈ x.node.kids)
    (hy : v.inodes[i]? = some y) (hempty : y.desc.type = .dir → y.node.kids = 0) : i ≠ d := by
  rintro rfl
  obtain rfl := Option.mem_unique hx hy
  rw [hempty htype] at hc
  exact absurd hc (Multiset.notMem_zero c)

/-! ### The operations -/

theorem findEntry_ok (h : findEntry x name v = .ok p v') : x.getEntry name 0 = some p ∧ v' = v := by
  cases hget : x.getEntry name 0 with
  | none =>
    rw [findEntry, hget] at h
    cases h
  | some q =>
    rw [findEntry, hget] at h
    cases h
    exact ⟨rfl, rfl⟩

theorem checkName_ok (h : checkName name v = .ok u v') : ¬maxFnameLen < name.length ∧ v' = v := by
  obtain ⟨hlen, rfl⟩ := failIf_returnErrno_ok.1 h
  exact ⟨hlen, rfl⟩

theorem checkReplace_ok {dstType : FileType} (h : checkReplace srcType dstType y = .ok u) :
    (srcType = .dir ↔ dstType = .dir) ∧ (dstType = .dir → y.entryCount ≤ 2) := by
  cases srcType <;> cases dstType <;> simp_all [checkReplace]

/-- `Inode::create` -/
theorem Lawful.create {perm : ℕ} (h : v.Lawful root 0) (hnul : 0 ∉ name)
    (hrun : create d name type perm v = .ok i v') : v'.Lawful root 0 := by
  simp only [Volume.create, bind_ok, inode_ok, liftR_ok, onErr_ok, failIf_returnErrno_ok] at hrun
  obtain ⟨x, _, hlive, _, _, hcheck, _, _, ⟨hfree, rfl⟩, j, v1, hcreate, z, _, ⟨hz, rfl⟩, _, v2,
    hinit, e, _, ⟨hentry, rfl⟩, _, v3, happend, hpure⟩ := hrun
  cases hpure
  obtain ⟨hx, htype, hused, rfl⟩ := liveDir_ok hlive
  obtain ⟨hlen, rfl⟩ := checkName_ok hcheck
  obtain ⟨rs, hok⟩ := h.sound.dirs d x hx htype
  have hget : x.getEntry name 0 = none := by simpa using hfree
  obtain ⟨hsound, hx2, hfresh, hnodes⟩ := h.sound.create hx hcreate hz hinit
  have h2 : v2.Lawful root (⟨name, z.ino, .ok type⟩ ::ₘ 0) := by
    refine ⟨hsound, ?_⟩
    rw [hnodes]
    exact h.law.create hfresh rfl
  exact (h2.addEntry hx2 htype hused hnul hlen (hok.not_isDot hget)
    (hok.child_ne hget) rfl rfl hentry happend).1

/-- `Inode::link` -/
theorem Lawful.link (h : v.Lawful root 0) (hnul : 0 ∉ name)
    (hrun : link d i name v = .ok u v') : v'.Lawful root 0 := by
  simp only [Volume.link, bind_ok, inode_ok, liftR_ok, failIf_returnErrno_ok] at hrun
  obtain ⟨x, _, hlive, _, _, hcheck, y, _, ⟨hy, rfl⟩, _, _, ⟨hytype, rfl⟩, _, _, ⟨hfree, rfl⟩,
    e, _, ⟨hentry, rfl⟩, _, v1, happend, hinc⟩ := hrun
  obtain ⟨hx, htype, hused, rfl⟩ := liveDir_ok hlive
  obtain ⟨hlen, rfl⟩ := checkName_ok hcheck
  obtain ⟨rs, hok⟩ := h.sound.dirs d x hx htype
  have hget : x.getEntry name 0 = none := by simpa using hfree
  obtain ⟨l, rfl, hl⟩ := h.sound.new_entry hy hnul hlen hentry
  have hname : l.name.bytes = name := congrArg Child.name hl
  obtain ⟨x', hsound, hc, hnode⟩ := h.sound.appendEntry hx htype (hname ▸ hok.not_isDot hget)
    (hname ▸ hok.child_ne hget) happend
  have hne : i ≠ d := by
    rintro rfl
    obtain rfl := Option.mem_unique hx hy
    exact hytype htype
  obtain ⟨hsound', hnodes⟩ := hsound.withLinks (incHardLinks_changes (hc.other hne hy) hinc)
  refine ⟨hsound', ?_⟩
  rw [hnodes, hc.nodes, hnode, hl]
  exact h.law.link (getElem?_nodes hx) htype hused (getElem?_nodes hy) hytype rfl rfl

/-- `Inode::unlink` and `Inode::rmdir` -/
theorem Lawful.removeLink [Decidable isDir] (h : v.Lawful root flying) (hx : v.inodes[d]? = some x)
    (htype : x.desc.type = .dir) (hdot : ¬IsDot name) (hget : x.getEntry name 0 = some p)
    (hy : v.inodes[i]? = some y) (hino : y.ino = p.2.ino) (hdir : isDir ↔ y.desc.type = .dir)
    (hempty : y.desc.type = .dir → y.node.kids = 0)
    (hremove : Volume.removeEntry d name v = .ok u v')
    (hdrop : Volume.dropEntry i isDir v' = .ok u v'') : v''.Lawful root flying := by
  obtain ⟨rs, hok⟩ := h.sound.dirs d x hx htype
  obtain ⟨x', rs', l, h', hc, -⟩ := h.removeEntry hx hok hdot hget hremove
  have hne := ne_of_empty hx htype (hok.child_mem hdot hget).1 hy hempty
  exact (h'.dropEntry (hc.other hne hy) hino.symm hdir hempty hdrop).1

/-- `Inode::unlink` -/
theorem Lawful.unlink (h : v.Lawful root 0) (hrun : unlink d name v = .ok u v') :
    v'.Lawful root 0 := by
  simp only [Volume.unlink, bind_ok, inode_ok, failIf_returnErrno_ok] at hrun
  obtain ⟨x, _, hlive, _, _, ⟨hdot, rfl⟩, _, _, hcheck, p, _, hfind, i, _, hlookup, y, _, ⟨hy, rfl⟩,
    _, _, ⟨hytype, rfl⟩, _, v1, hremove, hdec⟩ := hrun
  obtain ⟨hx, htype, -, rfl⟩ := liveDir_ok hlive
  obtain ⟨-, rfl⟩ := checkName_ok hcheck
  obtain ⟨hget, rfl⟩ := findEntry_ok hfind
  obtain ⟨-, -, rfl⟩ := lookupInode_ok hlookup
  have hdrop : Volume.dropEntry i False v1 = .ok u v' := bind_ok.2 ⟨u, v', hdec, rfl⟩
  exact h.removeLink hx htype hdot hget hy (h.sound.lookupInode hlookup hy)
    (iff_of_false id hytype) (fun hdir => absurd hdir hytype) hremove hdrop

/-- `Inode::rmdir` -/
theorem Lawful.rmdir (h : v.Lawful root 0) (hrun : rmdir d name v = .ok u v') :
    v'.Lawful root 0 := by
  simp only [Volume.rmdir, bind_ok, inode_ok, failIf_returnErrno_ok,
    failIf_returnErrnoWithMessage_ok] at hrun
  obtain ⟨x, _, hlive, _, _, ⟨hself, rfl⟩, _, _, ⟨hparent, rfl⟩, _, _, hcheck, p, _, hfind, i, _,
    hlookup, y, _, ⟨hy, rfl⟩, _, _, ⟨hytype, rfl⟩, _, _, ⟨hcount, rfl⟩, _, v1, hremove,
    hdrop⟩ := hrun
  obtain ⟨hx, htype, -, rfl⟩ := liveDir_ok hlive
  obtain ⟨-, rfl⟩ := checkName_ok hcheck
  obtain ⟨hget, rfl⟩ := findEntry_ok hfind
  obtain ⟨-, -, rfl⟩ := lookupInode_ok hlookup
  have hytype := not_not.1 hytype
  obtain ⟨rs, hok⟩ := h.sound.dirs i y hy hytype
  exact h.removeLink hx htype (not_or.2 ⟨hself, hparent⟩) hget hy
    (h.sound.lookupInode hlookup hy) (iff_of_true trivial hytype)
    (fun _ => hok.kids_eq_zero (Nat.le_of_not_lt hcount)) hremove hdrop

/-- An inode that may be replaced is of the same kind, and empty if it is a directory. -/
theorem Sound.checkReplace (h : v.Sound) (hy : v.inodes[i]? = some y)
    (hcheck : checkReplace srcType y.desc.type y = .ok u) :
    (srcType = .dir ↔ y.desc.type = .dir) ∧ (y.desc.type = .dir → y.node.kids = 0) := by
  obtain ⟨hiff, hcount⟩ := checkReplace_ok hcheck
  refine ⟨hiff, fun htype => ?_⟩
  obtain ⟨rs, hok⟩ := h.dirs i y hy htype
  exact hok.kids_eq_zero (hcount htype)

section Rename

variable {oldName newName : List UInt8} {t : ℕ} {src : Inode} {q : ℕ × DirEntry}
  (hdot : ¬IsDot oldName) (hnul : 0 ∉ newName) (hlen : ¬maxFnameLen < newName.length)
  (hdot' : ¬IsDot newName)

include hdot hnul hlen hdot'

/-- `rename_entry`, with the writer at the entry. -/
theorem Lawful.renameEntry {as bs : List Record} {r : Record} (h : v.Lawful root flying)
    (hx : v.inodes[i]? = some x) (hok : x.DirOk (as ++ r :: bs))
    (hname : r.link.name.bytes = oldName) (hnew : ∀ k ∈ x.node.kids, k.name ≠ newName)
    (hrun : renameEntry i oldName newName (extent as) v = .ok u v') :
    v'.Lawful root flying ∧ ∃ y, Changes i v v' x y := by
  obtain ⟨name, rfl⟩ : ∃ name : FileName, newName = name.bytes :=
    ⟨⟨newName, Nat.le_of_not_lt hlen, hnul⟩, rfl⟩
  obtain ⟨y, c, ks, hsound, hc, hkids, hnode⟩ :=
    h.sound.renameEntry hx hok hname hdot hdot' hnew hrun
  refine ⟨⟨hsound, ?_⟩, y, hc⟩
  rw [hc.nodes, hnode]
  exact h.law.rename (getElem?_nodes hx) hok.type hkids rfl rfl

/-- `rename_within`, onto the name of another inode. -/
theorem Lawful.replaceWithin (h : v.Lawful root 0) (hx : v.inodes[d]? = some x)
    (htype : x.desc.type = .dir) (hne : oldName ≠ newName) (hp : x.getEntry oldName 0 = some p)
    (hq : x.getEntry newName 0 = some q)
    (hrun : replaceWithin d oldName newName p.1 srcType q.2.ino v = .ok u v') :
    v'.Lawful root 0 := by
  simp only [Volume.replaceWithin, bind_ok, inode_ok, liftR_ok] at hrun
  obtain ⟨j, _, hlookup, y, _, ⟨hy, rfl⟩, _, _, ⟨hcheck, rfl⟩, _, v1, hremove, _, v2, hrename,
    hdrop⟩ := hrun
  obtain ⟨-, -, rfl⟩ := lookupInode_ok hlookup
  obtain ⟨-, hempty⟩ := h.sound.checkReplace hy hcheck
  obtain ⟨rs, hok⟩ := h.sound.dirs d x hx htype
  obtain ⟨x1, rs1, l, h1, hc1, hok1, hrem, hgone, -⟩ := h.removeEntry hx hok hdot' hq hremove
  -- the writer stands at the record of the old name, which has not moved
  obtain ⟨as, r, bs, rfl, ho, -, hname⟩ := hok.getEntry_eq_some hp
  obtain ⟨as', r', bs', rfl, hext, hlink⟩ := hrem.exists_record rfl (hname ▸ hne)
  rw [ho, ← hext] at hrename
  obtain ⟨h2, x2, hc2⟩ := h1.renameEntry hdot hnul hlen hdot' hc1.after hok1 (by rw [hlink, hname])
    hgone hrename
  have hjd := ne_of_empty hx htype (hok.child_mem hdot' hq).1 hy hempty
  exact (h2.dropEntry (hc2.other hjd (hc1.other hjd hy)) (h.sound.lookupInode hlookup hy).symm
    Iff.rfl hempty hdrop).1

/-- `Inode::rename_within` -/
theorem Lawful.renameWithin (h : v.Lawful root 0)
    (hrun : renameWithin d oldName newName v = .ok u v') : v'.Lawful root 0 := by
  simp only [Volume.renameWithin, bind_ok, inode_ok] at hrun
  obtain ⟨x, _, hlive, p, _, hfind, i, _, hlookup, src, _, ⟨hsrc, rfl⟩, hrun⟩ := hrun
  obtain ⟨hx, htype, -, rfl⟩ := liveDir_ok hlive
  obtain ⟨hp, rfl⟩ := findEntry_ok hfind
  obtain ⟨-, -, rfl⟩ := lookupInode_ok hlookup
  cases hq : x.getEntry newName 0 with
  | none =>
    rw [hq] at hrun
    obtain ⟨rs, hok⟩ := h.sound.dirs d x hx htype
    have hnew := hok.child_ne hq
    obtain ⟨as, r, bs, rfl, ho, -, hname⟩ := hok.getEntry_eq_some hp
    rw [ho] at hrun
    exact (h.renameEntry hdot hnul hlen hdot' hx hok hname hnew hrun).1
  | some q =>
    rw [hq] at hrun
    rcases onlyIf_ok.1 hrun with ⟨hino, hrun⟩ | ⟨-, rfl⟩
    · refine h.replaceWithin hdot hnul hlen hdot' hx htype ?_ hp hq hrun
      rintro rfl
      obtain rfl := Option.mem_unique hp hq
      exact hino (h.sound.lookupInode hlookup hsrc)
    · exact h

section Across

variable (h : v.Lawful root 0) (hx : v.inodes[d]? = some x) (htype : x.desc.type = .dir)
  (hy : v.inodes[t]? = some y) (hytype : y.desc.type = .dir) (hne : t ≠ d)
  (hsrc : v.inodes[i]? = some src) (hino : src.ino = p.2.ino)
  (hp : x.getEntry oldName 0 = some p)

include h hx htype hy hytype hne hsrc hino hp

/-- An entry moves to a free name of another directory. -/
theorem Lawful.moveEntry (hused : y.desc.hardLinks ≠ 0) (hq : y.getEntry newName 0 = none)
    (hrun : moveEntry d oldName t newName src v = .ok u v') :
    v'.Lawful root 0 ∧ v.KeepsObjects v' := by
  simp only [Volume.moveEntry, bind_ok, liftR_ok] at hrun
  obtain ⟨_, v1, hremove, e, _, ⟨hentry, rfl⟩, happend⟩ := hrun
  obtain ⟨rs, hok⟩ := h.sound.dirs d x hx htype
  obtain ⟨ts, hoky⟩ := h.sound.dirs t y hy hytype
  obtain ⟨x1, -, -, h1, hc1, -⟩ := h.removeEntry hx hok hdot hp hremove
  have hctype : p.2.child.type = .ok src.desc.type := h.type_eq
    (by rw [add_zero]; exact mem_kids_nodes hx (hok.child_mem hdot hp).1) hsrc hino
  obtain ⟨h2, y2, hc2⟩ := h1.addEntry (hc1.other hne hy) hytype hused hnul hlen hdot'
    (hoky.child_ne hq) hino.symm hctype hentry happend
  exact ⟨h2, hc1.keepsObjects.trans hc2.keepsObjects⟩

/-- An entry moves to another directory, onto the name of another inode. -/
theorem Lawful.replaceAcross (hq : y.getEntry newName 0 = some q) (hsame : x.ino ≠ q.2.ino)
    (hrun : replaceAcross d oldName t newName src q.2.ino v = .ok u v') :
    v'.Lawful root 0 ∧ v.KeepsObjects v' := by
  simp only [Volume.replaceAcross, bind_ok, inode_ok, liftR_ok] at hrun
  obtain ⟨j, _, hlookup, dst, _, ⟨hdst, rfl⟩, _, _, ⟨hcheck, rfl⟩, _, v1, hremove, _, v2, hremove',
    e, _, ⟨hentry, rfl⟩, _, v3, happend, hdrop⟩ := hrun
  obtain ⟨-, -, rfl⟩ := lookupInode_ok hlookup
  have hdstIno := h.sound.lookupInode hlookup hdst
  obtain ⟨hdir, hempty⟩ := h.sound.checkReplace hdst hcheck
  obtain ⟨rs, hok⟩ := h.sound.dirs d x hx htype
  obtain ⟨ts, hoky⟩ := h.sound.dirs t y hy hytype
  obtain ⟨x1, -, -, h1, hc1, -⟩ := h.removeEntry hx hok hdot hp hremove
  obtain ⟨y2, _, _, h2, hc2, hok2, -, hgone, hused⟩ :=
    h1.removeEntry (hc1.other hne hy) hoky hdot' hq hremove'
  have hctype : p.2.child.type = .ok src.desc.type := h.type_eq
    (by rw [add_zero]; exact mem_kids_nodes hx (hok.child_mem hdot hp).1) hsrc hino
  rw [Multiset.cons_swap] at h2
  obtain ⟨h3, y3, hc3⟩ := h2.addEntry hc2.after hok2.type hused hnul hlen hdot' hgone hino.symm
    hctype hentry happend
  have hjt := ne_of_empty hy hytype (hoky.child_mem hdot' hq).1 hdst hempty
  have hjd : j ≠ d := by
    rintro rfl
    obtain rfl := Option.mem_unique hx hdst
    exact hsame hdstIno
  obtain ⟨h4, hkeeps⟩ := h3.dropEntry
    (hc3.other hjt (hc2.other hjt (hc1.other hjd hdst))) hdstIno.symm hdir hempty hdrop
  exact ⟨h4, ((hc1.keepsObjects.trans hc2.keepsObjects).trans hc3.keepsObjects).trans hkeeps⟩

end Across

omit hdot hnul hlen hdot' in
/-- The end of a move: the directory that was moved gets its new parent. -/
theorem Lawful.updateParent (h : v'.Lawful root flying) (hkeeps : v.KeepsObjects v')
    (hsrc : v.inodes[i]? = some src) (hy : v.inodes[t]? = some y)
    (hrun : onlyIf (src.desc.type = .dir) (Volume.setParentIno i y.ino) v' = .ok u v'') :
    v''.Lawful root flying := by
  obtain ⟨x, hx, -, hxtype⟩ := hkeeps i src hsrc
  obtain ⟨z, hz, hzino, -⟩ := hkeeps t y hy
  rcases onlyIf_ok.1 hrun with ⟨htype, hrun⟩ | ⟨-, rfl⟩
  · exact h.setParentIno hx (hxtype.trans htype) hz (hzino ▸ hrun)
  · exact h

/-- `Inode::rename`, across directories. -/
theorem Lawful.renameAcross (h : v.Lawful root 0) (hx : v.inodes[d]? = some x)
    (hy : v.inodes[t]? = some y) (hne : x.ino ≠ y.ino)
    (hrun : renameAcross d oldName t newName v = .ok u v') : v'.Lawful root 0 := by
  simp only [Volume.renameAcross, bind_ok, inode_ok, failIf_returnErrno_ok,
    failIf_returnErrnoWithMessage_ok] at hrun
  obtain ⟨_, _, ⟨hx', rfl⟩, _, _, ⟨hy', rfl⟩, _, _, ⟨htypes, rfl⟩, _, _, ⟨hused, rfl⟩, p, _, hfind,
    i, _, hlookup, src, _, ⟨hsrc, rfl⟩, _, _, ⟨-, rfl⟩, hrun⟩ := hrun
  obtain rfl := Option.mem_unique hx hx'
  obtain rfl := Option.mem_unique hy hy'
  obtain ⟨hp, rfl⟩ := findEntry_ok hfind
  obtain ⟨-, -, rfl⟩ := lookupInode_ok hlookup
  have hino := h.sound.lookupInode hlookup hsrc
  have htype := not_not.1 (not_or.1 htypes).1
  have hytype := not_not.1 (not_or.1 htypes).2
  have htd : t ≠ d := by
    rintro rfl
    exact hne (congrArg Inode.ino (Option.mem_unique hx hy))
  cases hq : y.getEntry newName 0 with
  | none =>
    rw [hq] at hrun
    obtain ⟨_, v1, hmove, hparent⟩ := bind_ok.1 hrun
    obtain ⟨h1, hkeeps⟩ := h.moveEntry hdot hnul hlen hdot' hx htype hy hytype htd hsrc hino hp
      (not_or.1 hused).2 hq hmove
    exact h1.updateParent hkeeps hsrc hy hparent
  | some q =>
    rw [hq] at hrun
    rcases onlyIf_ok.1 hrun with ⟨-, hrun⟩ | ⟨-, rfl⟩
    · simp only [bind_ok, failIf_returnErrno_ok] at hrun
      obtain ⟨_, _, ⟨hsame, rfl⟩, _, v1, hreplace, hparent⟩ := hrun
      obtain ⟨h1, hkeeps⟩ := h.replaceAcross hdot hnul hlen hdot' hx htype hy hytype htd hsrc hino
        hp hq hsame hreplace
      exact h1.updateParent hkeeps hsrc hy hparent
    · exact h

end Rename

/-- `Inode::rename` -/
theorem Lawful.rename {oldName newName : List UInt8} {t : ℕ} (h : v.Lawful root 0)
    (hnul : 0 ∉ newName) (hrun : rename d oldName t newName v = .ok u v') : v'.Lawful root 0 := by
  simp only [Volume.rename, bind_ok, inode_ok, failIf_returnErrno_ok] at hrun
  obtain ⟨_, _, ⟨hnames, rfl⟩, _, _, hcheck, x, _, ⟨hx, rfl⟩, y, _, ⟨hy, rfl⟩, hrun⟩ := hrun
  obtain ⟨hlen, rfl⟩ := checkName_ok hcheck
  have hdot : ¬IsDot oldName := fun hd => hnames (hd.imp_right .inl)
  have hdot' : ¬IsDot newName := fun hd => hnames (.inr (.inr hd))
  split_ifs at hrun with hsame
  · exact h.renameWithin hdot hnul hlen hdot' hrun
  · exact h.renameAcross hdot hnul hlen hdot' hx hy hsame hrun

end Volume

/-- The operations on names: `create`, `link`, `unlink`, `rmdir` and `rename`. -/
def InodeOp.OnNames : InodeOp → Prop
  | .create .. | .link .. | .unlink .. | .rmdir .. | .rename .. => True
  | _ => False

namespace Volume

/-- One operation. -/
theorem Lawful.run {op : InodeOp} (h : v.Lawful root 0) (hop : op.OnNames)
    (hrun : op.run v = .ok () v') : v'.Lawful root 0 := by
  cases op with
  | create dir name type perm =>
    obtain ⟨_, _, hcreate, hpure⟩ := bind_ok.1 hrun
    cases hpure
    exact h.create name.2 hcreate
  | link dir i name => exact h.link name.2 hrun
  | unlink dir name => exact h.unlink hrun
  | rmdir dir name => exact h.rmdir hrun
  | rename dir oldName target newName => exact h.rename newName.2 hrun
  | _ => exact hop.elim

/-- **Link counts.**  From a volume that is a tree with the law of link counts, successful calls of
`create`, `link`, `unlink`, `rmdir` and `rename`, in any order, only reach volumes with the law: a
file has as many links as entries that name it, a live directory two and one for each subdirectory,
a removed directory none. -/
theorem link_counts {v₀ : Volume n} (hsound : v₀.Sound) (htree : v₀.IsTree root)
    (hlaw : v₀.LinkLaw root)
    (hr : ((opLts n).restrict fun _ op => op.OnNames).Reachable v₀ v) : v.LinkLaw root := by
  have h : v.Lawful root 0 := by
    refine hr.invariant (P := Lawful root 0) ⟨hsound, htree.law hlaw hsound⟩ ?_
    rintro w op w' hw ⟨hop, hstep⟩
    exact hw.run hop (opStep_eq_some.1 hstep)
  exact .of_law h.law

/-! ### A run -/

theorem rootDirectory_dirOk :
    rootDirectory.DirOk [⟨.self ⟨2, by decide⟩, 12⟩, ⟨.parent ⟨2, by decide⟩, 4084⟩] where
  type := rfl
  rep := by
    refine ⟨⟨⟨?_, ?_⟩, ⟨?_, ?_⟩, trivial⟩, rfl, ?_⟩
    · decide +kernel
    · decide +kernel
    · decide +kernel
    · decide +kernel
    · simp only [mem_cons, not_mem_nil, or_false]
      rintro r (rfl | rfl)
      · exact ⟨(Link.actualLen_self _).le, by decide⟩
      · exact ⟨(Link.actualLen_parent _).trans_le (by decide), by decide⟩
  dvd := dvd_rfl
  size_eq := rfl
  size_le := by decide
  proper := ⟨_, _, _, rfl, rfl, rfl, rfl⟩
  nodup := by decide

theorem rootVolume_sound : rootVolume.Sound where
  sized _ _ := rfl
  owner i x hx := by
    obtain rfl := List.mem_singleton.1 (List.mem_of_getElem? hx)
    obtain rfl : i = 0 := Nat.lt_one_iff.1 (List.getElem?_eq_some_iff.1 hx).1
    exact ⟨rfl, by decide, ((0 : Fin 1), 1), rfl, rfl⟩
  cached ino i hi := by
    simp only [rootVolume, Option.ite_none_right_eq_some, Option.some.injEq] at hi
    obtain ⟨rfl, rfl⟩ := hi
    exact ⟨rootDirectory, rfl, rfl⟩
  dirs i x hx _ := by
    obtain rfl := mem_singleton.1 (mem_of_getElem? hx)
    exact ⟨_, rootDirectory_dirOk⟩

theorem rootVolume_isTree : rootVolume.IsTree 2 where
  root_mem := ⟨rootDirectory, mem_singleton_self _, rfl⟩
  known c hc := by
    cases hc
  once x hx _ := by
    obtain rfl := mem_singleton.1 hx
    decide
  empty x hx _ hdead := by
    obtain rfl := mem_singleton.1 hx
    exact absurd (.inl rfl) hdead

theorem rootVolume_linkLaw : rootVolume.LinkLaw 2 where
  file x hx htype := by
    obtain rfl := mem_singleton.1 hx
    exact absurd rfl htype
  live x hx _ _ := by
    obtain rfl := mem_singleton.1 hx
    decide +kernel
  removed x hx _ hdead := by
    obtain rfl := mem_singleton.1 hx
    exact absurd (.inl rfl) hdead

/-- A directory `a` with a directory `d`, and a file `b` with a link `a/c`.  The directory `a/d`
moves to the root and replaces an empty one, which is removed, and `b` is unlinked. -/
def moves (a b c d e : PathName) : List InodeOp :=
  [.create 0 a .dir 0o755, .create 0 b .file 0o644, .link 1 2 c, .create 1 d .dir 0o755,
    .create 0 e .dir 0o755, .rename 1 d 0 e, .unlink 0 b]

/-- The root has then four links, `a` and `d` have two, the file one and the replaced directory
none. -/
theorem link_counts_moves :
    ∃ v, ((opLts 1).restrict fun _ op => op.OnNames).Reachable rootVolume v ∧
      v.inodes.map (fun x => (x.ino, x.desc.hardLinks)) =
        [(2, 4), (4, 2), (5, 1), (6, 2), (7, 0)] ∧ v.LinkLaw 2 := by
  have hrun : (Lts.run opStep rootVolume (moves ⟨[97], by decide⟩ ⟨[98], by decide⟩
      ⟨[99], by decide⟩ ⟨[100], by decide⟩ ⟨[101], by decide⟩)).map (fun v =>
      v.inodes.map fun x => (x.ino, x.desc.hardLinks)) =
        some [(2, 4), (4, 2), (5, 1), (6, 2), (7, 0)] := by decide +kernel
  obtain ⟨v, hv, hlinks⟩ := Option.map_eq_some_iff.1 hrun
  have hr : ((opLts 1).restrict fun _ op => op.OnNames).Reachable rootVolume v := by
    refine Lts.reachable_run_restrict (fun w op hop => ?_) hv
    simp only [moves, mem_cons, not_mem_nil, or_false] at hop
    rcases hop with rfl | rfl | rfl | rfl | rfl | rfl | rfl <;> trivial
  exact ⟨v, hr, hlinks, link_counts rootVolume_sound rootVolume_isTree rootVolume_linkLaw hr⟩

end Volume

end Jinux
