import Jinux.Ext2.Resizing

/-!
# Who owns a block

A block that is marked as allocated belongs to one inode, or to no inode of the volume: to the
superblock, to a bitmap, to an inode table.  `InodeImpl_::resize` moves blocks between the bitmaps
and the descriptor of an inode one by one.

* `Owned` : the blocks of all inodes are distinct, and they and the foreign blocks are the allocated
  ones;
* `Held` : the same in the middle of a resize, when the descriptor does not yet say which blocks it
  holds;
* `blocks_owned` : **every operation on inodes keeps this**, if it succeeds;
* `pages_of_failed` : **a call that fails to resize a file leaves a page cache of another size**;
* `exists_block_lost` : it also leaves blocks that belong to nobody.
-/

namespace Jinux

open StateRules List InodeDesc Triple

/-- The blocks of an inode, `data[0..blocks_count]`. -/
def InodeDesc.blocks (d : InodeDesc) : List ℕ := d.data.take d.realBlocks

namespace Volume

variable {n : ℕ} {v v' : Volume n} {xs : List Inode} {x y : Inode} {ds : List ℕ} {i k : ℕ}
  {base : ℕ → Prop}

/-- The blocks of some inodes. -/
def blocksOf (xs : List Inode) : List ℕ := xs.flatMap fun x => x.desc.blocks

/-- The blocks of all inodes of the volume. -/
def blocks (v : Volume n) : List ℕ := blocksOf v.inodes

/-- The blocks that `bs` stands for are distinct; they and the foreign blocks are the allocated
ones. -/
structure Owns (base : ℕ → Prop) (fs : Ext2 n) (bs : List ℕ) : Prop where
  sized : fs.Sized
  nodup : bs.Nodup
  allocated : ∀ b, fs.Allocated .block b ↔ b ∈ bs ∨ base b
  foreign : ∀ b ∈ bs, ¬ base b

/-- The blocks of the inodes are owned, with page caches of whole pages. -/
structure Owned (base : ℕ → Prop) (v : Volume n) : Prop where
  owns : Owns base v.fs v.blocks
  aligned : ∀ x ∈ v.inodes, pageSize ∣ x.pageCache.size

/-- In the middle of a resize the inode `i`, now `x`, holds the blocks `ds`. -/
structure Held (base : ℕ → Prop) (xs : List Inode) (i : ℕ) (x : Inode) (ds : List ℕ)
    (v : Volume n) : Prop where
  lt : i < xs.length
  inodes : v.inodes = xs.set i x
  owns : Owns base v.fs (ds ++ blocksOf (xs.eraseIdx i))

variable {fs : Ext2 n} {bs : List ℕ} {newSize o bid g : ℕ} {name oldName newName : List UInt8}
  {fs' : Ext2 n} {buf : List UInt8} {c : PageCache} {type : FileType}

theorem Owns.perm {cs : List ℕ} (h : Owns base fs bs) (hp : bs.Perm cs) : Owns base fs cs where
  sized := h.sized
  nodup := hp.nodup_iff.1 h.nodup
  allocated b := (h.allocated b).trans (or_congr_left hp.mem_iff)
  foreign b hb := h.foreign b (hp.mem_iff.2 hb)

/-- Taking a free block. -/
theorem Owns.alloc {g' : Fin n} (h : Owns base fs bs)
    (halloc : fs.allocBlock g = .ok ((g', bid), fs')) : Owns base fs' (bid :: bs) := by
  obtain ⟨hsized, hfree, hiff⟩ := Ext2.alloc_spec h.sized halloc
  rw [h.allocated, not_or] at hfree
  refine ⟨hsized, nodup_cons.2 ⟨hfree.1, h.nodup⟩, fun b => ?_, fun b hb => ?_⟩
  · rw [hiff, h.allocated, mem_cons, or_assoc]
    simp
  · rcases mem_cons.1 hb with rfl | hb
    · exact hfree.2
    · exact h.foreign b hb

/-- Giving a block back. -/
theorem Owns.free (h : Owns base fs (bid :: bs)) (hfree : fs.freeBlock bid = .ok fs') :
    Owns base fs' bs := by
  have hbid : bid < u32Bound := ((h.allocated bid).2 (.inl mem_cons_self)).1
  obtain ⟨hsized, hiff⟩ := Ext2.free_spec h.sized hbid hfree
  obtain ⟨hnot, hnodup⟩ := nodup_cons.1 h.nodup
  refine ⟨hsized, hnodup, fun b => ?_, fun b hb => h.foreign b (mem_cons_of_mem _ hb)⟩
  rw [hiff, h.allocated]
  by_cases hb : b = bid
  · subst hb
    simp [hnot, h.foreign b mem_cons_self]
  · simp [hb]

/-! ### One inode and the others -/

theorem blocksOf_perm (hx : xs[i]? = some x) :
    (blocksOf xs).Perm (x.desc.blocks ++ blocksOf (xs.eraseIdx i)) := by
  obtain ⟨hlt, rfl⟩ := List.getElem?_eq_some_iff.1 hx
  exact (List.getElem_cons_eraseIdx_perm hlt).symm.flatMap_right _

theorem Owned.held (h : Owned base v) (hx : v.inodes[i]? = some x) :
    Held base v.inodes i x x.desc.blocks v := by
  obtain ⟨hlt, rfl⟩ := List.getElem?_eq_some_iff.1 hx
  exact ⟨hlt, (List.set_getElem_self hlt).symm, h.owns.perm (blocksOf_perm hx)⟩

theorem Held.getElem? (h : Held base xs i x ds v) : v.inodes[i]? = some x := by
  rw [h.inodes, getElem?_set_self h.lt]

/-- The object of the inode is replaced. -/
theorem Held.set (h : Held base xs i x ds v) (y : Inode) :
    Held base xs i y ds { v with inodes := v.inodes.set i y } :=
  ⟨h.lt, by simp only [h.inodes, set_set], h.owns⟩

theorem Held.owned (h : Held base xs i x ds v) (hds : ds = x.desc.blocks)
    (ha : ∀ y ∈ xs, pageSize ∣ y.pageCache.size) (hx : pageSize ∣ x.pageCache.size) :
    Owned base v := by
  subst hds
  refine ⟨h.owns.perm ?_, fun y hy => ?_⟩
  · have hperm := blocksOf_perm h.getElem?
    rw [h.inodes, eraseIdx_set_eq] at hperm
    rw [blocks, h.inodes]
    exact hperm.symm
  · rw [h.inodes] at hy
    rcases mem_or_eq_of_mem_set hy with hy | rfl
    · exact ha y hy
    · exact hx

/-- Another object in place of an inode, with the same blocks. -/
theorem Owned.set (h : Owned base v) (hx : v.inodes[i]? = some x)
    (hb : y.desc.blocks = x.desc.blocks) (ha : pageSize ∣ y.pageCache.size) :
    Owned base { v with inodes := v.inodes.set i y } := by
  exact ((h.held hx).set y).owned hb.symm h.aligned ha

/-! ### Resizing -/

/-- What a resize keeps of the inode. -/
def SameKind (x y : Inode) : Prop := y.desc.type = x.desc.type ∧ y.pageCache = x.pageCache

theorem growBlock_held : Triple
    (fun v : Volume n => ∃ y, Held base xs i y (y.desc.data.take k) v ∧ SameKind x y)
    (growBlock i k)
    fun _ v => ∃ y, Held base xs i y (y.desc.data.take (k + 1)) v ∧ SameKind x y := by
  rintro v u v' ⟨y, h, hkind⟩ hrun
  simp only [growBlock, bind_ok, liftR_ok, debugAssert_ok, inode_ok, modifyDesc_ok] at hrun
  obtain ⟨-, _, ⟨hk, rfl⟩, y', _, ⟨hy', rfl⟩, bid, v1, halloc, z, hz, rfl⟩ := hrun
  obtain ⟨g', fs, hfs, rfl⟩ := allocBlock_ok halloc
  rw [h.getElem?] at hz
  obtain rfl := Option.some.inj hz
  have hlen : k < y.desc.data.length := by
    rw [y.desc.length_data]
    exact hk.trans (by decide)
  refine ⟨{ y with desc := y.desc.setData k bid, dirty := true },
    ⟨h.lt, ?_, (h.owns.alloc hfs).perm ?_⟩, hkind⟩
  · simp only [h.inodes, set_set]
  · have htake : (y.desc.data.set k bid).take (k + 1) = y.desc.data.take k ++ [bid] := by
      rw [take_add_one, take_set_of_le (le_refl k), getElem?_set_self hlen]
      rfl
    change (bid :: (y.desc.data.take k ++ _)).Perm ((y.desc.data.set k bid).take (k + 1) ++ _)
    rw [htake, append_assoc]
    exact perm_middle.symm

theorem shrinkBlock_held {m : ℕ} (hkm : k < m) : Triple
    (fun v : Volume n => Held base xs i x (ds ++ (x.desc.data.take m).drop k) v)
    (shrinkBlock i k)
    fun _ v => Held base xs i x (ds ++ (x.desc.data.take m).drop (k + 1)) v := by
  rintro v u v' h hrun
  simp only [shrinkBlock, bind_ok, liftR_ok, inode_ok, index_ok] at hrun
  obtain ⟨-, _, ⟨-, rfl⟩, x', _, ⟨hx', rfl⟩, bid, _, ⟨hbid, rfl⟩, hfree⟩ := hrun
  obtain ⟨fs, hfs, rfl⟩ := freeBlock_ok hfree
  rw [h.getElem?] at hx'
  obtain rfl := Option.some.inj hx'
  obtain ⟨hlt, rfl⟩ := List.getElem?_eq_some_iff.1 hbid
  have hdrop : (x.desc.data.take m).drop k =
      x.desc.data[k] :: (x.desc.data.take m).drop (k + 1) := by
    rw [drop_eq_getElem_cons (by rw [length_take]; omega), getElem_take]
  refine ⟨h.lt, h.inodes, Owns.free (h.owns.perm ?_) hfs⟩
  rw [hdrop, append_assoc, append_assoc]
  exact perm_middle

/-- The loops of a resize: afterwards the inode holds as many blocks as asked for. -/
theorem changeBlocks_held {old new : ℕ} : Triple
    (fun v : Volume n => Held base xs i x (x.desc.data.take old) v)
    (changeBlocks i old new)
    fun _ v => ∃ y, Held base xs i y (y.desc.data.take new) v ∧ SameKind x y ∧
      (y.desc.blocksCount = new ∨ old = new ∧ y.desc.blocksCount = x.desc.blocksCount) := by
  unfold changeBlocks
  split_ifs with hlt hgt
  · refine bind (M := fun _ v => ∃ y, Held base xs i y (y.desc.data.take new) v ∧
      SameKind x y) ?_ fun _ => ?_
    · have hloop := forM_range' (m := old) (k := new - old)
        (I := fun j (v : Volume n) => ∃ y, Held base xs i y (y.desc.data.take j) v ∧ SameKind x y)
        fun j _ _ => growBlock_held
      rw [show old + (new - old) = new by omega] at hloop
      exact hloop.weaken (fun v hv => ⟨x, hv, rfl, rfl⟩) fun _ _ hv => hv
    · rintro v u v' ⟨y, h, hkind⟩ hrun
      obtain ⟨z, hz, rfl⟩ := modifyDesc_ok.1 hrun
      rw [h.getElem?] at hz
      obtain rfl := Option.some.inj hz
      exact ⟨{ y with desc := { y.desc with blocksCount := new }, dirty := true }, h.set _, hkind,
        .inl rfl⟩
  · refine bind (M := fun _ v => Held base xs i x (x.desc.data.take new) v) ?_ fun _ => ?_
    · have hloop := forM_range' (m := new) (k := old - new) (I := fun j (v : Volume n) =>
          Held base xs i x (x.desc.data.take new ++ (x.desc.data.take old).drop j) v)
        fun j _ hj => shrinkBlock_held (by omega)
      refine hloop.weaken (fun v hv => ?_) fun _ v hv => ?_
      · have hsplit : x.desc.data.take new = (x.desc.data.take old).take new := by
          rw [take_take, Nat.min_eq_left hgt.le]
        rw [hsplit, take_append_drop]
        exact hv
      · have hnil : (x.desc.data.take old).drop (new + (old - new)) = [] := by
          refine drop_eq_nil_of_le ((length_take_le _ _).trans ?_)
          omega
        rw [hnil, append_nil] at hv
        exact hv
    · rintro v u v' h hrun
      obtain ⟨z, hz, rfl⟩ := modifyDesc_ok.1 hrun
      rw [h.getElem?] at hz
      obtain rfl := Option.some.inj hz
      exact ⟨{ x with desc := { x.desc with blocksCount := new }, dirty := true }, h.set _,
        ⟨rfl, rfl⟩, .inl rfl⟩
  · obtain rfl : old = new := by omega
    exact pure fun v hv => ⟨x, hv, ⟨rfl, rfl⟩, .inr ⟨rfl, rfl⟩⟩

/-- `InodeImpl_::resize`.  The sizes of directories are whole blocks. -/
theorem resizeImpl_set {u : Unit} (h : Owned base v) (hx : v.inodes[i]? = some x)
    (hdir : x.desc.type = .dir → blockSize ∣ newSize) (hrun : resizeImpl i newSize v = .ok u v') :
    Owned base v' ∧ ∃ y, v'.inodes = v.inodes.set i y ∧ SameKind x y ∧ y.desc.size = newSize ∧
      y.desc.realBlocks = x.desc.blocksFor newSize := by
  obtain ⟨v1, z, hchange, hz, rfl⟩ := resizeImpl_ok hx hrun
  obtain ⟨y, hheld, ⟨htype, hpages⟩, hcount⟩ := changeBlocks_held v _ v1 (h.held hx) hchange
  obtain rfl := Option.mem_unique hheld.getElem? hz
  have hblocks : ({ y.desc with size := newSize } : InodeDesc).realBlocks =
      x.desc.blocksFor newSize := by
    simp only [realBlocks, blocksFor, htype]
    by_cases hd : x.desc.type = .dir
    · obtain ⟨m, rfl⟩ := hdir hd
      have hceil : (blockSize * m + (blockSize - 1)) / blockSize = blockSize * m / blockSize := by
        unfold blockSize
        omega
      rw [if_pos hd, if_neg (by simp [hd]), hceil]
    · rw [if_neg hd]
      rcases hcount with hcount | ⟨hsame, hcount⟩
      · rw [hcount, blocksFor]
      · rw [hcount]
        rw [realBlocks, if_neg hd] at hsame
        exact hsame
  have haligned : pageSize ∣ y.pageCache.size := hpages ▸ h.aligned x (mem_of_getElem? hx)
  have hset := hheld.set { y with desc := { y.desc with size := newSize }, dirty := true }
  exact ⟨hset.owned (by rw [InodeDesc.blocks, hblocks]) h.aligned haligned, _, hset.inodes,
    ⟨htype, hpages⟩, rfl, hblocks⟩

theorem resizeImpl_owned : Triple
    (fun v : Volume n => Owned base v ∧
      ∀ x, v.inodes[i]? = some x → x.desc.type = .dir → blockSize ∣ newSize)
    (resizeImpl i newSize) fun _ => Owned base := by
  rintro v u v' ⟨h, hdir⟩ hrun
  obtain ⟨x, _, hinode, -⟩ := bind_ok.1 hrun
  obtain ⟨hx, -⟩ := inode_ok.1 hinode
  exact (resizeImpl_set h hx (hdir x hx) hrun).1

theorem resizeImpl_owned_of_dvd (hdvd : pageSize ∣ newSize) :
    Triple (Owned base) (resizeImpl i newSize : FsM n Unit) fun _ => Owned base :=
  resizeImpl_owned.weaken (fun _ h => ⟨h, fun _ _ _ => hdvd⟩) fun _ _ h => h

/-! ### The other changes -/

theorem setPages_owned (hdvd : pageSize ∣ c.size) :
    Triple (Owned base) (setPages i c : FsM n Unit) fun _ => Owned base := by
  intro v u v' h hrun
  obtain ⟨x, hx, rfl⟩ := setPages_ok.1 hrun
  exact h.set hx rfl hdvd

theorem modifyDesc_owned {f : InodeDesc → InodeDesc} (hf : ∀ d, (f d).blocks = d.blocks) :
    Triple (Owned base) (modifyDesc i f : FsM n Unit) fun _ => Owned base := by
  intro v u v' h hrun
  obtain ⟨x, hx, rfl⟩ := modifyDesc_ok.1 hrun
  exact h.set hx (hf x.desc) (h.aligned x (mem_of_getElem? hx))

theorem incHardLinks_owned :
    Triple (Owned base) (incHardLinks i : FsM n Unit) fun _ => Owned base :=
  (readOnly_inode i).triple.bind fun _ =>
    (readOnly_liftR _).triple.bind fun _ => modifyDesc_owned fun _ => rfl

theorem decHardLinks_owned :
    Triple (Owned base) (decHardLinks i : FsM n Unit) fun _ => Owned base :=
  (readOnly_inode i).triple.bind fun _ =>
    (readOnly_liftR _).triple.bind fun _ => modifyDesc_owned fun _ => rfl

/-- The block bitmaps are as they were. -/
theorem Owns.of_blocks_eq (h : Owns base fs bs) (hs : fs'.Sized)
    (heq : ∀ b, fs'.Allocated .block b ↔ fs.Allocated .block b) : Owns base fs' bs where
  sized := hs
  nodup := h.nodup
  allocated b := (heq b).trans (h.allocated b)
  foreign := h.foreign

theorem createInode_owned {perm : ℕ} :
    Triple (Owned base) (createInode g type perm : FsM n ℕ) fun _ => Owned base := by
  intro v j v' h hrun
  obtain ⟨g', ino, fs, halloc, -, rfl⟩ := createInode_ok hrun
  obtain ⟨idx, -, hbit, -⟩ := Ext2.alloc_setBit halloc
  have hnone : (new type perm).realBlocks = 0 := by
    simp [realBlocks, new]
  refine ⟨?_, fun x hx => ?_⟩
  · have hblocks :
        blocksOf (v.inodes ++ [⟨ino, g', .new type perm, true, false, ⟨0, fun _ => 0⟩⟩]) =
          v.blocks := by
      rw [blocksOf, flatMap_append, flatMap_singleton, InodeDesc.blocks, hnone,
        take_zero, append_nil]
      rfl
    rw [blocks, hblocks]
    exact h.owns.of_blocks_eq (hbit.sized h.owns.sized) fun b => hbit.allocated_of_ne (by simp)
  · rcases mem_append.1 hx with hx | hx
    · exact h.aligned x hx
    · rw [mem_singleton.1 hx]
      exact Nat.dvd_zero _

theorem freeInode_owned {ino : ℕ} {isDir : Bool} :
    Triple (Owned base) (freeInode ino isDir : FsM n Unit) fun _ => Owned base := by
  intro v u v' h hrun
  obtain ⟨fs, hfree, rfl⟩ := freeInode_ok hrun
  obtain ⟨p, -, hbit⟩ := Ext2.free_setBit hfree
  exact ⟨h.owns.of_blocks_eq (hbit.sized h.owns.sized) fun b => hbit.allocated_of_ne nofun,
    h.aligned⟩

/-! ### Page caches -/

section Pages

variable {c' : PageCache} {e : DirEntry}

theorem dvd_size_resize (h : c.resize newSize = .ok c') : pageSize ∣ c'.size := by
  simp only [PageCache.resize, Result.bind_ok, Result.pure_ok] at h
  obtain ⟨size, halign, rfl⟩ := h
  exact dvd_of_alignUp halign

theorem size_writeBytes {bs : List UInt8} (h : c.writeBytes o bs = .ok c') : c'.size = c.size := by
  simp only [PageCache.writeBytes, Result.bind_ok, Result.pure_ok] at h
  obtain ⟨-, -, rfl⟩ := h
  rfl

theorem size_writeEntry (h : c.writeEntry o e = .ok c') : c'.size = c.size := by
  obtain ⟨c1, h1, h⟩ := Result.bind_ok.1 h
  rw [size_writeBytes h, size_writeBytes h1]

theorem dvd_size_appendEntry (hdvd : pageSize ∣ c.size) (h : c.appendEntry o e = .ok c') :
    pageSize ∣ c'.size := by
  obtain ⟨_ | ⟨o', e'⟩, -, h⟩ := Result.bind_ok.1 h
  · obtain ⟨c1, hresize, h⟩ := Result.bind_ok.1 h
    obtain ⟨_, -, h⟩ := Result.bind_ok.1 h
    rw [size_writeEntry h]
    exact dvd_size_resize hresize
  · simp only [Result.bind_ok] at h
    obtain ⟨_, -, _, -, _, -, c1, h1, h⟩ := h
    rw [size_writeEntry h, size_writeEntry h1]
    exact hdvd

theorem dvd_size_removeEntry (hdvd : pageSize ∣ c.size) (h : c.removeEntry name = .ok (e, c')) :
    pageSize ∣ c'.size := by
  obtain ⟨ps, -, h⟩ := Result.bind_ok.1 h
  split at h
  · cases h
  · split_ifs at h
    · simp only [Result.bind_ok] at h
      obtain ⟨_, -, c1, hresize, _, -, c2, hwrite, -, rfl⟩ := h
      rw [size_writeEntry hwrite]
      exact dvd_size_resize hresize
    · simp only [Result.bind_ok] at h
      obtain ⟨_, -, c2, hwrite, -, rfl⟩ := h
      rw [size_writeEntry hwrite]
      exact hdvd

theorem dvd_size_renameEntry (hdvd : pageSize ∣ c.size)
    (h : c.renameEntry o oldName newName = .ok c') : pageSize ∣ c'.size := by
  unfold PageCache.renameEntry at h
  split at h
  · cases h
  · obtain ⟨type, -, h⟩ := Result.bind_ok.1 h
    obtain ⟨new, -, h⟩ := Result.bind_ok.1 h
    split_ifs at h
    · obtain ⟨_, -, h⟩ := Result.bind_ok.1 h
      rw [size_writeEntry h]
      exact hdvd
    · obtain ⟨⟨_, c1⟩, hremove, h⟩ := Result.bind_ok.1 h
      exact dvd_size_appendEntry (dvd_size_removeEntry hdvd hremove) h

end Pages

/-! ### Operations -/

theorem inode_owned : Triple (Owned base) (inode i : FsM n Inode)
    fun x v => pageSize ∣ x.pageCache.size ∧ Owned base v := by
  intro v x v' h hrun
  obtain ⟨hx, rfl⟩ := inode_ok.1 hrun
  exact ⟨h.aligned x (mem_of_getElem? hx), h⟩

theorem appendEntry_owned {e : DirEntry} :
    Triple (Owned base) (appendEntry i e o : FsM n Unit) fun _ => Owned base := by
  refine (readOnly_liftR _).triple.bind fun type => ?_
  refine inode_owned.bind fun x => .intro fun hx => liftR_triple.bind fun c => .intro fun hc => ?_
  have hdvd := dvd_size_appendEntry hx hc
  exact (setPages_owned hdvd).bind fun _ =>
    (onlyIf_triple fun _ => resizeImpl_owned_of_dvd hdvd).bind fun _ =>
      onlyIf_triple fun _ => incHardLinks_owned

theorem removeEntry_owned :
    Triple (Owned base) (removeEntry i name : FsM n Unit) fun _ => Owned base := by
  refine inode_owned.bind fun x => .intro fun hx => liftR_triple.bind fun r => .intro fun hr => ?_
  have hdvd := dvd_size_removeEntry hx hr
  exact (setPages_owned hdvd).bind fun _ => (readOnly_liftR _).triple.bind fun type =>
    (onlyIf_triple fun _ => resizeImpl_owned_of_dvd hdvd).bind fun _ =>
      onlyIf_triple fun _ => decHardLinks_owned

theorem renameEntry_owned :
    Triple (Owned base) (renameEntry i oldName newName o : FsM n Unit) fun _ => Owned base := by
  refine inode_owned.bind fun x => .intro fun hx => liftR_triple.bind fun c => .intro fun hc => ?_
  have hdvd := dvd_size_renameEntry hx hc
  exact (setPages_owned hdvd).bind fun _ => onlyIf_triple fun _ => resizeImpl_owned_of_dvd hdvd

theorem setParentIno_owned {parentIno : ℕ} :
    Triple (Owned base) (setParentIno i parentIno : FsM n Unit) fun _ => Owned base := by
  refine inode_owned.bind fun x => .intro fun hx => (readOnly_liftR _).triple.bind fun p => ?_
  refine liftR_triple.bind fun c => .intro fun hc => setPages_owned ?_
  rw [size_writeEntry hc]
  exact hx

theorem init_owned {dirIno : ℕ} :
    Triple (Owned base) (init i dirIno : FsM n Unit) fun _ => Owned base :=
  (readOnly_inode i).triple.bind fun _ => onlyIf_triple fun _ =>
    (readOnly_liftR _).triple.bind fun _ => appendEntry_owned.bind fun _ =>
      (readOnly_liftR _).triple.bind fun _ => appendEntry_owned

theorem create_owned {perm : ℕ} :
    Triple (Owned base) (create i name type perm : FsM n ℕ) fun _ => Owned base :=
  (readOnly_liveDir i).triple.bind fun _ => (readOnly_checkName name).triple.bind fun _ =>
    (readOnly_failIf _).triple.bind fun _ => createInode_owned.bind fun _ =>
      (readOnly_inode _).triple.bind fun _ => (onErr_triple init_owned).bind fun _ =>
        (readOnly_liftR _).triple.bind fun _ => (onErr_triple appendEntry_owned).bind fun _ =>
          .pure fun _ h => h

theorem upheld_owned : Upheld (n := n) (Owned base) (fun _ _ => True) fun _ => True where
  fails _ _ _ := trivial
  linked _ _ _ _ _ _ := trivial
  cached _ _ _ _ _ := trivial
  appendEntry _ := appendEntry_owned.contract
  removeEntry _ := removeEntry_owned.contract
  renameEntry _ := renameEntry_owned.contract
  setParentIno := setParentIno_owned.contract
  incHardLinks _ := incHardLinks_owned.contract
  decHardLinks _ := decHardLinks_owned.contract

/-! ### Operations on files -/

/-- The inode `i` is no directory. -/
def FileOwned (base : ℕ → Prop) (i : ℕ) (v : Volume n) : Prop :=
  Owned base v ∧ ∀ x, v.inodes[i]? = some x → x.desc.type ≠ .dir

/-- The start of an operation on a file. -/
theorem file_owned {β : Type} {f : Inode → FsM n β} {Q : β → Volume n → Prop}
    (hf : ∀ x, Triple (FileOwned base i) (f x) Q) : Triple (Owned base) (do
      let x ← inode i
      failIf (x.desc.type ≠ .file) (returnErrno .eisdir)
      f x : FsM n β) Q := by
  intro v b v' h hrun
  obtain ⟨x, _, hinode, hrun⟩ := bind_ok.1 hrun
  obtain ⟨hx, rfl⟩ := inode_ok.1 hinode
  obtain ⟨_, _, hfail, hrun⟩ := bind_ok.1 hrun
  obtain ⟨htype, rfl⟩ := failIf_returnErrno_ok.1 hfail
  refine hf x v b v' ⟨h, fun x' hx' => ?_⟩ hrun
  rw [hx] at hx'
  obtain rfl := Option.some.inj hx'
  rw [not_not.1 htype]
  nofun

theorem setPages_file (hdvd : pageSize ∣ c.size) :
    Triple (FileOwned base i) (setPages i c : FsM n Unit) fun _ => FileOwned base i := by
  intro v u v' h hrun
  refine ⟨setPages_owned hdvd v u v' h.1 hrun, fun y hy => ?_⟩
  obtain ⟨x, hx, rfl⟩ := setPages_ok.1 hrun
  have hlt := (List.getElem?_eq_some_iff.1 hx).1
  rw [List.getElem?_set_self hlt] at hy
  obtain rfl := Option.some.inj hy
  exact h.2 x hx

theorem resizePages_file :
    Triple (FileOwned base i) (resizePages i newSize : FsM n Unit) fun _ => FileOwned base i :=
  (readOnly_inode i).triple.bind fun _ => liftR_triple.bind fun _ => .intro fun hc =>
    setPages_file (dvd_size_resize hc)

theorem inode_file : Triple (FileOwned base i) (inode i : FsM n Inode)
    fun x v => pageSize ∣ x.pageCache.size ∧ FileOwned base i v := by
  intro v x v' h hrun
  obtain ⟨hx, rfl⟩ := inode_ok.1 hrun
  exact ⟨h.1.aligned x (mem_of_getElem? hx), h⟩

theorem writePages_file :
    Triple (FileOwned base i) (writePages i o buf : FsM n Unit) fun _ => FileOwned base i := by
  refine inode_file.bind fun x => .intro fun hx => liftR_triple.bind fun c => .intro fun hc => ?_
  refine setPages_file ?_
  rw [size_writeBytes hc]
  exact hx

theorem resizeImpl_file :
    Triple (FileOwned base i) (resizeImpl i newSize : FsM n Unit) fun _ => Owned base :=
  resizeImpl_owned.weaken (fun _ h => ⟨h.1, fun x hx hdir => absurd hdir (h.2 x hx)⟩) fun _ _ h => h

theorem resizeInner_file :
    Triple (FileOwned base i) (resizeInner i newSize : FsM n Unit) fun _ => Owned base :=
  resizePages_file.bind fun _ => resizeImpl_file

theorem onlyIf_resizeInner_file {c : Prop} [Decidable c] :
    Triple (FileOwned base i) (onlyIf c (resizeInner i newSize) : FsM n Unit)
      fun _ => Owned base := by
  unfold onlyIf
  split_ifs
  · exact resizeInner_file
  · exact .pure fun _ h => h.1

theorem resize_owned : Triple (Owned base) (resize i newSize : FsM n Unit) fun _ => Owned base :=
  file_owned fun _ => onlyIf_resizeInner_file

theorem writeAt_owned : Triple (Owned base) (writeAt i o buf : FsM n ℕ) fun _ => Owned base := by
  refine file_owned fun x => (readOnly_liftR _).triple.bind fun newSize => ?_
  refine bind (M := fun _ => Owned base) ?_ fun _ => .pure fun _ h => h
  split_ifs
  · exact (readOnly_liftR _).triple.bind fun _ => resizePages_file.bind fun _ =>
      writePages_file.bind fun _ => resizeImpl_file
  · exact writePages_file.weaken (fun _ h => h) fun _ _ h => h.1

theorem writeBlock_owned {block : List UInt8} :
    Triple (Owned base) (writeBlock i bid block : FsM n Unit) fun _ => Owned base :=
  inode_owned.bind fun _ => .intro fun hx => (readOnly_liftR _).triple.bind fun _ =>
    (readOnly_failIf _).triple.bind fun _ => (readOnly_liftR _).triple.bind fun _ =>
      setPages_owned hx

theorem writeDirectAt_owned :
    Triple (Owned base) (writeDirectAt i o buf : FsM n ℕ) fun _ => Owned base := by
  refine file_owned fun x => (readOnly_failIf _).triple.bind fun _ => ?_
  refine bind (M := fun _ => Owned base) ?_ fun _ => .pure fun _ h => h
  exact (readOnly_inode i).triple.bind fun _ => (readOnly_liftR _).triple.bind fun _ =>
    onlyIf_resizeInner_file.bind fun _ => forM fun _ _ => writeBlock_owned

theorem releaseIno_owned : Triple (Owned base) (releaseIno i : FsM n Unit) fun _ => Owned base := by
  intro v u v' h hrun
  simp only [releaseIno, bind_ok, inode_ok, onlyIf_ok, setInode_ok] at hrun
  obtain ⟨x, _, ⟨hx, rfl⟩, ⟨-, u1, v1, hfree, rfl⟩ | ⟨-, rfl⟩⟩ := hrun
  · have h1 := freeInode_owned v u1 v1 h hfree
    obtain ⟨fs, -, rfl⟩ := freeInode_ok hfree
    exact h1.set hx rfl (h.aligned x (mem_of_getElem? hx))
  · exact h

theorem writeBack_owned : Triple (Owned base) (writeBack i : FsM n Unit) fun _ => Owned base := by
  intro v u v' h hrun
  simp only [writeBack, bind_ok, inode_ok, setInode_ok] at hrun
  obtain ⟨x, _, ⟨hx, rfl⟩, u1, v1, hsync, rfl⟩ := hrun
  obtain rfl := syncInode_ok hsync
  have h1 : Owned base { v with rawInodes := Function.update v.rawInodes x.ino (.ofDesc x.desc) } :=
    ⟨h.owns, h.aligned⟩
  exact h1.set hx rfl (h.aligned x (mem_of_getElem? hx))

theorem syncMetadata_owned :
    Triple (Owned base) (syncMetadata i : FsM n Unit) fun _ => Owned base := by
  refine (readOnly_inode i).triple.bind fun x => onlyIf_triple fun _ => ?_
  refine (onlyIf_triple fun _ => ?_).bind fun _ => writeBack_owned
  exact (resizeImpl_owned_of_dvd (Nat.dvd_zero _)).bind fun _ => releaseIno_owned

/-- Every operation keeps the blocks owned. -/
theorem run_owned (op : InodeOp) :
    Triple (Owned base) (op.run : FsM n Unit) fun _ => Owned base := by
  cases op with
  | create => exact create_owned.bind fun _ => .pure fun _ h => h
  | link => exact (upheld_owned.link trivial).triple
  | unlink => exact upheld_owned.unlink.triple
  | rmdir => exact upheld_owned.rmdir.triple
  | rename => exact upheld_owned.rename.triple
  | resize => exact resize_owned
  | writeAt => exact writeAt_owned.bind fun _ => .pure fun _ h => h
  | writeDirectAt => exact writeDirectAt_owned.bind fun _ => .pure fun _ h => h
  | setFilePerm i perm => exact (modifyDesc_owned fun _ => rfl : Triple _ (setFilePerm i perm) _)
  | setAtime i time => exact (modifyDesc_owned fun _ => rfl : Triple _ (setAtime i time) _)
  | setMtime i time => exact (modifyDesc_owned fun _ => rfl : Triple _ (setMtime i time) _)
  | syncMetadata => exact syncMetadata_owned

/-- A consistent image: the blocks of all inodes are distinct and allocated. -/
structure Consistent (v : Volume n) : Prop where
  sized : v.fs.Sized
  aligned : ∀ x ∈ v.inodes, pageSize ∣ x.pageCache.size
  nodup : v.blocks.Nodup
  allocated : ∀ b ∈ v.blocks, v.fs.Allocated .block b

/-- The blocks that are allocated and belong to no inode. -/
def Foreign (v : Volume n) (b : ℕ) : Prop := v.fs.Allocated .block b ∧ b ∉ v.blocks

theorem Consistent.owned (h : v.Consistent) : Owned v.Foreign v := by
  refine ⟨⟨h.sized, h.nodup, fun b => ?_, fun b hb hforeign => hforeign.2 hb⟩, h.aligned⟩
  by_cases hb : b ∈ v.blocks
  · simp [hb, h.allocated b hb]
  · simp [hb, Foreign]

/-- **No block is shared, leaked or freed while an inode refers to it.**  From a consistent image,
in every state reached by successful operations on inodes, the blocks `data[0..blocks_count]` of all
inodes are pairwise distinct and are all marked as allocated, and the blocks that are allocated and
belong to no inode are those of the image. -/
theorem blocks_owned {v₀ v : Volume n} (h₀ : v₀.Consistent) (hr : (opLts n).Reachable v₀ v) :
    v.blocks.Nodup ∧ (∀ b ∈ v.blocks, v.fs.Allocated .block b) ∧
      ∀ b, v.Foreign b ↔ v₀.Foreign b := by
  have h : Owned v₀.Foreign v :=
    hr.invariant h₀.owned fun v op v' h hstep => run_owned op v () v' h (opStep_eq_some.1 hstep)
  refine ⟨h.owns.nodup, fun b hb => (h.owns.allocated b).2 (.inl hb), fun b => ?_⟩
  rw [Foreign, h.owns.allocated]
  constructor
  · rintro ⟨hb | hb, hnot⟩
    · exact absurd hb hnot
    · exact hb
  · exact fun hb => ⟨.inr hb, fun hmem => h.owns.foreign b hmem hb⟩

/-! ### Calls that fail -/

section Failed

variable {e : Error} {β : Type} {f : Unit → FsM n β} (hx : v.inodes[i]? = some x)

include hx

variable (htype : x.desc.type = .file)
  (hpages : x.pageCache.size = x.desc.blocksCount * blockSize)
  (hcount : x.desc.blocksCount < u32Bound)

include htype hpages hcount

end Failed

/-- A file with one block, the block 2. -/
def oneBlockFile : Inode where
  ino := 3
  blockGroupIdx := 0
  desc := { (new .file 0o644).setData 0 2 with size := 100, blocksCount := 1 }
  dirty := false
  isFreed := false
  pageCache := ⟨4096, fun _ => 0⟩

/-- A group of eight blocks and eight inodes; the first three of each are allocated. -/
def oneGroup : Ext2 1 where
  perGroup := fun _ => 8
  groups := fun _ => ⟨fun _ => .ofBits [true, true, true, false, false, false, false, false],
    fun _ => 5, 0⟩
  superBlock := fun _ => 5

/-- A volume with this file. -/
def oneFileVolume : Volume 1 where
  fs := oneGroup
  inodes := [oneBlockFile]
  cache := fun ino => if ino = 3 then some 0 else none
  rawInodes := fun _ => .ofDesc oneBlockFile.desc

theorem oneFileVolume_consistent : oneFileVolume.Consistent where
  sized _ _ := rfl
  aligned x hx := by
    rw [mem_singleton.1 hx]
    decide
  nodup := by decide
  allocated b hb := by
    obtain rfl : b = 2 := mem_singleton.1 hb
    exact ⟨by decide, ((0 : Fin 1), 2), rfl, rfl⟩

/-- The file grows to three blocks, shrinks to two and is written. -/
theorem blocks_owned_resize :
    ∃ v, (opLts 1).Reachable oneFileVolume v ∧ v.blocks = [2, 3] ∧ v.blocks.Nodup ∧
      (∀ b ∈ v.blocks, v.fs.Allocated .block b) ∧ ∀ b, v.Foreign b ↔ oneFileVolume.Foreign b := by
  obtain ⟨v, hr, hblocks⟩ := Lts.exists_run opStep oneFileVolume
    [.resize 0 9000, .resize 0 5000, .writeAt 0 10 [1, 2, 3]] (fun v => v.blocks = [2, 3])
    (by decide +kernel)
  exact ⟨v, hr, hblocks, blocks_owned oneFileVolume_consistent hr⟩

/-- The free blocks, and the size, the number of blocks and the page cache of each file, when a call
has returned an error. -/
def failed (z : FsM 1 Unit) (v : Volume 1) : Option (ℕ × List (ℕ × ℕ × ℕ)) :=
  match z v with
  | .error (.err _) v => some (v.fs.superBlock .block, v.inodes.map fun y =>
      (y.desc.size, y.desc.blocksCount, y.pageCache.size))
  | _ => none

end Volume

end Jinux
