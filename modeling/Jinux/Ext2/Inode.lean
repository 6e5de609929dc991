import Jinux.Ext2.Dir
import Jinux.Lib.StateRules

/-!
# Inodes

An `Inode` object holds a descriptor, which is written back to a slot of the inode table when it is
dirty, and a page cache.  Objects outlive their names: a process that has a file open keeps the
object after the last entry of the file is removed.  `sync_metadata` frees the number of such an
inode; the number can then be given to a new file while the old object still exists.

* `Volume` : a mounted file system, with all of its `Inode` objects, which are never forgotten, so
  that a handle is an index; `cache` is the inode cache of all groups.  An inode that is not loaded
  yet is in the model from the start, as the object that `load_inode` makes of its slot.  So a
  number that is not in the cache has a slot that is no inode.
* `FsM` : a call on a volume.  The state survives a failed call, except that a failed call of the
  allocator or of the directory writer leaves the groups and the page cache as they were.
* Calls are taken one after the other.  The content of a file is what its page cache shows, so that
  writing back and evicting pages are no steps.
-/

namespace Jinux

open Function List

/-- `BLOCK_PTR_CNT` -/
def blockPtrCnt : ℕ := 15

/-- `FAST_SYMLINK_MAX_LEN` -/
def fastSymlinkMaxLen : ℕ := blockPtrCnt * 4

/-- The end of `field::DIRECT`. -/
def directEnd : ℕ := 12

/-- The file type as the high bits of a mode. -/
def FileType.rawMode : FileType → ℕ
  | .fifo => 0x1000
  | .char => 0x2000
  | .dir => 0x4000
  | .block => 0x6000
  | .file => 0x8000
  | .symlink => 0xa000
  | .socket => 0xc000

/-- `FileType::from_raw_mode` -/
def FileType.fromRawMode (mode : ℕ) : Result FileType :=
  match mode &&& 0o170000 with
  | 0o010000 => .ok .fifo
  | 0o020000 => .ok .char
  | 0o040000 => .ok .dir
  | 0o060000 => .ok .block
  | 0o100000 => .ok .file
  | 0o120000 => .ok .symlink
  | 0o140000 => .ok .socket
  | _ => returnErrnoWithMessage .einval "invalid file type"

/-- `InodeDesc`.  Times are in nanoseconds. -/
structure InodeDesc where
  type : FileType
  perm : ℕ
  /-- The size, in bytes. -/
  size : ℕ
  atime : ℕ
  mtime : ℕ
  hardLinks : ℕ
  /-- The field `blocks_count`. -/
  blocksCount : ℕ
  /-- The pointers to blocks. -/
  data : List ℕ
  length_data : data.length = blockPtrCnt
  deriving DecidableEq

namespace InodeDesc

/-- `InodeDesc::new` -/
def new (type : FileType) (perm : ℕ) : InodeDesc where
  type := type
  perm := perm
  size := 0
  atime := 0
  mtime := 0
  hardLinks := 1
  blocksCount := 0
  data := replicate blockPtrCnt 0
  length_data := length_replicate

/-- What `InodeDesc::blocks_count` returns. -/
def realBlocks (d : InodeDesc) : ℕ :=
  if d.type = .dir then d.size / blockSize % u32Bound else d.blocksCount

/-- `InodeDesc::blocks_count` -/
def numBlocks (d : InodeDesc) : Result ℕ := do
  assert (d.type = .dir → d.realBlocks ≤ d.blocksCount)
  pure d.realBlocks

/-- The number of blocks for a size, in `InodeImpl_::resize`. -/
def blocksFor (d : InodeDesc) (newSize : ℕ) : ℕ :=
  if d.type = .symlink ∧ newSize ≤ fastSymlinkMaxLen then 0
  else (newSize + (blockSize - 1)) / blockSize % u32Bound

/-- `desc.data[k] = bid` -/
def setData (d : InodeDesc) (k bid : ℕ) : InodeDesc :=
  { d with data := d.data.set k bid, length_data := length_set.trans d.length_data }

end InodeDesc

/-- `RawInode`, with the fields of the descriptors above. -/
structure RawInode where
  mode : ℕ
  sizeLow : ℕ
  atime : ℕ
  mtime : ℕ
  hardLinks : ℕ
  blocksCount : ℕ
  data : List ℕ
  deriving DecidableEq

/-- `UnixTime::from`: the seconds, as a `u32`. -/
def unixTime (nanos : ℕ) : ℕ := nanos / 10 ^ 9 % u32Bound

/-- `RawInode::from` -/
def RawInode.ofDesc (d : InodeDesc) : RawInode where
  mode := d.type.rawMode ||| d.perm
  sizeLow := d.size % u32Bound
  atime := unixTime d.atime
  mtime := unixTime d.mtime
  hardLinks := d.hardLinks
  blocksCount := d.blocksCount
  data := d.data

/-- `Inode`, with its `Inner` and `InodeImpl_`. -/
structure Inode where
  ino : ℕ
  blockGroupIdx : ℕ
  desc : InodeDesc
  dirty : Bool
  /-- `is_freed` -/
  isFreed : Bool
  pageCache : PageCache

namespace Inode

/-- `get_entry` -/
def getEntry (x : Inode) (name : List UInt8) (o : ℕ) : Option (ℕ × DirEntry) :=
  (x.pageCache.entries o).find? fun p => p.2.name = name

/-- The inode after a change of its count of hard links. -/
def withLinks (x : Inode) (hardLinks : ℕ) : Inode :=
  { x with desc := { x.desc with hardLinks := hardLinks }, dirty := true }

/-- `entry_count` -/
def entryCount (x : Inode) : ℕ := (x.pageCache.entries 0).length

end Inode

/-- A mounted file system with `n` block groups and its inodes. -/
structure Volume (n : ℕ) where
  fs : Ext2 n
  /-- All `Inode` objects. -/
  inodes : List Inode
  /-- The inode caches: the object of an inode number. -/
  cache : ℕ → Option ℕ
  /-- The slots of the inode tables. -/
  rawInodes : ℕ → RawInode

/-- A call on a file system. -/
abbrev FsM (n : ℕ) := EStateM Fault (Volume n)

namespace Volume

variable {n : ℕ} {P : Volume n → Prop}

/-! ### Control -/

/-- `if c { x }` -/
def onlyIf (c : Prop) [Decidable c] (x : FsM n Unit) : FsM n Unit := if c then x else pure ()

/-- `if c { return_errno!(..) }` -/
def failIf (c : Prop) [Decidable c] (r : Result Unit) : FsM n Unit := onlyIf c (liftR r)

/-- `if let Err(e) = x { h; return Err(e); }` -/
def onErr {α : Type} (x : FsM n α) (h : FsM n Unit) : FsM n α := fun v =>
  match x v with
  | .error (.err e) v' =>
    match h v' with
    | .ok _ v'' => .error (.err e) v''
    | .error f v'' => .error f v''
  | r => r

/-- `x.unwrap()` -/
def unwrapM {α : Type} (x : FsM n α) : FsM n α := fun v =>
  match x v with
  | .error (.err _) v' => .error (.panic .unwrap) v'
  | r => r

/-! ### Objects -/

/-- The object of a handle. -/
def inode (i : ℕ) : FsM n Inode := do liftR (index (← get).inodes i)

/-- Replace the object of a handle. -/
def setInode (i : ℕ) (x : Inode) : FsM n Unit :=
  modify fun v => { v with inodes := v.inodes.set i x }

/-- Replace the page cache, which is no part of the descriptor. -/
def setPages (i : ℕ) (c : PageCache) : FsM n Unit := do
  let x ← inode i
  setInode i { x with pageCache := c }

/-- A change of the descriptor, which makes it dirty. -/
def modifyDesc (i : ℕ) (f : InodeDesc → InodeDesc) : FsM n Unit := do
  let x ← inode i
  setInode i { x with desc := f x.desc, dirty := true }

/-- `inc_hard_links` -/
def incHardLinks (i : ℕ) : FsM n Unit := do
  let x ← inode i
  let hardLinks ← liftR (incCount u16Bound x.desc.hardLinks)
  modifyDesc i fun d => { d with hardLinks := hardLinks }

/-- `dec_hard_links` -/
def decHardLinks (i : ℕ) : FsM n Unit := do
  let x ← inode i
  let hardLinks ← liftR (decCount x.desc.hardLinks)
  modifyDesc i fun d => { d with hardLinks := hardLinks }

/-- `set_file_perm` -/
def setFilePerm (i perm : ℕ) : FsM n Unit := modifyDesc i fun d => { d with perm := perm }

/-- `set_atime` -/
def setAtime (i time : ℕ) : FsM n Unit := modifyDesc i fun d => { d with atime := time }

/-- `set_mtime` -/
def setMtime (i time : ℕ) : FsM n Unit := modifyDesc i fun d => { d with mtime := time }

/-! ### Blocks and inode numbers -/

/-- `Ext2::alloc_block` -/
def allocBlock (g : ℕ) : FsM n ℕ := do
  let v ← get
  let r ← liftR (v.fs.allocBlock g)
  set { v with fs := r.2 }
  pure r.1.2

/-- `Ext2::free_block` -/
def freeBlock (bid : ℕ) : FsM n Unit := do
  let v ← get
  let fs ← liftR (v.fs.freeBlock bid)
  set { v with fs := fs }

/-- `is_inode_allocated` -/
def isInodeAllocated (v : Volume n) (ino : ℕ) : Result Bool := do
  let p ← v.fs.locate .inode ino
  ((v.fs.groups p.1).bitmap .inode).isAllocated p.2

/-- `Ext2::free_inode`, which takes the object out of the cache. -/
def freeInode (ino : ℕ) (isDir : Bool) : FsM n Unit := do
  let v ← get
  let fs ← liftR (v.fs.freeInode ino isDir)
  set { v with fs := fs, cache := update v.cache ino none }

/-- `BlockGroup::insert_cache` -/
def insertCache (ino i : ℕ) : FsM n Unit := do
  let v ← get
  let allocated ← liftR (v.isInodeAllocated ino)
  liftR (assert (allocated = true))
  set { v with cache := update v.cache ino (some i) }

/-- `Ext2::create_inode`: the handle of the new object. -/
def createInode (g : ℕ) (type : FileType) (perm : ℕ) : FsM n ℕ := do
  let v ← get
  let r ← liftR (v.fs.allocIno g (type = .dir))
  let x : Inode := ⟨r.1.2, r.1.1, .new type perm, true, false, ⟨0, fun _ => 0⟩⟩
  set { v with fs := r.2, inodes := v.inodes ++ [x] }
  insertCache r.1.2 v.inodes.length
  pure v.inodes.length

/-- `Ext2::lookup_inode` -/
def lookupInode (ino : ℕ) : FsM n ℕ := do
  let v ← get
  let allocated ← liftR (v.isInodeAllocated ino)
  failIf (allocated = false) (returnErrno .enoent)
  match v.cache ino with
  | some i => pure i
  | none => liftR (returnErrnoWithMessage .einval "invalid file type")

/-- `Ext2::sync_inode` -/
def syncInode (ino : ℕ) (d : InodeDesc) : FsM n Unit := do
  let v ← get
  let _ ← liftR (v.fs.locate .inode ino)
  set { v with rawInodes := update v.rawInodes ino (.ofDesc d) }

/-! ### Sizes -/

/-- A round of the loop of `InodeImpl_::resize` that allocates blocks. -/
def growBlock (i fileBid : ℕ) : FsM n Unit := do
  liftR (debugAssert (fileBid < directEnd))
  let x ← inode i
  let bid ← allocBlock x.blockGroupIdx
  modifyDesc i fun d => d.setData fileBid bid

/-- A round of the loop of `InodeImpl_::resize` that frees blocks. -/
def shrinkBlock (i fileBid : ℕ) : FsM n Unit := do
  liftR (debugAssert (fileBid < directEnd))
  let x ← inode i
  let bid ← liftR (index x.desc.data fileBid)
  freeBlock bid

/-- The match of `InodeImpl_::resize` on the numbers of blocks. -/
def changeBlocks (i oldBlocks newBlocks : ℕ) : FsM n Unit :=
  if oldBlocks < newBlocks then do
    (range' oldBlocks (newBlocks - oldBlocks)).forM (growBlock i)
    modifyDesc i fun d => { d with blocksCount := newBlocks }
  else if newBlocks < oldBlocks then do
    (range' newBlocks (oldBlocks - newBlocks)).forM (shrinkBlock i)
    modifyDesc i fun d => { d with blocksCount := newBlocks }
  else pure ()

/-- `InodeImpl_::resize` -/
def resizeImpl (i newSize : ℕ) : FsM n Unit := do
  let x ← inode i
  let oldBlocks ← liftR x.desc.numBlocks
  changeBlocks i oldBlocks (x.desc.blocksFor newSize)
  modifyDesc i fun d => { d with size := newSize }

/-- `self.page_cache.pages().resize(..)` -/
def resizePages (i newSize : ℕ) : FsM n Unit := do
  let x ← inode i
  let c ← liftR (x.pageCache.resize newSize)
  setPages i c

/-- `self.page_cache.pages().write_bytes(..)` -/
def writePages (i o : ℕ) (buf : List UInt8) : FsM n Unit := do
  let x ← inode i
  let c ← liftR (x.pageCache.writeBytes o buf)
  setPages i c

/-- `Inner::resize` -/
def resizeInner (i newSize : ℕ) : FsM n Unit := do
  resizePages i newSize
  resizeImpl i newSize

/-- `Inode::resize` -/
def resize (i newSize : ℕ) : FsM n Unit := do
  let x ← inode i
  failIf (x.desc.type ≠ .file) (returnErrno .eisdir)
  onlyIf (newSize ≠ x.desc.size) (resizeInner i newSize)

/-- `Inner::extend_write_at` -/
def extendWriteAt (i o : ℕ) (buf : List UInt8) : FsM n Unit := do
  let newSize ← liftR (addUsize o buf.length)
  resizePages i newSize
  writePages i o buf
  resizeImpl i newSize

/-- `Inode::write_at` -/
def writeAt (i o : ℕ) (buf : List UInt8) : FsM n ℕ := do
  let x ← inode i
  failIf (x.desc.type ≠ .file) (returnErrno .eisdir)
  let newSize ← liftR (addUsize o buf.length)
  (if x.desc.size < newSize then extendWriteAt i o buf else writePages i o buf)
  pure buf.length

/-- `InodeImpl_::write_block`, with the bytes of the block. -/
def writeBlock (i bid : ℕ) (block : List UInt8) : FsM n Unit := do
  let x ← inode i
  let blocks ← liftR x.desc.numBlocks
  failIf (blocks ≤ bid % u32Bound) (returnErrno .einval)
  liftR (debugAssert (bid % u32Bound < directEnd))
  setPages i { x.pageCache with bytes := Jinux.writeAt x.pageCache.bytes (bid * blockSize) block }

/-- `Inner::write_direct_at`.  The pages that it decommits are written back first. -/
def writeDirectAtInner (i o : ℕ) (buf : List UInt8) : FsM n Unit := do
  let x ← inode i
  let stop ← liftR (addUsize o buf.length)
  onlyIf (x.desc.size < stop) (resizeInner i stop)
  (range' (o / blockSize) (stop / blockSize - o / blockSize)).forM fun bid =>
    writeBlock i bid ((buf.drop (bid * blockSize - o)).take blockSize)

/-- `Inode::write_direct_at` -/
def writeDirectAt (i o : ℕ) (buf : List UInt8) : FsM n ℕ := do
  let x ← inode i
  failIf (x.desc.type ≠ .file) (returnErrno .eisdir)
  failIf (o % blockSize ≠ 0 ∨ buf.length % blockSize ≠ 0)
    (returnErrnoWithMessage .einval "not block aligned")
  writeDirectAtInner i o buf
  pure buf.length

/-! ### Writing back -/

/-- The number of an unlinked inode is freed once. -/
def releaseIno (i : ℕ) : FsM n Unit := do
  let x ← inode i
  onlyIf (x.isFreed = false) do
    freeInode x.ino (x.desc.type = .dir)
    setInode i { x with isFreed := true }

/-- What `sync_metadata` does for an unlinked inode. -/
def releaseUnlinked (i : ℕ) : FsM n Unit := do
  resizeImpl i 0
  releaseIno i

/-- The end of `sync_metadata`. -/
def writeBack (i : ℕ) : FsM n Unit := do
  let x ← inode i
  syncInode x.ino x.desc
  setInode i { x with dirty := false }

/-- `InodeImpl::sync_metadata` -/
def syncMetadata (i : ℕ) : FsM n Unit := do
  let x ← inode i
  onlyIf (x.dirty = true) do
    onlyIf (x.desc.hardLinks = 0) (releaseUnlinked i)
    writeBack i

/-! ### Reading a successful call back -/

section Ok

open StateRules

variable {v v' : Volume n} {i g bid : ℕ} {u : Unit} {x : Inode} {y : FsM n Unit} {c : Prop}
  [Decidable c] {ino : ℕ} {e : Errno} {α : Type} {z : FsM n α}

theorem onlyIf_ok : onlyIf c y v = .ok u v' ↔ (c ∧ y v = .ok u v') ∨ (¬ c ∧ v = v') := by
  unfold onlyIf
  split_ifs with h
  · simp [h]
  · rw [pure_run]
    simp [h]

@[simp] theorem failIf_returnErrno_ok : failIf c (returnErrno e) v = .ok u v' ↔ ¬ c ∧ v = v' := by
  simp [failIf, onlyIf_ok, liftR_ok]

@[simp] theorem failIf_returnErrnoWithMessage_ok {msg : String} :
    failIf c (returnErrnoWithMessage e msg) v = .ok u v' ↔ ¬ c ∧ v = v' := by
  simp [failIf, onlyIf_ok, liftR_ok]

@[simp] theorem onErr_ok {a : α} : onErr z y v = .ok a v' ↔ z v = .ok a v' := by
  unfold onErr
  rcases z v with ⟨a, v1⟩ | ⟨_ | _, v1⟩
  · rfl
  · simp only
    cases y v1 <;> simp
  · rfl

@[simp] theorem inode_ok : inode i v = .ok x v' ↔ v.inodes[i]? = some x ∧ v = v' := by
  simp [inode, get_bind, liftR_ok]

@[simp] theorem setInode_ok :
    setInode i x v = .ok u v' ↔ { v with inodes := v.inodes.set i x } = v' := by
  rw [setInode, modify_run]
  simp

theorem inode_bind_setInode_ok {f : Inode → Inode} :
    (inode i >>= fun x => setInode i (f x)) v = .ok u v' ↔
      ∃ x, v.inodes[i]? = some x ∧ { v with inodes := v.inodes.set i (f x) } = v' := by
  simp only [bind_ok, inode_ok, setInode_ok]
  constructor
  · rintro ⟨x, _, ⟨hx, rfl⟩, h⟩
    exact ⟨x, hx, h⟩
  · rintro ⟨x, hx, h⟩
    exact ⟨x, v, ⟨hx, rfl⟩, h⟩

@[simp] theorem setPages_ok {pages : PageCache} : setPages i pages v = .ok u v' ↔
    ∃ x, v.inodes[i]? = some x ∧
      { v with inodes := v.inodes.set i { x with pageCache := pages } } = v' :=
  inode_bind_setInode_ok

@[simp] theorem modifyDesc_ok {f : InodeDesc → InodeDesc} : modifyDesc i f v = .ok u v' ↔
    ∃ x, v.inodes[i]? = some x ∧
      { v with inodes := v.inodes.set i { x with desc := f x.desc, dirty := true } } = v' :=
  inode_bind_setInode_ok

/-- A resize changes the blocks and then stores the size. -/
theorem resizeImpl_ok {newSize : ℕ} (hx : v.inodes[i]? = some x)
    (h : resizeImpl i newSize v = .ok u v') :
    ∃ v₁ z, changeBlocks i x.desc.realBlocks (x.desc.blocksFor newSize) v = .ok () v₁ ∧
      v₁.inodes[i]? = some z ∧ v' = { v₁ with
        inodes := v₁.inodes.set i
          { z with desc := { z.desc with size := newSize }, dirty := true } } := by
  simp only [resizeImpl, bind_ok, inode_ok, liftR_ok, InodeDesc.numBlocks, Result.bind_ok,
    Result.pure_ok, modifyDesc_ok] at h
  obtain ⟨_, _, ⟨hx', rfl⟩, _, _, ⟨⟨-, -, rfl⟩, rfl⟩, _, v₁, hchange, z, hz, rfl⟩ := h
  obtain rfl := Option.mem_unique hx hx'
  exact ⟨v₁, z, hchange, hz, rfl⟩

theorem readOnly_liftR (r : Result α) : ReadOnly (liftR r : FsM n α) := by
  intro v
  cases r <;> rfl

theorem liftR_triple {r : Result α} : Triple P (liftR r : FsM n α) fun a v => r = .ok a ∧ P v := by
  intro v a v' hv hrun
  obtain ⟨hr, rfl⟩ := liftR_ok.1 hrun
  exact ⟨hr, hv⟩

theorem readOnly_get : ReadOnly (get : FsM n (Volume n)) := fun _ => rfl

theorem readOnly_inode (i : ℕ) : ReadOnly (inode i : FsM n Inode) :=
  readOnly_get.bind fun _ => readOnly_liftR _

theorem readOnly_failIf (r : Result Unit) : ReadOnly (failIf c r : FsM n Unit) := by
  unfold failIf onlyIf
  split_ifs
  · exact readOnly_liftR r
  · exact .pure ()

theorem onlyIf_triple (h : c → Triple P y fun _ => P) : Triple P (onlyIf c y) fun _ => P := by
  unfold onlyIf
  split_ifs with hc
  · exact h hc
  · exact .pure fun _ hv => hv

theorem onErr_triple {Q : α → Volume n → Prop} (h : Triple P z Q) : Triple P (onErr z y) Q :=
  fun v a v' hv hrun => h v a v' hv (onErr_ok.1 hrun)

theorem incHardLinks_ok (h : incHardLinks i v = .ok u v') :
    ∃ x, v.inodes[i]? = some x ∧
      v' = { v with inodes := v.inodes.set i (x.withLinks (x.desc.hardLinks + 1)) } := by
  simp only [incHardLinks, bind_ok, inode_ok, liftR_ok, incCount_ok, modifyDesc_ok] at h
  obtain ⟨x, _, ⟨hx, rfl⟩, _, _, ⟨⟨-, rfl⟩, rfl⟩, y, hy, rfl⟩ := h
  rw [hx] at hy
  cases hy
  exact ⟨x, hx, rfl⟩

theorem decHardLinks_ok (h : decHardLinks i v = .ok u v') :
    ∃ x, v.inodes[i]? = some x ∧
      v' = { v with inodes := v.inodes.set i (x.withLinks (x.desc.hardLinks - 1)) } := by
  simp only [decHardLinks, bind_ok, inode_ok, liftR_ok, decCount_ok, modifyDesc_ok] at h
  obtain ⟨x, _, ⟨hx, rfl⟩, _, _, ⟨⟨-, rfl⟩, rfl⟩, y, hy, rfl⟩ := h
  rw [hx] at hy
  cases hy
  exact ⟨x, hx, rfl⟩

theorem allocBlock_ok (h : allocBlock g v = .ok bid v') :
    ∃ g' fs, v.fs.allocBlock g = .ok ((g', bid), fs) ∧ v' = { v with fs := fs } := by
  simp only [allocBlock, get_bind, bind_ok, liftR_ok] at h
  obtain ⟨⟨⟨g', _⟩, fs⟩, _, ⟨halloc, rfl⟩, _, _, hset, hpure⟩ := h
  cases hset
  cases hpure
  exact ⟨g', fs, halloc, rfl⟩

theorem freeBlock_ok (h : freeBlock bid v = .ok u v') :
    ∃ fs, v.fs.freeBlock bid = .ok fs ∧ v' = { v with fs := fs } := by
  simp only [freeBlock, get_bind, bind_ok, liftR_ok] at h
  obtain ⟨fs, _, ⟨hfree, rfl⟩, hset⟩ := h
  cases hset
  exact ⟨fs, hfree, rfl⟩

theorem freeInode_ok {isDir : Bool} (h : freeInode ino isDir v = .ok u v') :
    ∃ fs, v.fs.freeInode ino isDir = .ok fs ∧
      v' = { v with fs := fs, cache := update v.cache ino none } := by
  simp only [freeInode, get_bind, bind_ok, liftR_ok] at h
  obtain ⟨fs, _, ⟨hfree, rfl⟩, hset⟩ := h
  cases hset
  exact ⟨fs, hfree, rfl⟩

theorem createInode_ok {type : FileType} {perm : ℕ} (h : createInode g type perm v = .ok i v') :
    ∃ g' ino fs, v.fs.allocIno g (type = .dir) = .ok ((g', ino), fs) ∧ i = v.inodes.length ∧
      v' = ⟨fs, v.inodes ++ [⟨ino, g', .new type perm, true, false, ⟨0, fun _ => 0⟩⟩],
        update v.cache ino (some i), v.rawInodes⟩ := by
  simp only [createInode, insertCache, get_bind, bind_ok, liftR_ok] at h
  obtain ⟨⟨⟨g', ino⟩, fs⟩, _, ⟨halloc, rfl⟩, _, _, hset, _, _,
    ⟨_, _, ⟨-, rfl⟩, _, _, ⟨-, rfl⟩, hcache⟩, hpure⟩ := h
  cases hset
  cases hcache
  cases hpure
  exact ⟨g', ino, fs, halloc, rfl, rfl⟩

theorem lookupInode_ok (h : lookupInode ino v = .ok i v') :
    v.isInodeAllocated ino = .ok true ∧ v.cache ino = some i ∧ v' = v := by
  simp only [lookupInode, get_bind, bind_ok, liftR_ok, failIf_returnErrno_ok] at h
  obtain ⟨allocated, _, ⟨halloc, rfl⟩, _, _, ⟨htrue, rfl⟩, h⟩ := h
  cases hcache : v.cache ino with
  | none =>
    rw [hcache] at h
    cases h
  | some j =>
    rw [hcache] at h
    cases h
    rw [Bool.not_eq_false] at htrue
    exact ⟨htrue ▸ halloc, rfl, rfl⟩

theorem readOnly_lookupInode (ino : ℕ) : ReadOnly (lookupInode ino : FsM n ℕ) := by
  refine readOnly_get.bind fun v => (readOnly_liftR _).bind fun _ =>
    (readOnly_failIf _).bind fun _ => ?_
  split
  · exact .pure _
  · exact readOnly_liftR _

theorem syncInode_ok {d : InodeDesc} (h : syncInode ino d v = .ok u v') :
    v' = { v with rawInodes := update v.rawInodes ino (.ofDesc d) } := by
  simp only [syncInode, get_bind, bind_ok, liftR_ok] at h
  obtain ⟨_, _, ⟨-, rfl⟩, hset⟩ := h
  cases hset
  rfl

end Ok

end Volume

end Jinux
