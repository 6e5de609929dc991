import Jinux.Ext2.IdAlloc
import Jinux.Lib.Threads

/-!
# Block groups and the superblock

A group has a bitmap and a descriptor count for its blocks, and one of each for its inodes; the
superblock has a count of each for the whole device.  The blocks and the inodes are allocated and
freed by the same code up to names, so `Resource` says which of the two is meant.

Every function that changes the counts does so in sections, each under one lock.  They are the
functions `Ext2.allocSlow` to `Ext2.freeInGroup`, and `Ext2.alloc` and `Ext2.free` take them one
after the other.
-/

namespace Jinux

open Function Result

variable {r : Resource} {isDir : Bool} {idx count count' : ℕ}

/-- What is allocated and freed. -/
inductive Resource where
  | block
  | inode
  deriving DecidableEq, Repr

/-- The bound of the counts of a group descriptor. -/
def u16Bound : ℕ := 2 ^ 16

/-- The bound of the counts of the superblock, of block numbers and of inode numbers. -/
def u32Bound : ℕ := 2 ^ 32

/-- `inc_free_blocks`, `inc_free_inodes` and `inc_dirs`. -/
def incCount (bound count : ℕ) : Result ℕ :=
  if count + 1 < bound then .ok (count + 1) else .error (.panic .addOverflow)

/-- `dec_free_blocks`, `dec_free_inodes` and `dec_dirs`. -/
def decCount (count : ℕ) : Result ℕ := do
  debugAssert (0 < count)
  pure (count - 1)

@[simp] theorem incCount_ok {bound : ℕ} :
    incCount bound count = .ok count' ↔ count + 1 < bound ∧ count + 1 = count' := by
  unfold incCount
  split_ifs with h <;> simp [h]

@[simp] theorem decCount_ok : decCount count = .ok count' ↔ 0 < count ∧ count - 1 = count' := by
  simp only [decCount, bind_ok, debugAssert_ok, pure_ok, exists_const]

/-- `if is_dir` with `inc_dirs` -/
def incDirs (isDir : Bool) (count : ℕ) : Result ℕ :=
  if isDir then incCount u16Bound count else .ok count

/-- `if is_dir` with `dec_dirs` -/
def decDirs (isDir : Bool) (count : ℕ) : Result ℕ := if isDir then decCount count else .ok count

/-- `GroupMetadata`: the bitmaps and the counts of the descriptor. -/
structure GroupMetadata where
  /-- `block_bitmap` and `inode_bitmap` -/
  bitmap : Resource → IdAlloc
  /-- `free_blocks_count` and `free_inodes_count` -/
  freeCount : Resource → ℕ
  /-- `dirs_count` -/
  dirsCount : ℕ

namespace GroupMetadata

/-- `alloc_block` and `alloc_inode`, under the write lock of the group.  Only an inode can be the
one of a directory. -/
def alloc (m : GroupMetadata) (r : Resource) (isDir : Bool) :
    Result (Option (ℕ × GroupMetadata)) :=
  match (m.bitmap r).alloc with
  | none => pure none
  | some (idx, bitmap) => do
    let freeCount ← decCount (m.freeCount r)
    let dirsCount ← incDirs isDir m.dirsCount
    pure (some (idx, ⟨update m.bitmap r bitmap,
      update m.freeCount r freeCount, dirsCount⟩))

/-- `free_block` and `free_inode`, under the write lock of the group. -/
def free (m : GroupMetadata) (r : Resource) (isDir : Bool) (idx : ℕ) : Result GroupMetadata := do
  let allocated ← (m.bitmap r).isAllocated idx
  assert (allocated = true)
  let bitmap ← (m.bitmap r).free idx
  let freeCount ← incCount u16Bound (m.freeCount r)
  let dirsCount ← decDirs isDir m.dirsCount
  pure ⟨update m.bitmap r bitmap, update m.freeCount r freeCount, dirsCount⟩

/-- The counts of the descriptor are those of the bitmaps. -/
def Counted (m : GroupMetadata) : Prop := ∀ r, m.freeCount r = (m.bitmap r).freeIds

variable {m m' : GroupMetadata}

/-- What an allocation does. -/
theorem alloc_ok (h : m.alloc r isDir = .ok (some (idx, m'))) :
    (m.bitmap r).alloc = some (idx, m'.bitmap r) ∧ 0 < m.freeCount r ∧
      m'.bitmap = update m.bitmap r (m'.bitmap r) ∧
      m'.freeCount = update m.freeCount r (m.freeCount r - 1) ∧
      incDirs isDir m.dirsCount = .ok m'.dirsCount := by
  unfold alloc at h
  split at h
  · cases h
  · next id bitmap halloc =>
    simp only [bind_ok, decCount_ok] at h
    obtain ⟨_, ⟨hpos, rfl⟩, dirsCount, hdirs, h⟩ := h
    cases h
    rw [halloc]
    simp [hpos, hdirs]

/-- What a free does. -/
theorem free_ok (h : m.free r isDir idx = .ok m') :
    (m.bitmap r).free idx = .ok (m'.bitmap r) ∧
      m'.bitmap = update m.bitmap r (m'.bitmap r) ∧
      m'.freeCount = update m.freeCount r (m.freeCount r + 1) ∧
      decDirs isDir m.dirsCount = .ok m'.dirsCount := by
  simp only [free, bind_ok, incCount_ok, pure_ok] at h
  obtain ⟨_, -, -, -, bitmap, hfree, _, ⟨-, rfl⟩, dirsCount, hdirs, rfl⟩ := h
  rw [hfree]
  simp [hdirs]

theorem Counted.alloc (hm : m.Counted) (h : m.alloc r isDir = .ok (some (idx, m'))) :
    m'.Counted := by
  intro r'
  obtain ⟨halloc, -, hbitmap, hcount, -⟩ := alloc_ok h
  rcases eq_or_ne r' r with rfl | hne
  · have hfree := IdAlloc.freeIds_of_alloc halloc
    have hold := hm r'
    rw [hcount, update_self]
    omega
  · rw [hbitmap, hcount, update_of_ne hne, update_of_ne hne]
    exact hm r'

theorem Counted.free (hm : m.Counted) (h : m.free r isDir idx = .ok m') : m'.Counted := by
  intro r'
  obtain ⟨hfree, hbitmap, hcount, -⟩ := free_ok h
  rcases eq_or_ne r' r with rfl | hne
  · rw [hcount, update_self, IdAlloc.freeIds_of_free hfree, hm r']
  · rw [hbitmap, hcount, update_of_ne hne, update_of_ne hne]
    exact hm r'

/-- Where the counts are right, the count of a group never underflows. -/
theorem Counted.alloc_ne_debugAssertion (hm : m.Counted) (r : Resource) (isDir : Bool) :
    m.alloc r isDir ≠ .error (.panic .debugAssertion) := by
  intro h
  unfold GroupMetadata.alloc at h
  split at h
  · cases h
  · next id bitmap halloc =>
    have hfree := IdAlloc.freeIds_of_alloc halloc
    have hold := hm r
    have hdec : decCount (m.freeCount r) = .ok (m.freeCount r - 1) := by
      rw [decCount_ok]
      omega
    rcases bind_err.1 h with h | ⟨_, -, h⟩
    · rw [hdec] at h
      cases h
    rcases bind_err.1 h with h | ⟨_, -, h⟩
    · unfold incDirs incCount at h
      split_ifs at h
      cases h
    · cases h

end GroupMetadata

/-- A mounted file system with `n` block groups. -/
structure Ext2 (n : ℕ) where
  /-- `blocks_per_group` and `inodes_per_group` -/
  perGroup : Resource → ℕ
  /-- `block_groups` -/
  groups : Fin n → GroupMetadata
  /-- `free_blocks_count` and `free_inodes_count` of the superblock -/
  superBlock : Resource → ℕ

namespace Ext2

variable {n : ℕ}

/-- The number of the first one of its kind: inode numbers start from 1. -/
def firstId : Resource → ℕ
  | .block => 0
  | .inode => 1

/-- `block_group_of_bid` with `block_idx`, and `block_group_of_ino` with `inode_idx`. -/
def locate (fs : Ext2 n) (r : Resource) (id : ℕ) : Result (Fin n × ℕ) := do
  let k ← subUsize id (firstId r)
  if fs.perGroup r = 0 then
    .error (.panic .divideByZero)
  else if h : k / fs.perGroup r < n then
    pure (⟨k / fs.perGroup r, h⟩, k % u32Bound % fs.perGroup r)
  else
    returnErrno .enoent

/-- The number of the entry `idx` of a group, as a `u32`. -/
def idOf (fs : Ext2 n) (r : Resource) (g : Fin n) (idx : ℕ) : Result ℕ :=
  let id := g * fs.perGroup r + idx + firstId r
  if id < u32Bound then .ok id else .error (.panic .addOverflow)

/-- The slow path of `BlockGroup::alloc_block` and `BlockGroup::alloc_inode`. -/
def allocSlow (fs : Ext2 n) (r : Resource) (isDir : Bool) (g : Fin n) :
    Result (Option (ℕ × Ext2 n)) := do
  match ← (fs.groups g).alloc r isDir with
  | none => pure none
  | some (idx, m) => pure (some (idx, { fs with groups := update fs.groups g m }))

/-- What `alloc_block` and `alloc_ino` do with the entry they got from a group. -/
def decSuper (fs : Ext2 n) (r : Resource) (g : Fin n) (idx : ℕ) : Result (ℕ × Ext2 n) := do
  let id ← fs.idOf r g idx
  let count ← decCount (fs.superBlock r)
  pure (id, { fs with superBlock := update fs.superBlock r count })

/-- What `free_block` and `free_inode` do before they come to the group. -/
def incSuper (fs : Ext2 n) (r : Resource) : Result (Ext2 n) := do
  let count ← incCount u32Bound (fs.superBlock r)
  pure { fs with superBlock := update fs.superBlock r count }

/-- `BlockGroup::free_block` and `BlockGroup::free_inode`. -/
def freeInGroup (fs : Ext2 n) (r : Resource) (isDir : Bool) (g : Fin n) (idx : ℕ) :
    Result (Ext2 n) := do
  let m ← (fs.groups g).free r isDir idx
  pure { fs with groups := update fs.groups g m }

/-- The group that the loop of an allocation comes to: it starts over behind the last one. -/
def wrap (g : ℕ) : Result (Fin n) :=
  let g := if n ≤ g then 0 else g
  if h : g < n then .ok ⟨g, h⟩ else .error (.panic .outOfBounds)

/-- The loop of an allocation over the groups, with the number of rounds left. -/
def allocLoop (fs : Ext2 n) (r : Resource) (isDir : Bool) : ℕ → ℕ → Result ((Fin n × ℕ) × Ext2 n)
  | 0, _ => returnErrnoWithMessage .enospc "no space on device"
  | rounds + 1, g => do
    let g ← wrap g
    -- the fast path
    if (fs.groups g).freeCount r = 0 then
      allocLoop fs r isDir rounds (g + 1)
    else
      match ← fs.allocSlow r isDir g with
      | none => allocLoop fs r isDir rounds (g + 1)
      | some (idx, fs) => do
        let (id, fs) ← fs.decSuper r g idx
        pure ((g, id), fs)

/-- `alloc_block` and `alloc_ino`: the group and the number. -/
def alloc (fs : Ext2 n) (r : Resource) (isDir : Bool) (g : ℕ) : Result ((Fin n × ℕ) × Ext2 n) :=
  if n ≤ g then returnErrnoWithMessage .einval "invalid block group idx"
  else fs.allocLoop r isDir n g

/-- `free_block` and `free_inode` -/
def free (fs : Ext2 n) (r : Resource) (isDir : Bool) (id : ℕ) : Result (Ext2 n) := do
  let (g, idx) ← fs.locate r id
  let fs ← fs.incSuper r
  fs.freeInGroup r isDir g idx

/-- `alloc_block` -/
def allocBlock (fs : Ext2 n) (g : ℕ) : Result ((Fin n × ℕ) × Ext2 n) := fs.alloc .block false g

/-- `alloc_ino` -/
def allocIno (fs : Ext2 n) (g : ℕ) (isDir : Bool) : Result ((Fin n × ℕ) × Ext2 n) :=
  fs.alloc .inode isDir g

/-- `free_block` -/
def freeBlock (fs : Ext2 n) (bid : ℕ) : Result (Ext2 n) := fs.free .block false bid

/-- `free_inode` -/
def freeInode (fs : Ext2 n) (ino : ℕ) (isDir : Bool) : Result (Ext2 n) := fs.free .inode isDir ino

variable {fs fs' : Ext2 n} {g : Fin n} {id : ℕ}

theorem allocSlow_ok (h : fs.allocSlow r isDir g = .ok (some (idx, fs'))) :
    ∃ m, (fs.groups g).alloc r isDir = .ok (some (idx, m)) ∧
      fs' = { fs with groups := update fs.groups g m } := by
  rw [allocSlow, bind_ok] at h
  obtain ⟨_ | ⟨idx', m⟩, hm, h⟩ := h
  · cases h
  · cases h
    exact ⟨m, hm, rfl⟩

theorem decSuper_ok (h : fs.decSuper r g idx = .ok (id, fs')) :
    fs.idOf r g idx = .ok id ∧ 0 < fs.superBlock r ∧
      fs' = { fs with superBlock := update fs.superBlock r (fs.superBlock r - 1) } := by
  simp only [decSuper, bind_ok, decCount_ok] at h
  obtain ⟨_, hid, _, ⟨hpos, rfl⟩, h⟩ := h
  cases h
  exact ⟨hid, hpos, rfl⟩

theorem incSuper_ok (h : fs.incSuper r = .ok fs') :
    fs' = { fs with superBlock := update fs.superBlock r (fs.superBlock r + 1) } := by
  simp only [incSuper, bind_ok, incCount_ok, pure_ok] at h
  obtain ⟨_, ⟨-, rfl⟩, rfl⟩ := h
  rfl

theorem freeInGroup_ok (h : fs.freeInGroup r isDir g idx = .ok fs') :
    ∃ m, (fs.groups g).free r isDir idx = .ok m ∧
      fs' = { fs with groups := update fs.groups g m } := by
  rw [freeInGroup, bind_ok] at h
  obtain ⟨m, hm, h⟩ := h
  cases h
  exact ⟨m, hm, rfl⟩

end Ext2

end Jinux
