import Jinux.Ext2.Inode

/-!
# Inodes and superblocks on the disk

An inode is decoded when it is loaded, and encoded again when one of its attributes has changed;
so is the superblock.  `size_high` is the high half of the size of a file and the ACL of a
directory, and is encoded for directories only.  The sizes of blocks and fragments are stored as
logarithms, and come back by a shift that is right for the first three sizes.

* `Disk.RawInode.ofDesc_eq_iff` : **an inode comes back if and only if the fields that are not
  encoded are zero**;
* `Disk.RawInode.exists_size_lost` : a file of 4 GiB comes back empty;
* `Disk.RawSuperBlock.ofSuperBlock_eq_iff` : **a superblock of blocks of 4096 bytes comes back if
  and only if the fields that are not encoded are zero and fragments have at most 4096 bytes**.
-/

namespace Jinux

open Result

namespace Disk

/-! ### Inodes -/

/-- The fields of an inode that are the same in both forms. -/
structure InodeFields where
  hardLinks : BitVec 16
  (blocksCount flags : BitVec 32)
  data : Vector (BitVec 32) blockPtrCnt
  deriving Inhabited

/-- The fields that only the raw inode has. -/
@[ext] structure InodeExtra where
  reserved1 : BitVec 32 := 0
  generation : BitVec 32 := 0
  fragAddr : BitVec 32 := 0
  fragNum : BitVec 8 := 0
  fragSize : BitVec 8 := 0
  pad1 : BitVec 16 := 0
  reserved2 : BitVec 32 := 0

/-- `RawInode`, with the fields of `Osd2`. -/
@[ext] structure RawInode extends InodeFields, InodeExtra where
  (mode uid uidHigh gid gidHigh : BitVec 16)
  (sizeLow atime ctime mtime dtime fileAcl sizeHigh : BitVec 32)

/-- `InodeDesc`.  Times are in nanoseconds. -/
structure InodeDesc extends InodeFields where
  type : FileType
  perm : BitVec 16
  (uid gid : BitVec 32)
  size : BitVec 64
  (atime ctime mtime dtime : ℕ)
  acl : Option (BitVec 64)

/-- The bits that `FileFlags` defines. -/
def flagsMask : BitVec 32 := 0x8003ffff

/-- `Duration::from`, of a `UnixTime` -/
def toDuration (time : BitVec 32) : ℕ := time.toNat * 10 ^ 9

/-- `UnixTime::from` -/
def toUnixTime (duration : ℕ) : BitVec 32 := .ofNat 32 (duration / 10 ^ 9)

@[simp] theorem toUnixTime_toDuration (time : BitVec 32) : toUnixTime (toDuration time) = time := by
  rw [toUnixTime, toDuration, Nat.mul_div_cancel _ (by decide), BitVec.ofNat_toNat,
    BitVec.setWidth_eq]

/-- An error unless `c`. -/
def ensure (c : Prop) [Decidable c] (errno : Errno) (msg : String) : Result Unit :=
  if c then pure () else returnErrnoWithMessage errno msg

/-- `InodeDesc::try_from` -/
def InodeDesc.tryFrom (raw : RawInode) : Result InodeDesc := do
  let type ← FileType.fromRawMode raw.mode.toNat
  ensure (raw.flags &&& flagsMask = raw.flags) .einval "invalid file flags"
  pure { raw with
    type := type
    -- Every bit of the mask is a permission, so `FilePerm::from_raw_mode` does not fail.
    perm := raw.mode &&& 0o7777
    uid := raw.uidHigh.setWidth 32 <<< 16 ||| raw.uid.setWidth 32
    gid := raw.gidHigh.setWidth 32 <<< 16 ||| raw.gid.setWidth 32
    size :=
      if type = .file then raw.sizeHigh.setWidth 64 <<< 32 ||| raw.sizeLow.setWidth 64
      else raw.sizeLow.setWidth 64
    atime := toDuration raw.atime
    ctime := toDuration raw.ctime
    mtime := toDuration raw.mtime
    dtime := toDuration raw.dtime
    acl := match type with
      | .file => some (raw.fileAcl.setWidth 64)
      | .dir => some (raw.sizeHigh.setWidth 64)
      | _ => none }

namespace RawInode

/-- `RawInode::from` -/
def ofDesc (d : InodeDesc) : RawInode :=
  { d with
    mode := .ofNat 16 d.type.rawMode ||| d.perm
    uid := d.uid.setWidth 16
    sizeLow := d.size.setWidth 32
    atime := toUnixTime d.atime
    ctime := toUnixTime d.ctime
    mtime := toUnixTime d.mtime
    dtime := toUnixTime d.dtime
    gid := d.gid.setWidth 16
    fileAcl := if d.type = .file then (d.acl.getD 0).setWidth 32 else 0
    sizeHigh := if d.type = .dir then (d.acl.getD 0).setWidth 32 else 0
    uidHigh := (d.uid >>> 16).setWidth 16
    gidHigh := (d.gid >>> 16).setWidth 16 }

/-- The fields that are not encoded for an inode of the type are zero. -/
def Plain (raw : RawInode) (type : FileType) : Prop :=
  raw.toInodeExtra = {} ∧ (type ≠ .file → raw.fileAcl = 0) ∧ (type ≠ .dir → raw.sizeHigh = 0)

variable {raw : RawInode} {d : InodeDesc}

theorem high_join (hi lo : BitVec 16) :
    ((hi.setWidth 32 <<< 16 ||| lo.setWidth 32) >>> 16).setWidth 16 = hi := by
  ext i h
  simp [show 16 + i < 32 by omega, BitVec.getLsbD_eq_getElem h]

theorem rawMode_eq {mode : BitVec 16} {type : FileType}
    (h : FileType.fromRawMode mode.toNat = .ok type) :
    BitVec.ofNat 16 type.rawMode = mode &&& 0o170000 := by
  apply BitVec.eq_of_toNat_eq
  unfold FileType.fromRawMode at h
  split at h <;> cases h <;> simp_all [FileType.rawMode]

theorem mode_join (mode : BitVec 16) : mode &&& 0o170000 ||| mode &&& 0o7777 = mode := by
  rw [← BitVec.and_or_distrib_left]
  exact BitVec.and_allOnes

/-- **An inode that is decoded and encoded comes back if and only if the fields that are not
encoded are zero.** -/
theorem ofDesc_eq_iff (h : InodeDesc.tryFrom raw = .ok d) : raw = ofDesc d ↔ raw.Plain d.type := by
  simp only [InodeDesc.tryFrom, bind_ok, pure_ok] at h
  obtain ⟨type, htype, -, -, rfl⟩ := h
  simp only [ofDesc, RawInode.ext_iff, high_join, rawMode_eq htype, mode_join, Plain,
    InodeExtra.ext_iff, and_assoc]
  cases type <;> simp

/-- A file of mode 0644. -/
def file (sizeHigh : BitVec 32) : RawInode :=
  { (default : InodeFields) with
    mode := 0o100644, uid := 0, uidHigh := 0, gid := 0, gidHigh := 0, sizeLow := 0, atime := 0
    ctime := 0, mtime := 0, dtime := 0, fileAcl := 0, sizeHigh := sizeHigh }

theorem ofDesc_eq_file : ∃ d, InodeDesc.tryFrom (file 0) = .ok d ∧ file 0 = ofDesc d := by
  have h : InodeDesc.tryFrom (file 0) = .ok _ := rfl
  exact ⟨_, h, (ofDesc_eq_iff h).2 ⟨rfl, fun hne => absurd rfl hne, fun _ => rfl⟩⟩

/-- A file of 4 GiB comes back empty. -/
theorem exists_size_lost : ∃ d d', InodeDesc.tryFrom (file 1) = .ok d ∧ d.size = 2 ^ 32 ∧
    InodeDesc.tryFrom (ofDesc d) = .ok d' ∧ d'.size = 0 := by
  refine ⟨_, _, rfl, ?_, rfl, ?_⟩
  · decide
  · decide

end RawInode

/-! ### The superblock -/

/-- `FsState` -/
inductive FsState where
  | valid
  | err
  | corrupted
  deriving DecidableEq

/-- `ErrorsBehaviour` -/
inductive ErrorsBehaviour where
  | continue_
  | remountReadonly
  | panic

/-- `OsId` -/
inductive OsId where
  | linux
  | hurd
  | masix
  | freeBSD
  | lites
  deriving DecidableEq

/-- `RevLevel` -/
inductive RevLevel where
  | goodOld
  | dynamic
  deriving DecidableEq

/-- The variant of a number, with the variants and their numbers. -/
def tryFromInt {α : Type} {w : ℕ} (all : List α) (repr : α → BitVec w) (n : BitVec w)
    (msg : String) : Result α :=
  match all.find? (repr · = n) with
  | some a => .ok a
  | none => returnErrnoWithMessage .einval msg

/-- `as u16` -/
def FsState.repr : FsState → BitVec 16
  | .valid => 1
  | .err => 2
  | .corrupted => 117

/-- `as u16` -/
def ErrorsBehaviour.repr : ErrorsBehaviour → BitVec 16
  | .continue_ => 1
  | .remountReadonly => 2
  | .panic => 3

/-- `as u32` -/
def OsId.repr : OsId → BitVec 32
  | .linux => 0
  | .hurd => 1
  | .masix => 2
  | .freeBSD => 3
  | .lites => 4

/-- `as u32` -/
def RevLevel.repr : RevLevel → BitVec 32
  | .goodOld => 0
  | .dynamic => 1

/-- The fields of the superblock that are the same in both forms. -/
structure SuperBlockFields where
  (inodesCount blocksCount reservedBlocksCount freeBlocksCount freeInodesCount : BitVec 32)
  (blocksPerGroup fragsPerGroup inodesPerGroup mtime wtime : BitVec 32)
  (mntCount maxMntCount magic : BitVec 16)
  (lastCheckTime firstIno featureCompat featureIncompat featureRoCompat : BitVec 32)
  (uuid volumeName : Vector (BitVec 8) 16)
  lastMountedDir : Vector (BitVec 8) 64
  (preallocFileBlocks preallocDirBlocks : BitVec 8)
  deriving Inhabited

/-- The fields that only the raw superblock has. -/
@[ext] structure SuperBlockExtra where
  minRevLevel : BitVec 16 := 0
  algorithmUsageBitmap : BitVec 32 := 0
  padding1 : BitVec 16 := 0
  journalUuid : Vector (BitVec 8) 16 := .replicate 16 0
  journalIno : BitVec 32 := 0
  journalDev : BitVec 32 := 0
  lastOrphan : BitVec 32 := 0
  hashSeed : Vector (BitVec 32) 4 := .replicate 4 0
  defHashVersion : BitVec 8 := 0
  reservedCharPad : BitVec 8 := 0
  reservedWordPad : BitVec 16 := 0
  defaultMountOpts : BitVec 32 := 0
  firstMetaBg : BitVec 32 := 0
  reserved : Vector (BitVec 32) 190 := .replicate 190 0

/-- `RawSuperBlock` -/
@[ext] structure RawSuperBlock extends SuperBlockFields, SuperBlockExtra where
  (firstDataBlock logBlockSize logFragSize : BitVec 32)
  (state errors : BitVec 16)
  (checkInterval creatorOs revLevel : BitVec 32)
  (defResuid defResgid inodeSize blockGroupIdx : BitVec 16)

/-- `SuperBlock`.  Times are in nanoseconds. -/
structure SuperBlock extends SuperBlockFields where
  (firstDataBlock blockSize fragSize : BitVec 64)
  state : FsState
  errorsBehaviour : ErrorsBehaviour
  checkInterval : ℕ
  creatorOs : OsId
  revLevel : RevLevel
  (defResuid defResgid : BitVec 32)
  (inodeSize blockGroupIdx : BitVec 64)

/-- `1024 << n` on `usize`. -/
def shl1024 (n : BitVec 32) : Result (BitVec 64) :=
  if n.toNat < 64 then .ok (1024#64 <<< n.toNat) else .error (.panic .shlOverflow)

/-- `SuperBlock::try_from` -/
def SuperBlock.tryFrom (sb : RawSuperBlock) : Result SuperBlock := do
  let blockSize ← shl1024 sb.logBlockSize
  let fragSize ← shl1024 sb.logFragSize
  ensure (sb.magic = 0xef53) .einval "bad ext2 magic number"
  let state ← tryFromInt [.valid, .err, .corrupted] FsState.repr sb.state "invalid fs state"
  ensure (state ≠ .corrupted) .euclean "fs is corrupted"
  let errorsBehaviour ← tryFromInt [.continue_, .remountReadonly, .panic] ErrorsBehaviour.repr
    sb.errors "invalid errors behaviour"
  let creatorOs ← tryFromInt [.linux, .hurd, .masix, .freeBSD, .lites] OsId.repr sb.creatorOs
    "invalid creater os"
  ensure (creatorOs = .linux) .einval "not supported os id"
  let revLevel ← tryFromInt [.goodOld, .dynamic] RevLevel.repr sb.revLevel "invalid revision level"
  ensure (revLevel = .dynamic) .einval "not supported rev level"
  ensure (128 ≤ sb.inodeSize.toNat) .einval "inode size is too small"
  ensure (sb.featureCompat &&& 0x3f = sb.featureCompat) .einval "invalid feature compat set"
  ensure (sb.featureIncompat &&& 0x1f = sb.featureIncompat) .einval "invalid feature incompat set"
  ensure (sb.featureRoCompat &&& 0x7 = sb.featureRoCompat) .einval "invalid feature ro compat set"
  pure { sb with
    firstDataBlock := sb.firstDataBlock.setWidth 64
    blockSize := blockSize
    fragSize := fragSize
    state := state
    errorsBehaviour := errorsBehaviour
    checkInterval := toDuration sb.checkInterval
    creatorOs := creatorOs
    revLevel := revLevel
    defResuid := sb.defResuid.setWidth 32
    defResgid := sb.defResgid.setWidth 32
    inodeSize := sb.inodeSize.setWidth 64
    blockGroupIdx := sb.blockGroupIdx.setWidth 64 }

namespace RawSuperBlock

/-- `RawSuperBlock::from` -/
def ofSuperBlock (sb : SuperBlock) : RawSuperBlock :=
  { sb with
    firstDataBlock := sb.firstDataBlock.setWidth 32
    logBlockSize := (sb.blockSize >>> 11).setWidth 32
    logFragSize := (sb.fragSize >>> 11).setWidth 32
    state := sb.state.repr
    errors := sb.errorsBehaviour.repr
    checkInterval := toUnixTime sb.checkInterval
    creatorOs := sb.creatorOs.repr
    revLevel := sb.revLevel.repr
    defResuid := sb.defResuid.setWidth 16
    defResgid := sb.defResgid.setWidth 16
    inodeSize := sb.inodeSize.setWidth 16
    blockGroupIdx := sb.blockGroupIdx.setWidth 16 }

variable {raw : RawSuperBlock} {sb : SuperBlock}

theorem repr_of_tryFromInt {α : Type} {w : ℕ} {all : List α} {repr : α → BitVec w} {n : BitVec w}
    {msg : String} {a : α} (h : tryFromInt all repr n msg = .ok a) : repr a = n := by
  unfold tryFromInt at h
  split at h
  · next b hb =>
    cases h
    simpa using List.find?_some hb
  · cases h

theorem shl1024_ok {n : BitVec 32} {size : BitVec 64} (h : shl1024 n = .ok size) :
    ((size >>> 11).setWidth 32 = n ↔ n.toNat ≤ 2) ∧ (size = 4096 → n = 2) := by
  have hall : ∀ k < 64, (((1024#64 <<< k : BitVec 64) >>> 11).setWidth 32 = BitVec.ofNat 32 k ↔
      k ≤ 2) ∧ (1024#64 <<< k = 4096#64 → BitVec.ofNat 32 k = 2) := by decide
  unfold shl1024 at h
  split_ifs at h with hlt
  cases h
  have hn := hall n.toNat hlt
  rwa [BitVec.ofNat_toNat] at hn

/-- **A superblock of blocks of 4096 bytes comes back if and only if the fields that are not encoded
are zero and fragments have at most 4096 bytes.** -/
theorem ofSuperBlock_eq_iff (h : SuperBlock.tryFrom raw = .ok sb) (hsize : sb.blockSize = 4096) :
    raw = ofSuperBlock sb ↔ raw.toSuperBlockExtra = {} ∧ raw.logFragSize.toNat ≤ 2 := by
  simp only [SuperBlock.tryFrom, bind_ok, pure_ok] at h
  obtain ⟨blockSize, hblock, fragSize, hfrag, -, -, state, hstate, -, -, errors, herrors, os, hos,
    -, -, rev, hrev, -, -, -, -, -, -, -, -, -, -, rfl⟩ := h
  have hlog := (shl1024_ok hblock).1.2 (by rw [(shl1024_ok hblock).2 hsize]; decide)
  simp only [ofSuperBlock, RawSuperBlock.ext_iff, SuperBlockExtra.ext_iff, and_assoc,
    repr_of_tryFromInt hstate, repr_of_tryFromInt herrors, repr_of_tryFromInt hos,
    repr_of_tryFromInt hrev, hlog, eq_comm (a := raw.logFragSize), (shl1024_ok hfrag).1]
  simp

/-- A clean superblock of blocks of 4096 bytes. -/
def clean (opts : BitVec 32) : RawSuperBlock :=
  { (default : SuperBlockFields) with
    magic := 0xef53, firstDataBlock := 0, logBlockSize := 2, logFragSize := 2, state := 1
    errors := 1, checkInterval := 0, creatorOs := 0, revLevel := 1, defResuid := 0, defResgid := 0
    inodeSize := 128, blockGroupIdx := 0, defaultMountOpts := opts }

theorem ofSuperBlock_eq_clean :
    ∃ sb, SuperBlock.tryFrom (clean 0) = .ok sb ∧ clean 0 = ofSuperBlock sb := by
  have h : SuperBlock.tryFrom (clean 0) = .ok _ := rfl
  exact ⟨_, h, (ofSuperBlock_eq_iff h (by decide)).2 ⟨rfl, by decide⟩⟩

/-- The default mount options do not come back. -/
theorem exists_options_lost : ∃ sb, SuperBlock.tryFrom (clean 0xc) = .ok sb ∧
    sb.blockSize = 4096 ∧ (ofSuperBlock sb).defaultMountOpts ≠ (clean 0xc).defaultMountOpts := by
  refine ⟨_, rfl, ?_, ?_⟩
  · decide
  · decide

end RawSuperBlock

end Disk

end Jinux
