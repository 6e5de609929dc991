import Jinux.Ext2.Inode
import Jinux.Lib.Lts

/-!
# Operations on directories

`create`, `link`, `unlink`, `rmdir` and `rename` of `Inode`, with the functions of its `Inner` that
they call.  The counts of hard links are kept in many places: `append_entry` and `remove_entry`
count the subdirectories of the directory that they change, and each operation counts the entries of
the inode that it links, unlinks or replaces.

`InodeOp` is any operation on inodes, and `Volume.opLts` is any sequence of successful ones.
-/

namespace Jinux

open DirEntry

variable {n : ℕ}

namespace Volume

/-! ### `Inner` -/

/-- `Inner::append_entry` -/
def appendEntry (i : ℕ) (e : DirEntry) (o : ℕ) : FsM n Unit := do
  let type ← liftR e.type
  let x ← inode i
  let c ← liftR (x.pageCache.appendEntry o e)
  setPages i c
  onlyIf (x.desc.size < c.size) (resizeImpl i c.size)
  -- for ".."
  onlyIf (type = .dir ∧ e.name ≠ parentName) (incHardLinks i)

/-- `Inner::remove_entry`; the writer searches from the start of the directory. -/
def removeEntry (i : ℕ) (name : List UInt8) : FsM n Unit := do
  let x ← inode i
  let r ← liftR (x.pageCache.removeEntry name)
  setPages i r.2
  let type ← liftR r.1.type
  onlyIf (r.2.size < x.desc.size) (resizeImpl i r.2.size)
  -- for ".."
  onlyIf (type = .dir) (decHardLinks i)

/-- `Inner::rename_entry` -/
def renameEntry (i : ℕ) (oldName newName : List UInt8) (o : ℕ) : FsM n Unit := do
  let x ← inode i
  let c ← liftR (x.pageCache.renameEntry o oldName newName)
  setPages i c
  onlyIf (c.size ≠ x.desc.size) (resizeImpl i c.size)

/-- `Inner::set_parent_ino` -/
def setParentIno (i parentIno : ℕ) : FsM n Unit := do
  let x ← inode i
  let p ← liftR (unwrap (x.getEntry parentName 0))
  let c ← liftR (x.pageCache.writeEntry p.1 { p.2 with ino := parentIno })
  setPages i c

/-- `Inner::init_dir` -/
def initDir (i selfIno parentIno : ℕ) : FsM n Unit := do
  let self ← liftR (selfEntry selfIno)
  appendEntry i self 0
  let parent ← liftR (parentEntry parentIno)
  appendEntry i parent 0

/-- `Inode::init` -/
def init (i dirIno : ℕ) : FsM n Unit := do
  let x ← inode i
  onlyIf (x.desc.type = .dir) (initDir i x.ino dirIno)

/-! ### `Inode` -/

/-- The directory of an operation: it is a directory and was not removed. -/
def liveDir (dir : ℕ) : FsM n Inode := do
  let x ← inode dir
  failIf (x.desc.type ≠ .dir) (returnErrno .enotdir)
  failIf (x.desc.hardLinks = 0) (returnErrnoWithMessage .enoent "dir removed")
  pure x

/-- A name that is too long. -/
def checkName (name : List UInt8) : FsM n Unit :=
  failIf (maxFnameLen < name.length) (returnErrno .enametoolong)

/-- `get_entry(name, 0).ok_or(Error::new(Errno::ENOENT))?` -/
def findEntry (x : Inode) (name : List UInt8) : FsM n (ℕ × DirEntry) :=
  match x.getEntry name 0 with
  | some p => pure p
  | none => liftR (returnErrno .enoent)

/-- A `create` that fails frees the number of the new inode, whose object is dropped. -/
def dropCreated (i ino : ℕ) (isDir : Bool) : FsM n Unit := do
  unwrapM (freeInode ino isDir)
  modify fun v => { v with inodes := v.inodes.take i }

/-- `Inode::create`: the handle of the new inode. -/
def create (dir : ℕ) (name : List UInt8) (type : FileType) (perm : ℕ) : FsM n ℕ := do
  let x ← liveDir dir
  checkName name
  failIf ((x.getEntry name 0).isSome = true) (returnErrno .eexist)
  let i ← createInode x.blockGroupIdx type perm
  let new ← inode i
  onErr (init i x.ino) (dropCreated i new.ino (type = .dir))
  let e ← liftR (DirEntry.new new.ino name type)
  onErr (appendEntry dir e 0) (dropCreated i new.ino (type = .dir))
  pure i

/-- `Inode::link` -/
def link (dir i : ℕ) (name : List UInt8) : FsM n Unit := do
  let x ← liveDir dir
  checkName name
  let y ← inode i
  failIf (y.desc.type = .dir) (returnErrno .eperm)
  failIf ((x.getEntry name 0).isSome = true) (returnErrno .eexist)
  let e ← liftR (new y.ino name y.desc.type)
  appendEntry dir e 0
  incHardLinks i

/-- `Inode::unlink` -/
def unlink (dir : ℕ) (name : List UInt8) : FsM n Unit := do
  let x ← liveDir dir
  failIf (name = selfName ∨ name = parentName) (returnErrno .eisdir)
  checkName name
  let p ← findEntry x name
  let i ← lookupInode p.2.ino
  let y ← inode i
  failIf (y.desc.type = .dir) (returnErrno .eisdir)
  removeEntry dir name
  decHardLinks i

/-- The counts of an inode that loses its entry: a directory also loses its ".". -/
def dropEntry (i : ℕ) (isDir : Prop) [Decidable isDir] : FsM n Unit := do
  decHardLinks i
  onlyIf isDir (decHardLinks i)

/-- `Inode::rmdir` -/
def rmdir (dir : ℕ) (name : List UInt8) : FsM n Unit := do
  let x ← liveDir dir
  failIf (name = selfName) (returnErrnoWithMessage .einval "rmdir on .")
  failIf (name = parentName) (returnErrnoWithMessage .enotempty "rmdir on ..")
  checkName name
  let p ← findEntry x name
  let i ← lookupInode p.2.ino
  let y ← inode i
  failIf (y.desc.type ≠ .dir) (returnErrno .enotdir)
  failIf (2 < y.entryCount) (returnErrno .enotempty)
  removeEntry dir name
  dropEntry i True

/-- Whether an inode may take the place of another one. -/
def checkReplace (srcType dstType : FileType) (dst : Inode) : Result Unit :=
  match srcType, dstType with
  | .dir, .dir => if 2 < dst.entryCount then returnErrno .enotempty else .ok ()
  | .dir, _ => returnErrno .enotdir
  | _, .dir => returnErrno .eisdir
  | _, _ => .ok ()

/-- The end of `rename_within`, when the new name is taken by another inode. -/
def replaceWithin (dir : ℕ) (oldName newName : List UInt8) (srcOffset : ℕ) (srcType : FileType)
    (dstIno : ℕ) : FsM n Unit := do
  let j ← lookupInode dstIno
  let dst ← inode j
  liftR (checkReplace srcType dst.desc.type dst)
  removeEntry dir newName
  renameEntry dir oldName newName srcOffset
  dropEntry j (dst.desc.type = .dir)

/-- `Inode::rename_within` -/
def renameWithin (dir : ℕ) (oldName newName : List UInt8) : FsM n Unit := do
  let x ← liveDir dir
  let p ← findEntry x oldName
  let i ← lookupInode p.2.ino
  let src ← inode i
  match x.getEntry newName 0 with
  | none => renameEntry dir oldName newName p.1
  | some q =>
    onlyIf (src.ino ≠ q.2.ino) (replaceWithin dir oldName newName p.1 src.desc.type q.2.ino)

/-- Move the entry of an inode to another directory. -/
def moveEntry (dir : ℕ) (oldName : List UInt8) (target : ℕ) (newName : List UInt8) (src : Inode) :
    FsM n Unit := do
  removeEntry dir oldName
  let e ← liftR (new src.ino newName src.desc.type)
  appendEntry target e 0

/-- The end of `rename` across directories, when the new name is taken by another inode. -/
def replaceAcross (dir : ℕ) (oldName : List UInt8) (target : ℕ) (newName : List UInt8) (src : Inode)
    (dstIno : ℕ) : FsM n Unit := do
  let j ← lookupInode dstIno
  let dst ← inode j
  liftR (checkReplace src.desc.type dst.desc.type dst)
  removeEntry dir oldName
  removeEntry target newName
  let e ← liftR (new src.ino newName src.desc.type)
  appendEntry target e 0
  dropEntry j (src.desc.type = .dir)

/-- `Inode::rename`, across directories. -/
def renameAcross (dir : ℕ) (oldName : List UInt8) (target : ℕ) (newName : List UInt8) :
    FsM n Unit := do
  let x ← inode dir
  let y ← inode target
  failIf (x.desc.type ≠ .dir ∨ y.desc.type ≠ .dir) (returnErrno .enotdir)
  failIf (x.desc.hardLinks = 0 ∨ y.desc.hardLinks = 0)
    (returnErrnoWithMessage .enoent "dir removed")
  let p ← findEntry x oldName
  let i ← lookupInode p.2.ino
  let src ← inode i
  failIf (src.ino = y.ino) (returnErrno .einval)
  match y.getEntry newName 0 with
  | none => do
    moveEntry dir oldName target newName src
    onlyIf (src.desc.type = .dir) (setParentIno i y.ino)
  | some q =>
    onlyIf (src.ino ≠ q.2.ino) do
      failIf (x.ino = q.2.ino) (returnErrno .enotempty)
      replaceAcross dir oldName target newName src q.2.ino
      onlyIf (src.desc.type = .dir) (setParentIno i y.ino)

/-- `Inode::rename` -/
def rename (dir : ℕ) (oldName : List UInt8) (target : ℕ) (newName : List UInt8) : FsM n Unit := do
  failIf (oldName = selfName ∨ oldName = parentName ∨
    newName = selfName ∨ newName = parentName) (returnErrno .eisdir)
  checkName newName
  let x ← inode dir
  let y ← inode target
  if x.ino = y.ino then renameWithin dir oldName newName
  else renameAcross dir oldName target newName

section ReadOnly

open StateRules

theorem liveDir_ok {d : ℕ} {v v' : Volume n} {x : Inode} (h : liveDir d v = .ok x v') :
    v.inodes[d]? = some x ∧ x.desc.type = .dir ∧ x.desc.hardLinks ≠ 0 ∧ v' = v := by
  simp only [liveDir, bind_ok, inode_ok, failIf_returnErrno_ok,
    failIf_returnErrnoWithMessage_ok] at h
  obtain ⟨y, _, ⟨hy, rfl⟩, _, _, ⟨htype, rfl⟩, _, _, ⟨hused, rfl⟩, hpure⟩ := h
  cases hpure
  exact ⟨hy, not_not.1 htype, hused, rfl⟩

theorem readOnly_liveDir (dir : ℕ) : ReadOnly (liveDir dir : FsM n Inode) :=
  (readOnly_inode dir).bind fun _ =>
    (readOnly_failIf _).bind fun _ => (readOnly_failIf _).bind fun _ => .pure _

theorem readOnly_checkName (name : List UInt8) : ReadOnly (checkName name : FsM n Unit) :=
  readOnly_failIf _

theorem readOnly_findEntry (x : Inode) (name : List UInt8) :
    ReadOnly (findEntry x name : FsM n (ℕ × DirEntry)) := by
  unfold findEntry
  split
  · exact .pure _
  · exact readOnly_liftR _

end ReadOnly

/-! ### What the operations keep -/

section Upheld

open StateRules

variable {P : Volume n → Prop} {E : Fault → Volume n → Prop} {live : ℕ → Prop} {α β : Type}
  {dir target i ino : ℕ} {name oldName newName : List UInt8} {c : Prop} [Decidable c]

theorem onlyIf_contract {z : FsM n Unit} (h : c → Contract P z (fun _ => P) E) :
    Contract P (onlyIf c z) (fun _ => P) E := by
  unfold onlyIf
  split_ifs with hc
  · exact h hc
  · exact .pure fun _ hv => hv

/-- The functions of `Inner` keep `P`, if the object that they change is live.  The objects that an
operation comes to are live: they have hard links, or the inode cache leads to them. -/
structure Upheld (P : Volume n → Prop) (E : Fault → Volume n → Prop) (live : ℕ → Prop) : Prop where
  fails : ∀ e v, P v → E e v
  linked : ∀ v i x, P v → v.inodes[i]? = some x → x.desc.hardLinks ≠ 0 → live i
  cached : ∀ v ino i, P v → v.cache ino = some i → live i
  appendEntry : ∀ {i e o}, live i → Contract P (appendEntry i e o) (fun _ => P) E
  removeEntry : ∀ {i name}, live i → Contract P (removeEntry i name) (fun _ => P) E
  renameEntry : ∀ {i oldName newName o}, live i →
    Contract P (renameEntry i oldName newName o) (fun _ => P) E
  setParentIno : ∀ {i ino}, Contract P (setParentIno i ino) (fun _ => P) E
  incHardLinks : ∀ {i}, live i → Contract P (incHardLinks i) (fun _ => P) E
  decHardLinks : ∀ {i}, live i → Contract P (decHardLinks i) (fun _ => P) E

namespace Upheld

section

variable (h : Upheld P E live)

include h

theorem read {z : FsM n α} {f : α → FsM n β} (hz : ReadOnly z)
    (hf : ∀ a, Contract P (f a) (fun _ => P) E) : Contract P (z >>= f) (fun _ => P) E :=
  .bind (hz.contract h.fails) hf

/-- A directory that was not removed is live. -/
theorem liveDir : Contract P (liveDir i) (fun _ v => live i ∧ P v) E := by
  refine (readOnly_liveDir i).contract_ok h.fails fun v x hv hrun => ?_
  obtain ⟨hy, -, hlinks, -⟩ := liveDir_ok hrun
  exact ⟨h.linked v i _ hv hy hlinks, hv⟩

/-- An operation on a directory. -/
theorem liveDir_bind {f : Inode → FsM n β} (hf : ∀ x, live i → Contract P (f x) (fun _ => P) E) :
    Contract P (Volume.liveDir i >>= f) (fun _ => P) E :=
  h.liveDir.bind fun x => .intro (hf x)

/-- An operation on an inode that is looked up. -/
theorem lookupInode_bind {f : ℕ → FsM n β} (hf : ∀ j, live j → Contract P (f j) (fun _ => P) E) :
    Contract P (lookupInode ino >>= f) (fun _ => P) E := by
  refine Contract.bind (M := fun j v => live j ∧ P v) ?_ fun j => .intro (hf j)
  exact (readOnly_lookupInode ino).contract_ok h.fails fun v j hv hrun =>
    ⟨h.cached v ino j hv (lookupInode_ok hrun).2.1, hv⟩

theorem dropEntry (hlive : live i) : Contract P (dropEntry i c) (fun _ => P) E :=
  .bind (h.decHardLinks hlive) fun _ => onlyIf_contract fun _ => h.decHardLinks hlive

theorem link (hlive : live i) : Contract P (link dir i name) (fun _ => P) E :=
  h.liveDir_bind fun _ hdir => h.read (readOnly_checkName _) fun _ =>
    h.read (readOnly_inode i) fun _ => h.read (readOnly_failIf _) fun _ =>
      h.read (readOnly_failIf _) fun _ => h.read (readOnly_liftR _) fun _ =>
        .bind (h.appendEntry hdir) fun _ => h.incHardLinks hlive

theorem unlink : Contract P (unlink dir name) (fun _ => P) E :=
  h.liveDir_bind fun _ hdir => h.read (readOnly_failIf _) fun _ =>
    h.read (readOnly_checkName _) fun _ => h.read (readOnly_findEntry _ _) fun _ =>
      h.lookupInode_bind fun _ hlive => h.read (readOnly_inode _) fun _ =>
        h.read (readOnly_failIf _) fun _ => .bind (h.removeEntry hdir) fun _ =>
          h.decHardLinks hlive

theorem rmdir : Contract P (rmdir dir name) (fun _ => P) E :=
  h.liveDir_bind fun _ hdir => h.read (readOnly_failIf _) fun _ =>
    h.read (readOnly_failIf _) fun _ => h.read (readOnly_checkName _) fun _ =>
      h.read (readOnly_findEntry _ _) fun _ => h.lookupInode_bind fun _ hlive =>
        h.read (readOnly_inode _) fun _ => h.read (readOnly_failIf _) fun _ =>
          h.read (readOnly_failIf _) fun _ => .bind (h.removeEntry hdir) fun _ =>
            h.dropEntry hlive

theorem renameWithin : Contract P (renameWithin dir oldName newName) (fun _ => P) E := by
  refine h.liveDir_bind fun x hdir => h.read (readOnly_findEntry _ _) fun p =>
    h.lookupInode_bind fun _ _ => h.read (readOnly_inode _) fun src => ?_
  split
  · exact h.renameEntry hdir
  · refine onlyIf_contract fun _ => h.lookupInode_bind fun j hlive => ?_
    exact h.read (readOnly_inode j) fun _ => h.read (readOnly_liftR _) fun _ =>
      .bind (h.removeEntry hdir) fun _ => .bind (h.renameEntry hdir) fun _ => h.dropEntry hlive

theorem renameAcross : Contract P (renameAcross dir oldName target newName) (fun _ => P) E := by
  have hinode {Q : Volume n → Prop} {k : ℕ} (hQ : ∀ v, Q v → P v) :
      Contract Q (inode k) (fun x v => v.inodes[k]? = some x ∧ Q v) E :=
    (readOnly_inode k).contract_ok (fun e v hv => h.fails e v (hQ v hv)) fun _ _ hv hrun =>
      ⟨(inode_ok.1 hrun).1, hv⟩
  refine Contract.bind (hinode fun _ hv => hv) fun x =>
    Contract.bind (hinode fun _ hv => hv.2) fun y => ?_
  refine Contract.bind ((readOnly_failIf _).contract fun e v hv => h.fails e v hv.2.2) fun _ =>
    Contract.bind (M := fun _ v => (live dir ∧ live target) ∧ P v)
      ((readOnly_failIf _).contract_ok (fun e v hv => h.fails e v hv.2.2)
        fun v _ hv hrun => ?_) fun _ => ?_
  · obtain ⟨hlinks, -⟩ := failIf_returnErrnoWithMessage_ok.1 hrun
    rw [not_or] at hlinks
    exact ⟨⟨h.linked v dir x hv.2.2 hv.2.1 hlinks.1, h.linked v target y hv.2.2 hv.1 hlinks.2⟩,
      hv.2.2⟩
  refine Contract.intro fun ⟨hdir, htarget⟩ => ?_
  refine h.read (readOnly_findEntry _ _) fun p => h.lookupInode_bind fun i hi =>
    h.read (readOnly_inode i) fun src => h.read (readOnly_failIf _) fun _ => ?_
  split
  · exact .bind (.bind (h.removeEntry hdir) fun _ => h.read (readOnly_liftR _) fun _ =>
      h.appendEntry htarget) fun _ => onlyIf_contract fun _ => h.setParentIno
  · refine onlyIf_contract fun _ => h.read (readOnly_failIf _) fun _ =>
      .bind (h.lookupInode_bind fun j hj => ?_) fun _ => onlyIf_contract fun _ => h.setParentIno
    exact h.read (readOnly_inode j) fun _ => h.read (readOnly_liftR _) fun _ =>
      .bind (h.removeEntry hdir) fun _ => .bind (h.removeEntry htarget) fun _ =>
        h.read (readOnly_liftR _) fun _ => .bind (h.appendEntry htarget) fun _ =>
          h.dropEntry hj

theorem rename : Contract P (rename dir oldName target newName) (fun _ => P) E := by
  refine h.read (readOnly_failIf _) fun _ => h.read (readOnly_checkName _) fun _ =>
    h.read (readOnly_inode _) fun _ => h.read (readOnly_inode _) fun _ => ?_
  split_ifs
  · exact h.renameWithin
  · exact h.renameAcross

end

end Upheld

end Upheld

end Volume

/-- A name in a path: it has no null byte. -/
abbrev PathName := {bs : List UInt8 // 0 ∉ bs}

/-- The operations on inodes, with the handles they are called on. -/
inductive InodeOp where
  | create (dir : ℕ) (name : PathName) (type : FileType) (perm : ℕ)
  | link (dir i : ℕ) (name : PathName)
  | unlink (dir : ℕ) (name : PathName)
  | rmdir (dir : ℕ) (name : PathName)
  | rename (dir : ℕ) (oldName : PathName) (target : ℕ) (newName : PathName)
  | resize (i newSize : ℕ)
  | writeAt (i o : ℕ) (buf : List UInt8)
  | writeDirectAt (i o : ℕ) (buf : List UInt8)
  | setFilePerm (i perm : ℕ)
  | setAtime (i time : ℕ)
  | setMtime (i time : ℕ)
  | syncMetadata (i : ℕ)

namespace InodeOp

/-- Perform the operation. -/
def run : InodeOp → FsM n Unit
  | .create dir name type perm => do
    let _ ← Volume.create dir name type perm
    pure ()
  | .link dir i name => Volume.link dir i name
  | .unlink dir name => Volume.unlink dir name
  | .rmdir dir name => Volume.rmdir dir name
  | .rename dir oldName target newName => Volume.rename dir oldName target newName
  | .resize i newSize => Volume.resize i newSize
  | .writeAt i o buf => do
    let _ ← Volume.writeAt i o buf
    pure ()
  | .writeDirectAt i o buf => do
    let _ ← Volume.writeDirectAt i o buf
    pure ()
  | .setFilePerm i perm => Volume.setFilePerm i perm
  | .setAtime i time => Volume.setAtime i time
  | .setMtime i time => Volume.setMtime i time
  | .syncMetadata i => Volume.syncMetadata i

end InodeOp

namespace Volume

/-- A successful operation. -/
def opStep (v : Volume n) (op : InodeOp) : Option (Volume n) :=
  match op.run v with
  | .ok _ v' => some v'
  | .error _ _ => none

/-- Any sequence of successful operations. -/
def opLts (n : ℕ) : Lts (Volume n) InodeOp := Lts.ofFun opStep

theorem opStep_eq_some {v v' : Volume n} {op : InodeOp} :
    v.opStep op = some v' ↔ op.run v = .ok () v' := by
  unfold opStep
  cases op.run v <;> simp

end Volume

end Jinux
