import Jinux.Ext2.Resizing

/-!
# Inode objects and inode numbers

An `Inode` object outlives its inode number: `sync_metadata` frees the number of an unlinked inode,
and the object stays as long as someone has the file open.

* `Volume.SlotInv` : the inode caches lead to the objects that are not freed, and the freed ones are
  clean;
* `Volume.KeepsSlots` : a call that keeps this, all objects with their numbers, and the slots of the
  inode tables.  What the operations consist of keeps it, as long as it does not change a freed
  object (`Volume.Live`);
* `KeepsSlots.read`, `KeepsSlots.bind`, … : the rules for calls that are made of others.
-/

namespace Jinux

open StateRules List Option

namespace Volume

variable {n : ℕ} {v v' : Volume n} {i j ino : ℕ} {x y : Inode} {α β : Type}

/-- The number of each object, and whether it is freed. -/
def ids (v : Volume n) : List (ℕ × Bool) := v.inodes.map fun x => (x.ino, x.isFreed)

/-- The object of the handle is not a freed one. -/
def Spared (v : Volume n) (i : ℕ) : Prop := v.inodes[i]?.map Inode.isFreed ≠ some true

/-- The inode caches lead to the objects that are not freed, and the freed ones are clean. -/
structure SlotInv (v : Volume n) : Prop where
  sized : v.fs.Sized
  clean : ∀ (i : ℕ) (x : Inode), v.inodes[i]? = some x → x.isFreed = true →
    x.dirty = false ∧ x.desc.hardLinks = 0
  owner : ∀ (i ino : ℕ), v.ids[i]? = some (ino, false) →
    v.cache ino = some i ∧ v.fs.Allocated .inode ino
  cached : ∀ ino i, v.cache ino = some i → v.ids[i]? = some (ino, false)

/-- The same, with fixed objects and slots. -/
structure Steady (ids : List (ℕ × Bool)) (raw : ℕ → RawInode) (v : Volume n) : Prop where
  inv : v.SlotInv
  ids_eq : v.ids = ids
  raw_eq : v.rawInodes = raw

/-- The same, with fixed slots. -/
structure Kept (raw : ℕ → RawInode) (v : Volume n) : Prop where
  inv : v.SlotInv
  raw_eq : v.rawInodes = raw

/-- What is known after a failure: nothing if it is a panic. -/
def Returned (P : Volume n → Prop) : Fault → Volume n → Prop
  | .err _, v => P v
  | .panic _, _ => True

/-- The object is not freed. -/
def Live (ids : List (ℕ × Bool)) (i : ℕ) : Prop := ∀ p, ids[i]? = some p → p.2 = false

/-- Every run keeps the objects and the slots. -/
def KeepsSlots (ids : List (ℕ × Bool)) (raw : ℕ → RawInode) (z : FsM n α) : Prop :=
  Contract (Steady ids raw) z (fun _ => Steady ids raw) (Returned (Steady ids raw))

variable {ids : List (ℕ × Bool)} {raw : ℕ → RawInode} {P Q R : Volume n → Prop} {c : Prop}
  [Decidable c] {z : FsM n α} {f : α → FsM n β} {time o newSize : ℕ} {buf : List UInt8}

theorem getElem?_ids : v.ids[i]? = v.inodes[i]?.map fun x => (x.ino, x.isFreed) :=
  getElem?_map

theorem getElem?_ids_of (h : v.inodes[i]? = some x) : v.ids[i]? = some (x.ino, x.isFreed) := by
  rw [getElem?_ids, h]
  rfl

theorem Returned.of_holds (e : Fault) (h : P v) : Returned P e v := by
  cases e with
  | err e => exact h
  | panic p => trivial

theorem Returned.mono {e : Fault} (h : Returned P e v) (hPQ : P v → Q v) : Returned Q e v := by
  cases e with
  | err e => exact hPQ h
  | panic p => trivial

theorem Steady.kept (h : Steady ids raw v) : Kept raw v := ⟨h.inv, h.raw_eq⟩

theorem Steady.live_of_spared (h : Steady ids raw v) (hs : v.Spared i) : Live ids i := by
  intro p hp
  rw [← h.ids_eq, getElem?_ids, map_eq_some_iff] at hp
  obtain ⟨x, hx, rfl⟩ := hp
  rw [Spared, hx] at hs
  exact Bool.eq_false_iff.2 fun hfreed => hs (congrArg some hfreed)

/-- An object with hard links is not freed. -/
theorem Steady.live_of_hardLinks (h : Steady ids raw v) (hx : v.inodes[i]? = some x)
    (hlinks : x.desc.hardLinks ≠ 0) : Live ids i := by
  intro p hp
  rw [← h.ids_eq, getElem?_ids_of hx] at hp
  cases hp
  exact Bool.eq_false_iff.2 fun hfreed => hlinks (h.inv.clean i x hx hfreed).2

theorem Steady.live_of_cache (h : Steady ids raw v) (hcache : v.cache ino = some i) :
    Live ids i := by
  intro p hp
  have hi := h.inv.cached ino i hcache
  rw [h.ids_eq, hp] at hi
  cases hi
  rfl

/-! ### One object changes -/

theorem ids_set (hx : v.inodes[i]? = some x) (hino : y.ino = x.ino)
    (hfreed : y.isFreed = x.isFreed) :
    ({ v with inodes := v.inodes.set i y } : Volume n).ids = v.ids := by
  refine ext_getElem? fun j => ?_
  rw [getElem?_ids, getElem?_ids]
  by_cases hj : i = j
  · subst hj
    rw [List.getElem?_set_self (List.getElem?_eq_some_iff.1 hx).1, hx, map_some,
      map_some, hino, hfreed]
  · rw [getElem?_set_ne hj]

theorem Steady.set (h : Steady ids raw v) (hx : v.inodes[i]? = some x) (hino : y.ino = x.ino)
    (hfreed : y.isFreed = x.isFreed)
    (hclean : y.isFreed = true → y.dirty = false ∧ y.desc.hardLinks = 0) :
    Steady ids raw { v with inodes := v.inodes.set i y } := by
  have hids := ids_set hx hino hfreed
  refine ⟨⟨h.inv.sized, fun j z hz hzfreed => ?_, fun j ino hj => ?_, fun ino j hj => ?_⟩,
    hids.trans h.ids_eq, h.raw_eq⟩
  · by_cases hij : i = j
    · subst hij
      rw [List.getElem?_set_self (List.getElem?_eq_some_iff.1 hx).1] at hz
      cases hz
      exact hclean hzfreed
    · rw [getElem?_set_ne hij] at hz
      exact h.inv.clean j z hz hzfreed
  · rw [hids] at hj
    exact h.inv.owner j ino hj
  · rw [hids]
    exact h.inv.cached ino j hj

theorem Resizing.ids_eq (hr : Resizing i v v') : v'.ids = v.ids := by
  refine ext_getElem? fun j => ?_
  rw [getElem?_ids, getElem?_ids]
  by_cases hj : j = i
  · subst hj
    cases hx : v.inodes[j]? with
    | none =>
      rw [getElem?_eq_none_iff] at hx
      rw [getElem?_eq_none (hr.length ▸ hx)]
    | some x =>
      obtain ⟨y, hy, hxy⟩ := hr.inode x hx
      rw [hy, map_some, map_some, hxy.ino, hxy.isFreed]
  · rw [hr.others j hj]

theorem Steady.resizing (h : Steady ids raw v) (hlive : Live ids i) (hr : Resizing i v v') :
    Steady ids raw v' := by
  have hids := hr.ids_eq
  refine ⟨⟨hr.sized h.inv.sized, fun j y hy hfreed => ?_, fun j ino hj => ?_, fun ino j hj => ?_⟩,
    hids.trans h.ids_eq, hr.rawInodes.trans h.raw_eq⟩
  · by_cases hj : j = i
    · subst hj
      have hy' := getElem?_ids_of hy
      rw [hids, h.ids_eq] at hy'
      exact absurd hfreed (Bool.eq_false_iff.1 (hlive _ hy'))
    · rw [hr.others j hj] at hy
      exact h.inv.clean j y hy hfreed
  · rw [hids] at hj
    rw [hr.cache, hr.allocated]
    exact h.inv.owner j ino hj
  · rw [hr.cache] at hj
    rw [hids]
    exact h.inv.cached ino j hj

/-! ### Rules -/

theorem KeepsSlots.bind (hz : KeepsSlots ids raw z) (hf : ∀ a, KeepsSlots ids raw (f a)) :
    KeepsSlots ids raw (z >>= f) :=
  Contract.bind hz hf

theorem KeepsSlots.pure (a : α) : KeepsSlots ids raw (Pure.pure a : FsM n α) :=
  Contract.pure fun _ h => h

theorem KeepsSlots.of_readOnly (h : ReadOnly z) : KeepsSlots ids raw z :=
  h.contract fun e _ hv => .of_holds e hv

theorem KeepsSlots.read (hz : ReadOnly z) (hf : ∀ a, KeepsSlots ids raw (f a)) :
    KeepsSlots ids raw (z >>= f) :=
  .bind (.of_readOnly hz) hf

theorem KeepsSlots.onlyIf {z : FsM n Unit} (h : c → KeepsSlots ids raw z) :
    KeepsSlots ids raw (onlyIf c z) := onlyIf_contract h

theorem KeepsSlots.forM {γ : Type} {g : γ → FsM n PUnit} {l : List γ}
    (h : ∀ a, KeepsSlots ids raw (g a)) : KeepsSlots ids raw (l.forM g) :=
  Contract.forM fun a _ => h a

/-- `onErr`: the handler starts from what holds after an error. -/
theorem onErr_contract {h : FsM n Unit} {M : α → Volume n → Prop} (hz : Contract P z M (Returned Q))
    (hh : Contract Q h (fun _ => R) (Returned R)) : Contract P (onErr z h) M (Returned R) := by
  intro v hv
  have hz' := hz v hv
  unfold onErr
  rcases hrun : z v with ⟨a, v1⟩ | ⟨e | p, v1⟩
  · rw [hrun] at hz'
    exact hz'
  · rw [hrun] at hz'
    have hh' := hh v1 hz'
    dsimp only
    cases hrun' : h v1 with
    | ok u v2 | error f v2 =>
      rw [hrun'] at hh'
      exact hh'
  · exact trivial

theorem KeepsSlots.resizeImpl (hlive : Live ids i) :
    KeepsSlots ids raw (resizeImpl i newSize : FsM n Unit) :=
  resizeImpl_resizing.contract (fun _ _ h hr => h.resizing hlive hr) fun e _ hv => .of_holds e hv

theorem inode_contract (hPQ : ∀ v, P v → Q v) : Contract P (inode i : FsM n Inode)
    (fun x v => v.inodes[i]? = some x ∧ P v) (Returned Q) :=
  (readOnly_inode i).contract_ok (fun e v hv => .of_holds e (hPQ v hv)) fun _ _ hv hrun =>
    ⟨(inode_ok.1 hrun).1, hv⟩

theorem KeepsSlots.setPages {pages : PageCache} :
    KeepsSlots ids raw (setPages i pages : FsM n Unit) := by
  refine Contract.bind (inode_contract fun _ h => h) fun x => ?_
  rintro v ⟨hx, h⟩
  exact h.set hx rfl rfl fun hfreed => h.inv.clean i x hx hfreed

theorem KeepsSlots.modifyDesc (hlive : Live ids i) {f : InodeDesc → InodeDesc} :
    KeepsSlots ids raw (modifyDesc i f : FsM n Unit) := by
  refine Contract.bind (inode_contract fun _ h => h) fun x => ?_
  rintro v ⟨hx, h⟩
  refine h.set hx rfl rfl fun hfreed => ?_
  have hx' := getElem?_ids_of hx
  rw [h.ids_eq] at hx'
  exact absurd hfreed (Bool.eq_false_iff.1 (hlive _ hx'))

theorem KeepsSlots.setFilePerm (hlive : Live ids i) {perm : ℕ} :
    KeepsSlots ids raw (setFilePerm i perm : FsM n Unit) := .modifyDesc hlive

theorem KeepsSlots.setAtime (hlive : Live ids i) :
    KeepsSlots ids raw (setAtime i time : FsM n Unit) := .modifyDesc hlive

theorem KeepsSlots.setMtime (hlive : Live ids i) :
    KeepsSlots ids raw (setMtime i time : FsM n Unit) := .modifyDesc hlive

/-! ### `Inner` -/

section Inner

variable {name : List UInt8}

section

variable (hlive : Live ids i)

include hlive

theorem KeepsSlots.incHardLinks : KeepsSlots ids raw (incHardLinks i : FsM n Unit) :=
  .read (readOnly_inode i) fun _ =>
    .read (readOnly_liftR _) fun _ => .modifyDesc hlive

theorem KeepsSlots.decHardLinks : KeepsSlots ids raw (decHardLinks i : FsM n Unit) :=
  .read (readOnly_inode i) fun _ =>
    .read (readOnly_liftR _) fun _ => .modifyDesc hlive

theorem KeepsSlots.appendEntry {e : DirEntry} :
    KeepsSlots ids raw (appendEntry i e o : FsM n Unit) :=
  .read (readOnly_liftR _) fun _ => .read (readOnly_inode i) fun _ =>
    .read (readOnly_liftR _) fun _ => .bind .setPages fun _ =>
      .bind (.onlyIf fun _ => .resizeImpl hlive) fun _ => .onlyIf fun _ => .incHardLinks hlive

theorem KeepsSlots.removeEntry : KeepsSlots ids raw (removeEntry i name : FsM n Unit) :=
  .read (readOnly_inode i) fun _ => .read (readOnly_liftR _) fun _ =>
    .bind .setPages fun _ => .read (readOnly_liftR _) fun _ =>
      .bind (.onlyIf fun _ => .resizeImpl hlive) fun _ => .onlyIf fun _ => .decHardLinks hlive

theorem KeepsSlots.renameEntry {newName : List UInt8} :
    KeepsSlots ids raw (renameEntry i name newName o : FsM n Unit) :=
  .read (readOnly_inode i) fun _ => .read (readOnly_liftR _) fun _ =>
    .bind .setPages fun _ => .onlyIf fun _ => .resizeImpl hlive

end

theorem KeepsSlots.setParentIno {parentIno : ℕ} :
    KeepsSlots ids raw (setParentIno i parentIno : FsM n Unit) :=
  .read (readOnly_inode i) fun _ => .read (readOnly_liftR _) fun _ =>
    .read (readOnly_liftR _) fun _ => .setPages

theorem KeepsSlots.init (hlive : Live ids i) {dirIno : ℕ} :
    KeepsSlots ids raw (init i dirIno : FsM n Unit) :=
  .read (readOnly_inode i) fun _ => .onlyIf fun _ =>
    .read (readOnly_liftR _) fun _ => .bind (.appendEntry hlive) fun _ =>
      .read (readOnly_liftR _) fun _ => .appendEntry hlive

theorem KeepsSlots.resizePages : KeepsSlots ids raw (resizePages i newSize : FsM n Unit) := by
  refine .read (readOnly_inode i) fun x => ?_
  -- the elaborator would compute the new size
  generalize x.pageCache.resize newSize = pages
  exact .read (readOnly_liftR pages) fun _ => .setPages

theorem KeepsSlots.writePages : KeepsSlots ids raw (writePages i o buf : FsM n Unit) :=
  .read (readOnly_inode i) fun _ =>
    .read (readOnly_liftR _) fun _ => .setPages

theorem KeepsSlots.resizeInner (hlive : Live ids i) :
    KeepsSlots ids raw (resizeInner i newSize : FsM n Unit) :=
  .bind .resizePages fun _ => .resizeImpl hlive

end Inner

/-! ### Operations that make no objects -/

/-- A directory that was not removed, and what the inode cache leads to, is not freed. -/
theorem upheld_steady :
    Upheld (n := n) (Steady ids raw) (Returned (Steady ids raw)) (Live ids) where
  fails e _ h := .of_holds e h
  linked _ _ _ h := h.live_of_hardLinks
  cached _ _ _ h := h.live_of_cache
  appendEntry hlive := KeepsSlots.appendEntry hlive
  removeEntry := KeepsSlots.removeEntry
  renameEntry hlive := KeepsSlots.renameEntry hlive
  setParentIno := KeepsSlots.setParentIno
  incHardLinks := KeepsSlots.incHardLinks
  decHardLinks := KeepsSlots.decHardLinks

section Operations

theorem KeepsSlots.resize (hlive : Live ids i) :
    KeepsSlots ids raw (resize i newSize : FsM n Unit) :=
  .read (readOnly_inode i) fun _ => .read (readOnly_failIf _) fun _ =>
    .onlyIf fun _ => .resizeInner hlive

theorem KeepsSlots.writeAt (hlive : Live ids i) :
    KeepsSlots ids raw (writeAt i o buf : FsM n ℕ) := by
  refine .read (readOnly_inode i) fun _ =>
    .read (readOnly_failIf _) fun _ => .read (readOnly_liftR _) fun _ =>
      .bind ?_ fun _ => .pure _
  split_ifs
  · exact .read (readOnly_liftR _) fun _ => .bind .resizePages fun _ =>
      .bind .writePages fun _ => .resizeImpl hlive
  · exact .writePages

theorem KeepsSlots.writeDirectAt (hlive : Live ids i) :
    KeepsSlots ids raw (writeDirectAt i o buf : FsM n ℕ) := by
  refine .read (readOnly_inode i) fun _ =>
    .read (readOnly_failIf _) fun _ => .read (readOnly_failIf _) fun _ =>
      .bind ?_ fun _ => .pure _
  refine .read (readOnly_inode i) fun _ =>
    .read (readOnly_liftR _) fun _ =>
      .bind (.onlyIf fun _ => .resizeInner hlive) fun _ => .forM fun bid => ?_
  exact .read (readOnly_inode i) fun _ => .read (readOnly_liftR _) fun _ =>
    .read (readOnly_failIf _) fun _ => .read (readOnly_liftR _) fun _ =>
      .setPages

end Operations

end Volume

end Jinux
