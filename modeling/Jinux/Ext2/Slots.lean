import Jinux.Ext2.SlotInv
import Jinux.Ext2.Symlink
import Jinux.Lib.Table

/-!
# Who writes the slot of an inode

`sync_metadata` frees the number of an unlinked inode, and the number can be given to a new file
while the old object exists.  The slot of the number in the inode table must then be written for the
new file alone.

`sync_metadata` checks `is_freed` before it frees the number, but not before it writes the slot.  So
a freed object must not become dirty again, and nothing in the code sees to that:

* `Volume.returnLts` : any sequence of operations that return, with a value or an error;
* `SlotOp.Spares` : the operation does not change a freed object;
* `Volume.slots_written_by_owner` : **if no operation of a run changes a freed object, then a freed
  object does not write, and a slot is written for the object in the inode cache alone**;
* `Volume.exists_slot_of_new_file_overwritten` : a run that changes the permission of a freed object
  and then overwrites the slot of the new file.
-/

namespace Jinux

open StateRules Function List Contract Table

/-! ### Runs -/

namespace Volume

/-- `Inode::set_device_id`, with `InodeImpl::set_device_id` -/
def setDeviceId {n : ℕ} (i deviceId : ℕ) : FsM n Unit := do
  let x ← inode i
  failIf (x.desc.type ≠ .block ∧ x.desc.type ≠ .char) (returnErrno .eisdir)
  modifyDesc i fun d => d.copyFromSlice (toLe 8 deviceId)

end Volume

/-- An operation on inodes, or one that writes into the place of the block pointers. -/
inductive SlotOp where
  | inode (op : InodeOp)
  | writeLink (i : ℕ) (target : List UInt8)
  | setDeviceId (i deviceId : ℕ)

/-- The call. -/
def SlotOp.run {n : ℕ} : SlotOp → FsM n Unit
  | .inode op => op.run
  | .writeLink i target => Volume.writeLink i target
  | .setDeviceId i deviceId => Volume.setDeviceId i deviceId

namespace Volume

variable {n : ℕ} {z : FsM n α}

/-- An operation that returns, with a value or with an error. -/
def opReturns (v : Volume n) (op : SlotOp) : Option (Volume n) :=
  match op.run v with
  | .ok _ v' => some v'
  | .error (.err _) v' => some v'
  | .error (.panic _) _ => none

/-- Any sequence of operations that return. -/
def returnLts (n : ℕ) : Lts (Volume n) SlotOp := Lts.ofFun opReturns

end Volume

/-- The operation does not change a freed object.  The operations that are not listed change live
directories and what the inode cache leads to. -/
def InodeOp.Spares {n : ℕ} (v : Volume n) : InodeOp → Prop
  | .link _ i _ => v.Spared i
  | .resize i _ => v.Spared i
  | .writeAt i _ _ => v.Spared i
  | .writeDirectAt i _ _ => v.Spared i
  | .setFilePerm i _ => v.Spared i
  | .setAtime i _ => v.Spared i
  | .setMtime i _ => v.Spared i
  | _ => True

@[inherit_doc InodeOp.Spares]
def SlotOp.Spares {n : ℕ} (v : Volume n) : SlotOp → Prop
  | .inode op => op.Spares v
  | .writeLink i _ => v.Spared i
  | .setDeviceId i _ => v.Spared i

namespace Volume

variable {n : ℕ} {v v' : Volume n} {i j ino : ℕ} {x y : Inode} {α β : Type}
  {ids : List (ℕ × Bool)} {raw : ℕ → RawInode}

/-! ### A new object -/

theorem isInodeAllocated_of_allocated (h : v.fs.Allocated .inode ino) :
    v.isInodeAllocated ino = .ok true := by
  obtain ⟨-, p, hp, hbit⟩ := h
  rw [isInodeAllocated, Result.bind_ok]
  exact ⟨p, hp, index_ok.2 hbit⟩

theorem insertCache_run (h : v.isInodeAllocated ino = .ok true) :
    insertCache ino i v = .ok () { v with cache := update v.cache ino (some i) } := by
  simp only [insertCache, get_bind, h]
  rfl

variable {fs : Ext2 n} {isDir : Bool} {op : SlotOp} {type : FileType} {p : Fin n × ℕ}

/-- The objects with one more at the end, which the cache leads to. -/
theorem SlotInv.create (h : v.SlotInv) (hsized : fs.Sized) (hfree : ¬v.fs.Allocated .inode x.ino)
    (halloc : ∀ k, fs.Allocated .inode k ↔ k = x.ino ∨ v.fs.Allocated .inode k)
    (hlive : x.isFreed = false) :
    Steady (v.ids ++ [(x.ino, false)]) v.rawInodes ⟨fs, v.inodes ++ [x],
      update v.cache x.ino (some v.inodes.length), v.rawInodes⟩ := by
  have hlen : v.ids.length = v.inodes.length := length_map _
  have hids : Volume.ids (⟨fs, v.inodes ++ [x],
      update v.cache x.ino (some v.inodes.length), v.rawInodes⟩ : Volume n) =
        v.ids ++ [(x.ino, false)] := by
    rw [Volume.ids, map_append, map_singleton, hlive]
    rfl
  refine ⟨⟨hsized, fun j y hy hfreed => ?_, fun j k hj => ?_, fun k j hj => ?_⟩, hids, rfl⟩
  · rcases getElem?_concat_eq_some.1 hy with hy | ⟨-, rfl⟩
    · exact h.clean j y hy hfreed
    · rw [hlive] at hfreed
      cases hfreed
  · rw [hids] at hj
    rcases getElem?_concat_eq_some.1 hj with hj | ⟨rfl, hk⟩
    · obtain ⟨hcache, hk⟩ := h.owner j k hj
      have hne : k ≠ x.ino := by
        rintro rfl
        exact hfree hk
      exact ⟨(update_of_ne hne _ _).trans hcache, (halloc k).2 (.inr hk)⟩
    · obtain rfl : x.ino = k := congrArg Prod.fst hk
      rw [hlen]
      exact ⟨update_self _ _ _, (halloc _).2 (.inl rfl)⟩
  · rw [hids, getElem?_concat_eq_some]
    rcases update_some_eq_some.1 hj with ⟨rfl, rfl⟩ | ⟨-, hj⟩
    · exact .inr ⟨hlen.symm, rfl⟩
    · exact .inl (h.cached k j hj)

theorem createInode_run {g perm : ℕ} {g' : Fin n} (hsized : v.fs.Sized)
    (halloc : v.fs.allocIno g (type = .dir) = .ok ((g', ino), fs)) :
    createInode g type perm v = .ok v.inodes.length
      ⟨fs, v.inodes ++ [⟨ino, g', .new type perm, true, false, ⟨0, fun _ => 0⟩⟩],
        update v.cache ino (some v.inodes.length), v.rawInodes⟩ := by
  obtain ⟨-, -, hiff⟩ := Ext2.alloc_spec hsized halloc
  simp only [createInode, get_bind, halloc]
  exact bind_of_ok (insertCache_run
    (isInodeAllocated_of_allocated ((hiff .inode ino).2 (.inl ⟨rfl, rfl⟩))))

/-- `create_inode` puts a new object at the end of the list. -/
theorem createInode_contract {g perm : ℕ} :
    Contract (Steady ids raw) (createInode g type perm : FsM n ℕ)
      (fun i v => i = ids.length ∧ ∃ ino, Steady (ids ++ [(ino, false)]) raw v)
      (Returned (Steady ids raw)) := by
  intro v h
  cases halloc : v.fs.allocIno g (type = .dir) with
  | error e =>
    have hrun : createInode g type perm v = .error e v := by
      simp [createInode, get_bind, halloc, liftR_error_bind]
    rw [hrun]
    exact .of_holds e h
  | ok r =>
    obtain ⟨⟨g', ino⟩, fs⟩ := r
    obtain ⟨hsized, hfree, hiff⟩ := Ext2.alloc_spec h.inv.sized halloc
    have hiff' : ∀ k, fs.Allocated .inode k ↔ k = ino ∨ v.fs.Allocated .inode k := by
      intro k
      rw [hiff, and_iff_right rfl]
    obtain ⟨x, hx⟩ : ∃ x : Inode, x = ⟨ino, g', .new type perm, true, false, ⟨0, fun _ => 0⟩⟩ :=
      ⟨_, rfl⟩
    rw [createInode_run h.inv.sized halloc, ← hx]
    have hsteady := h.inv.create (x := x) hsized (hx ▸ hfree) (hx ▸ hiff')
      (by rw [hx])
    have hino : x.ino = ino := by rw [hx]
    rw [hino, h.ids_eq, h.raw_eq] at hsteady
    refine ⟨?_, ino, ?_⟩
    · rw [← h.ids_eq]
      exact (length_map _).symm
    · rw [h.raw_eq]
      exact hsteady

theorem freeInode_run_ok (h : v.fs.freeInode ino isDir = .ok fs) :
    freeInode ino isDir v = .ok () { v with fs := fs, cache := update v.cache ino none } := by
  simp only [freeInode, get_bind, h]
  rfl

theorem freeInode_run_error {e : Fault} (h : v.fs.freeInode ino isDir = .error e) :
    freeInode ino isDir v = .error e v := by
  simp [freeInode, get_bind, h, liftR_error_bind]

/-- The number of the last object is free again, and the object is gone. -/
theorem Steady.drop (h : Steady (ids ++ [(ino, false)]) raw v)
    (hfree : v.fs.freeInode ino isDir = .ok fs) :
    Steady ids raw ⟨fs, v.inodes.take ids.length, update v.cache ino none, v.rawInodes⟩ := by
  have hlast : v.ids[ids.length]? = some (ino, false) := by
    rw [h.ids_eq, getElem?_concat_length]
  obtain ⟨hcache, halloc⟩ := h.inv.owner _ _ hlast
  obtain ⟨hsized, hiff⟩ := Ext2.free_spec h.inv.sized halloc.1 hfree
  have htake : (v.inodes.take ids.length).map (fun x => (x.ino, x.isFreed)) = ids := by
    rw [map_take]
    change v.ids.take ids.length = ids
    rw [h.ids_eq, take_left]
  have hold : ∀ {j : ℕ} {p : ℕ × Bool}, ids[j]? = some p → v.ids[j]? = some p := by
    intro j p hj
    rw [h.ids_eq, List.getElem?_append_left (List.getElem?_eq_some_iff.1 hj).1, hj]
  refine ⟨⟨hsized, fun j y hy hfreed => ?_, fun j k hj => ?_, fun k j hj => ?_⟩, htake, h.raw_eq⟩
  · refine h.inv.clean j y ?_ hfreed
    rw [getElem?_take] at hy
    split_ifs at hy
    exact hy
  · have hj' : ids[j]? = some (k, false) := by
      rw [← htake]
      exact hj
    obtain ⟨hk, hkalloc⟩ := h.inv.owner j k (hold hj')
    have hne : k ≠ ino := by
      rintro rfl
      rw [hcache] at hk
      cases hk
      rw [getElem?_eq_none (Nat.le_refl _)] at hj'
      cases hj'
    exact ⟨(update_of_ne hne _ _).trans hk, (hiff .inode k).2 ⟨fun heq => hne heq.2, hkalloc⟩⟩
  · obtain ⟨hne, hj⟩ := update_none_eq_some.1 hj
    have hk := h.inv.cached k j hj
    rw [h.ids_eq, getElem?_concat_eq_some] at hk
    rcases hk with hk | ⟨-, hk⟩
    · rw [← htake] at hk
      exact hk
    · exact absurd (congrArg Prod.fst hk).symm hne

theorem dropCreated_run (i ino : ℕ) (isDir : Bool) (v : Volume n) :
    (∃ fs, v.fs.freeInode ino isDir = .ok fs ∧ dropCreated i ino isDir v =
      .ok () ⟨fs, v.inodes.take i, update v.cache ino none, v.rawInodes⟩) ∨
    ∃ p, dropCreated i ino isDir v = .error (.panic p) v := by
  cases hfree : v.fs.freeInode ino isDir with
  | ok fs =>
    have hunwrap : unwrapM (freeInode ino isDir) v =
        .ok () { v with fs := fs, cache := update v.cache ino none } := by
      rw [unwrapM, freeInode_run_ok hfree]
    rw [dropCreated, bind_of_ok hunwrap]
    exact .inl ⟨fs, rfl, rfl⟩
  | error e =>
    obtain ⟨p, hp⟩ : ∃ p, unwrapM (freeInode ino isDir) v = .error (.panic p) v := by
      rw [unwrapM, freeInode_run_error hfree]
      cases e with
      | err e => exact ⟨_, rfl⟩
      | panic p => exact ⟨p, rfl⟩
    rw [dropCreated, bind_of_error hp]
    exact .inr ⟨p, rfl⟩

/-- The object of a `create` that fails. -/
theorem dropCreated_contract :
    Contract (Steady (ids ++ [(ino, false)]) raw) (dropCreated ids.length ino isDir : FsM n Unit)
      (fun _ => Steady ids raw) (Returned (Steady ids raw)) := by
  intro v h
  rcases dropCreated_run ids.length ino isDir v with ⟨fs, hfree, hrun⟩ | ⟨p, hrun⟩
  · rw [hrun]
    exact h.drop hfree
  · rw [hrun]
    trivial

theorem Live.concat (h : Live ids i) : Live (ids ++ [(ino, false)]) i := by
  intro p hp
  rcases getElem?_concat_eq_some.1 hp with hp | ⟨-, rfl⟩
  · exact h p hp
  · rfl

theorem live_length : Live (ids ++ [(ino, false)]) ids.length := by
  intro p hp
  rw [getElem?_concat_length] at hp
  cases hp
  rfl

/-- The part of `create` after the new object is made, which takes it back on an error. -/
theorem created_contract (hz : KeepsSlots (ids ++ [(ino, false)]) raw z) :
    Contract (Steady (ids ++ [(ino, false)]) raw)
      (onErr z (dropCreated ids.length ino isDir)) (fun _ => Steady (ids ++ [(ino, false)]) raw)
      (Returned (Kept raw)) :=
  (onErr_contract hz dropCreated_contract).weaken (fun _ h => h) (fun _ _ h => h)
    fun _ _ h => h.mono Steady.kept

theorem create_contract {dir perm : ℕ} {name : List UInt8} :
    Contract (Steady ids raw) (create dir name type perm : FsM n ℕ) (fun _ => Kept raw)
      (Returned (Kept raw)) := by
  have hread {ids : List (ℕ × Bool)} {γ : Type} {z : FsM n γ} (hz : ReadOnly z) :
      Contract (Steady ids raw) z (fun _ => Steady ids raw) (Returned (Kept raw)) :=
    hz.contract_ok (fun e _ h => .of_holds e h.kept) fun _ _ h _ => h
  refine bind (upheld_steady.liveDir.weaken (fun _ h => h) (fun _ _ h => h)
    fun _ _ h => h.mono Steady.kept) fun x => intro fun hdir => ?_
  refine bind (hread (readOnly_checkName _)) fun _ =>
    bind (hread (readOnly_failIf _)) fun _ =>
      bind (createInode_contract.weaken (fun _ h => h) (fun _ _ h => h)
        fun _ _ h => h.mono Steady.kept) fun i => intro fun hi => ?_
  subst hi
  -- the object at the end is the new one
  refine bind (M := fun new v => Steady (ids ++ [(new.ino, false)]) raw v)
    ((readOnly_inode _).contract_ok (fun e _ ⟨_, h⟩ => .of_holds e h.kept)
      fun v new ⟨ino, h⟩ hrun => ?_) fun new => ?_
  · have hnew := getElem?_ids_of (inode_ok.1 hrun).1
    rw [h.ids_eq, getElem?_concat_length] at hnew
    have hino : ino = new.ino := congrArg Prod.fst (Option.some.inj hnew)
    rw [← hino]
    exact h
  · exact bind (created_contract (.init live_length)) fun _ =>
      bind (hread (readOnly_liftR _)) fun _ =>
        bind (created_contract (.appendEntry hdir.concat)) fun _ =>
          pure fun _ h => h.kept

/-! ### Writing back -/

/-- The slots are as they were, up to that of a live object. -/
structure Written (ids : List (ℕ × Bool)) (raw : ℕ → RawInode) (i : ℕ) (v : Volume n) : Prop where
  inv : v.SlotInv
  raw_eq : ∀ ino, v.rawInodes ino ≠ raw ino → ids[i]? = some (ino, false)

theorem syncInode_run {d : InodeDesc} (h : v.fs.locate .inode ino = .ok p) :
    syncInode ino d v = .ok () { v with rawInodes := update v.rawInodes ino (.ofDesc d) } := by
  simp only [syncInode, get_bind, h]
  rfl

theorem writeBack_run (hx : v.inodes[i]? = some x) (h : v.fs.locate .inode x.ino = .ok p) :
    writeBack i v = .ok () { v with
      rawInodes := update v.rawInodes x.ino (.ofDesc x.desc)
      inodes := v.inodes.set i { x with dirty := false } } := by
  rw [writeBack, bind_of_ok (inode_ok.2 ⟨hx, rfl⟩), bind_of_ok (syncInode_run h)]
  rfl

/-- A linked object is written back. -/
theorem Steady.writeBack (h : Steady ids raw v) (hx : v.inodes[i]? = some x)
    (hlive : x.isFreed = false) : ∃ v', writeBack i v = .ok () v' ∧ Written ids raw i v' := by
  have hi := getElem?_ids_of hx
  rw [hlive] at hi
  obtain ⟨-, -, p, hp, -⟩ := h.inv.owner i x.ino hi
  refine ⟨_, writeBack_run hx hp, ?_, fun ino hne => ?_⟩
  · have hset := h.set (y := { x with dirty := false }) hx rfl rfl fun hfreed =>
      ⟨rfl, (h.inv.clean i x hx hfreed).2⟩
    exact ⟨hset.inv.sized, hset.inv.clean, hset.inv.owner, hset.inv.cached⟩
  · rw [← h.ids_eq, hi]
    by_contra hino
    refine hne ?_
    dsimp only
    rw [update_of_ne fun heq => hino (by rw [heq]), h.raw_eq]

/-- An object is freed and clean, and the cache does not lead to it any more. -/
theorem SlotInv.release (h : v.SlotInv) (hx : v.inodes[i]? = some x) (hlive : x.isFreed = false)
    (hlinks : x.desc.hardLinks = 0) (hfree : v.fs.freeInode x.ino isDir = .ok fs)
    (rawInodes : ℕ → RawInode) :
    SlotInv ⟨fs, v.inodes.set i { x with isFreed := true, dirty := false },
      update v.cache x.ino none, rawInodes⟩ := by
  have hi := getElem?_ids_of hx
  rw [hlive] at hi
  obtain ⟨hcache, halloc⟩ := h.owner i x.ino hi
  obtain ⟨hsized, hiff⟩ := Ext2.free_spec h.sized halloc.1 hfree
  have hlt : i < v.inodes.length := (List.getElem?_eq_some_iff.1 hx).1
  obtain ⟨w, hw⟩ : ∃ w : Volume n, w = ⟨fs,
    v.inodes.set i { x with isFreed := true, dirty := false },
    update v.cache x.ino none, rawInodes⟩ := ⟨_, rfl⟩
  have hself : w.inodes[i]? = some { x with isFreed := true, dirty := false } := by
    rw [hw, getElem?_set_self hlt]
  have hothers : ∀ j, j ≠ i → w.inodes[j]? = v.inodes[j]? := by
    intro j hj
    rw [hw, getElem?_set_ne hj.symm]
  have hwcache : w.cache = update v.cache x.ino none := by rw [hw]
  rw [← hw]
  refine ⟨by rw [hw]; exact hsized, fun j y hy hfreed => ?_, fun j k hj => ?_, fun k j hj => ?_⟩
  · rcases eq_or_ne j i with rfl | hne
    · rw [hself] at hy
      cases hy
      exact ⟨rfl, hlinks⟩
    · rw [hothers j hne] at hy
      exact h.clean j y hy hfreed
  · rcases eq_or_ne j i with rfl | hne
    · rw [getElem?_ids_of hself] at hj
      cases hj
    · rw [getElem?_ids, hothers j hne, ← getElem?_ids] at hj
      obtain ⟨hk, hkalloc⟩ := h.owner j k hj
      have hkne : k ≠ x.ino := by
        rintro rfl
        rw [hcache] at hk
        exact hne (Option.some.inj hk).symm
      rw [hwcache, update_of_ne hkne, hw]
      exact ⟨hk, (hiff .inode k).2 ⟨fun heq => hkne heq.2, hkalloc⟩⟩
  · rw [hwcache] at hj
    obtain ⟨hkne, hj⟩ := update_none_eq_some.1 hj
    have hk := h.cached k j hj
    rcases eq_or_ne j i with rfl | hne
    · rw [hi] at hk
      exact absurd (congrArg Prod.fst (Option.some.inj hk)).symm hkne
    · rw [getElem?_ids, hothers j hne, ← getElem?_ids]
      exact hk

/-- The object of the handle has lost its last link and is not freed. -/
structure Unlinked (ids : List (ℕ × Bool)) (raw : ℕ → RawInode) (i : ℕ) (v : Volume n) : Prop where
  object : ∃ x, v.inodes[i]? = some x ∧ x.isFreed = false ∧ x.desc.hardLinks = 0
  steady : Steady ids raw v

theorem resizeImpl_unlinked {newSize : ℕ} : Contract (Unlinked ids raw i)
    (resizeImpl i newSize : FsM n Unit) (fun _ => Unlinked ids raw i) (Returned (Kept raw)) := by
  refine resizeImpl_resizing.contract (fun v v' hv hr => ?_)
    fun e _ hv => .of_holds e hv.steady.kept
  obtain ⟨⟨x, hx, hlive, hlinks⟩, h⟩ := hv
  obtain ⟨y, hy, hxy⟩ := hr.inode x hx
  refine ⟨⟨y, hy, hxy.isFreed.trans hlive, hxy.hardLinks.trans hlinks⟩, h.resizing ?_ hr⟩
  intro p hp
  rw [← h.ids_eq, getElem?_ids_of hx] at hp
  cases hp
  exact hlive

/-- The number of an unlinked object is freed, and the object can then be written back. -/
theorem releaseIno_contract : Contract (Unlinked ids raw i) (releaseIno i : FsM n Unit)
    (fun _ v => ∃ v', writeBack i v = .ok () v' ∧ Written ids raw i v') (Returned (Kept raw)) := by
  rintro v ⟨⟨x, hx, hlive, hlinks⟩, h⟩
  rw [releaseIno, bind_of_ok (inode_ok.2 ⟨hx, rfl⟩), onlyIf, if_pos hlive]
  cases hfree : v.fs.freeInode x.ino (x.desc.type = .dir) with
  | error e =>
    rw [bind_of_error (freeInode_run_error hfree)]
    exact .of_holds e h.kept
  | ok fs =>
    rw [bind_of_ok (freeInode_run_ok hfree)]
    have hi := getElem?_ids_of hx
    rw [hlive] at hi
    obtain ⟨-, -, p, hp, -⟩ := h.inv.owner i x.ino hi
    obtain ⟨q, -, hbit⟩ := Ext2.free_setBit hfree
    have hlt : i < v.inodes.length := (List.getElem?_eq_some_iff.1 hx).1
    refine ⟨_, writeBack_run
      (getElem?_set_self hlt) ((hbit.locate_eq _ _).trans hp), ?_, fun ino hne => ?_⟩
    · rw [set_set]
      exact h.inv.release hx hlive hlinks hfree _
    · rw [← h.ids_eq, hi]
      by_contra hino
      refine hne ?_
      dsimp only
      rw [update_of_ne fun heq => hino (by rw [heq]), h.raw_eq]

/-- `sync_metadata` writes the slot of a live object, or nothing. -/
theorem syncMetadata_contract : Contract (Steady ids raw) (syncMetadata i : FsM n Unit)
    (fun _ => Written ids raw i) (Returned (Kept raw)) := by
  refine bind (inode_contract fun _ h => h.kept) fun x => ?_
  have hlive {v : Volume n} (hdirty : x.dirty = true) (hx : v.inodes[i]? = some x)
      (h : Steady ids raw v) : x.isFreed = false := by
    refine Bool.eq_false_iff.2 fun hfreed => ?_
    rw [(h.inv.clean i x hx hfreed).1] at hdirty
    cases hdirty
  unfold onlyIf
  split_ifs with hdirty hlinks
  · have hrelease : Contract (Unlinked ids raw i) (releaseUnlinked i : FsM n Unit)
        (fun _ v => ∃ v', writeBack i v = .ok () v' ∧ Written ids raw i v') (Returned (Kept raw)) :=
      resizeImpl_unlinked.bind fun _ => releaseIno_contract
    refine bind (hrelease.weaken (fun v hv => ?_) (fun _ _ h => h) fun _ _ h => h) fun _ => ?_
    · exact ⟨⟨x, hv.1, hlive hdirty hv.1 hv.2, hlinks⟩, hv.2⟩
    · rintro v ⟨v', hrun, hwritten⟩
      rw [hrun]
      exact hwritten
  · rintro v ⟨hx, h⟩
    obtain ⟨v', hrun, hwritten⟩ := h.writeBack hx (hlive hdirty hx h)
    rw [bind_of_ok (pure_run () v), hrun]
    exact hwritten
  · rintro v ⟨-, h⟩
    exact ⟨h.inv, fun ino hne => absurd (congrFun h.raw_eq ino) hne⟩

/-! ### All operations -/

/-- The invariant holds, and a slot that changed is that of a live object that was written back. -/
structure Served (op : SlotOp) (ids : List (ℕ × Bool)) (raw : ℕ → RawInode) (v : Volume n) :
    Prop where
  inv : v.SlotInv
  slot : ∀ ino, v.rawInodes ino ≠ raw ino →
    ∃ i, op = .inode (.syncMetadata i) ∧ ids[i]? = some (ino, false)

theorem Kept.served (h : Kept raw v) : Served op ids raw v :=
  ⟨h.inv, fun ino hne => absurd (congrFun h.raw_eq ino) hne⟩

theorem Contract.served
    (h : Contract (Steady ids raw) z (fun _ => Kept raw) (Returned (Kept raw))) :
    Contract (Steady ids raw) z (fun _ => Served op ids raw) (Returned (Served op ids raw)) :=
  h.weaken (fun _ h => h) (fun _ _ h => h.served) fun _ _ h => h.mono Kept.served

theorem KeepsSlots.kept (h : KeepsSlots ids raw z) :
    Contract (Steady ids raw) z (fun _ => Kept raw) (Returned (Kept raw)) :=
  h.weaken (fun _ h => h) (fun _ _ h => h.kept) fun _ _ h => h.mono Steady.kept

theorem KeepsSlots.writeLink (hlive : Live ids i) {target : List UInt8} :
    KeepsSlots ids raw (writeLink i target : FsM n Unit) := by
  refine .read (readOnly_inode i) fun _ => .read (readOnly_failIf _) fun _ => ?_
  unfold writeLinkInner
  split_ifs
  · exact .read (readOnly_inode i) fun _ => .bind (.modifyDesc hlive) fun _ =>
      .onlyIf fun _ => .resizeImpl hlive
  · exact .bind .resizePages fun _ => .bind .writePages fun _ =>
      .read (readOnly_inode i) fun _ => .onlyIf fun _ => .resizeImpl hlive

/-- An operation that does not change a freed object. -/
theorem run_contract (hspares : op.Spares v) (h : Steady ids raw v) :
    Contract (Steady ids raw) (op.run : FsM n Unit) (fun _ => Served op ids raw)
      (Returned (Served op ids raw)) := by
  have hkeeps {z : FsM n Unit} (hz : KeepsSlots ids raw z) :
      Contract (Steady ids raw) z (fun _ => Served op ids raw) (Returned (Served op ids raw)) :=
    Contract.served hz.kept
  have hvoid {γ : Type} {z : FsM n γ} (hz : KeepsSlots ids raw z) :
      Contract (Steady ids raw) (z >>= fun _ => pure ()) (fun _ => Served op ids raw)
        (Returned (Served op ids raw)) := hkeeps (hz.bind fun _ => .pure ())
  cases op with
  | writeLink i target => exact hkeeps (.writeLink (h.live_of_spared hspares))
  | setDeviceId i deviceId =>
    exact hkeeps (.read (readOnly_inode i) fun _ => .read (readOnly_failIf _) fun _ =>
      .modifyDesc (h.live_of_spared hspares))
  | inode op =>
    cases op with
    | create dir name type perm =>
      exact Contract.served (create_contract.bind fun _ => Contract.pure fun _ h => h)
    | link dir i name => exact hkeeps (upheld_steady.link (h.live_of_spared hspares))
    | unlink dir name => exact hkeeps upheld_steady.unlink
    | rmdir dir name => exact hkeeps upheld_steady.rmdir
    | rename dir oldName target newName => exact hkeeps upheld_steady.rename
    | resize i newSize => exact hkeeps (.resize (h.live_of_spared hspares))
    | writeAt i o buf => exact hvoid (.writeAt (h.live_of_spared hspares))
    | writeDirectAt i o buf => exact hvoid (.writeDirectAt (h.live_of_spared hspares))
    | setFilePerm i perm => exact hkeeps (.setFilePerm (h.live_of_spared hspares))
    | setAtime i time => exact hkeeps (.setAtime (h.live_of_spared hspares))
    | setMtime i time => exact hkeeps (.setMtime (h.live_of_spared hspares))
    | syncMetadata i =>
      refine syncMetadata_contract.weaken (fun _ h => h) (fun _ _ h => ?_) fun _ _ h => ?_
      · exact ⟨h.inv, fun ino hne => ⟨i, rfl, h.raw_eq ino hne⟩⟩
      · exact h.mono Kept.served

theorem opReturns_served (hspares : op.Spares v) (h : v.SlotInv) (hs : v.opReturns op = some v') :
    Served op v.ids v.rawInodes v' := by
  have hsteady : Steady v.ids v.rawInodes v := ⟨h, rfl, rfl⟩
  have hrun := run_contract hspares hsteady v hsteady
  rw [opReturns] at hs
  rcases hout : op.run v with ⟨u, v1⟩ | ⟨e | p, v1⟩
  · rw [hout] at hrun hs
    cases hs
    exact hrun
  · rw [hout] at hrun hs
    cases hs
    exact hrun
  · rw [hout] at hs
    cases hs

/-- **If no operation of a run changes a freed object, then a freed object is not written back, and
each slot is written for the object that the inode cache leads to.** -/
theorem slots_written_by_owner {v₀ v : Volume n} (h₀ : v₀.SlotInv)
    (hr : ((returnLts n).restrict fun v op => op.Spares v).Reachable v₀ v) :
    (∀ (i : ℕ) (x : Inode), v.inodes[i]? = some x → x.isFreed = true →
      syncMetadata i v = .ok () v) ∧
    ∀ op v', op.Spares v → v.opReturns op = some v' → ∀ ino, v'.rawInodes ino ≠ v.rawInodes ino →
      ∃ (i : ℕ) (x : Inode), op = .inode (.syncMetadata i) ∧ v.inodes[i]? = some x ∧ x.ino = ino ∧
        x.isFreed = false ∧ v.cache ino = some i := by
  have h : v.SlotInv := hr.invariant h₀ fun _ _ _ h hs => (opReturns_served hs.1 h hs.2).inv
  constructor
  · intro i x hx hfreed
    have hclean : ¬x.dirty = true := Bool.eq_false_iff.1 (h.clean i x hx hfreed).1
    rw [syncMetadata, bind_of_ok (inode_ok.2 ⟨hx, rfl⟩), onlyIf, if_neg hclean]
    rfl
  · intro op v' hspares hs ino hne
    obtain ⟨i, hop, hi⟩ := (opReturns_served hspares h hs).slot ino hne
    obtain ⟨hcache, -⟩ := h.owner i ino hi
    rw [getElem?_ids, Option.map_eq_some_iff] at hi
    obtain ⟨x, hx, hids⟩ := hi
    obtain ⟨hino, hfreed⟩ := Prod.mk.inj hids
    exact ⟨i, x, hop, hx, hino, hfreed, hcache⟩

/-! ### A run -/

/-- The records `"."` and `".."` of a root directory. -/
def rootRecords : List UInt8 :=
  [2, 0, 0, 0, 12, 0, 1, 2, 46, 0, 0, 0, 2, 0, 0, 0, 0xf4, 0x0f, 2, 2, 46, 46, 0, 0]

/-- A root directory without files, with the block 2. -/
def rootDirectory : Inode where
  ino := 2
  blockGroupIdx := 0
  desc := { (InodeDesc.new .dir 0o755).setData 0 2 with
    size := blockSize, blocksCount := 1, hardLinks := 2 }
  dirty := false
  isFreed := false
  pageCache := ⟨blockSize, fun o => rootRecords.getD o 0⟩

/-- A volume with this directory. -/
def rootVolume : Volume 1 where
  fs := oneGroup
  inodes := [rootDirectory]
  cache := fun ino => if ino = 2 then some 0 else none
  rawInodes := fun _ => .ofDesc rootDirectory.desc

theorem rootVolume_slotInv : rootVolume.SlotInv where
  sized _ _ := rfl
  clean i x hx hfreed := by
    obtain rfl := mem_singleton.1 (mem_of_getElem? hx)
    cases hfreed
  owner i ino hi := by
    obtain rfl : ino = 2 := congrArg Prod.fst (List.mem_singleton.1 (List.mem_of_getElem? hi))
    obtain rfl : i = 0 := by
      have hlt := (List.getElem?_eq_some_iff.1 hi).1
      exact Nat.lt_one_iff.1 hlt
    exact ⟨rfl, by decide, ((0 : Fin 1), 1), rfl, rfl⟩
  cached ino i hi := by
    simp only [rootVolume, Option.ite_none_right_eq_some, Option.some.injEq] at hi
    obtain ⟨rfl, rfl⟩ := hi
    rfl

/-- A file is unlinked and its number is freed, and a new file receives the number. -/
def reuse (a b : PathName) : List SlotOp :=
  [.inode (.create 0 a .file 0o644), .inode (.unlink 0 a), .inode (.syncMetadata 1),
    .inode (.create 0 b .file 0o644), .inode (.syncMetadata 2)]

/-- The new file is written back, and writing back the old one does nothing. -/
theorem slots_written_by_owner_reuse :
    ∃ v, ((returnLts 1).restrict fun v op => op.Spares v).Reachable rootVolume v ∧
      v.ids = [(2, false), (4, true), (4, false)] ∧ (v.rawInodes 4).hardLinks = 1 ∧
      syncMetadata 1 v = .ok () v := by
  have hrun : (Lts.run opReturns rootVolume (reuse ⟨[97], by decide⟩ ⟨[98], by decide⟩)).map
      (fun v => (v.ids, (v.rawInodes 4).hardLinks)) =
        some ([(2, false), (4, true), (4, false)], 1) := by
    decide +kernel
  obtain ⟨v, hv, hproj⟩ := Option.map_eq_some_iff.1 hrun
  obtain ⟨hids, hlinks⟩ := Prod.mk.inj hproj
  have hr : ((returnLts 1).restrict fun v op => op.Spares v).Reachable rootVolume v := by
    refine Lts.reachable_run_restrict (fun w op hop => ?_) hv
    simp only [reuse, mem_cons, not_mem_nil, or_false] at hop
    rcases hop with rfl | rfl | rfl | rfl | rfl <;> trivial
  have hold : v.ids[1]? = some (4, true) := by rw [hids]; rfl
  rw [getElem?_ids, Option.map_eq_some_iff] at hold
  obtain ⟨x, hx, hxid⟩ := hold
  exact ⟨v, hr, hids, hlinks,
    (slots_written_by_owner rootVolume_slotInv hr).1 1 x hx (Prod.mk.inj hxid).2⟩

/-- After a change of its permission the old file is written over the new one. -/
theorem exists_slot_of_new_file_overwritten :
    ∃ v v', (returnLts 1).Reachable rootVolume v ∧
      v.ids = [(2, false), (4, true), (4, false)] ∧ v.cache 4 = some 2 ∧
      (v.rawInodes 4).hardLinks = 1 ∧ syncMetadata 1 v = .ok () v' ∧
      (v'.rawInodes 4).hardLinks = 0 := by
  have hrun : (Lts.run opReturns rootVolume
      (reuse ⟨[97], by decide⟩ ⟨[98], by decide⟩ ++ [.inode (.setFilePerm 1 0)])).bind (fun v =>
      match syncMetadata 1 v with
      | .ok _ v' => some (v.ids, v.cache 4, (v.rawInodes 4).hardLinks, (v'.rawInodes 4).hardLinks)
      | .error _ _ => none) = some ([(2, false), (4, true), (4, false)], some 2, 1, 0) := by
    decide +kernel
  obtain ⟨v, hv, hrun⟩ := Option.bind_eq_some_iff.1 hrun
  split at hrun
  next v' hsync =>
    simp only [Option.some.injEq, Prod.mk.injEq] at hrun
    obtain ⟨hids, hcache, hbefore, hafter⟩ := hrun
    exact ⟨v, v', Lts.reachable_run hv, hids, hcache, hbefore, hsync, hafter⟩
  next => cases hrun

end Volume

end Jinux
