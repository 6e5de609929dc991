import Jinux.Ext2.Allocation
import Jinux.Ext2.Namei

/-!
# What a resize leaves alone

`InodeImpl_::resize` takes blocks from the groups or gives them back and changes the size, the block
count and the block pointers of one descriptor.  `Volume.Resizing` says what it does not touch, in
any run of it, failed or not.
-/

namespace Jinux

open StateRules

/-- The same inode, up to the size, the blocks and the times of its descriptor. -/
structure Inode.SameMeta (x y : Inode) : Prop where
  ino : y.ino = x.ino
  blockGroupIdx : y.blockGroupIdx = x.blockGroupIdx
  isFreed : y.isFreed = x.isFreed
  pageCache : y.pageCache = x.pageCache
  type : y.desc.type = x.desc.type
  hardLinks : y.desc.hardLinks = x.desc.hardLinks

theorem Inode.SameMeta.refl (x : Inode) : x.SameMeta x := ⟨rfl, rfl, rfl, rfl, rfl, rfl⟩

theorem Inode.SameMeta.trans {x y z : Inode} (h : x.SameMeta y) (h' : y.SameMeta z) :
    x.SameMeta z where
  ino := h'.ino.trans h.ino
  blockGroupIdx := h'.blockGroupIdx.trans h.blockGroupIdx
  isFreed := h'.isFreed.trans h.isFreed
  pageCache := h'.pageCache.trans h.pageCache
  type := h'.type.trans h.type
  hardLinks := h'.hardLinks.trans h.hardLinks

namespace Volume

variable {n : ℕ} {v v' v'' : Volume n} {i : ℕ} {x y : Inode}

/-- All but the blocks and the size of the inode `i` is as it was. -/
structure Resizing (i : ℕ) (v v' : Volume n) : Prop where
  cache : v'.cache = v.cache
  rawInodes : v'.rawInodes = v.rawInodes
  perGroup : v'.fs.perGroup = v.fs.perGroup
  sized : v.fs.Sized → v'.fs.Sized
  allocated : ∀ ino, v'.fs.Allocated .inode ino ↔ v.fs.Allocated .inode ino
  length : v'.inodes.length = v.inodes.length
  others : ∀ j, j ≠ i → v'.inodes[j]? = v.inodes[j]?
  inode : ∀ x, v.inodes[i]? = some x → ∃ y, v'.inodes[i]? = some y ∧ x.SameMeta y

theorem Resizing.refl (i : ℕ) (v : Volume n) : Resizing i v v :=
  ⟨rfl, rfl, rfl, id, fun _ => Iff.rfl, rfl, fun _ _ => rfl, fun x hx => ⟨x, hx, .refl x⟩⟩

theorem Resizing.trans (h : Resizing i v v') (h' : Resizing i v' v'') : Resizing i v v'' where
  cache := h'.cache.trans h.cache
  rawInodes := h'.rawInodes.trans h.rawInodes
  perGroup := h'.perGroup.trans h.perGroup
  sized hs := h'.sized (h.sized hs)
  allocated ino := (h'.allocated ino).trans (h.allocated ino)
  length := h'.length.trans h.length
  others j hj := (h'.others j hj).trans (h.others j hj)
  inode x hx := by
    obtain ⟨y, hy, hxy⟩ := h.inode x hx
    obtain ⟨z, hz, hyz⟩ := h'.inode y hy
    exact ⟨z, hz, hxy.trans hyz⟩

theorem Resizing.set (hx : v.inodes[i]? = some x) (hxy : x.SameMeta y) :
    Resizing i v { v with inodes := v.inodes.set i y } where
  cache := rfl
  rawInodes := rfl
  perGroup := rfl
  sized := id
  allocated _ := Iff.rfl
  length := List.length_set
  others j hj := List.getElem?_set_ne (Ne.symm hj)
  inode x' hx' := by
    rw [hx] at hx'
    obtain rfl := Option.some.inj hx'
    exact ⟨y, List.getElem?_set_self (List.getElem?_eq_some_iff.1 hx).1, hxy⟩

/-- A bit of a block bitmap changes. -/
theorem Resizing.of_setBit {fs : Ext2 n} {g : Fin n} {idx : ℕ} {b : Bool}
    (h : Ext2.SetBit v.fs fs .block g idx b) : Resizing i v { v with fs := fs } where
  cache := rfl
  rawInodes := rfl
  perGroup := h.perGroup_eq
  sized := h.sized
  allocated _ := h.allocated_of_ne nofun
  length := rfl
  others _ _ := rfl
  inode x hx := ⟨x, hx, .refl x⟩

theorem modifyDesc_resizing {f : InodeDesc → InodeDesc}
    (hf : ∀ d, (f d).type = d.type ∧ (f d).hardLinks = d.hardLinks) :
    Keeps (Resizing i) (modifyDesc i f : FsM n Unit) := by
  intro v
  cases hrun : modifyDesc i f v with
  | error e v' =>
    rw [after_of_error hrun]
    rcases bind_error.1 hrun with hread | ⟨x, v1, -, hset⟩
    · have hsame := readOnly_inode i v
      rw [after_of_error hread] at hsame
      rw [hsame]
      exact .refl i v
    · cases hset
  | ok u v' =>
    rw [after_of_ok hrun]
    obtain ⟨x, hx, rfl⟩ := modifyDesc_ok.1 hrun
    exact .set hx ⟨rfl, rfl, rfl, rfl, (hf x.desc).1, (hf x.desc).2⟩

theorem allocBlock_resizing {g : ℕ} : Keeps (Resizing i) (allocBlock g : FsM n ℕ) := by
  intro v
  cases halloc : v.fs.allocBlock g with
  | error e =>
    have hsame : after (allocBlock g) v = v := by
      simp [after, allocBlock, get_bind, halloc, liftR_error_bind]
    rw [hsame]
    exact .refl i v
  | ok r =>
    obtain ⟨⟨g', bid⟩, fs⟩ := r
    have hnext : after (allocBlock g) v = { v with fs := fs } := by
      simp only [after, allocBlock, get_bind, halloc]
      rfl
    rw [hnext]
    obtain ⟨idx, -, hbit, -⟩ := Ext2.alloc_setBit halloc
    exact .of_setBit hbit

theorem freeBlock_resizing {bid : ℕ} : Keeps (Resizing i) (freeBlock bid : FsM n Unit) := by
  intro v
  cases hfree : v.fs.freeBlock bid with
  | error e =>
    have hsame : after (freeBlock bid) v = v := by
      simp [after, freeBlock, get_bind, hfree, liftR_error_bind]
    rw [hsame]
    exact .refl i v
  | ok fs =>
    have hnext : after (freeBlock bid) v = { v with fs := fs } := by
      simp only [after, freeBlock, get_bind, hfree]
      rfl
    rw [hnext]
    obtain ⟨p, -, hbit⟩ := Ext2.free_setBit hfree
    exact .of_setBit hbit

theorem changeBlocks_resizing {oldBlocks newBlocks : ℕ} :
    Keeps (Resizing i) (changeBlocks i oldBlocks newBlocks : FsM n Unit) := by
  have hgrow : ∀ k, Keeps (Resizing i) (growBlock i k : FsM n Unit) := fun k =>
    .bind .trans ((readOnly_liftR _).keeps (.refl i)) fun _ =>
      .bind .trans ((readOnly_inode i).keeps (.refl i)) fun _ =>
        .bind .trans allocBlock_resizing fun _ => modifyDesc_resizing fun _ => ⟨rfl, rfl⟩
  have hshrink : ∀ k, Keeps (Resizing i) (shrinkBlock i k : FsM n Unit) := fun k =>
    .bind .trans ((readOnly_liftR _).keeps (.refl i)) fun _ =>
      .bind .trans ((readOnly_inode i).keeps (.refl i)) fun _ =>
        .bind .trans ((readOnly_liftR _).keeps (.refl i)) fun _ => freeBlock_resizing
  unfold changeBlocks
  split_ifs
  · exact .bind .trans (.forM (.refl i) .trans hgrow _) fun _ =>
      modifyDesc_resizing fun _ => ⟨rfl, rfl⟩
  · exact .bind .trans (.forM (.refl i) .trans hshrink _) fun _ =>
      modifyDesc_resizing fun _ => ⟨rfl, rfl⟩
  · exact .pure (.refl i) ()

/-- A resize changes nothing but the blocks and the size of its inode. -/
theorem resizeImpl_resizing {newSize : ℕ} :
    Keeps (Resizing i) (resizeImpl i newSize : FsM n Unit) :=
  .bind .trans ((readOnly_inode i).keeps (.refl i)) fun _ =>
    .bind .trans ((readOnly_liftR _).keeps (.refl i)) fun _ =>
      .bind .trans changeBlocks_resizing fun _ => modifyDesc_resizing fun _ => ⟨rfl, rfl⟩

end Volume

end Jinux
