import Jinux.Ext2.Ownership

/-!
# Symbolic links

A target of at most 60 bytes is stored in the place of the block pointers, a longer one in blocks.
`write_link` copies a short target over the pointers before `resize` frees the blocks that they
pointed to.

* `Volume.readLink_writeLink` : **a link returns its last target and owns the blocks that it needs,
  as long as no short target follows a long one**;
* `Volume.exists_block_freed` : a short target after a long one frees a block of another inode.
-/

namespace Jinux

open StateRules List InodeDesc

/-- The numbers of four bytes each. -/
def wordsOf : ℕ → List UInt8 → List ℕ
  | 0, _ => []
  | k + 1, bs => ofLe (bs.take 4) :: wordsOf k (bs.drop 4)

@[simp] theorem length_wordsOf (k : ℕ) (bs : List UInt8) : (wordsOf k bs).length = k := by
  induction k generalizing bs with
  | zero => rfl
  | succ k ih => rw [wordsOf, length_cons, ih]

theorem flatMap_wordsOf {k : ℕ} {bs : List UInt8} (h : bs.length = 4 * k) :
    (wordsOf k bs).flatMap (toLe 4) = bs := by
  induction k generalizing bs with
  | zero => exact (length_eq_zero_iff.1 h).symm
  | succ k ih =>
    have hword := toLe_ofLe (bs.take 4)
    rw [length_take, min_eq_left (by omega)] at hword
    rw [wordsOf, flatMap_cons, hword, ih (by rw [length_drop]; omega), take_append_drop]

namespace InodeDesc

section

variable {d : InodeDesc} (htype : d.type = .symlink)

include htype

theorem realBlocks_symlink : d.realBlocks = d.blocksCount := if_neg (by simp [htype])

theorem blocksFor_short {k : ℕ} (hk : k ≤ fastSymlinkMaxLen) : d.blocksFor k = 0 :=
  if_pos ⟨htype, hk⟩

theorem blocks_eq_nil (hzero : d.blocksCount = 0) : d.blocks = [] := by
  rw [blocks, realBlocks_symlink htype, hzero, take_zero]

end

/-- `desc.data.as_bytes()` -/
def dataBytes (d : InodeDesc) : List UInt8 := d.data.flatMap (toLe 4)

/-- `desc.data.as_bytes_mut()[..bs.len()].copy_from_slice(bs)` -/
def copyFromSlice (d : InodeDesc) (bs : List UInt8) : InodeDesc :=
  { d with
    data := wordsOf blockPtrCnt (bs ++ d.dataBytes.drop bs.length)
    length_data := length_wordsOf _ _ }

theorem take_copyFromSlice (d : InodeDesc) {bs : List UInt8} (h : bs.length ≤ fastSymlinkMaxLen) :
    (d.copyFromSlice bs).dataBytes.take bs.length = bs := by
  have hlen : d.dataBytes.length = 4 * blockPtrCnt := by
    simp [dataBytes, d.length_data, Nat.mul_comm]
  have hmax : fastSymlinkMaxLen = 4 * blockPtrCnt := rfl
  rw [dataBytes, copyFromSlice, flatMap_wordsOf, take_left]
  rw [length_append, length_drop]
  omega

end InodeDesc

theorem readBytes_writeBytes {c c' : PageCache} {o : ℕ} {bs : List UInt8}
    (h : c.writeBytes o bs = .ok c') : c'.readBytes o bs.length = .ok bs := by
  simp only [PageCache.writeBytes, Result.bind_ok, Result.pure_ok, debugAssert_ok] at h
  obtain ⟨-, hle, rfl⟩ := h
  rw [PageCache.readBytes, if_neg (not_lt.2 hle), readAt_writeAt]
  rfl

namespace Volume

variable {n : ℕ} {v v' : Volume n} {x y : Inode} {i : ℕ} {base : ℕ → Prop}
  {t : List UInt8} {l : List (List UInt8)} {u : Unit}

/-- `InodeImpl::write_link` -/
def writeLinkImpl (i : ℕ) (target : List UInt8) : FsM n Unit := do
  let x ← inode i
  modifyDesc i fun d => d.copyFromSlice target
  onlyIf (x.desc.size ≠ target.length) (resizeImpl i target.length)

/-- `Inner::write_link`, with the bytes of the target. -/
def writeLinkInner (i : ℕ) (target : List UInt8) : FsM n Unit :=
  if target.length ≤ fastSymlinkMaxLen then writeLinkImpl i target
  else do
    resizePages i target.length
    writePages i 0 target
    let x ← inode i
    onlyIf (x.desc.size ≠ target.length) (resizeImpl i target.length)

/-- `Inode::write_link` -/
def writeLink (i : ℕ) (target : List UInt8) : FsM n Unit := do
  let x ← inode i
  failIf (x.desc.type ≠ .symlink) (returnErrno .eisdir)
  writeLinkInner i target

/-- `Inode::read_link`, with `Inner::read_link` and `InodeImpl::read_link`. -/
def readLink (i : ℕ) : FsM n (List UInt8) := do
  let x ← inode i
  failIf (x.desc.type ≠ .symlink) (returnErrno .eisdir)
  if x.desc.size ≤ fastSymlinkMaxLen then pure (x.desc.dataBytes.take x.desc.size)
  else liftR (x.pageCache.readBytes 0 x.desc.size)

/-- The inode is a link to `t`, with the blocks that it needs. -/
structure LinksTo (t : List UInt8) (x : Inode) : Prop where
  type : x.desc.type = .symlink
  size : x.desc.size = t.length
  count : x.desc.blocksCount = x.desc.blocksFor t.length
  short : t.length ≤ fastSymlinkMaxLen → x.desc.dataBytes.take t.length = t
  long : fastSymlinkMaxLen < t.length → x.pageCache.readBytes 0 t.length = .ok t

theorem LinksTo.readLink (h : LinksTo t x) (hx : v.inodes[i]? = some x) :
    readLink i v = .ok t v := by
  rw [Volume.readLink, bind_of_ok (inode_ok.2 ⟨hx, rfl⟩),
    bind_of_ok (failIf_returnErrno_ok (u := ()).2 ⟨not_not.2 h.type, rfl⟩), h.size]
  split_ifs with hle
  · rw [h.short hle]
    rfl
  · exact liftR_ok.2 ⟨h.long (not_le.1 hle), rfl⟩

/-- A resize to the same number of blocks stores the size. -/
theorem resizeImpl_of_eq {newSize : ℕ} (hx : v.inodes[i]? = some x)
    (heq : x.desc.realBlocks = x.desc.blocksFor newSize)
    (hrun : resizeImpl i newSize v = .ok u v') :
    v' = { v with inodes :=
      v.inodes.set i { x with desc := { x.desc with size := newSize }, dirty := true } } := by
  obtain ⟨_, z, hchange, hz, rfl⟩ := resizeImpl_ok hx hrun
  rw [heq, changeBlocks, if_neg (lt_irrefl _), if_neg (lt_irrefl _)] at hchange
  cases hchange
  obtain rfl := Option.mem_unique hx hz
  rfl

section

variable (h : Owned base v) (hx : v.inodes[i]? = some x)
  (hcount : x.desc.blocksCount = x.desc.blocksFor x.desc.size)

include h hx hcount

/-- There are no blocks before and after, so that the target is not touched again. -/
theorem writeLinkImpl_linksTo (htype : x.desc.type = .symlink) (ht : t.length ≤ fastSymlinkMaxLen)
    (hsize : x.desc.size ≤ fastSymlinkMaxLen) (hrun : writeLinkImpl i t v = .ok u v') :
    Owned base v' ∧ ∃ y, v'.inodes = v.inodes.set i y ∧ LinksTo t y := by
  have hzero : x.desc.blocksCount = 0 := hcount.trans (blocksFor_short htype hsize)
  have hlt := (List.getElem?_eq_some_iff.1 hx).1
  obtain rfl : v' = { v with inodes := v.inodes.set i { x with
      desc := { x.desc.copyFromSlice t with size := t.length }, dirty := true } } := by
    simp only [writeLinkImpl, bind_ok, inode_ok, modifyDesc_ok, onlyIf_ok] at hrun
    obtain ⟨_, _, ⟨hx1, rfl⟩, _, _, ⟨_, hx2, rfl⟩, hresize⟩ := hrun
    obtain rfl := Option.mem_unique hx hx1
    obtain rfl := Option.mem_unique hx hx2
    rcases hresize with ⟨-, hresize⟩ | ⟨heq, rfl⟩
    · have hsame := resizeImpl_of_eq
        (x := { x with desc := x.desc.copyFromSlice t, dirty := true }) (getElem?_set_self hlt)
        ((realBlocks_symlink htype).trans (hzero.trans (blocksFor_short htype ht).symm)) hresize
      rwa [set_set] at hsame
    · rw [← not_not.1 heq]
      rfl
  refine ⟨h.set hx ?_ (h.aligned x (mem_of_getElem? hx)), _, rfl, htype, rfl,
    hzero.trans (blocksFor_short htype ht).symm, fun _ => x.desc.take_copyFromSlice ht,
    fun hlong => absurd hlong (not_lt.2 ht)⟩
  rw [blocks_eq_nil htype hzero]
  exact blocks_eq_nil htype hzero

/-- `Inode::write_link`, unless a short target follows a long one. -/
theorem writeLink_linksTo (hshort : t.length ≤ fastSymlinkMaxLen → x.desc.size ≤ fastSymlinkMaxLen)
    (hrun : writeLink i t v = .ok u v') :
    Owned base v' ∧ ∃ y, v'.inodes = v.inodes.set i y ∧ LinksTo t y := by
  simp only [writeLink, bind_ok, inode_ok, failIf_returnErrno_ok] at hrun
  obtain ⟨_, _, ⟨hx', rfl⟩, _, _, ⟨htype, rfl⟩, hrun⟩ := hrun
  obtain rfl := Option.mem_unique hx hx'
  rw [not_not] at htype
  rw [writeLinkInner] at hrun
  split_ifs at hrun with ht
  · exact writeLinkImpl_linksTo h hx hcount htype ht (hshort ht) hrun
  obtain ⟨hlt, rfl⟩ := List.getElem?_eq_some_iff.1 hx
  simp only [resizePages, writePages, bind_assoc, bind_ok, inode_ok, hlt, getElem?_pos,
    Option.some.injEq, liftR_ok, setPages_ok, onlyIf_ok, existsAndEq, and_true,
    exists_exists_and_eq_and, exists_const, set_set, length_set, getElem_set_self,
    exists_eq_left'] at hrun
  obtain ⟨c, hc, c', hc', hresize⟩ := hrun
  have hread := readBytes_writeBytes hc'
  have h1 := h.set (y := { v.inodes[i] with pageCache := c' }) hx rfl
    (size_writeBytes hc' ▸ dvd_size_resize hc)
  rcases hresize with ⟨-, hresize⟩ | ⟨heq, rfl⟩
  · obtain ⟨h2, y, hy, ⟨hkind, hpages⟩, hsize, hblocks⟩ := resizeImpl_set h1
      (getElem?_set_self hlt) (fun hdir => by simp [htype] at hdir) hresize
    rw [set_set] at hy
    refine ⟨h2, y, hy, hkind.trans htype, hsize, ?_, fun hle => absurd hle ht,
      fun _ => hpages ▸ hread⟩
    rw [← realBlocks_symlink (hkind.trans htype), hblocks, blocksFor, blocksFor, hkind]
  · refine ⟨h1, _, rfl, htype, not_not.1 heq, ?_, fun hle => absurd hle ht, fun _ => hread⟩
    rw [← not_not.1 heq]
    exact hcount

end

theorem getElem?_of_set (hx : v.inodes[i]? = some x) (h : v'.inodes = v.inodes.set i y) :
    v'.inodes[i]? = some y := by
  rw [h, getElem?_set_self (List.getElem?_eq_some_iff.1 hx).1]

/-- No short target follows a long one, where the target before them has `size` bytes. -/
def NoSwitch : ℕ → List (List UInt8) → Prop
  | _, [] => True
  | size, t :: ts =>
    (t.length ≤ fastSymlinkMaxLen → size ≤ fastSymlinkMaxLen) ∧ NoSwitch t.length ts

/-- **A link returns its last target.**  After a sequence of successful calls of `write_link`, of
which no one stores a short target in place of a long one, `read_link` returns the last target, the
link has the blocks that it needs, the other inodes are as they were, and the allocated blocks are
those of the inodes and the foreign ones. -/
theorem readLink_writeLink (h : Owned base v) (hx : v.inodes[i]? = some x)
    (hcount : x.desc.blocksCount = x.desc.blocksFor x.desc.size)
    (hts : NoSwitch x.desc.size (l ++ [t]))
    (hrun : (l ++ [t]).forM (writeLink i) v = .ok u v') :
    readLink i v' = .ok t v' ∧ Owned base v' ∧ ∃ y, v'.inodes = v.inodes.set i y ∧
      y.desc.blocksCount = y.desc.blocksFor t.length := by
  induction l generalizing v x with
  | nil =>
    obtain ⟨_, _, hwrite, hpure⟩ := bind_ok.1 hrun
    cases hpure
    obtain ⟨h', y, hy, hlink⟩ := writeLink_linksTo h hx hcount hts.1 hwrite
    exact ⟨hlink.readLink (getElem?_of_set hx hy), h', y, hy, hlink.count⟩
  | cons t1 l ih =>
    obtain ⟨_, v1, hwrite, hrun⟩ := bind_ok.1 hrun
    obtain ⟨h1, y, hy, hlink⟩ := writeLink_linksTo h hx hcount hts.1 hwrite
    have hrest := ih h1 (getElem?_of_set hx hy) (by rw [hlink.count, hlink.size])
      (hlink.size ▸ hts.2) hrun
    simpa only [hy, List.set_set] using hrest

/-- An empty link. -/
def emptyLink : Inode :=
  { oneBlockFile with ino := 4, desc := new .symlink 0o777, pageCache := ⟨0, fun _ => 0⟩ }

/-- A volume with this link and a file whose block is the block 2. -/
def linkVolume : Volume 1 := { oneFileVolume with inodes := [emptyLink, oneBlockFile] }

theorem linkVolume_consistent : linkVolume.Consistent where
  sized := oneFileVolume_consistent.sized
  aligned x hx := by
    rcases mem_cons.1 hx with rfl | hx
    · decide
    · exact oneFileVolume_consistent.aligned x hx
  nodup := oneFileVolume_consistent.nodup
  allocated := oneFileVolume_consistent.allocated

theorem exists_ok {z : FsM n Unit} {p : Volume n → Prop} [DecidablePred p] (h : (match z v with
    | .ok _ v' => decide (p v')
    | .error _ _ => false) = true) : ∃ v', z v = .ok () v' ∧ p v' := by
  split at h
  · next v' hz => exact ⟨v', hz, of_decide_eq_true h⟩
  · cases h

/-- A long target after a short one. -/
theorem readLink_writeLink_long : ∃ v', [[97], replicate 61 98].forM (writeLink 0) linkVolume =
    .ok () v' ∧ readLink 0 v' = .ok (replicate 61 98) v' := by
  obtain ⟨v', hrun, -⟩ := exists_ok (v := linkVolume) (p := fun _ => True)
    (z := [[97], replicate 61 98].forM (writeLink 0)) (by decide +kernel)
  exact ⟨v', hrun, (readLink_writeLink (l := [[97]]) linkVolume_consistent.owned rfl rfl
    ⟨by decide, by decide, trivial⟩ hrun).1⟩

/-- A target of the byte 2 after a long one: the block 2 of the file is freed, and the block 3 of
the link stays allocated. -/
theorem exists_block_freed : ∃ v', [replicate 61 97, [2]].forM (writeLink 0) linkVolume =
    .ok () v' ∧ v'.blocks = [2] ∧ ((v'.fs.groups 0).bitmap .block).bitset[2]? = some false ∧
      ((v'.fs.groups 0).bitmap .block).bitset[3]? = some true :=
  exists_ok (by decide +kernel)

end Volume

end Jinux
