import Jinux.Ext2.Groups

/-!
# Which numbers are allocated

A block number or an inode number stands for a bit of the bitmap of a group, through the divisions
of `block_group_of_bid` and `block_idx`.  In a file system whose bitmaps have as many bits as a
group has entries (`Ext2.Sized`) this is one to one:

* `Ext2.alloc_spec` : an allocation returns a number that was not allocated, and allocates it;
* `Ext2.free_spec` : a free leaves all other numbers alone.
-/

namespace Jinux

open Function Result Nat

namespace Ext2

variable {n : ℕ} {fs fs' : Ext2 n} {r r' : Resource} {isDir : Bool} {g : Fin n} {idx id k : ℕ}
  {b : Bool} {a : ℕ} {p : Fin n × ℕ}

/-- The number is marked as allocated in its bitmap. -/
def Allocated (fs : Ext2 n) (r : Resource) (id : ℕ) : Prop :=
  id < u32Bound ∧ ∃ p, fs.locate r id = .ok p ∧ ((fs.groups p.1).bitmap r).Allocated p.2

/-- Each bitmap has one bit for each entry of its group. -/
def Sized (fs : Ext2 n) : Prop :=
  ∀ g r, ((fs.groups g).bitmap r).bitset.length = fs.perGroup r

theorem locate_ok :
    fs.locate r id = .ok p ↔ firstId r ≤ id ∧ fs.perGroup r ≠ 0 ∧
      (id - firstId r) / fs.perGroup r = p.1 ∧
      (id - firstId r) % u32Bound % fs.perGroup r = p.2 := by
  simp only [locate, bind_ok, subUsize_ok]
  constructor
  · rintro ⟨_, ⟨hle, rfl⟩, h⟩
    split_ifs at h with h0 hlt
    · cases h
      exact ⟨hle, h0, rfl, rfl⟩
    · cases h
  · rintro ⟨hle, h0, hg, hidx⟩
    refine ⟨_, ⟨hle, rfl⟩, ?_⟩
    rw [if_neg h0, dif_pos (by omega), pure_ok]
    exact Prod.ext (Fin.ext hg) hidx

theorem idOf_ok : fs.idOf r g idx = .ok id ↔
    id < u32Bound ∧ g * fs.perGroup r + idx + firstId r = id := by
  simp only [idOf]
  split_ifs with h
  · rw [Except.ok.injEq]
    exact ⟨fun hid => ⟨hid ▸ h, hid⟩, And.right⟩
  · refine iff_of_false nofun ?_
    rintro ⟨hlt, rfl⟩
    exact h hlt

/-- The number of an entry leads back to it. -/
theorem locate_idOf (hid : fs.idOf r g idx = .ok id) (hidx : idx < fs.perGroup r) :
    fs.locate r id = .ok (g, idx) := by
  obtain ⟨hlt, rfl⟩ := idOf_ok.1 hid
  have hpos : 0 < fs.perGroup r := lt_of_le_of_lt (zero_le _) hidx
  rw [locate_ok, Nat.add_sub_cancel]
  have hdiv : (g * fs.perGroup r + idx) / fs.perGroup r = g := by
    rw [add_comm, add_mul_div_right _ _ hpos, div_eq_of_lt hidx, zero_add]
  refine ⟨le_add_left _ _, hpos.ne', hdiv, ?_⟩
  rw [mod_eq_of_lt (show g * fs.perGroup r + idx < u32Bound by omega), add_comm,
    add_mul_mod_self_right, mod_eq_of_lt hidx]

/-- Two numbers do not share a bit. -/
theorem locate_inj (hid : id < u32Bound) (hk : k < u32Bound) (h : fs.locate r id = .ok p)
    (h' : fs.locate r k = .ok p) : id = k := by
  obtain ⟨hle, -, hdiv, hmod⟩ := locate_ok.1 h
  obtain ⟨hle', -, hdiv', hmod'⟩ := locate_ok.1 h'
  rw [mod_eq_of_lt (show id - firstId r < u32Bound by omega)] at hmod
  rw [mod_eq_of_lt (show k - firstId r < u32Bound by omega)] at hmod'
  have hsame : id - firstId r = k - firstId r := by
    rw [← div_add_mod (id - firstId r) (fs.perGroup r),
      ← div_add_mod (k - firstId r) (fs.perGroup r), hdiv, hmod, hdiv', hmod']
  omega

/-- One bit of one bitmap is set to `b`. -/
structure SetBit (fs fs' : Ext2 n) (r : Resource) (g : Fin n) (idx : ℕ) (b : Bool) : Prop where
  perGroup_eq : fs'.perGroup = fs.perGroup
  set_eq : ((fs'.groups g).bitmap r).bitset = ((fs.groups g).bitmap r).bitset.set idx b
  other_eq : ∀ g' r', ¬ (g' = g ∧ r' = r) → (fs'.groups g').bitmap r' = (fs.groups g').bitmap r'

theorem SetBit.of_update {m : GroupMetadata} (hper : fs'.perGroup = fs.perGroup)
    (hgroups : fs'.groups = update fs.groups g m)
    (hbitmap : m.bitmap = update (fs.groups g).bitmap r (m.bitmap r))
    (hset : (m.bitmap r).bitset = ((fs.groups g).bitmap r).bitset.set idx b) :
    SetBit fs fs' r g idx b := by
  refine ⟨hper, ?_, fun g' r' hne => ?_⟩
  · rw [hgroups, update_self, hset]
  · rw [hgroups]
    by_cases hg : g' = g
    · subst hg
      rw [update_self, hbitmap, update_of_ne fun hr => hne ⟨rfl, hr⟩]
    · rw [update_of_ne hg]

section

variable (h : SetBit fs fs' r g idx b)

include h

theorem SetBit.sized (hs : fs.Sized) : fs'.Sized := by
  intro g' r'
  rw [h.perGroup_eq]
  by_cases hsame : g' = g ∧ r' = r
  · obtain ⟨rfl, rfl⟩ := hsame
    rw [h.set_eq, List.length_set]
    exact hs g' r'
  · rw [h.other_eq g' r' hsame]
    exact hs g' r'

theorem SetBit.locate_eq (r' : Resource) (k : ℕ) : fs'.locate r' k = fs.locate r' k := by
  simp [locate, h.perGroup_eq]

/-- What it means for the numbers: the one of the bit changes. -/
theorem SetBit.allocated_iff (hs : fs.Sized)
    (hid : id < u32Bound) (hloc : fs.locate r id = .ok (g, idx)) :
    fs'.Allocated r' k ↔ if r' = r ∧ k = id then b = true else fs.Allocated r' k := by
  have hlt : idx < ((fs.groups g).bitmap r).bitset.length := by
    obtain ⟨-, h0, -, hidx⟩ := locate_ok.1 hloc
    change _ = idx at hidx
    rw [hs g r, ← hidx]
    exact mod_lt _ (pos_of_ne_zero h0)
  simp only [Allocated, h.locate_eq]
  split_ifs with hsame
  · obtain ⟨rfl, rfl⟩ := hsame
    rw [hloc]
    simp [hid, IdAlloc.Allocated, h.set_eq, hlt]
  · refine and_congr_right fun hk => exists_congr fun p => and_congr_right fun hp => ?_
    by_cases hbit : p.1 = g ∧ r' = r
    · obtain ⟨rfl, rfl⟩ := hbit
      have hne : idx ≠ p.2 := by
        rintro rfl
        exact hsame ⟨rfl, locate_inj hk hid hp hloc⟩
      rw [IdAlloc.Allocated, IdAlloc.Allocated, h.set_eq, List.getElem?_set_ne hne]
    · rw [h.other_eq _ _ hbit]

/-- The other kind of numbers is left alone. -/
theorem SetBit.allocated_of_ne (hne : r' ≠ r) : fs'.Allocated r' k ↔ fs.Allocated r' k := by
  simp only [Allocated, h.locate_eq, h.other_eq _ _ fun hsame => hne hsame.2]

end

theorem allocLoop_ok {rounds : ℕ} (h : fs.allocLoop r isDir rounds a = .ok ((g, id), fs')) :
    ∃ idx fs₁, fs.allocSlow r isDir g = .ok (some (idx, fs₁)) ∧
      fs₁.decSuper r g idx = .ok (id, fs') := by
  induction rounds generalizing a with
  | zero => cases h
  | succ rounds ih =>
    rw [allocLoop, bind_ok] at h
    obtain ⟨g1, -, h⟩ := h
    split_ifs at h with hzero
    · exact ih h
    · obtain ⟨_ | ⟨idx, fs₁⟩, hslow, h⟩ := bind_ok.1 h
      · exact ih h
      · obtain ⟨⟨id', fs2⟩, hsuper, h⟩ := bind_ok.1 h
        cases h
        exact ⟨idx, fs₁, hslow, hsuper⟩

theorem alloc_ok (h : fs.alloc r isDir a = .ok ((g, id), fs')) :
    ∃ idx m, fs.idOf r g idx = .ok id ∧ (fs.groups g).alloc r isDir = .ok (some (idx, m)) ∧
      0 < fs.superBlock r ∧ fs' = { fs with
        groups := update fs.groups g m
        superBlock := update fs.superBlock r (fs.superBlock r - 1) } := by
  unfold alloc at h
  split_ifs at h
  · cases h
  obtain ⟨idx, fs1, hslow, hsuper⟩ := allocLoop_ok h
  obtain ⟨m, hm, rfl⟩ := allocSlow_ok hslow
  obtain ⟨hid, hpos, rfl⟩ := decSuper_ok hsuper
  exact ⟨idx, m, hid, hm, hpos, rfl⟩

/-- An allocation sets a bit that was not set. -/
theorem alloc_setBit (h : fs.alloc r isDir a = .ok ((g, id), fs')) :
    ∃ idx, fs.idOf r g idx = .ok id ∧ SetBit fs fs' r g idx true ∧
      ((fs.groups g).bitmap r).bitset[idx]? = some false := by
  obtain ⟨idx, m, hid, hm, -, rfl⟩ := alloc_ok h
  obtain ⟨halloc, -, hbitmap, -⟩ := GroupMetadata.alloc_ok hm
  obtain ⟨hget, hset⟩ := IdAlloc.alloc_eq_some halloc
  exact ⟨idx, hid, .of_update rfl rfl hbitmap hset, hget⟩

/-- The number of an entry that is in the bitmap leads back to it. -/
theorem locate_of_getElem? (hs : fs.Sized) (hid : fs.idOf r g idx = .ok id)
    (hget : ((fs.groups g).bitmap r).bitset[idx]? = some b) : fs.locate r id = .ok (g, idx) := by
  refine locate_idOf hid ?_
  rw [← hs g r]
  exact (List.getElem?_eq_some_iff.1 hget).1

/-- An allocation returns a number that was free. -/
theorem alloc_spec (hs : fs.Sized) (h : fs.alloc r isDir a = .ok ((g, id), fs')) :
    fs'.Sized ∧ ¬ fs.Allocated r id ∧
      ∀ r' k, fs'.Allocated r' k ↔ (r' = r ∧ k = id) ∨ fs.Allocated r' k := by
  obtain ⟨idx, hidOf, hbit, hfree⟩ := alloc_setBit h
  have hid : id < u32Bound := (idOf_ok.1 hidOf).1
  have hloc := locate_of_getElem? hs hidOf hfree
  refine ⟨hbit.sized hs, ?_, fun r' k => ?_⟩
  · rintro ⟨-, p, hp, halloc⟩
    rw [hloc] at hp
    cases hp
    rw [IdAlloc.Allocated, hfree] at halloc
    cases halloc
  · rw [hbit.allocated_iff hs hid hloc]
    split_ifs with hsame
    · simp [hsame]
    · simp [hsame]

/-- A free clears the bit of its number, which was set. -/
theorem free_setBit (h : fs.free r isDir id = .ok fs') :
    ∃ p, fs.locate r id = .ok p ∧ SetBit fs fs' r p.1 p.2 false := by
  rw [free, bind_ok] at h
  obtain ⟨⟨g, idx⟩, hloc, h⟩ := h
  obtain ⟨fs1, hinc, h⟩ := bind_ok.1 h
  obtain rfl := incSuper_ok hinc
  obtain ⟨m, hm, rfl⟩ := freeInGroup_ok h
  obtain ⟨hfree, hbitmap, -⟩ := GroupMetadata.free_ok hm
  obtain ⟨-, hset⟩ := IdAlloc.free_ok hfree
  exact ⟨(g, idx), hloc, .of_update rfl rfl hbitmap hset⟩

/-- A free is of a number that was allocated. -/
theorem free_spec (hs : fs.Sized) (hid : id < u32Bound) (h : fs.free r isDir id = .ok fs') :
    fs'.Sized ∧ ∀ r' k, fs'.Allocated r' k ↔ ¬ (r' = r ∧ k = id) ∧ fs.Allocated r' k := by
  obtain ⟨p, hloc, hbit⟩ := free_setBit h
  refine ⟨hbit.sized hs, fun r' k => ?_⟩
  rw [hbit.allocated_iff hs hid hloc]
  split_ifs with hsame
  · simp [hsame]
  · simp [hsame]

end Ext2

end Jinux
