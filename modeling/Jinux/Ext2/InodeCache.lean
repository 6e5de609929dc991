import Jinux.Ext2.Inode
import Jinux.Lib.Lts
import Jinux.Lib.Table

/-!
# The inode cache of a block group

`lookup_inode` returns the object of an inode from the cache, and otherwise makes one from the slot
of the inode table and puts it into the cache.  `sync_all_inodes` takes the objects that nobody uses
out of the cache, writes them back without holding the lock of the group, and drops them; then it
writes back the objects that are left.

* `GroupCache` : a block group with its `Inode` objects, the threads that are in `lookup_inode`, and
  the thread that is in `sync_all_inodes`.  A step is what happens under one lock.
* `GroupCache.latest` : for each inode the raw form of the descriptor that was assigned last, to
  whichever object.
* `GroupCache.Inv` : an inode has one object at most, and a slot is as old as the latest descriptor
  unless the object is dirty.  `Inv.frame` is for the steps that change references only, and
  `Inv.update` for those that change one object.
-/

namespace Jinux

open Function Option

/-! ### The group -/

/-- How a slot of the inode table holds a descriptor. -/
structure SlotFormat (Desc Raw : Type) where
  /-- `RawInode::from` -/
  toRaw : Desc → Raw
  /-- `InodeDesc::try_from` -/
  tryFrom : Raw → Result Desc
  /-- The field `hard_links`. -/
  hardLinks : Desc → ℕ

/-- An `Inode` object of a group of `n` inodes. -/
structure CachedInode (n : ℕ) (Desc : Type) where
  idx : Fin n
  desc : Desc
  dirty : Bool
  /-- `is_freed` -/
  isFreed : Bool

/-- Where the thread in `sync_all_inodes` is.  The objects of a vector are those that are written
back and those that are still to be. -/
inductive SyncAll where
  /-- Not in `sync_all_inodes`. -/
  | idle
  /-- It writes back `unused_inodes`. -/
  | unused (done todo : List ℕ)
  /-- It has dropped them. -/
  | dropped
  /-- It writes back `remaining_inodes`. -/
  | remaining (done todo : List ℕ)

namespace SyncAll

/-- The objects that the thread holds. -/
def held : SyncAll → List ℕ
  | unused done todo => done ++ todo
  | remaining done todo => done ++ todo
  | _ => []

/-- The objects that the thread took out of the cache. -/
def taken : SyncAll → List ℕ
  | unused done todo => done ++ todo
  | _ => []

/-- Those of them that are to be written back. -/
def todo : SyncAll → List ℕ
  | unused _ todo => todo
  | _ => []

theorem held_of_taken {p : SyncAll} {o : ℕ} (h : o ∈ p.taken) : o ∈ p.held := by
  cases p with
  | unused done todo => exact h
  | _ => cases h

end SyncAll

/-- A block group of `n` inodes, with the threads `ι`. -/
structure GroupCache (ι : Type) (n : ℕ) (Desc Raw : Type) where
  /-- All `Inode` objects that were made, also those that are gone. -/
  objs : List (CachedInode n Desc)
  /-- The references to an object that are neither in the cache nor in `sync_all_inodes`. -/
  strong : ℕ → ℕ
  /-- `inode_cache` -/
  cache : Fin n → Option ℕ
  /-- `is_inode_allocated` -/
  allocated : Fin n → Bool
  /-- The slots, as `raw_inodes_cache` shows them. -/
  slots : Fin n → Raw
  /-- The descriptor of an inode that was assigned last. -/
  latest : Fin n → Raw
  /-- The threads between the two paths of `lookup_inode`. -/
  lookups : ι → Option (Fin n)
  /-- The thread in `sync_all_inodes`. -/
  sync : SyncAll

/-- A step of some thread. -/
inductive CacheStep (ι : Type) (n : ℕ) (Desc : Type) where
  /-- The fast path of `lookup_inode`. -/
  | fastPath (t : ι) (idx : Fin n)
  /-- The slow path of `lookup_inode`. -/
  | slowPath (t : ι)
  | clone (o : ℕ)
  | drop (o : ℕ)
  | change (o : ℕ) (desc : Desc)
  /-- `sync_all` of an object, by a thread that has a reference to it. -/
  | syncInode (o : ℕ) (resized : Desc) (fails : Bool)
  | extractUnused
  /-- `sync_all` of the next unused object. -/
  | syncUnused (resized : Desc) (fails : Bool)
  | dropUnused
  | cloneRemaining
  /-- `sync_all` of the next object that is left. -/
  | syncRemaining (resized : Desc) (fails : Bool)
  | dropRemaining

namespace GroupCache

variable {ι : Type} {n : ℕ} {Desc Raw : Type} (F : SlotFormat Desc Raw)

/-- A group that is just loaded. -/
def load (allocated : Fin n → Bool) (slots : Fin n → Raw) : GroupCache ι n Desc Raw where
  objs := []
  strong := fun _ => 0
  cache := fun _ => none
  allocated := allocated
  slots := slots
  latest := slots
  lookups := fun _ => none
  sync := .idle

/-- One more reference to an object. -/
def cloned (s : GroupCache ι n Desc Raw) (o : ℕ) : GroupCache ι n Desc Raw :=
  { s with strong := update s.strong o (s.strong o + 1) }

/-- `load_inode` -/
def loadInode (s : GroupCache ι n Desc Raw) (idx : Fin n) : Result (CachedInode n Desc) := do
  let desc ← F.tryFrom (s.slots idx)
  pure ⟨idx, desc, false, false⟩

/-- A new object in the cache, with a reference to it. -/
def inserted (s : GroupCache ι n Desc Raw) (x : CachedInode n Desc) : GroupCache ι n Desc Raw :=
  { s with
    objs := s.objs ++ [x]
    strong := update s.strong s.objs.length 1
    cache := update s.cache x.idx (some s.objs.length) }

/-- The fast path of `lookup_inode`, under the lock for reading. -/
def fastPath [DecidableEq ι] (s : GroupCache ι n Desc Raw) (t : ι) (idx : Fin n) :
    GroupCache ι n Desc Raw :=
  if s.allocated idx then
    match s.cache idx with
    | some o => s.cloned o
    | none => { s with lookups := update s.lookups t (some idx) }
  else s

/-- The slow path of `lookup_inode`, under the lock for writing. -/
def slowPath (s : GroupCache ι n Desc Raw) (idx : Fin n) : GroupCache ι n Desc Raw :=
  if s.allocated idx then
    match s.cache idx with
    | some o => s.cloned o
    | none =>
      match loadInode F s idx with
      | .ok x => s.inserted x
      | .error _ => s
  else s

/-- Assign a descriptor to an object. -/
def assigned (s : GroupCache ι n Desc Raw) (o : ℕ) (x : CachedInode n Desc) (desc : Desc) :
    GroupCache ι n Desc Raw :=
  { s with
    objs := s.objs.set o { x with desc := desc, dirty := true }
    latest := update s.latest x.idx (F.toRaw desc) }

/-- Free the number of an object: `BlockGroup::free_inode`. -/
def freed (s : GroupCache ι n Desc Raw) (o : ℕ) (x : CachedInode n Desc) :
    GroupCache ι n Desc Raw :=
  { s with
    objs := s.objs.set o { x with isFreed := true }
    allocated := update s.allocated x.idx false
    cache := update s.cache x.idx none }

/-- Write an object to its slot: `sync_raw_inode` and `clear_dirty`. -/
def written (s : GroupCache ι n Desc Raw) (o : ℕ) (x : CachedInode n Desc) :
    GroupCache ι n Desc Raw :=
  { s with
    objs := s.objs.set o { x with dirty := false }
    slots := update s.slots x.idx (F.toRaw x.desc) }

/-- The end of `sync_metadata` for an object without hard links. -/
def syncUnlinked (s : GroupCache ι n Desc Raw) (o : ℕ) (x : CachedInode n Desc) (fails : Bool) :
    Option (GroupCache ι n Desc Raw) :=
  if fails then some s
  else if x.isFreed then some (s.written F o x)
  else if s.allocated x.idx then some ((s.freed o x).written F o { x with isFreed := true })
  else none

/-- `Inode::sync_all`, under the lock of the inode, which fails or not.  For an inode without hard
links `resize(0)` changes the descriptor to `resized`. -/
def syncAll (s : GroupCache ι n Desc Raw) (o : ℕ) (resized : Desc) (fails : Bool) :
    Option (GroupCache ι n Desc Raw) := do
  let x ← s.objs[o]?
  if x.dirty = false then some s
  else if F.hardLinks x.desc = 0 then
    if F.hardLinks resized = 0 then
      (s.assigned F o x resized).syncUnlinked F o { x with desc := resized, dirty := true } fails
    else none
  else if fails then some s
  else some (s.written F o x)

/-- The objects in the cache, in the order of their indices. -/
def cachedObjs (s : GroupCache ι n Desc Raw) : List ℕ := (List.finRange n).filterMap s.cache

/-- The objects in the cache whose strong count is 1. -/
def unusedObjs (s : GroupCache ι n Desc Raw) : List ℕ :=
  s.cachedObjs.filter fun o => s.strong o = 0

/-- The cache without them. -/
def usedCache (s : GroupCache ι n Desc Raw) (idx : Fin n) : Option ℕ :=
  (s.cache idx).filter fun o => s.strong o ≠ 0

/-- A step.  It is not taken if a thread is not at that point, or where an assertion fails. -/
def step [DecidableEq ι] (s : GroupCache ι n Desc Raw) :
    CacheStep ι n Desc → Option (GroupCache ι n Desc Raw)
  | .fastPath t idx => if s.lookups t = none then some (s.fastPath t idx) else none
  | .slowPath t => do
    let idx ← s.lookups t
    pure (slowPath F { s with lookups := update s.lookups t none } idx)
  | .clone o => if 0 < s.strong o then some (s.cloned o) else none
  | .drop o =>
    if 0 < s.strong o then some { s with strong := update s.strong o (s.strong o - 1) }
    else none
  | .change o desc => do
    let x ← s.objs[o]?
    if 0 < s.strong o then pure (s.assigned F o x desc) else none
  | .syncInode o resized fails =>
    if 0 < s.strong o then s.syncAll F o resized fails else none
  | .extractUnused =>
    match s.sync with
    | .idle => some { s with cache := s.usedCache, sync := .unused [] s.unusedObjs }
    | _ => none
  | .syncUnused resized fails =>
    match s.sync with
    | .unused done (o :: todo) =>
      (s.syncAll F o resized fails).map fun s =>
        { s with sync := if fails then .idle else .unused (done ++ [o]) todo }
    | _ => none
  | .dropUnused =>
    match s.sync with
    | .unused _ [] => some { s with sync := .dropped }
    | _ => none
  | .cloneRemaining =>
    match s.sync with
    | .dropped => some { s with sync := .remaining [] s.cachedObjs }
    | _ => none
  | .syncRemaining resized fails =>
    match s.sync with
    | .remaining done (o :: todo) =>
      (s.syncAll F o resized fails).map fun s =>
        { s with sync := if fails then .idle else .remaining (done ++ [o]) todo }
    | _ => none
  | .dropRemaining =>
    match s.sync with
    | .remaining _ [] => some { s with sync := .idle }
    | _ => none

/-- Any interleaving of these steps. -/
def lts [DecidableEq ι] : Lts (GroupCache ι n Desc Raw) (CacheStep ι n Desc) :=
  Lts.ofFun (step F)

/-! ### Objects that exist -/

variable {F} {s s' : GroupCache ι n Desc Raw} {o o' : ℕ} {x y : CachedInode n Desc} {idx : Fin n}
  {fails : Bool}

/-- Some thread has a reference to the object. -/
def Held (s : GroupCache ι n Desc Raw) (o : ℕ) : Prop := 0 < s.strong o ∨ o ∈ s.sync.held

/-- The object is referred to. -/
def Alive (s : GroupCache ι n Desc Raw) (o : ℕ) : Prop := (∃ idx, s.cache idx = some o) ∨ s.Held o

/-- The object `o` exists, with these fields. -/
structure Has (s : GroupCache ι n Desc Raw) (o : ℕ) (x : CachedInode n Desc) : Prop where
  alive : s.Alive o
  obj : s.objs[o]? = some x

/-! ### The invariant -/

/-- What is known of a slot while an object of its inode exists. -/
def Current (F : SlotFormat Desc Raw) (s : GroupCache ι n Desc Raw) (x : CachedInode n Desc) :
    Prop :=
  if x.dirty = true then s.latest x.idx = F.toRaw x.desc else s.slots x.idx = s.latest x.idx

/-- An inode has at most one object, which is in the cache, taken out of it, or freed.  A slot is as
old as the latest descriptor, unless the object is dirty. -/
structure Inv (F : SlotFormat Desc Raw) (s : GroupCache ι n Desc Raw) : Prop where
  cached : ∀ idx o, s.cache idx = some o →
    ∃ x, s.objs[o]? = some x ∧ x.idx = idx ∧ x.isFreed = false
  known : ∀ o, s.Alive o → o < s.objs.length
  taken : ∀ o x, o ∈ s.sync.taken → s.objs[o]? = some x →
    s.strong o = 0 ∧ s.cache x.idx = none ∧ (o ∈ s.sync.todo ∨ x.dirty = false)
  unique : ∀ o o' x y, s.Has o x → s.Has o' y → x.idx = y.idx → o = o'
  linked : ∀ o x, s.Has o x → x.isFreed = false →
    s.allocated x.idx = true ∧ (s.cache x.idx = some o ∨ o ∈ s.sync.taken)
  freed : ∀ o x, s.Has o x → x.isFreed = true → s.allocated x.idx = false
  current : ∀ o x, s.Has o x → x.isFreed = false → s.Current F x
  resting : ∀ idx, s.allocated idx = true → (∀ o x, s.Has o x → x.idx ≠ idx) →
    s.slots idx = s.latest idx

theorem inv_load {allocated : Fin n → Bool} {slots : Fin n → Raw} :
    Inv F (load allocated slots : GroupCache ι n Desc Raw) := by
  have hnone : ∀ o, ¬(load allocated slots : GroupCache ι n Desc Raw).Alive o := by
    rintro o (⟨idx, h⟩ | h | h)
    · cases h
    · exact absurd h (Nat.lt_irrefl 0)
    · cases h
  refine ⟨nofun, fun o h => absurd h (hnone o), nofun, fun o _ _ _ h => absurd h.alive (hnone o),
    fun o _ h => absurd h.alive (hnone o), fun o _ h => absurd h.alive (hnone o),
    fun o _ h => absurd h.alive (hnone o), fun _ _ _ => rfl⟩

/-- A step that changes references only.  An object that goes is freed or clean. -/
theorem Inv.frame (h : Inv F s) (hobjs : s'.objs = s.objs) (hallocated : s'.allocated = s.allocated)
    (hslots : s'.slots = s.slots) (hlatest : s'.latest = s.latest)
    (halive : ∀ o, s'.Alive o → s.Alive o)
    (hcache : ∀ idx o, s'.cache idx = some o → s.cache idx = some o)
    (htaken : ∀ o x, o ∈ s'.sync.taken → s.objs[o]? = some x →
      s'.strong o = 0 ∧ s'.cache x.idx = none ∧ (o ∈ s'.sync.todo ∨ x.dirty = false))
    (hlinked : ∀ o x, s'.Alive o → s.Has o x → s.cache x.idx = some o ∨ o ∈ s.sync.taken →
      s'.cache x.idx = some o ∨ o ∈ s'.sync.taken)
    (hgone : ∀ o x, s.Has o x → ¬s'.Alive o → x.isFreed = true ∨ x.dirty = false) : Inv F s' := by
  have hhas : ∀ {o x}, s'.Has o x → s.Has o x := fun hx =>
    ⟨halive _ hx.alive, by rw [← hobjs]; exact hx.obj⟩
  refine ⟨fun idx o hi => ?_, fun o ho => ?_, fun o x ho hx => ?_, fun o o' x y hx hy hidx => ?_,
    fun o x hx hlive => ?_, fun o x hx hfreed => ?_, fun o x hx hlive => ?_,
    fun idx halloc hnone => ?_⟩
  · rw [hobjs]
    exact h.cached idx o (hcache idx o hi)
  · rw [hobjs]
    exact h.known o (halive o ho)
  · rw [hobjs] at hx
    exact htaken o x ho hx
  · exact h.unique o o' x y (hhas hx) (hhas hy) hidx
  · obtain ⟨halloc, hplace⟩ := h.linked o x (hhas hx) hlive
    rw [hallocated]
    exact ⟨halloc, hlinked o x hx.alive (hhas hx) hplace⟩
  · rw [hallocated]
    exact h.freed o x (hhas hx) hfreed
  · rw [Current, hslots, hlatest]
    exact h.current o x (hhas hx) hlive
  · rw [hallocated] at halloc
    rw [hslots, hlatest]
    by_cases hsome : ∃ o x, s.Has o x ∧ x.idx = idx
    · obtain ⟨o, x, hx, rfl⟩ := hsome
      have hnot : ¬s'.Alive o := fun ho => hnone o x ⟨ho, by rw [hobjs]; exact hx.obj⟩ rfl
      have hlive : x.isFreed = false := by
        refine Bool.eq_false_iff.2 fun hfreed => ?_
        rw [h.freed o x hx hfreed] at halloc
        cases halloc
      have hclean : x.dirty = false := (hgone o x hx hnot).resolve_left (by rw [hlive]; nofun)
      have hcurrent := h.current o x hx hlive
      rw [Current, hclean] at hcurrent
      exact hcurrent
    · push Not at hsome
      exact h.resting idx halloc hsome

theorem Inv.has_of_cached (h : Inv F s) (hcache : s.cache idx = some o) :
    ∃ x, s.Has o x ∧ x.idx = idx ∧ x.isFreed = false := by
  obtain ⟨x, hx, hidx, hlive⟩ := h.cached idx o hcache
  exact ⟨x, ⟨.inl ⟨idx, hcache⟩, hx⟩, hidx, hlive⟩

theorem Inv.has_of_taken (hx : s.objs[o]? = some x) (ho : o ∈ s.sync.taken) : s.Has o x :=
  ⟨.inr (.inr (SyncAll.held_of_taken ho)), hx⟩

/-- The cache does not lead to a freed object. -/
theorem Inv.cache_of_freed (h : Inv F s) (hx : s.Has o x) (hfreed : x.isFreed = true) :
    s.cache x.idx = none := by
  rw [eq_none_iff_forall_ne_some]
  intro o' hcache
  obtain ⟨y, hy, hidx, hlive⟩ := h.has_of_cached hcache
  obtain rfl := h.unique o' o y x hy hx hidx
  rw [mem_unique hy.obj hx.obj, hfreed] at hlive
  cases hlive

/-- A step that changes one object, from `x` to `y`, and what belongs to its inode. -/
structure Updates (F : SlotFormat Desc Raw) (s s' : GroupCache ι n Desc Raw) (o : ℕ)
    (x y : CachedInode n Desc) : Prop where
  held : s.Held o
  obj : s.objs[o]? = some x
  objs : s'.objs = s.objs.set o y
  idx : y.idx = x.idx
  strong : s'.strong = s.strong
  sync : s'.sync = s.sync
  others : ∀ idx, idx ≠ x.idx → s'.cache idx = s.cache idx ∧
    s'.allocated idx = s.allocated idx ∧ s'.slots idx = s.slots idx ∧ s'.latest idx = s.latest idx
  live : y.isFreed = false → x.isFreed = false ∧ s'.cache x.idx = s.cache x.idx ∧
    s'.allocated x.idx = true ∧ s'.Current F y
  freed : y.isFreed = true → s'.cache x.idx = none ∧ s'.allocated x.idx = false
  clean : o ∈ s.sync.taken → o ∈ s.sync.todo ∨ y.dirty = false

namespace Updates

variable {z : CachedInode n Desc}

section

variable (h : Updates F s s' o x y)

include h

theorem has : s.Has o x := ⟨.inr h.held, h.obj⟩

theorem getElem?_iff : s'.objs[o']? = some z ↔ o' = o ∧ z = y ∨ o' ≠ o ∧ s.objs[o']? = some z := by
  rw [h.objs]
  exact Table.getElem?_set_eq_some h.obj

theorem held_iff : s'.Held o' ↔ s.Held o' := by
  rw [Held, Held, h.strong, h.sync]

theorem cache_self (hc : s'.cache x.idx = some o') :
    y.isFreed = false ∧ s.cache x.idx = some o' := by
  cases hy : y.isFreed with
  | true =>
    rw [(h.freed hy).1] at hc
    cases hc
  | false => exact ⟨rfl, (h.live hy).2.1 ▸ hc⟩

/-- The cache only loses the object. -/
theorem cache_sub (hc : s'.cache idx = some o') : s.cache idx = some o' := by
  rcases eq_or_ne idx x.idx with rfl | hi
  · exact (h.cache_self hc).2
  · rw [← (h.others idx hi).1, hc]

theorem alive (ho : s'.Alive o') : s.Alive o' :=
  ho.imp (fun ⟨idx, hc⟩ => ⟨idx, h.cache_sub hc⟩) h.held_iff.1

/-- An object that exists afterwards is the one that changed, or it belongs to another inode. -/
theorem has_cases (hinv : Inv F s) (hz : s'.Has o' z) :
    o' = o ∧ z = y ∨ s.Has o' z ∧ z.idx ≠ x.idx := by
  rcases h.getElem?_iff.1 hz.obj with hself | ⟨ho, hobj⟩
  · exact .inl hself
  · have hz' : s.Has o' z := ⟨h.alive hz.alive, hobj⟩
    exact .inr ⟨hz', fun heq => ho (hinv.unique o' o z x hz' h.has heq)⟩

theorem exists_has (hinv : Inv F s) (hz : s'.Has o' z) : ∃ z', s.Has o' z' ∧ z'.idx = z.idx := by
  rcases h.has_cases hinv hz with ⟨rfl, rfl⟩ | ⟨hz', -⟩
  · exact ⟨x, h.has, h.idx.symm⟩
  · exact ⟨z, hz', rfl⟩

/-- The objects of other inodes stay. -/
theorem has_of_ne (hinv : Inv F s) (hz : s.Has o' z) (hi : z.idx ≠ x.idx) : s'.Has o' z := by
  have ho : o' ≠ o := by
    rintro rfl
    exact hi (by rw [mem_unique hz.obj h.obj])
  refine ⟨?_, h.getElem?_iff.2 (.inr ⟨ho, hz.obj⟩)⟩
  rcases hz.alive with ⟨idx, hc⟩ | hheld
  · obtain ⟨z', hz', rfl, -⟩ := hinv.cached idx o' hc
    obtain rfl := mem_unique hz.obj hz'
    exact .inl ⟨z.idx, (h.others _ hi).1.trans hc⟩
  · exact .inr (h.held_iff.2 hheld)

end

end Updates

theorem Inv.taken_update (h : Inv F s) (hu : Updates F s s' o x y) {z : CachedInode n Desc}
    (ho : o' ∈ s.sync.taken) (hz : s'.objs[o']? = some z) :
    s.strong o' = 0 ∧ s'.cache z.idx = none ∧ (o' ∈ s.sync.todo ∨ z.dirty = false) := by
  rcases hu.getElem?_iff.1 hz with ⟨rfl, rfl⟩ | ⟨hne, hz⟩
  · obtain ⟨hzero, hnone, -⟩ := h.taken o' x ho hu.obj
    refine ⟨hzero, ?_, hu.clean ho⟩
    rw [hu.idx, eq_none_iff_forall_ne_some]
    intro o1 hc
    rw [(hu.cache_self hc).2] at hnone
    cases hnone
  · obtain ⟨hzero, hnone, htodo⟩ := h.taken o' z ho hz
    have hi : z.idx ≠ x.idx := fun heq =>
      hne (h.unique o' o z x (Inv.has_of_taken hz ho) hu.has heq)
    exact ⟨hzero, (hu.others _ hi).1.trans hnone, htodo⟩

theorem Inv.resting_update (h : Inv F s) (hu : Updates F s s' o x y)
    (halloc : s'.allocated idx = true) (hnone : ∀ o z, s'.Has o z → z.idx ≠ idx) :
    s'.slots idx = s'.latest idx := by
  have hi : idx ≠ x.idx := by
    rintro rfl
    exact hnone o y ⟨.inr (hu.held_iff.2 hu.held), hu.getElem?_iff.2 (.inl ⟨rfl, rfl⟩)⟩ hu.idx
  obtain ⟨-, halloc', hslots, hlatest⟩ := hu.others idx hi
  rw [halloc'] at halloc
  rw [hslots, hlatest]
  refine h.resting idx halloc fun o' z hz heq => ?_
  exact hnone o' z (hu.has_of_ne h hz (heq ▸ hi)) heq

theorem Inv.update (h : Inv F s) (hu : Updates F s s' o x y) : Inv F s' := by
  refine ⟨fun idx o' hc => ?_, fun o' ho => ?_, fun o' z ho hz => ?_,
    fun o1 o2 z1 z2 h1 h2 heq => ?_, fun o' z hz hlive => ?_, fun o' z hz hfreed => ?_,
    fun o' z hz hlive => ?_, fun idx => h.resting_update hu⟩
  · obtain ⟨z, hz, rfl, hlive⟩ := h.has_of_cached (hu.cache_sub hc)
    rcases eq_or_ne o' o with rfl | ho
    · obtain rfl := mem_unique hu.obj hz.obj
      exact ⟨y, hu.getElem?_iff.2 (.inl ⟨rfl, rfl⟩), hu.idx, (hu.cache_self hc).1⟩
    · exact ⟨z, hu.getElem?_iff.2 (.inr ⟨ho, hz.obj⟩), rfl, hlive⟩
  · rw [hu.objs, List.length_set]
    exact h.known o' (hu.alive ho)
  · rw [hu.sync] at ho
    rw [hu.strong, hu.sync]
    exact h.taken_update hu ho hz
  · obtain ⟨z₁', h₁', heq1⟩ := hu.exists_has h h1
    obtain ⟨z₂', h₂', heq2⟩ := hu.exists_has h h2
    exact h.unique o1 o2 z₁' z₂' h₁' h₂' (heq1.trans (heq.trans heq2.symm))
  · rw [hu.sync]
    rcases hu.has_cases h hz with ⟨rfl, rfl⟩ | ⟨hz', hi⟩
    · obtain ⟨hxlive, hc, halloc, -⟩ := hu.live hlive
      rw [hu.idx, hc]
      exact ⟨halloc, (h.linked o' x hu.has hxlive).2⟩
    · rw [(hu.others _ hi).1, (hu.others _ hi).2.1]
      exact h.linked o' z hz' hlive
  · rcases hu.has_cases h hz with ⟨rfl, rfl⟩ | ⟨hz', hi⟩
    · rw [hu.idx]
      exact (hu.freed hfreed).2
    · rw [(hu.others _ hi).2.1]
      exact h.freed o' z hz' hfreed
  · rcases hu.has_cases h hz with ⟨rfl, rfl⟩ | ⟨hz', hi⟩
    · exact (hu.live hlive).2.2.2
    · rw [Current, (hu.others _ hi).2.2.1, (hu.others _ hi).2.2.2]
      exact h.current o' z hz' hlive

/-! ### What a step consists of -/

section

variable (h : Inv F s) (hheld : s.Held o) (hobj : s.objs[o]? = some x)

include h hheld hobj

theorem Inv.assigned {desc : Desc} (htodo : o ∈ s.sync.taken → o ∈ s.sync.todo) :
    Inv F (s.assigned F o x desc) := by
  have hx : s.Has o x := ⟨.inr hheld, hobj⟩
  exact h.update (y := { x with desc := desc, dirty := true }) ⟨hheld, hobj, rfl, rfl, rfl, rfl,
    fun _ hi => ⟨rfl, rfl, rfl, update_of_ne hi _ _⟩,
    fun hlive => ⟨hlive, rfl, (h.linked o x hx hlive).1, update_self _ _ _⟩,
    fun hfreed => ⟨h.cache_of_freed hx hfreed, h.freed o x hx hfreed⟩, fun ho => .inl (htodo ho)⟩

theorem Inv.freedNumber (htodo : o ∈ s.sync.taken → o ∈ s.sync.todo) : Inv F (s.freed o x) :=
  h.update (y := { x with isFreed := true }) ⟨hheld, hobj, rfl, rfl, rfl, rfl,
    fun _ hi => ⟨update_of_ne hi _ _, update_of_ne hi _ _, rfl, rfl⟩, nofun,
    fun _ => ⟨update_self _ _ _, update_self _ _ _⟩, fun ho => .inl (htodo ho)⟩

theorem Inv.written (hdirty : x.dirty = true) : Inv F (s.written F o x) := by
  have hx : s.Has o x := ⟨.inr hheld, hobj⟩
  refine h.update (y := { x with dirty := false }) ⟨hheld, hobj, rfl, rfl, rfl, rfl,
    fun _ hi => ⟨rfl, rfl, update_of_ne hi _ _, rfl⟩,
    fun hlive => ⟨hlive, rfl, (h.linked o x hx hlive).1, ?_⟩,
    fun hfreed => ⟨h.cache_of_freed hx hfreed, h.freed o x hx hfreed⟩, fun _ => .inr rfl⟩
  have hcurrent := h.current o x hx hlive
  rw [Current, if_pos hdirty] at hcurrent
  exact (update_self _ _ _).trans hcurrent.symm

/-- What holds after `sync_all`. -/
structure Synced (F : SlotFormat Desc Raw) (s s' : GroupCache ι n Desc Raw) (o : ℕ) (fails : Bool) :
    Prop where
  inv : Inv F s'
  strong : s'.strong = s.strong
  sync : s'.sync = s.sync
  clean : fails = false → ∀ x, s'.objs[o]? = some x → x.dirty = false

theorem Inv.synced_written (hdirty : x.dirty = true) : Synced F s (s.written F o x) o fails := by
  refine ⟨h.written hheld hobj hdirty, rfl, rfl, fun _ y hy => ?_⟩
  have hset : (s.written F o x).objs[o]? = some { x with dirty := false } :=
    List.getElem?_set_self (h.known o (.inr hheld))
  rw [mem_unique hy hset]

theorem Inv.syncUnlinked (hdirty : x.dirty = true) (htodo : o ∈ s.sync.taken → o ∈ s.sync.todo)
    (hs : s.syncUnlinked F o x fails = some s') : Synced F s s' o fails := by
  unfold GroupCache.syncUnlinked at hs
  split_ifs at hs with hfails hfreed halloc
  · cases hs
    exact ⟨h, rfl, rfl, fun hf => by rw [hfails] at hf; cases hf⟩
  · cases hs
    exact h.synced_written hheld hobj hdirty
  · cases hs
    have hobj' : (s.freed o x).objs[o]? = some { x with isFreed := true } :=
      List.getElem?_set_self (h.known o (.inr hheld))
    have hsynced : Synced F (s.freed o x) _ o fails :=
      (h.freedNumber hheld hobj htodo).synced_written hheld hobj' hdirty
    exact ⟨hsynced.inv, hsynced.strong, hsynced.sync, hsynced.clean⟩

end

theorem Inv.syncAll (h : Inv F s) (hheld : s.Held o) (htodo : o ∈ s.sync.taken → o ∈ s.sync.todo)
    {resized : Desc} (hs : s.syncAll F o resized fails = some s') : Synced F s s' o fails := by
  obtain ⟨x, hx, hs⟩ := bind_eq_some_iff.1 hs
  split_ifs at hs with hclean hlinks hresized hfails
  · cases hs
    refine ⟨h, rfl, rfl, fun _ y hy => ?_⟩
    rw [mem_unique hy hx, hclean]
  · have hobj : (s.assigned F o x resized).objs[o]? =
        some { x with desc := resized, dirty := true } :=
      List.getElem?_set_self (h.known o (.inr hheld))
    have hsynced := (h.assigned hheld hx htodo).syncUnlinked hheld hobj rfl htodo hs
    exact ⟨hsynced.inv, hsynced.strong, hsynced.sync, hsynced.clean⟩
  · cases hs
    exact ⟨h, rfl, rfl, fun hf => by rw [hfails] at hf; cases hf⟩
  · cases hs
    exact h.synced_written hheld hx (Bool.eq_true_of_not_eq_false hclean)

end GroupCache

end Jinux
