import Jinux.Ext2.InodeCache

/-!
# Lookups while inodes are written back

`sync_all_inodes` writes back the objects that it took out of the cache after it has released the
lock of the group.  A lookup of such an inode finds nothing in the cache, and makes an object from
the slot.

* `GroupCache.Considerate` : no object is made while `sync_all_inodes` holds one for the same inode
  that it took out of the cache, and `sync_all_inodes` does not fail while such an object is dirty;
* `GroupCache.no_stale_inode` : **in a run of such steps no two objects of one inode exist, and no
  object is made from a slot that is older than the latest descriptor**;
* `GroupCache.exists_stale_inode` : a run in which a thread looks up an inode that is being written
  back, and gets an object with the old descriptor.
-/

namespace Jinux

open List Option Function

namespace GroupCache

variable {ι : Type} {n : ℕ} {Desc Raw : Type} {F : SlotFormat Desc Raw}
  {s s' : GroupCache ι n Desc Raw} {o o' : ℕ} {x y : CachedInode n Desc} {idx : Fin n}
  {resized : Desc} {fails : Bool} {p : SyncAll}

/-! ### The condition -/

/-- The thread makes an object for the inode if it takes the slow path now. -/
structure Loads (s : GroupCache ι n Desc Raw) (t : ι) (idx : Fin n) : Prop where
  lookup : s.lookups t = some idx
  allocated : s.allocated idx = true
  missing : s.cache idx = none

/-- No object is made while `sync_all_inodes` holds one for the same inode that it took out of the
cache, and it does not fail while such an object is dirty. -/
def Considerate (s : GroupCache ι n Desc Raw) : CacheStep ι n Desc → Prop
  | .slowPath t => ∀ idx, s.Loads t idx →
      ∀ o ∈ s.sync.taken, ∀ x ∈ s.objs[o]?, x.idx ≠ idx
  | .syncUnused _ fails => fails = true →
      ∀ o ∈ s.sync.taken, ∀ x ∈ s.objs[o]?, x.dirty = false
  | _ => True

instance (t : ι) : Decidable (s.Loads t idx) :=
  decidable_of_iff (s.lookups t = some idx ∧ s.allocated idx = true ∧ s.cache idx = none)
    ⟨fun ⟨hlookup, halloc, hnone⟩ => ⟨hlookup, halloc, hnone⟩,
      fun h => ⟨h.lookup, h.allocated, h.missing⟩⟩

instance : DecidablePred s.Considerate
  | .slowPath t => inferInstanceAs (Decidable (∀ idx, s.Loads t idx →
      ∀ o ∈ s.sync.taken, ∀ x ∈ s.objs[o]?, x.idx ≠ idx))
  | .syncUnused _ fails => inferInstanceAs (Decidable (fails = true →
      ∀ o ∈ s.sync.taken, ∀ x ∈ s.objs[o]?, x.dirty = false))
  | .fastPath .. | .clone _ | .drop _ | .change .. | .syncInode .. | .extractUnused | .dropUnused
  | .cloneRemaining | .syncRemaining .. | .dropRemaining => .isTrue trivial

/-! ### Steps -/

theorem Inv.not_taken (h : Inv F s) (hstrong : 0 < s.strong o) : o ∉ s.sync.taken := by
  intro ho
  have hx := getElem?_eq_getElem (h.known o (.inr (.inl hstrong)))
  exact absurd (h.taken o _ ho hx).1 hstrong.ne'

theorem Inv.not_taken_of_cached (h : Inv F s) (hcache : s.cache idx = some o) :
    o ∉ s.sync.taken := by
  intro ho
  obtain ⟨x, hx, rfl, -⟩ := h.cached idx o hcache
  rw [(h.taken o x ho hx).2.1] at hcache
  cases hcache

/-- A step of a lookup changes nothing else. -/
theorem Inv.withLookups (h : Inv F s) (lookups : ι → Option (Fin n)) :
    Inv F { s with lookups := lookups } :=
  h.frame rfl rfl rfl rfl (fun _ ho => ho) (fun _ _ hc => hc) h.taken (fun _ _ _ _ hp => hp)
    fun _ _ hx hgone => absurd hx.alive hgone

theorem Inv.cloned (h : Inv F s) (halive : s.Alive o) (hnot : o ∉ s.sync.taken) :
    Inv F (s.cloned o) := by
  have hstrong : ∀ {o'}, o' ≠ o → (s.cloned o).strong o' = s.strong o' :=
    fun ho => update_of_ne ho _ _
  refine h.frame rfl rfl rfl rfl (fun o' ho => ?_) (fun _ _ hc => hc) (fun o' x ho hx => ?_)
    (fun _ _ _ _ hp => hp) fun o' x hx hgone => absurd ?_ hgone
  · rcases eq_or_ne o' o with rfl | hne
    · exact halive
    · refine ho.imp_right fun hheld => hheld.imp_left fun hpos => ?_
      rwa [← hstrong hne]
  · rw [hstrong fun heq => hnot (heq ▸ ho)]
    exact h.taken o' x ho hx
  · refine hx.alive.imp_right fun hheld => hheld.imp_left fun hpos => ?_
    rcases eq_or_ne o' o with rfl | hne
    · change 0 < Function.update s.strong o' (s.strong o' + 1) o'
      rw [update_self]
      exact Nat.succ_pos _
    · rwa [hstrong hne]

theorem cache_inserted (hi : idx ≠ x.idx) : (s.inserted x).cache idx = s.cache idx :=
  update_of_ne hi _ _

theorem cache_inserted_self : (s.inserted x).cache x.idx = some s.objs.length :=
  update_self _ _ _

theorem strong_inserted (ho : o ≠ s.objs.length) : (s.inserted x).strong o = s.strong o :=
  update_of_ne ho _ _

theorem getElem?_inserted :
    (s.inserted x).objs[o]? = some y ↔ s.objs[o]? = some y ∨ o = s.objs.length ∧ x = y :=
  Table.getElem?_concat_eq_some

theorem alive_of_inserted (ho : o ≠ s.objs.length) (halive : (s.inserted x).Alive o) :
    s.Alive o := by
  rcases halive with ⟨idx, hc⟩ | hheld
  · rcases eq_or_ne idx x.idx with rfl | hi
    · exact absurd (mem_unique hc cache_inserted_self) ho
    · exact .inl ⟨idx, by rw [← cache_inserted hi, hc]⟩
  · refine .inr (hheld.imp_left fun hpos => ?_)
    rwa [← strong_inserted ho]

section

variable (hnone : ∀ o y, s.Has o y → y.idx ≠ x.idx)

include hnone

/-- Afterwards there are the new object and those of other inodes. -/
theorem has_inserted (hy : (s.inserted x).Has o y) :
    o = s.objs.length ∧ x = y ∨ s.Has o y ∧ y.idx ≠ x.idx := by
  rcases getElem?_inserted.1 hy.obj with hobj | hnew
  · have ho : o ≠ s.objs.length := (List.getElem?_eq_some_iff.1 hobj).1.ne
    have hy' : s.Has o y := ⟨alive_of_inserted ho hy.alive, hobj⟩
    exact .inr ⟨hy', hnone o y hy'⟩
  · exact .inl hnew

theorem Inv.inserted_has (h : Inv F s) (hy : s.Has o y) : (s.inserted x).Has o y := by
  refine ⟨?_, getElem?_inserted.2 (.inl hy.obj)⟩
  rcases hy.alive with ⟨idx, hc⟩ | hheld
  · have hi : idx ≠ x.idx := by
      rintro rfl
      obtain ⟨z, hz, hidx, -⟩ := h.has_of_cached hc
      exact hnone o z hz hidx
    exact .inl ⟨idx, (cache_inserted hi).trans hc⟩
  · refine .inr (hheld.imp_left fun hpos => ?_)
    rwa [strong_inserted (h.known o hy.alive).ne]

/-- A new object, when the inode has none. -/
theorem Inv.inserted (h : Inv F s) (halloc : s.allocated x.idx = true) (hclean : x.dirty = false)
    (hlive : x.isFreed = false) : Inv F (s.inserted x) := by
  refine ⟨fun idx o hc => ?_, fun o ho => ?_, fun o y ho hy => ?_, fun o o' y z hy hz heq => ?_,
    fun o y hy hylive => ?_, fun o y hy hyfreed => ?_, fun o y hy hylive => ?_,
    fun idx hi hrest => h.resting idx hi fun o y hy => hrest o y (h.inserted_has hnone hy)⟩
  · rcases eq_or_ne idx x.idx with rfl | hi
    · obtain rfl := mem_unique hc cache_inserted_self
      exact ⟨x, getElem?_inserted.2 (.inr ⟨rfl, rfl⟩), rfl, hlive⟩
    · obtain ⟨y, hy, hidx, hylive⟩ := h.cached idx o ((cache_inserted hi).symm.trans hc)
      exact ⟨y, getElem?_inserted.2 (.inl hy), hidx, hylive⟩
  · rw [show (s.inserted x).objs.length = s.objs.length + 1 from length_append]
    rcases eq_or_ne o s.objs.length with rfl | hne
    · exact Nat.lt_succ_self _
    · exact Nat.lt_succ_of_lt (h.known o (alive_of_inserted hne ho))
  · have hlt : o < s.objs.length := h.known o (.inr (.inr (SyncAll.held_of_taken ho)))
    have hy : s.objs[o]? = some y :=
      (getElem?_inserted.1 hy).resolve_right fun hnew => hlt.ne hnew.1
    rw [strong_inserted hlt.ne, cache_inserted (hnone o y (Inv.has_of_taken hy ho))]
    exact h.taken o y ho hy
  · rcases has_inserted hnone hy with ⟨rfl, rfl⟩ | ⟨hy', hyne⟩ <;>
      rcases has_inserted hnone hz with ⟨rfl, rfl⟩ | ⟨hz', hzne⟩
    · rfl
    · exact absurd heq.symm hzne
    · exact absurd heq hyne
    · exact h.unique o o' y z hy' hz' heq
  · rcases has_inserted hnone hy with ⟨rfl, rfl⟩ | ⟨hy', hyne⟩
    · exact ⟨halloc, .inl cache_inserted_self⟩
    · rw [cache_inserted hyne]
      exact h.linked o y hy' hylive
  · rcases has_inserted hnone hy with ⟨rfl, rfl⟩ | ⟨hy', -⟩
    · rw [hlive] at hyfreed
      cases hyfreed
    · exact h.freed o y hy' hyfreed
  · rcases has_inserted hnone hy with ⟨rfl, rfl⟩ | ⟨hy', -⟩
    · rw [Current, hclean]
      exact h.resting _ halloc hnone
    · exact h.current o y hy' hylive

end

/-- An inode that is not in the cache has no object, unless it was taken out. -/
theorem Inv.idx_ne_of_missing (h : Inv F s) (halloc : s.allocated idx = true)
    (hcache : s.cache idx = none)
    (hnot : ∀ o ∈ s.sync.taken, ∀ x, s.objs[o]? = some x → x.idx ≠ idx) :
    ∀ o x, s.Has o x → x.idx ≠ idx := by
  rintro o x hx rfl
  cases hfreed : x.isFreed with
  | true =>
    rw [h.freed o x hx hfreed] at halloc
    cases halloc
  | false =>
    rcases (h.linked o x hx hfreed).2 with hc | ho
    · rw [hcache] at hc
      cases hc
    · exact hnot o ho x hx.obj rfl

theorem Inv.fastPath [DecidableEq ι] (h : Inv F s) {t : ι} : Inv F (s.fastPath t idx) := by
  unfold GroupCache.fastPath
  split_ifs
  · split
    next o hc => exact h.cloned (.inl ⟨idx, hc⟩) (h.not_taken_of_cached hc)
    next => exact h.withLookups _
  · exact h

/-- The slow path makes no object of an inode that was taken out of the cache. -/
theorem Inv.slowPath (h : Inv F s) (hnot : s.allocated idx = true → s.cache idx = none →
    ∀ o ∈ s.sync.taken, ∀ x, s.objs[o]? = some x → x.idx ≠ idx) : Inv F (s.slowPath F idx) := by
  unfold GroupCache.slowPath
  split_ifs with halloc
  · split
    next o hc => exact h.cloned (.inl ⟨idx, hc⟩) (h.not_taken_of_cached hc)
    next hc =>
      split
      next x hx =>
        obtain ⟨desc, -, hx⟩ := Result.bind_ok.1 hx
        cases hx
        exact h.inserted (h.idx_ne_of_missing halloc hc (hnot halloc hc)) halloc rfl rfl
      next => exact h
  · exact h

theorem mem_cachedObjs : o ∈ s.cachedObjs ↔ ∃ idx, s.cache idx = some o := by
  simp [cachedObjs]

theorem mem_unusedObjs : o ∈ s.unusedObjs ↔ (∃ idx, s.cache idx = some o) ∧ s.strong o = 0 := by
  simp [unusedObjs, mem_cachedObjs]

theorem usedCache_eq_some : s.usedCache idx = some o ↔ s.cache idx = some o ∧ s.strong o ≠ 0 := by
  simp [usedCache]

theorem Inv.drop (h : Inv F s) (hstrong : 0 < s.strong o) :
    Inv F { s with strong := Function.update s.strong o (s.strong o - 1) } := by
  have hle : ∀ o', Function.update s.strong o (s.strong o - 1) o' ≤ s.strong o' := by
    intro o'
    rcases eq_or_ne o' o with rfl | hne
    · rw [update_self]
      exact Nat.sub_le _ _
    · rw [update_of_ne hne]
  refine h.frame rfl rfl rfl rfl (fun o' ho => ?_) (fun _ _ hc => hc) (fun o' x ho hx => ?_)
    (fun _ _ _ _ hp => hp) fun o' x hx hgone => ?_
  · exact ho.imp_right fun hheld => hheld.imp_left fun hpos => Nat.lt_of_lt_of_le hpos (hle o')
  · obtain ⟨hzero, hrest⟩ := h.taken o' x ho hx
    exact ⟨Nat.le_zero.1 (hzero ▸ hle o'), hrest⟩
  · -- an object that is not freed is in the cache or taken out of it
    refine .inl (Bool.eq_true_of_not_eq_false fun hlive => hgone ?_)
    rcases (h.linked o' x hx hlive).2 with hc | ho
    · exact .inl ⟨x.idx, hc⟩
    · exact .inr (.inr (SyncAll.held_of_taken ho))

theorem Inv.extractUnused (h : Inv F s) (hsync : s.sync = .idle) :
    Inv F { s with cache := s.usedCache, sync := .unused [] s.unusedObjs } := by
  have hplace : ∀ {idx o}, s.cache idx = some o →
      s.usedCache idx = some o ∨ o ∈ s.unusedObjs := by
    intro idx o hc
    by_cases hzero : s.strong o = 0
    · exact .inr (mem_unusedObjs.2 ⟨⟨idx, hc⟩, hzero⟩)
    · exact .inl (usedCache_eq_some.2 ⟨hc, hzero⟩)
  refine h.frame rfl rfl rfl rfl (fun o ho => ?_) (fun _ _ hc => (usedCache_eq_some.1 hc).1)
    (fun o x ho hx => ?_) (fun o x _ _ hp => ?_) fun o x hx hgone => absurd ?_ hgone
  · rcases ho with ⟨idx, hc⟩ | hpos | ho
    · exact .inl ⟨idx, (usedCache_eq_some.1 hc).1⟩
    · exact .inr (.inl hpos)
    · exact .inl (mem_unusedObjs.1 ho).1
  · obtain ⟨⟨idx, hc⟩, hzero⟩ := mem_unusedObjs.1 ho
    obtain ⟨y, hy, rfl, -⟩ := h.cached idx o hc
    obtain rfl := mem_unique hy hx
    refine ⟨hzero, ?_, .inl ho⟩
    change s.usedCache y.idx = none
    rw [usedCache, hc]
    simp [hzero]
  · rw [hsync] at hp
    exact hplace (hp.resolve_right nofun)
  · rcases hx.alive with ⟨idx, hc⟩ | hpos | ho
    · exact (hplace hc).imp (fun hc => ⟨idx, hc⟩) .inr
    · exact .inr (.inl hpos)
    · rw [hsync] at ho
      cases ho

/-- The vectors of `sync_all_inodes` are dropped.  The objects that were taken out are clean. -/
theorem Inv.leave (h : Inv F s) (htaken : p.taken = [])
    (hheld : ∀ o ∈ p.held, ∃ idx, s.cache idx = some o)
    (hclean : ∀ o ∈ s.sync.taken, ∀ x, s.objs[o]? = some x → x.dirty = false) :
    Inv F { s with sync := p } := by
  have halive : ∀ {o}, Alive { s with sync := p } o ↔
      (∃ idx, s.cache idx = some o) ∨ 0 < s.strong o := by
    intro o
    constructor
    · rintro (hc | hpos | ho)
      · exact .inl hc
      · exact .inr hpos
      · exact .inl (hheld o ho)
    · exact fun ho => ho.imp_right .inl
  refine h.frame rfl rfl rfl rfl (fun o ho => (halive.1 ho).imp_right .inl) (fun _ _ hc => hc)
    (fun o x ho => ?_) (fun o x ho _ hp => hp.imp_right fun ho' => ?_) fun o x hx hgone => ?_
  · rw [htaken] at ho
    cases ho
  · rcases halive.1 ho with ⟨idx, hc⟩ | hpos
    · exact absurd ho' (h.not_taken_of_cached hc)
    · exact absurd ho' (h.not_taken hpos)
  · cases hfreed : x.isFreed with
    | true => exact .inl rfl
    | false =>
      rcases (h.linked o x hx hfreed).2 with hc | ho
      · exact absurd (halive.2 (.inl ⟨x.idx, hc⟩)) hgone
      · exact .inr (hclean o ho x hx.obj)

/-- `sync_all_inodes` goes on with its vector. -/
theorem Inv.advance (h : Inv F s) (hheld : p.held = s.sync.held) (htaken : p.taken = s.sync.taken)
    (htodo : ∀ o x, o ∈ s.sync.taken → s.objs[o]? = some x → o ∈ s.sync.todo →
      o ∈ p.todo ∨ x.dirty = false) : Inv F { s with sync := p } := by
  have halive : ∀ {o}, Alive { s with sync := p } o ↔ s.Alive o := by
    unfold Alive Held
    rw [hheld]
  refine h.frame rfl rfl rfl rfl (fun o ho => halive.1 ho) (fun _ _ hc => hc) (fun o x ho hx => ?_)
    (fun o x _ _ hp => ?_) fun o x hx hgone => absurd (halive.2 hx.alive) hgone
  · rw [htaken] at ho
    obtain ⟨hzero, hnone, hplace⟩ := h.taken o x ho hx
    exact ⟨hzero, hnone, hplace.elim (htodo o x ho hx) .inr⟩
  · dsimp only
    rwa [htaken]

/-- A clean object stays as it is. -/
theorem syncAll_of_clean (hobj : s.objs[o]? = some x)
    (hclean : x.dirty = false) (hs : s.syncAll F o resized fails = some s') : s' = s := by
  rw [GroupCache.syncAll, hobj, bind_eq_bind, bind_some, if_pos hclean] at hs
  exact (some.inj hs).symm

theorem Inv.syncUnused (h : Inv F s) {done todo : List ℕ}
    (hsync : s.sync = .unused done (o :: todo))
    (hclean : fails = true → ∀ o ∈ s.sync.taken, ∀ x, s.objs[o]? = some x → x.dirty = false)
    (hs : s.syncAll F o resized fails = some s') :
    Inv F { s' with sync := if fails then .idle else .unused (done ++ [o]) todo } := by
  have hmem : o ∈ s.sync.taken := by
    rw [hsync]
    exact mem_append_right _ mem_cons_self
  have hheld : s.Held o := .inr (SyncAll.held_of_taken hmem)
  have hsynced := h.syncAll hheld (fun _ => by rw [hsync]; exact mem_cons_self) hs
  cases fails with
  | true =>
    have hx := getElem?_eq_getElem (h.known o (.inr hheld))
    obtain rfl := syncAll_of_clean hx (hclean rfl o hmem _ hx) hs
    exact h.leave rfl nofun (hclean rfl)
  | false =>
    refine hsynced.inv.advance ?_ ?_ fun o' x ho hx htodo => ?_
    · rw [hsynced.sync, hsync]
      exact (append_cons done o todo).symm
    · rw [hsynced.sync, hsync]
      exact (append_cons done o todo).symm
    · rw [hsynced.sync, hsync] at htodo
      rcases mem_cons.1 htodo with rfl | htodo
      · exact .inr (hsynced.clean rfl x hx)
      · exact .inl htodo

theorem Inv.syncRemaining (h : Inv F s) {done todo : List ℕ}
    (hsync : s.sync = .remaining done (o :: todo)) (hs : s.syncAll F o resized fails = some s') :
    Inv F { s' with sync := if fails then .idle else .remaining (done ++ [o]) todo } := by
  have htaken : s.sync.taken = [] := by rw [hsync]; rfl
  have hheld : s.Held o := by
    refine .inr ?_
    rw [hsync]
    exact mem_append_right _ mem_cons_self
  have hsynced := h.syncAll hheld (fun ho => by rw [htaken] at ho; cases ho) hs
  have htaken' : s'.sync.taken = [] := by rw [hsynced.sync, htaken]
  cases fails with
  | true =>
    refine hsynced.inv.leave rfl nofun fun o' ho => ?_
    rw [htaken'] at ho
    cases ho
  | false =>
    refine hsynced.inv.advance ?_ htaken'.symm fun o' x ho => ?_
    · rw [hsynced.sync, hsync]
      exact (append_cons done o todo).symm
    · rw [htaken'] at ho
      cases ho

/-- **Step lemma.** -/
theorem Inv.step [DecidableEq ι] (h : Inv F s) {l : CacheStep ι n Desc} (hok : s.Considerate l)
    (hs : s.step F l = some s') : Inv F s' := by
  cases l <;> simp only [GroupCache.step, ite_none_right_eq_some, some.injEq] at hs
  case fastPath t idx =>
    rw [← hs.2]
    exact h.fastPath
  case slowPath t =>
    obtain ⟨idx, hidx, hs⟩ := bind_eq_some_iff.1 hs
    cases hs
    exact (h.withLookups _).slowPath fun halloc hc => hok idx ⟨hidx, halloc, hc⟩
  case clone o =>
    rw [← hs.2]
    exact h.cloned (.inr (.inl hs.1)) (h.not_taken hs.1)
  case drop o =>
    rw [← hs.2]
    exact h.drop hs.1
  case change o desc =>
    obtain ⟨x, hx, hs⟩ := bind_eq_some_iff.1 hs
    simp only [ite_none_right_eq_some] at hs
    obtain ⟨hpos, hs⟩ := hs
    cases hs
    exact h.assigned (.inl hpos) hx fun ho => absurd ho (h.not_taken hpos)
  case syncInode o resized fails =>
    exact (h.syncAll (.inl hs.1) (fun ho => absurd ho (h.not_taken hs.1)) hs.2).inv
  case extractUnused =>
    split at hs
    next hsync =>
      cases hs
      exact h.extractUnused hsync
    next => cases hs
  case syncUnused resized fails =>
    split at hs
    next done o todo hsync =>
      obtain ⟨s1, hs1, rfl⟩ := map_eq_some_iff.1 hs
      exact h.syncUnused hsync (fun hf => hok hf) hs1
    next => cases hs
  case dropUnused =>
    split at hs
    next inodes hsync =>
      cases hs
      refine h.leave rfl nofun fun o ho x hx => ?_
      refine (h.taken o x ho hx).2.2.resolve_left ?_
      rw [hsync]
      nofun
    next => cases hs
  case cloneRemaining =>
    split at hs
    next hsync =>
      cases hs
      refine h.leave rfl (fun o ho => mem_cachedObjs.1 ho) ?_
      rw [hsync]
      nofun
    next => cases hs
  case syncRemaining resized fails =>
    split at hs
    next done o todo hsync =>
      obtain ⟨s1, hs1, rfl⟩ := map_eq_some_iff.1 hs
      exact h.syncRemaining hsync hs1
    next => cases hs
  case dropRemaining =>
    split at hs
    next inodes hsync =>
      cases hs
      refine h.leave rfl nofun ?_
      rw [hsync]
      nofun
    next => cases hs

/-- **No update of a descriptor is lost.**  In every run from the loaded group whose steps are
considerate, an inode never has two objects, and an object is made only from a slot that is not
older than the latest descriptor of the inode. -/
theorem no_stale_inode [DecidableEq ι] {allocated : Fin n → Bool} {slots : Fin n → Raw}
    (hr : ((lts F).restrict Considerate).Reachable (load allocated slots) s) :
    (∀ o o' x y, s.Has o x → s.Has o' y → x.idx = y.idx → o = o') ∧
    ∀ (t : ι) idx, s.Considerate (.slowPath t) → s.Loads t idx → s.slots idx = s.latest idx := by
  have h : Inv F s := hr.invariant inv_load fun _ _ _ h hs => h.step hs.1 hs.2
  refine ⟨h.unique, fun t idx hok hloads => ?_⟩
  exact h.resting idx hloads.allocated
    (h.idx_ne_of_missing hloads.allocated hloads.missing (hok idx hloads))

end GroupCache

/-! ### A run -/

/-- `InodeDesc::try_from`, over the fields of the model. -/
def InodeDesc.tryFrom (raw : RawInode) : Result InodeDesc := do
  let type ← FileType.fromRawMode raw.mode
  pure {
    type := type
    perm := raw.mode &&& 0o7777
    size := raw.sizeLow
    atime := raw.atime * 10 ^ 9
    mtime := raw.mtime * 10 ^ 9
    hardLinks := raw.hardLinks
    blocksCount := raw.blocksCount
    data := ofFn fun k : Fin blockPtrCnt => raw.data.getD k 0
    length_data := length_ofFn }

/-- The format of the inode table. -/
def inodeFormat : SlotFormat InodeDesc RawInode := ⟨.ofDesc, InodeDesc.tryFrom, InodeDesc.hardLinks⟩

namespace GroupCache

/-- A group with one inode, a file that everyone can read. -/
def oneInode : GroupCache Unit 1 InodeDesc RawInode :=
  load (fun _ => true) fun _ => .ofDesc (.new .file 0o644)

/-- A thread looks the file up, takes the permission to read from the others, and leaves; the file
is then taken out of the cache. -/
def chmodThenExtract : List (CacheStep Unit 1 InodeDesc) :=
  [.fastPath () 0, .slowPath (), .change 0 (.new .file 0o600), .drop 0, .extractUnused]

/-- The file is written back before it is looked up again. -/
theorem no_stale_inode_written_back :
    ∃ s, ((lts inodeFormat).restrict Considerate).Reachable oneInode s ∧ s.Loads () 0 ∧
      s.slots 0 = .ofDesc (.new .file 0o600) ∧ s.slots 0 = s.latest 0 := by
  obtain ⟨s, hr, hloads, hok, hslot⟩ := Lts.exists_run_restrict (step inodeFormat) oneInode
    (chmodThenExtract ++ [.syncUnused (.new .file 0o600) false, .dropUnused, .fastPath () 0])
    (fun s => s.Loads () 0 ∧ s.Considerate (.slowPath ()) ∧
      s.slots 0 = .ofDesc (.new .file 0o600)) Considerate (by decide +kernel)
  exact ⟨s, hr, hloads, hslot, (no_stale_inode hr).2 () 0 hok hloads⟩

/-- The file is looked up before it is written back.  There are two objects then, and the new one
has the old permission. -/
theorem exists_stale_inode :
    ∃ s s', (lts inodeFormat).Reachable oneInode s ∧ s.Loads () 0 ∧ s.slots 0 ≠ s.latest 0 ∧
      (lts inodeFormat).step s (.slowPath ()) s' ∧
      ∃ o o' x y, s'.Has o x ∧ s'.Has o' y ∧ x.idx = y.idx ∧ x.desc.perm = 0o600 ∧
        y.desc.perm = 0o644 := by
  obtain ⟨s, s', hr, hs', hloads, hstale, hheld, hstrong, hperms⟩ :=
    Lts.exists_run_step (step inodeFormat) oneInode (chmodThenExtract ++ [.fastPath () 0])
      (.slowPath ()) (fun s s' => s.Loads () 0 ∧ s.slots 0 ≠ s.latest 0 ∧ s'.sync.held = [0] ∧
        s'.strong 1 = 1 ∧ s'.objs.map (fun x => x.desc.perm) = [0o600, 0o644])
      (by decide +kernel)
  have hlen : s'.objs.length = 2 := by simpa using congrArg length hperms
  obtain ⟨x, y, hobjs⟩ := length_eq_two.1 hlen
  rw [hobjs] at hperms
  refine ⟨s, s', hr, hloads, hstale, hs', 0, 1, x, y,
    ⟨.inr (.inr ?_), by rw [hobjs]; rfl⟩, ⟨.inr (.inl ?_), by rw [hobjs]; rfl⟩,
    Subsingleton.elim _ _, ?_, ?_⟩
  · rw [hheld]
    exact mem_cons_self
  · rw [hstrong]
    exact Nat.one_pos
  · exact (cons.inj hperms).1
  · exact (cons.inj (cons.inj hperms).2).1

end GroupCache

end Jinux
