import Jinux.Lib.Lts
import Jinux.Lib.Pool
import Jinux.Lib.Table
import Jinux.Kernel.Result
import Mathlib.Data.Nat.Log
import Mathlib.Order.Interval.Finset.Nat

/-!
# Handles to page frames

A `VmFrame` or a `VmSegment` is a handle: an `Arc` of the index of the first frame, with the number
of frames.  The drop of a handle reads the reference count, returns the frames to the allocator if
the count is one, and decrements the count afterwards; drops of different handles interleave at each
of these.

* `FrameState.lts` : allocations, clones, parts of segments and drops, step by step;
* `FrameState.not_free_of_live` : no frame is free while a handle to it lives, in any run;
* `FrameState.frames_conserved` : **once all handles are dropped, the free frames are those of the
  start**, if contiguous vectors have a power of two of frames and the last two drops of a handle do
  not overlap;
* `FrameState.exists_leak_vector`, `FrameState.exists_leak_race` : runs that lose a frame.
-/

namespace Jinux

open Option Multiset Set

/-- `usize::next_power_of_two` -/
def nextPowerOfTwo (n : ℕ) : ℕ := 2 ^ Nat.clog 2 n

theorem le_nextPowerOfTwo (n : ℕ) : n ≤ nextPowerOfTwo n := Nat.le_pow_clog (by decide) n

theorem nextPowerOfTwo_pow (k : ℕ) : nextPowerOfTwo (2 ^ k) = 2 ^ k := by
  rw [nextPowerOfTwo, Nat.clog_pow 2 k (by decide)]

theorem nextPowerOfTwo_eq_self {n : ℕ} : nextPowerOfTwo n = n ↔ ∃ k, n = 2 ^ k := by
  constructor
  · exact fun h => ⟨_, h.symm⟩
  · rintro ⟨k, rfl⟩
    exact nextPowerOfTwo_pow k

/-- The frames that the allocator reserves or takes back for `n` frames from `start` on. -/
def frameBlock (start n : ℕ) : Finset ℕ := Finset.Ico start (start + nextPowerOfTwo n)

/-- What the handles of one allocation share: the index of a `VmFrame`, or the `Inner` of a
`VmSegment`. -/
structure FrameArc where
  startFrameIndex : ℕ
  /-- One for a `VmFrame`. -/
  nframes : ℕ
  /-- The flag `NEED_DEALLOC`. -/
  needDealloc : Bool
  strongCount : ℕ
  deriving DecidableEq

/-- How far the drop of a handle has come. -/
inductive DropPhase where
  | live
  /-- The count was one, and the frames are to be returned. -/
  | freeing
  /-- The count is to be decremented. -/
  | dropping
  deriving DecidableEq

/-- The phase that comes after reading the reference count. -/
def FrameArc.nextPhase (a : FrameArc) : DropPhase :=
  if a.needDealloc && a.strongCount == 1 then .freeing else .dropping

/-- A `VmFrame` or a `VmSegment`. -/
structure FrameHandle where
  /-- Which `Arc` it points to. -/
  arc : ℕ
  range : Range
  phase : DropPhase
  deriving DecidableEq

/-- The frame allocator, and everything that has been allocated. -/
structure FrameState where
  free : Finset ℕ
  arcs : List FrameArc
  handles : Multiset FrameHandle

/-- What happens.  The allocator chooses `start`. -/
inductive FrameOp where
  /-- `frame_allocator::alloc_single`, once for each frame of a vector that is not contiguous -/
  | allocSingle (start : ℕ)
  /-- `frame_allocator::alloc`: a contiguous vector -/
  | alloc (nframes start : ℕ)
  /-- `frame_allocator::alloc_contiguous`: a segment -/
  | allocContiguous (nframes start : ℕ)
  | clone (h : FrameHandle)
  /-- `VmSegment::range` -/
  | range (h : FrameHandle) (r : Range)
  /-- A drop reads the reference count. -/
  | dropTest (h : FrameHandle)
  | dropDealloc (h : FrameHandle)
  /-- A drop decrements the reference count. -/
  | dropArc (h : FrameHandle)

/-- The allocation of a contiguous vector. -/
def FrameOp.isVector : FrameOp → Bool
  | .alloc _ _ => true
  | _ => false

namespace FrameState

/-- The block of `n` frames at `start` can be reserved. -/
def CanReserve (s : FrameState) (start n : ℕ) : Prop :=
  nextPowerOfTwo n ∣ start ∧ frameBlock start n ⊆ s.free

instance (s : FrameState) (start n : ℕ) : Decidable (s.CanReserve start n) :=
  inferInstanceAs (Decidable (_ ∧ _))

/-- `FrameAllocator::alloc` -/
def reserve (s : FrameState) (start n : ℕ) : FrameState :=
  { s with free := s.free \ frameBlock start n }

/-- `VmFrame::new`, `VmSegment::new` -/
def newHandle (s : FrameState) (start nframes : ℕ) : FrameState :=
  { s with
    arcs := s.arcs ++ [⟨start, nframes, true, 1⟩]
    handles := ⟨s.arcs.length, ⟨0, nframes⟩, .live⟩ ::ₘ s.handles }

/-- The loop of `frame_allocator::alloc` -/
def newFrames (s : FrameState) (start : ℕ) : ℕ → FrameState
  | 0 => s
  | n + 1 => (s.newFrames start n).newHandle (start + n) 1

/-- `FrameAllocator::dealloc` -/
def dealloc (s : FrameState) (start n : ℕ) : FrameState :=
  { s with free := s.free ∪ frameBlock start n }

/-- A change of a reference count. -/
def modifyCount (s : FrameState) (i : ℕ) (f : ℕ → ℕ) : FrameState :=
  { s with arcs := s.arcs.modify i fun a => { a with strongCount := f a.strongCount } }

/-- One more handle to an `Arc`. -/
def addHandle (s : FrameState) (h : FrameHandle) : FrameState :=
  ({ s with handles := h ::ₘ s.handles } : FrameState).modifyCount h.arc (· + 1)

/-- One handle less. -/
def removeHandle (s : FrameState) (h : FrameHandle) : FrameState :=
  ({ s with handles := s.handles.erase h } : FrameState).modifyCount h.arc (· - 1)

/-- The drop of a handle goes on to another phase. -/
def setPhase (s : FrameState) (h : FrameHandle) (p : DropPhase) : FrameState :=
  { s with handles := { h with phase := p } ::ₘ s.handles.erase h }

/-- `VmSegment::range`, of the range of the handle -/
def adjRange (orig r : Range) : Range := ⟨r.start + orig.start, r.stop + orig.start⟩

/-- A step; a handle that is being dropped can be neither cloned nor dropped. -/
def step (s : FrameState) : FrameOp → Option FrameState
  | .allocSingle start =>
    if s.CanReserve start 1 then some ((s.reserve start 1).newHandle start 1) else none
  | .alloc n start =>
    if s.CanReserve start n then some ((s.reserve start n).newFrames start n) else none
  | .allocContiguous n start =>
    if n ≠ 0 ∧ s.CanReserve start n then some ((s.reserve start n).newHandle start n) else none
  | .clone h => if h ∈ s.handles ∧ h.phase = .live then some (s.addHandle h) else none
  | .range h r =>
    let adj := adjRange h.range r
    if (h ∈ s.handles ∧ h.phase = .live) ∧ adj.start < adj.stop ∧ adj.stop ≤ h.range.stop then
      some (s.addHandle { h with range := adj })
    else none
  | .dropTest h =>
    if h ∈ s.handles ∧ h.phase = .live then
      (s.arcs[h.arc]?).map fun a => s.setPhase h a.nextPhase
    else none
  | .dropDealloc h =>
    if h ∈ s.handles ∧ h.phase = .freeing then
      (s.arcs[h.arc]?).map fun a =>
        (s.dealloc a.startFrameIndex a.nframes).setPhase h .dropping
    else none
  | .dropArc h => if h ∈ s.handles ∧ h.phase = .dropping then some (s.removeHandle h) else none

/-- All runs. -/
def lts : Lts FrameState FrameOp := Lts.ofFun step

/-- Nothing has been allocated. -/
def init (free : Finset ℕ) : FrameState := ⟨free, [], 0⟩

/-- The frames of a handle. -/
def framesOf (s : FrameState) (h : FrameHandle) : Finset ℕ :=
  match s.arcs[h.arc]? with
  | none => ∅
  | some a => Finset.Ico (a.startFrameIndex + h.range.start) (a.startFrameIndex + h.range.stop)

/-- A contiguous vector has a power of two of frames.  When a drop reads the count, another handle
to the same frames lives or no other drop of such a handle is going on. -/
def Careful (s : FrameState) : FrameOp → Prop
  | .alloc n _ => ∃ k, n = 2 ^ k
  | .dropTest h => (∃ h' ∈ s.handles.erase h, h'.arc = h.arc ∧ h'.phase = .live) ∨
      ∀ h' ∈ s.handles.erase h, h'.arc ≠ h.arc
  | _ => True

instance (s : FrameState) : (op : FrameOp) → Decidable (s.Careful op)
  | .alloc _ _ => decidable_of_iff _ nextPowerOfTwo_eq_self
  | .dropTest _ =>
    @instDecidableOr _ _ Multiset.decidableExistsMultiset Multiset.decidableForallMultiset
  | .allocSingle _ | .allocContiguous _ _ | .clone _ | .range _ _ | .dropDealloc _ | .dropArc _ =>
    .isTrue trivial

/-! ### The pool of frames -/

/-- Some handle keeps the frames of the `Arc`. -/
def Held (hs : Multiset FrameHandle) (i : ℕ) : Prop :=
  ∃ h ∈ hs, h.arc = i ∧ h.phase ≠ .dropping

/-- The block of an `Arc`. -/
def blockAt (arcs : List FrameArc) (i : ℕ) : Set ℕ :=
  {f | ∃ a, arcs[i]? = some a ∧ f ∈ frameBlock a.startFrameIndex a.nframes}

/-- The frames as a pool, of which every `Arc` that is held owns its block. -/
def pool (s : FrameState) : Pool ℕ ℕ :=
  ⟨↑s.free, fun i => {f | Held s.handles i ∧ f ∈ blockAt s.arcs i}⟩

/-- How many handles point to an `Arc`. -/
def countOf (hs : Multiset FrameHandle) (i : ℕ) : ℕ := hs.countP (·.arc = i)

variable {s s' : FrameState} {h g : FrameHandle} {hs : Multiset FrameHandle} {i start n j : ℕ}
  {f : ℕ → ℕ} {p : DropPhase}

theorem held_cons : Held (h ::ₘ hs) i ↔ h.arc = i ∧ h.phase ≠ .dropping ∨ Held hs i := by
  simp [Held]

theorem countOf_cons : countOf (h ::ₘ hs) i = countOf hs i + if h.arc = i then 1 else 0 :=
  countP_cons ..

theorem countOf_pos (hh : h ∈ hs) : 0 < countOf hs h.arc := countP_pos.2 ⟨h, hh, rfl⟩

theorem not_mem_of_countOf (hz : countOf hs i = 0) (hh : h ∈ hs) : h.arc ≠ i := by
  rintro rfl
  exact absurd (countOf_pos hh) (by omega)

/-- A handle with a handle beside it to the same `Arc` is not alone. -/
theorem two_le_countOf (hh : h ∈ hs) (hg : g ∈ hs) (hne : g ≠ h) (harc : g.arc = h.arc) :
    2 ≤ countOf hs h.arc := by
  obtain ⟨rest, rfl⟩ := exists_cons_of_mem hh
  have hrest : g ∈ rest := (mem_cons.1 hg).resolve_left hne
  rw [countOf_cons, if_pos rfl, ← harc]
  have := countOf_pos hrest
  omega

theorem getElem?_modifyCount : (s.modifyCount i f).arcs[j]? =
    (s.arcs[j]?).map fun a => if i = j then { a with strongCount := f a.strongCount } else a := by
  rw [modifyCount, List.getElem?_modify]
  split_ifs with hij
  · rfl
  · cases s.arcs[j]? <;> rfl

theorem blockAt_modifyCount : blockAt (s.modifyCount i f).arcs j = blockAt s.arcs j := by
  ext x
  simp only [blockAt, getElem?_modifyCount, map_eq_some_iff]
  constructor
  · rintro ⟨_, ⟨a, ha, rfl⟩, hx⟩
    refine ⟨a, ha, ?_⟩
    split_ifs at hx <;> exact hx
  · rintro ⟨a, ha, hx⟩
    refine ⟨_, ⟨a, ha, rfl⟩, ?_⟩
    split_ifs <;> exact hx

theorem pool_congr (hfree : s'.free = s.free) (hheld : ∀ i, Held s'.handles i ↔ Held s.handles i)
    (hblock : ∀ i, blockAt s'.arcs i = blockAt s.arcs i) : s'.pool = s.pool := by
  simp [pool, hfree, hheld, hblock]

/-! ### The invariant -/

/-- What holds in every run. -/
structure Inv (s : FrameState) : Prop where
  count : ∀ i a, s.arcs[i]? = some a → a.strongCount = countOf s.handles i
  handle : ∀ h ∈ s.handles, ∃ a, s.arcs[h.arc]? = some a ∧ a.needDealloc = true ∧
    h.range.stop ≤ a.nframes
  /-- A drop that returns the frames is the drop of the only handle. -/
  alone : ∀ h ∈ s.handles, h.phase = .freeing → countOf s.handles h.arc = 1
  sound : s.pool.Sound

theorem inv_init (free : Finset ℕ) : (init free).Inv := by
  have howns : ∀ i, (init free).pool.owns i = ∅ := by
    simp [pool, init, Held]
  refine ⟨nofun, fun h hh => absurd hh (notMem_zero h),
    fun h hh => absurd hh (notMem_zero h), fun i => ?_, fun i j _ => ?_⟩
  · rw [howns]
    exact empty_disjoint _
  · rw [howns]
    exact empty_disjoint _

theorem total_init (free : Finset ℕ) : (init free).pool.total = ↑free := by
  ext f
  simp [Pool.mem_total, pool, init, Held]

/-! ### Allocations -/

theorem pool_reserve : (s.reserve start n).pool = s.pool.reserve ↑(frameBlock start n) := by
  simp [pool, reserve, Pool.reserve]

theorem Inv.reserve (hi : s.Inv) (start n : ℕ) : (s.reserve start n).Inv :=
  ⟨hi.count, hi.handle, hi.alone, pool_reserve ▸ hi.sound.reserve _⟩

theorem Inv.arc_lt (hi : s.Inv) (hh : h ∈ s.handles) : h.arc < s.arcs.length := by
  obtain ⟨a, ha, -⟩ := hi.handle h hh
  exact (List.getElem?_eq_some_iff.1 ha).1

theorem pool_newHandle :
    (s.newHandle start n).pool = s.pool.assign s.arcs.length ↑(frameBlock start n) := by
  refine Pool.ext rfl (funext fun j => ext fun f => ?_)
  rw [Pool.mem_assign]
  simp only [pool, newHandle, blockAt, Table.getElem?_concat_eq_some, held_cons]
  by_cases hj : j = s.arcs.length
  · subst hj
    simp
  · simp [hj, Ne.symm hj]

theorem Inv.newHandle (hi : s.Inv) (hb : Disjoint ↑(frameBlock start n) s.pool.total) :
    (s.newHandle start n).Inv where
  count j a ha := by
    simp only [FrameState.newHandle, countOf_cons]
    rcases Table.getElem?_concat_eq_some.1 ha with ha | ⟨rfl, rfl⟩
    · have hj := (List.getElem?_eq_some_iff.1 ha).1
      rw [if_neg (by omega), hi.count j a ha, Nat.add_zero]
    · have hz : countOf s.handles s.arcs.length = 0 :=
        countP_eq_zero.2 fun h hh => (hi.arc_lt hh).ne
      rw [hz, if_pos rfl]
  handle h hh := by
    rcases mem_cons.1 hh with rfl | hh
    · exact ⟨_, Table.getElem?_concat_eq_some.2 (Or.inr ⟨rfl, rfl⟩), rfl, le_rfl⟩
    · obtain ⟨a, ha, hrest⟩ := hi.handle h hh
      exact ⟨a, Table.getElem?_concat_eq_some.2 (Or.inl ha), hrest⟩
  alone h hh hphase := by
    rcases mem_cons.1 hh with rfl | hh
    · cases hphase
    · have hlt := hi.arc_lt hh
      simp only [FrameState.newHandle, countOf_cons]
      rw [if_neg (by omega), hi.alone h hh hphase]
  sound := pool_newHandle ▸ hi.sound.assign _ hb

theorem frameBlock_one (f : ℕ) : frameBlock f 1 = {f} := by
  rw [frameBlock, ← pow_zero 2, nextPowerOfTwo_pow, pow_zero, Nat.Ico_succ_singleton]

/-- The frames of a contiguous vector. -/
theorem Inv.newFrames (hi : s.Inv) (hb : Disjoint ↑(Finset.Ico start (start + n)) s.pool.total) :
    (s.newFrames start n).Inv ∧
      (s.newFrames start n).pool.total = s.pool.total ∪ ↑(Finset.Ico start (start + n)) := by
  induction n with
  | zero => exact ⟨hi, by simp [FrameState.newFrames]⟩
  | succ n ih =>
    obtain ⟨hinv, htotal⟩ := ih (hb.mono_left (Finset.coe_subset.2
      (Finset.Ico_subset_Ico_right (by omega))))
    have hnew : Disjoint ↑(frameBlock (start + n) 1) (s.newFrames start n).pool.total := by
      rw [htotal, frameBlock_one, Finset.coe_singleton, disjoint_singleton_left, mem_union, not_or]
      refine ⟨disjoint_left.1 hb ?_, ?_⟩
      · simp
      · simp
    refine ⟨hinv.newHandle hnew, ?_⟩
    rw [FrameState.newFrames, pool_newHandle, Pool.total_assign, htotal, frameBlock_one,
      union_assoc]
    congr 1
    ext f
    simp only [Finset.coe_Ico, Finset.coe_singleton, Set.mem_union, Set.mem_Ico, mem_singleton_iff]
    omega

/-- A block that has been reserved is neither free nor held. -/
theorem Inv.reserved (hi : s.Inv) (hfree : s.CanReserve start n) :
    (s.reserve start n).pool.total = s.pool.total \ ↑(frameBlock start n) ∧
      ↑(frameBlock start n) ⊆ s.pool.total := by
  have hsub : ↑(frameBlock start n) ⊆ s.pool.free := Finset.coe_subset.2 hfree.2
  exact ⟨pool_reserve ▸ Pool.total_reserve hi.sound hsub,
    fun f hf => Pool.mem_total.2 (Or.inl (hsub hf))⟩

/-- The allocation of a frame or of a segment. -/
theorem Inv.alloc (hi : s.Inv) (hfree : s.CanReserve start n) :
    ((s.reserve start n).newHandle start n).Inv ∧
      ((s.reserve start n).newHandle start n).pool.total = s.pool.total := by
  obtain ⟨htotal, hsub⟩ := hi.reserved hfree
  refine ⟨(hi.reserve start n).newHandle ?_, ?_⟩
  · rw [htotal]
    exact disjoint_sdiff_right
  · rw [pool_newHandle, Pool.total_assign, htotal, sdiff_union_of_subset hsub]

/-- The allocation of a contiguous vector. -/
theorem Inv.allocVector (hi : s.Inv) (hfree : s.CanReserve start n) :
    ((s.reserve start n).newFrames start n).Inv ∧ (nextPowerOfTwo n = n →
      ((s.reserve start n).newFrames start n).pool.total = s.pool.total) := by
  obtain ⟨htotal, hsub⟩ := hi.reserved hfree
  have hblock : Finset.Ico start (start + n) ⊆ frameBlock start n :=
    Finset.Ico_subset_Ico_right (Nat.add_le_add_left (le_nextPowerOfTwo n) start)
  obtain ⟨hinv, hframes⟩ := (hi.reserve start n).newFrames
    (by rw [htotal]; exact disjoint_sdiff_right.mono_left (Finset.coe_subset.2 hblock))
  refine ⟨hinv, fun hn => ?_⟩
  have hall : Finset.Ico start (start + n) = frameBlock start n := by rw [frameBlock, hn]
  rw [hframes, htotal, hall, sdiff_union_of_subset hsub]

/-! ### Clones -/

/-- One more handle. -/
theorem Inv.addHandle (hi : s.Inv) {h' : FrameHandle} (hh : h ∈ s.handles) (hlive : h.phase = .live)
    (harc : h'.arc = h.arc) (hphase : h'.phase = .live) (hrange : h'.range.stop ≤ h.range.stop) :
    (s.addHandle h').Inv ∧ (s.addHandle h').pool = s.pool := by
  have hpool : (s.addHandle h').pool = s.pool := by
    refine pool_congr rfl (fun i => ?_) fun i => blockAt_modifyCount
    change Held (h' ::ₘ s.handles) i ↔ _
    rw [held_cons, or_iff_right_iff_imp]
    rintro ⟨rfl, -⟩
    exact ⟨h, hh, harc.symm, by rw [hlive]; nofun⟩
  refine ⟨⟨fun i a ha => ?_, fun g hg => ?_, fun g hg hfree => ?_, hpool ▸ hi.sound⟩, hpool⟩
  · rw [FrameState.addHandle, getElem?_modifyCount] at ha
    obtain ⟨a0, ha0, rfl⟩ := map_eq_some_iff.1 ha
    change _ = countOf (h' ::ₘ s.handles) i
    rw [countOf_cons, ← hi.count i a0 ha0]
    split_ifs <;> rfl
  · have hold : ∃ a, s.arcs[g.arc]? = some a ∧ a.needDealloc = true ∧ g.range.stop ≤ a.nframes := by
      rcases mem_cons.1 hg with rfl | hg
      · obtain ⟨a, ha, hneed, hle⟩ := hi.handle h hh
        exact ⟨a, harc ▸ ha, hneed, hrange.trans hle⟩
      · exact hi.handle g hg
    obtain ⟨a, ha, hneed, hle⟩ := hold
    refine ⟨_, by rw [FrameState.addHandle, getElem?_modifyCount]; exact congrArg _ ha, ?_⟩
    split_ifs <;> exact ⟨hneed, hle⟩
  · change countOf (h' ::ₘ s.handles) g.arc = 1
    have hg' : g ∈ s.handles := by
      refine (mem_cons.1 hg).resolve_left ?_
      rintro rfl
      cases hphase.symm.trans hfree
    have halone := hi.alone g hg' hfree
    rw [countOf_cons, halone, if_neg]
    -- a handle that lives is not beside a drop that returns the frames
    intro hga
    have hne : h ≠ g := by
      rintro rfl
      cases hlive.symm.trans hfree
    have := two_le_countOf hg' hh hne (harc.symm.trans hga)
    omega

/-! ### Drops -/

theorem held_iff (hh : h ∈ hs) :
    Held hs i ↔ h.arc = i ∧ h.phase ≠ .dropping ∨ Held (hs.erase h) i := by
  rw [← held_cons, cons_erase hh]

theorem countOf_move (hh : h ∈ hs) :
    countOf ({ h with phase := p } ::ₘ hs.erase h) i = countOf hs i := by
  rw [← cons_erase hh, countOf_cons, countOf_cons, erase_cons_head]

/-- A drop goes from one phase to the next. -/
theorem Inv.setPhase (hi : s.Inv) {t : FrameState} (harcs : t.arcs = s.arcs)
    (hhandles : t.handles = s.handles) (hh : h ∈ s.handles)
    (halone : p = .freeing → countOf s.handles h.arc = 1) (hsound : (t.setPhase h p).pool.Sound) :
    (t.setPhase h p).Inv := by
  have hcount : ∀ i, countOf (t.setPhase h p).handles i = countOf s.handles i := by
    intro i
    rw [FrameState.setPhase, hhandles, countOf_move hh]
  have hmem : ∀ g ∈ (t.setPhase h p).handles, g = { h with phase := p } ∨ g ∈ s.handles := by
    intro g hg
    rw [FrameState.setPhase, hhandles] at hg
    exact (mem_cons.1 hg).imp_right mem_of_mem_erase
  refine ⟨fun i a ha => ?_, fun g hg => ?_, fun g hg hfree => ?_, hsound⟩
  · rw [hcount, hi.count i a (harcs ▸ ha)]
  · rw [FrameState.setPhase, harcs]
    rcases hmem g hg with rfl | hg
    · exact hi.handle h hh
    · exact hi.handle g hg
  · rw [hcount]
    rcases hmem g hg with rfl | hg
    · exact halone hfree
    · exact hi.alone g hg hfree

theorem held_release : Held ({ h with phase := .dropping } ::ₘ hs) i ↔ Held hs i := by
  simp [held_cons]

/-- A handle gives up its frames, and another one keeps them. -/
theorem pool_release_of_held (hh : h ∈ s.handles) (hrest : Held (s.handles.erase h) h.arc) :
    (s.setPhase h .dropping).pool = s.pool := by
  refine pool_congr rfl (fun i => ?_) fun _ => rfl
  rw [setPhase, held_release, held_iff hh, iff_or_self]
  rintro ⟨rfl, -⟩
  exact hrest

/-- A handle gives up its frames, and no other one keeps them. -/
theorem pool_release_of_not_held (hh : h ∈ s.handles) (hrest : ¬Held (s.handles.erase h) h.arc) :
    (s.setPhase h .dropping).pool = s.pool.forget h.arc := by
  refine Pool.ext rfl (funext fun i => ext fun f => ?_)
  rw [Pool.mem_forget]
  simp only [pool, setPhase, held_release, held_iff hh]
  by_cases hia : i = h.arc
  · subst hia
    simp [hrest]
  · simp [hia, Ne.symm hia]

variable {a : FrameArc} {free : Finset ℕ}

theorem Inv.dropTest (hi : s.Inv) (hh : h ∈ s.handles) (hlive : h.phase = .live)
    (ha : s.arcs[h.arc]? = some a) : (s.setPhase h a.nextPhase).Inv ∧
      (Careful s (.dropTest h) → (s.setPhase h a.nextPhase).pool = s.pool) := by
  have hcount := hi.count h.arc a ha
  obtain ⟨a', ha', hneed, -⟩ := hi.handle h hh
  cases ha.symm.trans ha'
  rw [FrameArc.nextPhase, hneed]
  split_ifs with hone
  · have hpool : (s.setPhase h .freeing).pool = s.pool := by
      refine pool_congr rfl (fun i => ?_) fun _ => rfl
      rw [FrameState.setPhase, held_cons, held_iff hh, hlive]
      simp
    refine ⟨hi.setPhase rfl rfl hh (fun _ => ?_) (hpool ▸ hi.sound), fun _ => hpool⟩
    rw [← hcount]
    simpa using hone
  · refine ⟨hi.setPhase rfl rfl hh nofun ?_, fun hok => ?_⟩
    · by_cases hrest : Held (s.handles.erase h) h.arc
      · exact (pool_release_of_held hh hrest).symm ▸ hi.sound
      · exact (pool_release_of_not_held hh hrest).symm ▸ hi.sound.forget _
    · refine pool_release_of_held hh ?_
      rcases hok with ⟨g, hg, harc, hglive⟩ | hnone
      · exact ⟨g, hg, harc, by rw [hglive]; nofun⟩
      · -- the count of the only handle would be one
        have hz : countOf (s.handles.erase h) h.arc = 0 := countP_eq_zero.2 hnone
        rw [← cons_erase hh, countOf_cons, hz] at hcount
        simp [hcount] at hone

theorem owns_of_held (hheld : Held s.handles i) (ha : s.arcs[i]? = some a) :
    s.pool.owns i = ↑(frameBlock a.startFrameIndex a.nframes) := by
  simp [pool, blockAt, hheld, ha]

theorem Inv.dropDealloc (hi : s.Inv) (hh : h ∈ s.handles) (hphase : h.phase = .freeing)
    (ha : s.arcs[h.arc]? = some a) :
    ((s.dealloc a.startFrameIndex a.nframes).setPhase h .dropping).Inv ∧
      ((s.dealloc a.startFrameIndex a.nframes).setPhase h .dropping).pool = s.pool.give h.arc := by
  have halone := hi.alone h hh hphase
  rw [← cons_erase hh, countOf_cons, if_pos rfl] at halone
  have hrest : ¬Held (s.handles.erase h) h.arc := by
    rintro ⟨g, hg, harc, -⟩
    exact not_mem_of_countOf (by omega) hg harc
  have howns := owns_of_held ⟨h, hh, rfl, by rw [hphase]; nofun⟩ ha
  have hpool : ((s.dealloc a.startFrameIndex a.nframes).setPhase h .dropping).pool =
      s.pool.give h.arc := by
    refine Pool.ext ?_ (congrArg Pool.owns (pool_release_of_not_held hh hrest) :)
    change ↑(s.free ∪ frameBlock a.startFrameIndex a.nframes) = (s.free : Set ℕ) ∪ s.pool.owns h.arc
    rw [howns, Finset.coe_union]
  exact ⟨hi.setPhase (t := s.dealloc a.startFrameIndex a.nframes) rfl rfl hh nofun
    (hpool ▸ hi.sound.give _), hpool⟩

theorem Inv.removeHandle (hi : s.Inv) (hh : h ∈ s.handles) (hphase : h.phase = .dropping) :
    (s.removeHandle h).Inv ∧ (s.removeHandle h).pool = s.pool := by
  have hpool : (s.removeHandle h).pool = s.pool := by
    refine pool_congr rfl (fun i => ?_) fun i => blockAt_modifyCount
    change Held (s.handles.erase h) i ↔ _
    rw [held_iff hh, hphase]
    simp
  have hcons : ∀ i, countOf s.handles i =
      countOf (s.handles.erase h) i + if h.arc = i then 1 else 0 := by
    intro i
    rw [← countOf_cons, cons_erase hh]
  refine ⟨⟨fun i a ha => ?_, fun g hg => ?_, fun g hg hfree => ?_, hpool ▸ hi.sound⟩, hpool⟩
  · rw [FrameState.removeHandle, getElem?_modifyCount] at ha
    obtain ⟨a0, ha0, rfl⟩ := map_eq_some_iff.1 ha
    have hcount := hi.count i a0 ha0
    rw [hcons] at hcount
    split_ifs at hcount ⊢
    · exact Nat.sub_eq_of_eq_add hcount
    · exact hcount
  · obtain ⟨a, ha, hneed, hle⟩ := hi.handle g (mem_of_mem_erase hg)
    refine ⟨_, by rw [FrameState.removeHandle, getElem?_modifyCount]; exact congrArg _ ha, ?_⟩
    split_ifs <;> exact ⟨hneed, hle⟩
  · change countOf (s.handles.erase h) g.arc = 1
    have halone := hi.alone g (mem_of_mem_erase hg) hfree
    have hpos : 0 < countOf (s.handles.erase h) g.arc := countOf_pos hg
    rw [hcons] at halone
    split_ifs at halone <;> omega

/-! ### Runs -/

/-- The frames that are free or held do not change. -/
theorem Inv.step {op : FrameOp} (hi : s.Inv) (hs : lts.step s op s') :
    s'.Inv ∧ (Careful s op → s'.pool.total = s.pool.total) := by
  cases op with
  | allocSingle start =>
    obtain ⟨hfree, hs⟩ := ite_none_right_eq_some.1 hs
    cases hs
    exact (hi.alloc hfree).imp_right fun h _ => h
  | allocContiguous n start =>
    obtain ⟨⟨-, hfree⟩, hs⟩ := ite_none_right_eq_some.1 hs
    cases hs
    exact (hi.alloc hfree).imp_right fun h _ => h
  | alloc n start =>
    obtain ⟨hfree, hs⟩ := ite_none_right_eq_some.1 hs
    cases hs
    exact (hi.allocVector hfree).imp_right fun h hn => h (nextPowerOfTwo_eq_self.2 hn)
  | clone h =>
    obtain ⟨⟨hmem, hlive⟩, hs⟩ := ite_none_right_eq_some.1 hs
    cases hs
    obtain ⟨hinv, hpool⟩ := hi.addHandle hmem hlive rfl hlive le_rfl
    exact ⟨hinv, fun _ => by rw [hpool]⟩
  | range h r =>
    obtain ⟨⟨⟨hmem, hlive⟩, -, hle⟩, hs⟩ := ite_none_right_eq_some.1 hs
    cases hs
    obtain ⟨hinv, hpool⟩ :=
      @Inv.addHandle s h hi ⟨h.arc, adjRange h.range r, h.phase⟩ hmem hlive rfl hlive hle
    exact ⟨hinv, fun _ => by rw [hpool]⟩
  | dropTest h =>
    obtain ⟨⟨hmem, hlive⟩, hs⟩ := ite_none_right_eq_some.1 hs
    obtain ⟨a, ha, rfl⟩ := map_eq_some_iff.1 hs
    obtain ⟨hinv, hpool⟩ := hi.dropTest hmem hlive ha
    exact ⟨hinv, fun hok => by rw [hpool hok]⟩
  | dropDealloc h =>
    obtain ⟨⟨hmem, hphase⟩, hs⟩ := ite_none_right_eq_some.1 hs
    obtain ⟨a, ha, rfl⟩ := map_eq_some_iff.1 hs
    obtain ⟨hinv, hpool⟩ := hi.dropDealloc hmem hphase ha
    exact ⟨hinv, fun _ => by rw [hpool, Pool.total_give]⟩
  | dropArc h =>
    obtain ⟨⟨hmem, hphase⟩, hs⟩ := ite_none_right_eq_some.1 hs
    cases hs
    obtain ⟨hinv, hpool⟩ := hi.removeHandle hmem hphase
    exact ⟨hinv, fun _ => by rw [hpool]⟩

theorem inv_of_reachable (hr : lts.Reachable (init free) s) : s.Inv :=
  hr.invariant (inv_init free) fun _ _ _ h hs => (h.step hs).1

/-- **No frame is free while a handle to it lives.** -/
theorem not_free_of_live (hr : lts.Reachable (init free) s) (hh : h ∈ s.handles)
    (hlive : h.phase = .live) : Disjoint (s.framesOf h) s.free := by
  have hi := inv_of_reachable hr
  obtain ⟨a, ha, -, hle⟩ := hi.handle h hh
  have howned := hi.sound.owned h.arc
  rw [owns_of_held ⟨h, hh, rfl, by rw [hlive]; nofun⟩ ha] at howned
  refine Disjoint.mono_left ?_ (Finset.disjoint_coe.1 howned)
  simp only [framesOf, ha]
  have := le_nextPowerOfTwo a.nframes
  exact Finset.Ico_subset_Ico (by omega) (by omega)

/-- The frames of a handle that lives belong to its `Arc`. -/
theorem Inv.framesOf_subset (hi : s.Inv) (hh : h ∈ s.handles) (hlive : h.phase = .live) :
    ↑(s.framesOf h) ⊆ s.pool.owns h.arc := by
  obtain ⟨a, ha, -, hle⟩ := hi.handle h hh
  rw [owns_of_held ⟨h, hh, rfl, by rw [hlive]; nofun⟩ ha, Finset.coe_subset]
  simp only [framesOf, ha]
  have := le_nextPowerOfTwo a.nframes
  exact Finset.Ico_subset_Ico (by omega) (by omega)

/-- **No frame belongs to two allocations**: handles that live and are not clones or ranges of one
another share no frame. -/
theorem frames_unshared (hr : lts.Reachable (init free) s) (hh : h ∈ s.handles)
    (hg : g ∈ s.handles) (hlive : h.phase = .live) (hlive' : g.phase = .live)
    (harc : h.arc ≠ g.arc) : Disjoint (s.framesOf h) (s.framesOf g) := by
  have hi := inv_of_reachable hr
  exact Finset.disjoint_coe.1 ((hi.sound.unique h.arc g.arc harc).mono
    (hi.framesOf_subset hh hlive) (hi.framesOf_subset hg hlive'))

/-- **No frame is freed twice**: what a drop returns is not free. -/
theorem not_free_of_dropDealloc (hr : lts.Reachable (init free) s)
    (hs : lts.step s (.dropDealloc h) s') (ha : s.arcs[h.arc]? = some a) :
    Disjoint (frameBlock a.startFrameIndex a.nframes) s.free := by
  obtain ⟨⟨hmem, hphase⟩, -⟩ := ite_none_right_eq_some.1 hs
  have howned := (inv_of_reachable hr).sound.owned h.arc
  rw [owns_of_held ⟨h, hmem, rfl, by rw [hphase]; nofun⟩ ha] at howned
  exact Finset.disjoint_coe.1 howned

/-- **Once all handles are dropped, the free frames are those of the start**, and before that no
frame is free while a handle to it lives and none is freed twice. -/
theorem frames_conserved {free : Finset ℕ} (hr : (lts.restrict Careful).Reachable (init free) s) :
    (∀ h ∈ s.handles, h.phase = .live → Disjoint (s.framesOf h) s.free) ∧
      (∀ h a s', lts.step s (.dropDealloc h) s' → s.arcs[h.arc]? = some a →
        Disjoint (frameBlock a.startFrameIndex a.nframes) s.free) ∧
      (s.handles = 0 → s.free = free) := by
  refine ⟨fun h hh hlive => not_free_of_live hr.of_restrict hh hlive,
    fun h a s' hs ha => not_free_of_dropDealloc hr.of_restrict hs ha, fun hnone => ?_⟩
  have hstart : (init free).Inv ∧ (init free).pool.total = ↑free :=
    ⟨inv_init free, total_init free⟩
  have hinv := hr.invariant (P := fun s => s.Inv ∧ s.pool.total = ↑free) hstart fun t op t' h hs =>
    (h.1.step hs.2).imp_right fun htotal => (htotal hs.1).trans h.2
  refine Finset.coe_injective (Eq.trans ?_ hinv.2)
  ext f
  simp [Pool.mem_total, pool, hnone, Held]

/-! ### Runs that lose frames -/

/-- Four free frames. -/
def exampleFrames : Finset ℕ := Finset.range 4

/-- The first handle to the frames of an `Arc`. -/
def handleTo (i n : ℕ) : FrameHandle := ⟨i, ⟨0, n⟩, .live⟩

/-- The drop of a handle, without interruption. -/
def dropOps (h : FrameHandle) : List FrameOp :=
  [.dropTest h, .dropDealloc { h with phase := .freeing }, .dropArc { h with phase := .dropping }]

/-- A segment of two frames is allocated, cloned and dropped. -/
theorem frames_conserved_segment : ∃ s, (lts.restrict Careful).Reachable (init exampleFrames) s ∧
    s.handles = 0 ∧ s.free = exampleFrames := by
  obtain ⟨s, hr, hnone⟩ := Lts.exists_run_restrict step (init exampleFrames)
    (.allocContiguous 2 0 :: .clone (handleTo 0 2) :: .dropTest (handleTo 0 2) ::
      .dropArc ⟨0, ⟨0, 2⟩, .dropping⟩ :: dropOps (handleTo 0 2))
    (fun s => s.handles = 0) Careful (by decide +kernel)
  exact ⟨s, hr, hnone, (frames_conserved hr).2.2 hnone⟩

theorem frames_unshared_two : ∃ s, lts.Reachable (init exampleFrames) s ∧
    Disjoint (s.framesOf (handleTo 0 1)) (s.framesOf (handleTo 1 2)) := by
  obtain ⟨s, hr, hh, hg⟩ := Lts.exists_run step (init exampleFrames)
    [.allocSingle 0, .allocContiguous 2 2]
    (fun s => handleTo 0 1 ∈ s.handles ∧ handleTo 1 2 ∈ s.handles) (by decide +kernel)
  exact ⟨s, hr, frames_unshared hr hh hg rfl rfl (by decide)⟩

/-- **A contiguous vector of three frames loses one**: its block has four. -/
theorem exists_leak_vector :
    ∃ s, lts.Reachable (init exampleFrames) s ∧ s.handles = 0 ∧ s.free ≠ exampleFrames :=
  Lts.exists_run step (init exampleFrames) (.alloc 3 0 :: (dropOps (handleTo 0 1) ++
    dropOps (handleTo 1 1) ++ dropOps (handleTo 2 1))) _ (by decide +kernel)

/-- **Two drops that both read the count two lose the frame**; no vector is allocated. -/
theorem exists_leak_race : ∃ s, (lts.restrict fun _ op => op.isVector = false).Reachable
    (init exampleFrames) s ∧ s.handles = 0 ∧ s.free ≠ exampleFrames :=
  Lts.exists_run_restrict step (init exampleFrames) [.allocSingle 0, .clone (handleTo 0 1),
    .dropTest (handleTo 0 1), .dropTest (handleTo 0 1), .dropArc ⟨0, ⟨0, 1⟩, .dropping⟩,
    .dropArc ⟨0, ⟨0, 1⟩, .dropping⟩] _ _ (by decide +kernel)

end FrameState

end Jinux
