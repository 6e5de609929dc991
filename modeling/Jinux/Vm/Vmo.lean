import Jinux.Lib.OrdMap
import Jinux.Kernel.Result
import Jinux.Vm.Perms

/-!
# Virtual memory objects

A VMO is a range of memory pages that are committed on demand.  A child VMO starts with references
to the frames of its parent (`inheritedPages`): a slice child keeps using them, a copy-on-write
child copies a frame when the page is first written.  Frames are reference counted and shared, so
the state is global: `World` holds the contents of all frames, all VMOs and the frame allocator.

* A frame is named by the number of the allocation that produced it.  The kernel reuses a physical
  page only when no handle to it is left, so a name stands for one allocation for ever.
* `World.noMemory` says which allocations find no free frame.
* The state survives a failed call: `VmoM` keeps what was done before the error.

Modelled here are VMOs without a pager.
-/

namespace Jinux

/-- The frame of the `n`-th allocation. -/
abbrev FrameId := ℕ

/-- A reference to a VMO. -/
abbrev VmoId := ℕ

/-- `VmoFlags` -/
structure VmoFlags where
  resizable : Bool := false
  contiguous : Bool := false
  dma : Bool := false
  deriving DecidableEq, Repr

/-- `Vmo_` and `VmoInner` -/
structure VmoInner where
  flags : VmoFlags := {}
  /-- The size in bytes. -/
  size : ℕ
  /-- The committed pages; the key is the page index. -/
  committedPages : OrdMap ℕ FrameId := .empty
  /-- The frames inherited from the parent, for a child VMO. -/
  inheritedPages : Option (List FrameId) := none
  isCow : Bool := false
  deriving DecidableEq, Repr

/-- The physical memory, the frame allocator and all VMOs. -/
structure World where
  /-- The bytes of every frame. -/
  mem : FrameId → ℕ → UInt8
  /-- The number of allocations so far. -/
  nextFrame : ℕ
  /-- The allocations that find no free frame. -/
  noMemory : ℕ → Bool
  /-- The VMOs, by `VmoId`. -/
  vmos : List VmoInner

/-- A computation on the memory that may fail. -/
abbrev VmoM := EStateM Fault World

/-- A call whose result type is `aster_frame::Result`. -/
def viaFrameError {σ α : Type} (x : EStateM Fault σ α) : EStateM Fault σ α := fun s =>
  match x s with
  | .ok a s => .ok a s
  | .error (.err e) s => .error (.err e.viaFrame) s
  | .error p s => .error p s

namespace VmoInner

/-- `is_cow_child` -/
def isCowChild (v : VmoInner) : Bool := v.isCow

/-- `should_share_frame_with_parent` -/
def shouldShareFrameWithParent (v : VmoInner) (writePage : Bool) : Bool := !v.isCow || !writePage

end VmoInner

namespace World

/-- The VMO of a reference. -/
def vmo (w : World) (id : VmoId) : VmoInner := w.vmos.getD id { size := 0 }

/-- Replace the VMO of a reference. -/
def setVmo (w : World) (id : VmoId) (v : VmoInner) : World := { w with vmos := w.vmos.set id v }

/-- Replace the bytes of a frame. -/
def setFrame (w : World) (f : FrameId) (page : ℕ → UInt8) : World :=
  { w with mem := Function.update w.mem f page }

/-! ### Frames -/

/-- `VmAllocOptions::new(1).alloc_single()`: a frame filled with zeros. -/
def allocSingle : VmoM FrameId := fun w =>
  let w' := { w with nextFrame := w.nextFrame + 1 }
  if w.noMemory w.nextFrame then .error (.err ⟨.enomem, none⟩) w'
  else .ok w.nextFrame (w'.setFrame w.nextFrame fun _ => 0)

/-- `VmFrame::copy_from_frame` -/
def copyFromFrame (dst src : FrameId) : VmoM Unit := modify fun w => w.setFrame dst (w.mem src)

/-- The `n` bytes of a page from `start` on. -/
def slice (page : ℕ → UInt8) (start n : ℕ) : List UInt8 :=
  (List.range n).map fun i => page (start + i)

/-- The page with `bs` written at `start`. -/
def overwrite (page : ℕ → UInt8) (start : ℕ) (bs : List UInt8) : ℕ → UInt8 := fun j =>
  if start ≤ j ∧ j < start + bs.length then bs.getD (j - start) 0 else page j

/-- The loop of `VmFrameVec::read_bytes`: from `start` in the first frame, then whole frames. -/
def readFrames (mem : FrameId → ℕ → UInt8) : List FrameId → ℕ → ℕ → List UInt8
  | [], _, _ => []
  | f :: fs, start, n =>
    let len := min (pageSize - start) n
    if len = 0 then [] else slice (mem f) start len ++ readFrames mem fs 0 (n - len)

/-- The loop of `VmFrameVec::write_bytes`. -/
def writeFrames (mem : FrameId → ℕ → UInt8) :
    List FrameId → ℕ → List UInt8 → FrameId → ℕ → UInt8
  | [], _, _ => mem
  | f :: fs, start, bs =>
    let len := min (pageSize - start) bs.length
    if len = 0 then mem
    else
      writeFrames (Function.update mem f (overwrite (mem f) start (bs.take len))) fs 0 (bs.drop len)

/-! ### Pages of a VMO -/

/-- `VmoInner::insert_frame` -/
def insertFrame (id : VmoId) (pageIdx : ℕ) (frame : FrameId) : VmoM Unit := do
  let v := (← get).vmo id
  liftR (debugAssert ((v.committedPages.get? pageIdx).isNone = true))
  modify fun w => w.setVmo id { v with committedPages := v.committedPages.insert pageIdx frame }

/-- `VmoInner::commit_page` -/
def commitPage (id : VmoId) (offset : ℕ) : VmoM Unit := do
  let pageIdx := offset / pageSize
  if (((← get).vmo id).committedPages.get? pageIdx).isSome then return ()
  let frame ← allocSingle
  insertFrame id pageIdx frame

/-- `VmoInner::decommit_page` -/
def decommitPage (id : VmoId) (offset : ℕ) : VmoM Unit :=
  modify fun w =>
    let v := w.vmo id
    w.setVmo id { v with committedPages := v.committedPages.remove (offset / pageSize) }

/-- `VmoInner::get_inherited_frame_or_alloc` -/
def getInheritedFrameOrAlloc (id : VmoId) (pageIdx : ℕ) (writePage : Bool) : VmoM FrameId := do
  let v := (← get).vmo id
  let inheritedFrames ← liftR (unwrap v.inheritedPages)
  match inheritedFrames[pageIdx]? with
  | none =>
    -- the page lies beyond the parent
    if v.isCow then allocSingle
    else liftR (returnErrnoWithMessage .einval "the page is not inherited from parent")
  | some inheritedFrame =>
    if v.shouldShareFrameWithParent writePage then return inheritedFrame
    let frame ← allocSingle
    copyFromFrame frame inheritedFrame
    return frame

/-- `VmoInner::get_committed_frame` -/
def getCommittedFrame (id : VmoId) (pageIdx : ℕ) (writePage : Bool) : VmoM FrameId := do
  let v := (← get).vmo id
  match v.committedPages.get? pageIdx with
  | some frame => return frame
  | none =>
    if v.inheritedPages.isNone then
      -- the VMO is not a child
      commitPage id (pageIdx * pageSize)
      let w ← get
      liftR (unwrap ((w.vmo id).committedPages.get? pageIdx))
    else
      let frame ← getInheritedFrameOrAlloc id pageIdx writePage
      if !v.shouldShareFrameWithParent writePage then insertFrame id pageIdx frame
      return frame

/-- `Vmo_::ensure_all_pages_exist`, for a list of page indices. -/
def ensureAllPagesExist (id : VmoId) (writePage : Bool) : List ℕ → VmoM (List FrameId)
  | [] => return []
  | pageIdx :: rest => do
    let frame ← getCommittedFrame id pageIdx writePage
    let frames ← ensureAllPagesExist id writePage rest
    return frame :: frames

/-- The page indices of a range of page indices, in order. -/
def pageIdxs (r : Range) : List ℕ := List.range' r.start (r.stop - r.start)

@[simp] theorem mem_pageIdxs {r : Range} {k : ℕ} : k ∈ pageIdxs r ↔ k ∈ r := by
  rw [pageIdxs, List.mem_range'_1, Span.mem_def]
  omega

/-- `Vmo_::read_bytes` -/
def readBytes (id : VmoId) (offset len : ℕ) : VmoM (List UInt8) := do
  let stop ← liftR (addUsize offset len)
  if ((← get).vmo id).size < stop then
    liftR (returnErrnoWithMessage .einval "read range exceeds vmo size")
  else
    let idxs ← liftR (getPageIdxRange ⟨offset, stop⟩)
    let frames ← ensureAllPagesExist id false (pageIdxs idxs)
    if frames.length * pageSize < len + offset % pageSize then liftR (returnErrno .einval)
    else return readFrames (← get).mem frames (offset % pageSize) len

/-- `Vmo_::write_bytes` -/
def writeBytes (id : VmoId) (offset : ℕ) (buf : List UInt8) : VmoM Unit := do
  let stop ← liftR (addUsize offset buf.length)
  let size := ((← get).vmo id).size
  liftR (debugAssert (stop ≤ size))
  if size < stop then liftR (returnErrnoWithMessage .einval "write range exceeds the vmo size")
  else
    let idxs ← liftR (getPageIdxRange ⟨offset, stop⟩)
    let frames ← ensureAllPagesExist id true (pageIdxs idxs)
    if frames.length * pageSize < buf.length + offset % pageSize then liftR (returnErrno .einval)
    else modify fun w => { w with mem := writeFrames w.mem frames (offset % pageSize) buf }

/-- `Vmo_::clear` -/
def clear (id : VmoId) (range : Range) : VmoM Unit := do
  let len ← liftR (subUsize range.stop range.start)
  writeBytes id range.start (List.replicate len 0)

/-- `Vmo_::page_commited` -/
def pageCommited (w : World) (id : VmoId) (pageIdx : ℕ) : Bool :=
  ((w.vmo id).committedPages.get? pageIdx).isSome

/-- `Vmo_::commit` -/
def commit (id : VmoId) (range : Range) : VmoM Unit := do
  let idxs ← liftR (getPageIdxRange range)
  (pageIdxs idxs).forM fun pageIdx => commitPage id (pageIdx * pageSize)

/-- `Vmo_::decommit` -/
def decommit (id : VmoId) (range : Range) : VmoM Unit := do
  let idxs ← liftR (getPageIdxRange range)
  (pageIdxs idxs).forM fun pageIdx => decommitPage id (pageIdx * pageSize)

/-- Set the size of a VMO. -/
def setSize (id : VmoId) (size : ℕ) : VmoM Unit :=
  modify fun w => w.setVmo id { w.vmo id with size }

/-- `Vmo_::resize` -/
def resize (id : VmoId) (newSize : ℕ) : VmoM Unit := do
  liftR (assert (((← get).vmo id).flags.resizable = true))
  let newSize ← liftR (alignUp newSize pageSize)
  let oldSize := ((← get).vmo id).size
  if newSize = oldSize then return ()
  if newSize < oldSize then
    decommit id ⟨newSize, oldSize⟩
    setSize id newSize
  else setSize id newSize

/-! ### Allocation of VMOs -/

/-- Add a VMO and return its reference. -/
def addVmo (v : VmoInner) : VmoM VmoId := fun w =>
  .ok w.vmos.length { w with vmos := w.vmos ++ [v] }

/-- The consecutive frames of a contiguous allocation. -/
def allocContiguous (n : ℕ) : VmoM (List FrameId) := fun w =>
  let fs := List.range' w.nextFrame n
  let w' := { w with nextFrame := w.nextFrame + n }
  if w.noMemory w.nextFrame then .error (.err ⟨.enomem, none⟩) w'
  else .ok fs { w' with mem := fun f => if f ∈ fs then fun _ => 0 else w.mem f }

/-- `committed_pages_if_continuous`: the key of a frame is its offset in bytes. -/
def committedPagesIfContinuous (flags : VmoFlags) (size : ℕ) : VmoM (OrdMap ℕ FrameId) := do
  if flags.contiguous then
    let frames ← allocContiguous (size / pageSize)
    return OrdMap.empty.insertAll (frames.zipIdx.map fun e => (e.2 * pageSize, e.1))
  else return OrdMap.empty

/-- `alloc_vmo_` -/
def allocVmo (size : ℕ) (flags : VmoFlags) : VmoM VmoId := do
  let size ← liftR (alignUp size pageSize)
  let committedPages ← committedPagesIfContinuous flags size
  addVmo { flags, size, committedPages }

/-- `ChildType` -/
inductive ChildType where
  | cow
  | slice
  deriving DecidableEq, Repr

/-- `VmoChildOptions::flags` after `new_cow` or `new_slice`: `CONTIGUOUS` and `DMA` come from the
parent, and only a copy-on-write child may be made resizable. -/
def ChildType.flags (t : ChildType) (parent flags : VmoFlags) : VmoFlags :=
  { parent with resizable := decide (t = .cow) && flags.resizable }

/-- `get_inherited_frames_from_parent`, for a list of page indices of the parent. -/
def getInheritedFramesFromParent (parent : VmoId) (isCow : Bool) : List ℕ → VmoM (List FrameId)
  | [] => return []
  | pageIdx :: rest => fun w =>
    match getCommittedFrame parent pageIdx (!isCow) w with
    | .ok frame w =>
      (do let frames ← getInheritedFramesFromParent parent isCow rest; return frame :: frames) w
    | .error (.err _) w => .error (.panic .unwrap) w
    | .error p w => .error p w

/-- The range check of `alloc_child_vmo_`; returns `is_cow`. -/
def checkChildRange (parentSize : ℕ) (range : Range) : ChildType → Result Bool
  | .slice => do
    -- a slice child should be inside the parent's range
    debugAssert (range.stop ≤ parentSize)
    if parentSize < range.stop then
      returnErrnoWithMessage .einval "slice child vmo cannot exceed parent vmo's size"
    else pure false
  | .cow => do
    -- a copy-on-write child should intersect with the parent
    debugAssert (range.start ≤ parentSize)
    if parentSize < range.start then
      returnErrnoWithMessage .einval "COW vmo should overlap with its parent"
    else pure true

/-- `alloc_child_vmo_` -/
def allocChildVmo (parent : VmoId) (range : Range) (flags : VmoFlags) (childType : ChildType) :
    VmoM VmoId := do
  liftR (debugAssert (range.start % pageSize = 0))
  liftR (debugAssert (range.stop % pageSize = 0))
  if range.start % pageSize ≠ 0 ∨ range.stop % pageSize ≠ 0 then
    liftR (returnErrnoWithMessage .einval "vmo range does not aligned with PAGE_SIZE")
  else
    let parentSize := ((← get).vmo parent).size
    let isCow ← liftR (checkChildRange parentSize range childType)
    let inheritedEnd := min range.stop parentSize
    let cowSize := if range.start ≤ inheritedEnd then inheritedEnd - range.start else 0
    let inheritedPages ← getInheritedFramesFromParent parent isCow
      (List.range' (range.start / pageSize) (cowSize / pageSize))
    let size ← liftR (subUsize range.stop range.start)
    addVmo { flags, size, inheritedPages := some inheritedPages, isCow }

end World

/-- `Vmo<Rights>`: a reference to a VMO with access rights. -/
structure Vmo where
  id : VmoId
  rights : Rights
  deriving DecidableEq, Repr

namespace Vmo

/-- `check_rights` -/
def checkRights (v : Vmo) (rights : Rights) : Result Unit :=
  if v.rights.contains rights then .ok ()
  else returnErrnoWithMessage .einval "vmo rights check failed"

/-- `dup` -/
def dup (v : Vmo) : Result Vmo := do
  v.checkRights { dup := true }
  pure v

/-- `VmIo::read_bytes` for `Vmo<Rights>`. The error passes through `aster_frame::Error`. -/
def readBytes (v : Vmo) (offset len : ℕ) : VmoM (List UInt8) :=
  viaFrameError do
    liftR (v.checkRights { read := true })
    World.readBytes v.id offset len

/-- `VmIo::write_bytes` for `Vmo<Rights>`. -/
def writeBytes (v : Vmo) (offset : ℕ) (buf : List UInt8) : VmoM Unit :=
  viaFrameError do
    liftR (v.checkRights { write := true })
    World.writeBytes v.id offset buf

/-- `new_cow_child(range).alloc()`: the child has the rights of the parent. -/
def newCowChild (v : Vmo) (range : Range) (flags : VmoFlags) : VmoM Vmo := do
  let v ← liftR v.dup
  let parentFlags := ((← get).vmo v.id).flags
  let id ← World.allocChildVmo v.id range (World.ChildType.flags .cow parentFlags flags) .cow
  return { v with id }

/-- `new_slice_child(range).alloc()` -/
def newSliceChild (v : Vmo) (range : Range) (flags : VmoFlags) : VmoM Vmo := do
  let v ← liftR v.dup
  let parentFlags := ((← get).vmo v.id).flags
  let id ← World.allocChildVmo v.id range (World.ChildType.flags .slice parentFlags flags) .slice
  return { v with id }

end Vmo

end Jinux
