import Jinux.Vm.RootVmo

/-!
# The page cache of a file

A page cache is a VMO whose pager, the page cache manager, reads pages from a backend and writes
them back.  A cached page is held twice: the VMO has it among its committed pages, and the manager
keeps it with a state that says whether the backend has its contents.

* `PageCacheManager` : the pager, on a backend that is an array of pages and never fails;
* `CachedFile.readBytes`, `CachedFile.writeBytes`, `CachedFile.decommit` : the methods of the VMO,
  with the calls of the pager;
* `CachedFile.Caches` : the file as the cache shows it, of which a page that is not dirty can be
  read from the backend;
* `CachedFile.readBytes_contract`, `CachedFile.writeBytes_contract` : reads and writes of the VMO
  are reads and writes of the file.
-/

namespace Jinux

open StateRules World Contract OrdMap

/-- `PageState` -/
inductive PageState where
  | uninit
  | upToDate
  | dirty
  deriving DecidableEq, Repr

/-- `Page` -/
structure CachePage where
  frame : FrameId
  state : PageState
  deriving DecidableEq, Repr

/-- A `PageCache`, the memory it lives in and its backend. -/
structure CachedFile where
  world : World
  vmo : VmoId
  pages : OrdMap ℕ CachePage
  npages : ℕ
  backend : ℕ → ℕ → UInt8

/-- A computation on a page cache that may fail. -/
abbrev CacheM := EStateM Fault CachedFile

/-- A computation on the memory. -/
def liftW {α : Type} (x : VmoM α) : CacheM α := fun s =>
  match x s.world with
  | .ok a w => .ok a { s with world := w }
  | .error e w => .error e { s with world := w }

/-- `VmAllocOptions::new(1).uninit(true).alloc_single()`: a frame with whatever it held before. -/
def World.allocUninit : VmoM FrameId := fun w =>
  let w' := { w with nextFrame := w.nextFrame + 1 }
  if w.noMemory w.nextFrame then .error (.err ⟨.enomem, none⟩) w' else .ok w.nextFrame w'

namespace PageCacheManager

/-- `PageCacheBackend::read_page` -/
def readPage (idx : ℕ) (frame : FrameId) : CacheM Unit :=
  modify fun s => { s with world := s.world.setFrame frame (s.backend idx) }

/-- `PageCacheBackend::write_page` -/
def writePage (idx : ℕ) (frame : FrameId) : CacheM Unit :=
  modify fun s => { s with backend := Function.update s.backend idx (s.world.mem frame) }

/-- `Page::alloc` -/
def alloc : CacheM CachePage := do return ⟨← liftW allocUninit, .uninit⟩

/-- `Page::alloc_zero` -/
def allocZero : CacheM CachePage := do return ⟨← liftW allocSingle, .dirty⟩

/-- Keep a page under an index. -/
def put (idx : ℕ) (page : CachePage) : CacheM Unit :=
  modify fun s => { s with pages := s.pages.insert idx page }

/-- `commit_page` -/
def commitPage (idx : ℕ) : CacheM FrameId := do
  let s ← get
  match s.pages.get? idx with
  | some page => return page.frame
  | none =>
    if idx < s.npages then
      let page ← alloc
      readPage idx page.frame
      put idx { page with state := .upToDate }
      return page.frame
    else
      let page ← allocZero
      put idx page
      return page.frame

/-- `update_page` -/
def updatePage (idx : ℕ) : CacheM Unit := do
  match (← get).pages.get? idx with
  | some page => put idx { page with state := .dirty }
  | none => return ()

/-- `decommit_page` -/
def decommitPage (idx : ℕ) : CacheM Unit := do
  let s ← get
  match s.pages.get? idx with
  | some page =>
    modify fun s => { s with pages := s.pages.remove idx }
    if page.state = .dirty ∧ idx < s.npages then writePage idx page.frame
  | none => return ()

/-- One round of the loop of `evict_range`. -/
def evictPage (idx : ℕ) : CacheM Unit := do
  let s ← get
  match s.pages.get? idx with
  | some page =>
    if page.state = .dirty ∧ idx < s.npages then
      writePage idx page.frame
      put idx { page with state := .upToDate }
  | none => return ()

/-- `evict_range` -/
def evictRange (range : Range) : CacheM Unit := do
  let idxs ← liftR (getPageIdxRange range)
  (pageIdxs idxs).forM evictPage

end PageCacheManager

namespace CachedFile

open PageCacheManager

/-- `VmoInner::commit_page`, with a pager. -/
def commitPage (offset : ℕ) : CacheM Unit := do
  let s ← get
  let pageIdx := offset / pageSize
  if ((s.world.vmo s.vmo).committedPages.get? pageIdx).isSome then return ()
  let frame ← PageCacheManager.commitPage pageIdx
  liftW (insertFrame s.vmo pageIdx frame)

/-- `VmoInner::decommit_page`, with a pager. -/
def decommitPage (offset : ℕ) : CacheM Unit := do
  let s ← get
  let pageIdx := offset / pageSize
  liftW (World.decommitPage s.vmo offset)
  if ((s.world.vmo s.vmo).committedPages.get? pageIdx).isSome then
    PageCacheManager.decommitPage pageIdx

/-- `VmoInner::get_committed_frame`, with a pager. -/
def getCommittedFrame (pageIdx : ℕ) (writePage : Bool) : CacheM FrameId := do
  let s ← get
  match (s.world.vmo s.vmo).committedPages.get? pageIdx with
  | some frame => return frame
  | none =>
    if (s.world.vmo s.vmo).inheritedPages.isNone then
      commitPage (pageIdx * pageSize)
      let s ← get
      liftR (unwrap ((s.world.vmo s.vmo).committedPages.get? pageIdx))
    -- a child has no pager
    else liftW (World.getCommittedFrame s.vmo pageIdx writePage)

/-- `Vmo_::ensure_all_pages_exist`, for a list of page indices. -/
def ensureAllPagesExist (writePage : Bool) : List ℕ → CacheM (List FrameId)
  | [] => return []
  | pageIdx :: rest => do
    let frame ← getCommittedFrame pageIdx writePage
    let frames ← ensureAllPagesExist writePage rest
    return frame :: frames

/-- The size of the VMO. -/
def size (s : CachedFile) : ℕ := (s.world.vmo s.vmo).size

/-- `Vmo_::read_bytes` -/
def readBytes (offset len : ℕ) : CacheM (List UInt8) := do
  let stop ← liftR (addUsize offset len)
  if (← get).size < stop then
    liftR (returnErrnoWithMessage .einval "read range exceeds vmo size")
  else
    let idxs ← liftR (getPageIdxRange ⟨offset, stop⟩)
    let frames ← ensureAllPagesExist false (pageIdxs idxs)
    if frames.length * pageSize < len + offset % pageSize then liftR (returnErrno .einval)
    else return readFrames (← get).world.mem frames (offset % pageSize) len

/-- `Vmo_::write_bytes`, with a pager. -/
def writeBytes (offset : ℕ) (buf : List UInt8) : CacheM Unit := do
  let stop ← liftR (addUsize offset buf.length)
  let size := (← get).size
  liftR (debugAssert (stop ≤ size))
  if size < stop then liftR (returnErrnoWithMessage .einval "write range exceeds the vmo size")
  else
    let idxs ← liftR (getPageIdxRange ⟨offset, stop⟩)
    let frames ← ensureAllPagesExist true (pageIdxs idxs)
    if frames.length * pageSize < buf.length + offset % pageSize then liftR (returnErrno .einval)
    else
      modify fun s => { s with
        world.mem := writeFrames s.world.mem frames (offset % pageSize) buf }
      (pageIdxs idxs).forM updatePage

/-- `Vmo_::decommit` -/
def decommit (range : Range) : CacheM Unit := do
  let idxs ← liftR (getPageIdxRange range)
  (pageIdxs idxs).forM fun pageIdx => decommitPage (pageIdx * pageSize)

/-- `PageCache::with_capacity`, on a backend of `npages` pages. -/
def withCapacity (capacity npages : ℕ) (backend : ℕ → ℕ → UInt8) :
    VmoM CachedFile := do
  let vmo ← allocVmo capacity { resizable := true }
  return { world := ← get, vmo, pages := .empty, npages, backend }

/-! ### The file as the cache shows it -/

/-- The frame of a page of the backend. -/
def frameOf (s : CachedFile) (k : ℕ) : Option FrameId :=
  if k < s.npages then (s.world.vmo s.vmo).committedPages.get? k else none

/-- The backend has what the cache shows of page `k`, as far as the manager knows. -/
def Clean (s : CachedFile) (k : ℕ) : Prop :=
  ∀ page, s.pages.get? k = some page → page.state ≠ .dirty

/-- The cache of VMO `id`, of `size` bytes, over a backend of `n` pages shows `m`, and the other
VMOs are those of `w₀`. -/
structure Caches (w₀ : World) (id : VmoId) (n size : ℕ) (m : Bytes) (s : CachedFile) : Prop where
  wf : s.world.Wf
  vmo_eq : s.vmo = id
  lt : id < s.world.vmos.length
  length_eq : s.world.vmos.length = w₀.vmos.length
  other : ∀ j ≠ id, s.world.vmo j = w₀.vmo j
  npages_eq : s.npages = n
  size_eq : (s.world.vmo id).size = size
  dvd : pageSize ∣ size
  bound : size < usizeBound
  root : (s.world.vmo id).inheritedPages = none
  /-- The VMO and the manager hold the same frames. -/
  same : ∀ k, (s.world.vmo id).committedPages.get? k = (s.pages.get? k).map CachePage.frame
  /-- No frame serves two pages. -/
  inj : ∀ k k' f, (s.world.vmo id).committedPages.get? k = some f →
    (s.world.vmo id).committedPages.get? k' = some f → k = k'
  shown : Backed s.frameOf s.world.mem m
  /-- A page that is not dirty can be read from the backend. -/
  clean : ∀ k < n, s.Clean k → ∀ j < pageSize, s.backend k j = m (k * pageSize + j)

variable {w₀ : World} {id : VmoId} {n size len : ℕ} {m : Bytes} {s s' : CachedFile} {k : ℕ}
  {f : FrameId} {offset : ℕ} {fs : List FrameId} {pages : OrdMap ℕ CachePage} {buf : List UInt8}

/-- The call found no memory for a page, and the cache still shows the file. -/
def NoMemory (w₀ : World) (id : VmoId) (n size : ℕ) (m : Bytes) (e : Fault) (s : CachedFile) :
    Prop :=
  e = outOfMemory ∧ (∃ i, s.world.noMemory i = true) ∧ Caches w₀ id n size m s

theorem Caches.frameOf_eq (h : Caches w₀ id n size m s) (hk : k < n) :
    s.frameOf k = (s.world.vmo id).committedPages.get? k := by
  rw [frameOf, h.npages_eq, if_pos hk, h.vmo_eq]

theorem Caches.committed_of_frameOf (h : Caches w₀ id n size m s) (hf : s.frameOf k = some f) :
    (s.world.vmo id).committedPages.get? k = some f := by
  rw [frameOf, h.vmo_eq] at hf
  split_ifs at hf
  exact hf

theorem Caches.frameOf_inj (h : Caches w₀ id n size m s) (k k' : ℕ) (f : FrameId)
    (hk : s.frameOf k = some f) (hk' : s.frameOf k' = some f) : k = k' :=
  h.inj k k' f (h.committed_of_frameOf hk) (h.committed_of_frameOf hk')

/-! ### Committing -/

/-- The page that the manager makes for index `k`. -/
def newPage (s : CachedFile) (k : ℕ) : ℕ → UInt8 := if k < s.npages then s.backend k else fun _ => 0

/-- The cache with a new page under index `k`. -/
def adopt (s : CachedFile) (k : ℕ) : CachedFile :=
  { s with
    world := s.world.commitNew s.vmo k (s.newPage k)
    pages := s.pages.insert k
      ⟨s.world.nextFrame, if k < s.npages then .upToDate else .dirty⟩ }

/-- The cache with one more failed allocation. -/
def bump (s : CachedFile) : CachedFile := { s with world := s.world.bump }

/-- The manager makes a new page. -/
theorem manager_commitPage_run (hp : s.pages.get? k = none) : PageCacheManager.commitPage k s =
    if s.world.noMemory s.world.nextFrame then .error outOfMemory s.bump
    else .ok s.world.nextFrame
      { s with
        world := s.world.fill (s.newPage k)
        pages := s.pages.insert k
          ⟨s.world.nextFrame, if k < s.npages then .upToDate else .dirty⟩ } := by
  unfold PageCacheManager.commitPage newPage
  rw [get_bind, hp]
  by_cases hk : k < s.npages
  · simp only [hk, if_true]
    by_cases hm : s.world.noMemory s.world.nextFrame = true
    · rw [if_pos hm]
      refine bind_of_error (bind_of_error ?_)
      simp only [liftW, allocUninit, if_pos hm]
      rfl
    · rw [if_neg hm]
      have halloc : alloc s = .ok ⟨s.world.nextFrame, .uninit⟩ s.bump := by
        refine bind_of_ok ?_
        simp only [liftW, allocUninit, if_neg hm]
        rfl
      rw [bind_of_ok halloc]
      rfl
  · simp only [hk, if_false]
    by_cases hm : s.world.noMemory s.world.nextFrame = true
    · rw [if_pos hm]
      refine bind_of_error (bind_of_error ?_)
      simp only [liftW, allocSingle_run, allocThen, if_pos hm]
      rfl
    · rw [if_neg hm]
      have halloc : allocZero s =
          .ok ⟨s.world.nextFrame, .dirty⟩ { s with world := s.world.fill fun _ => 0 } := by
        refine bind_of_ok ?_
        simp [liftW, allocSingle_run, allocThen, if_neg hm]
      rw [bind_of_ok halloc]
      rfl

theorem commitPage_run (hk : (s.world.vmo s.vmo).committedPages.get? k = none)
    (hp : s.pages.get? k = none) : commitPage (k * pageSize) s =
      if s.world.noMemory s.world.nextFrame then .error outOfMemory s.bump
      else .ok ⟨⟩ (s.adopt k) := by
  have hdiv : k * pageSize / pageSize = k := Nat.mul_div_cancel k (by decide)
  have hrun := manager_commitPage_run hp
  unfold commitPage
  rw [get_bind]
  simp only [hdiv, hk, Option.isSome_none, Bool.false_eq_true, if_false]
  by_cases hm : s.world.noMemory s.world.nextFrame = true
  · rw [if_pos hm] at hrun ⊢
    exact bind_of_error hrun
  · rw [if_neg hm] at hrun ⊢
    rw [bind_of_ok hrun]
    simp only [liftW, insertFrame_fill hk]
    rfl

theorem getCommittedFrame_run (h : Caches w₀ id n size m s) (k : ℕ) (writePage : Bool) :
    getCommittedFrame k writePage s =
      match (s.world.vmo id).committedPages.get? k with
      | some f => .ok f s
      | none =>
        if s.world.noMemory s.world.nextFrame then .error outOfMemory s.bump
        else .ok s.world.nextFrame (s.adopt k) := by
  unfold getCommittedFrame
  rw [get_bind, h.vmo_eq]
  cases hc : (s.world.vmo id).committedPages.get? k with
  | some f => rfl
  | none =>
    have hp : s.pages.get? k = none := by
      rw [h.same, Option.map_eq_none_iff] at hc
      exact hc
    have hrun := commitPage_run (h.vmo_eq ▸ hc) hp
    simp only [h.root, Option.isNone_none, if_true]
    by_cases hm : s.world.noMemory s.world.nextFrame = true
    · rw [if_pos hm] at hrun ⊢
      exact bind_of_error hrun
    · rw [if_neg hm] at hrun ⊢
      rw [bind_of_ok hrun, get_bind]
      simp only [adopt, h.vmo_eq, vmo_commitNew_self h.lt, get?_insert_self]
      rfl

theorem Caches.bump (h : Caches w₀ id n size m s) : Caches w₀ id n size m s.bump :=
  { h with wf := (Grow.of_bump h.wf id).wf h.wf }

theorem Caches.adopt (h : Caches w₀ id n size m s)
    (hk : (s.world.vmo id).committedPages.get? k = none) : Caches w₀ id n size m (s.adopt k) := by
  obtain rfl := h.vmo_eq
  have hg : Grow s.vmo s.world (s.world.commitNew s.vmo k (s.newPage k)) :=
    Grow.of_commitNew h.wf h.lt hk
  have hv : (s.world.commitNew s.vmo k (s.newPage k)).vmo s.vmo = _ := vmo_commitNew_self h.lt
  have hget : ∀ k', ((s.adopt k).world.vmo s.vmo).committedPages.get? k' =
      if k' = k then some s.world.nextFrame else (s.world.vmo s.vmo).committedPages.get? k' := by
    intro k'
    rw [CachedFile.adopt, hv, get?_insert]
  have hpage : ∀ k', (s.adopt k).pages.get? k' =
      if k' = k then some ⟨s.world.nextFrame, if k < s.npages then .upToDate else .dirty⟩
      else s.pages.get? k' := by
    intro k'
    rw [CachedFile.adopt, get?_insert]
  have hnone : s.pages.get? k = none := by
    rw [h.same, Option.map_eq_none_iff] at hk
    exact hk
  have hcleank : s.Clean k := fun page hpg => by
    rw [hnone] at hpg
    cases hpg
  refine ⟨hg.wf h.wf, rfl, hg.length ▸ h.lt, hg.length.trans h.length_eq,
    fun j hj => (hg.other j hj).trans (h.other j hj), h.npages_eq, ?_, h.dvd, h.bound, ?_,
    fun k' => ?_, fun k1 k2 f => hg.page_unique (h.inj k1 k2 f), fun k' f hf j hj => ?_,
    fun k' hk' hclean j hj => ?_⟩
  · exact hg.size.trans h.size_eq
  · exact hg.inherited.trans h.root
  · rw [hget, hpage, h.same]
    split_ifs <;> rfl
  · simp only [frameOf, hget, show (s.adopt k).npages = s.npages from rfl,
      show (s.adopt k).vmo = s.vmo from rfl] at hf
    split_ifs at hf with hlt hkk
    · -- the new page was read from the backend
      cases hf
      have hnew : (s.adopt k).world.mem s.world.nextFrame = s.newPage k := mem_fill_self
      rw [hnew, newPage, if_pos (hkk ▸ hlt), hkk]
      exact h.clean k (hkk ▸ h.npages_eq ▸ hlt) hcleank j hj
    · have hf' : s.frameOf k' = some f := by rw [frameOf, if_pos hlt, hf]
      rw [show (s.adopt k).world.mem f = s.world.mem f from
        hg.mem f (h.wf.committed_lt s.vmo k' f hf)]
      exact h.shown k' f hf' j hj
  · by_cases hkk : k' = k
    · exact hkk ▸ h.clean k (hkk ▸ hk') hcleank j hj
    · refine h.clean k' hk' (fun page hpg => hclean page ?_) j hj
      rw [hpage, if_neg hkk]
      exact hpg

/-- What the cache holds stays held. -/
def Kept (id : VmoId) (s s' : CachedFile) : Prop :=
  ∀ k f, (s.world.vmo id).committedPages.get? k = some f →
    (s'.world.vmo id).committedPages.get? k = some f

theorem kept_adopt (h : Caches w₀ id n size m s)
    (hk : (s.world.vmo id).committedPages.get? k = none) : Kept id s (s.adopt k) := by
  obtain rfl := h.vmo_eq
  exact (Grow.of_commitNew h.wf h.lt hk).keep

theorem getCommittedFrame_contract (k : ℕ) (writePage : Bool) (s₀ : CachedFile) :
    Contract (fun s => Caches w₀ id n size m s ∧ Kept id s₀ s) (getCommittedFrame k writePage)
      (fun f s => (Caches w₀ id n size m s ∧ Kept id s₀ s) ∧
        (s.world.vmo id).committedPages.get? k = some f)
      (NoMemory w₀ id n size m) := by
  rintro s ⟨h, hkept⟩
  rw [getCommittedFrame_run h]
  cases hc : (s.world.vmo id).committedPages.get? k with
  | some f => exact ⟨⟨h, hkept⟩, hc⟩
  | none =>
    split_ifs with hm
    · exact ⟨rfl, ⟨_, hm⟩, h.bump⟩
    · refine ⟨⟨h.adopt hc, fun k f hf => kept_adopt h hc k f (hkept k f hf)⟩, ?_⟩
      obtain rfl := h.vmo_eq
      rw [CachedFile.adopt, vmo_commitNew_self h.lt, get?_insert_self]

theorem ensureAllPagesExist_contract (ks : List ℕ) (writePage : Bool) (s₀ : CachedFile) :
    Contract (fun s => Caches w₀ id n size m s ∧ Kept id s₀ s) (ensureAllPagesExist writePage ks)
      (fun fs s => (Caches w₀ id n size m s ∧ Kept id s₀ s) ∧
        List.Forall₂ (fun k f => (s.world.vmo id).committedPages.get? k = some f) ks fs)
      (NoMemory w₀ id n size m) := by
  induction ks generalizing s₀ with
  | nil => exact pure fun s h => ⟨h, .nil⟩
  | cons k ks ih =>
    refine bind (getCommittedFrame_contract k writePage s₀) fun f s hs => ?_
    -- what the first access committed stays
    have hrest := ih s s ⟨hs.1.1, fun _ _ hk => hk⟩
    cases hr : ensureAllPagesExist writePage ks s with
    | error e s' =>
      rw [hr] at hrest
      rw [bind_of_error hr]
      exact hrest
    | ok fs s' =>
      rw [hr] at hrest
      rw [bind_of_ok hr]
      obtain ⟨⟨h', hk'⟩, hfs⟩ := hrest
      exact ⟨⟨h', fun k f hf => hk' k f (hs.1.2 k f hf)⟩, .cons (hk' k f hs.2) hfs⟩

/-! ### Reading and writing -/

/-- The pages of a range inside the backend are pages of the backend. -/
theorem Caches.framesAt (h : Caches w₀ id n size m s) (hb : offset + len ≤ n * pageSize)
    (hfs : FramesAt (s.world.vmo id).committedPages.get? (offset / pageSize)
      (numPages offset (offset + len)) fs) :
    FramesAt s.frameOf (offset / pageSize) (numPages offset (offset + len)) fs :=
  hfs.congr fun _ _ hk => h.frameOf_eq (lt_of_numPages (Nat.le_add_right offset len) hb hk)

theorem readBytes_contract (hb : offset + len ≤ size) (hn : offset + len ≤ n * pageSize) :
    Contract (Caches w₀ id n size m) (readBytes offset len)
      (fun out s => out = readAt m offset len ∧ Caches w₀ id n size m s)
      (NoMemory w₀ id n size m) := by
  intro s h
  have hbound := h.bound
  have hsize : s.size = size := by rw [CachedFile.size, h.vmo_eq, h.size_eq]
  rw [readBytes, addUsize_ok.2 ⟨by omega, rfl⟩, liftR_ok_bind, get_bind, if_neg (by omega),
    getPageIdxRange_of_lt (lt_of_le_size h.dvd h.bound hb)]
  refine bind (ensureAllPagesExist_contract _ false s) (fun fs s' hs' => ?_) s ⟨h, fun _ _ hk => hk⟩
  obtain ⟨⟨h', -⟩, hfs⟩ := hs'
  rw [if_neg (FramesAt.le hfs).not_gt]
  exact ⟨h'.shown.readFrames (h'.framesAt hn hfs), h'⟩

/-- The page with the state that an update leaves. -/
def mark (ks : List ℕ) (k : ℕ) (page : CachePage) : CachePage :=
  if k ∈ ks then { page with state := .dirty } else page

theorem updatePage_run (s : CachedFile) (k : ℕ) : ∃ pages,
    updatePage k s = .ok ⟨⟩ { s with pages } ∧
      ∀ k', pages.get? k' = (s.pages.get? k').map (mark [k] k') := by
  unfold updatePage
  rw [get_bind]
  cases hp : s.pages.get? k with
  | none =>
    refine ⟨s.pages, rfl, fun k' => ?_⟩
    by_cases hk : k' = k
    · rw [hk, hp]
      rfl
    · have hid : mark [k] k' = id := funext fun page => if_neg (by simpa using hk)
      rw [hid, Option.map_id, id]
  | some page =>
    refine ⟨_, rfl, fun k' => ?_⟩
    rw [get?_insert]
    split_ifs with hk
    · rw [hk, hp, Option.map_some, mark, if_pos List.mem_cons_self]
    · have hid : mark [k] k' = id := funext fun page => if_neg (by simpa using hk)
      rw [hid, Option.map_id, id]

theorem mark_mark (k : ℕ) (ks : List ℕ) (k' : ℕ) (page : CachePage) :
    mark ks k' (mark [k] k' page) = mark (k :: ks) k' page := by
  unfold mark
  by_cases hk : k' = k <;> by_cases hks : k' ∈ ks <;> simp [hk]

/-- The loop at the end of a write marks the pages as dirty. -/
theorem updatePages_run (ks : List ℕ) : ∀ s : CachedFile, ∃ pages,
    ks.forM updatePage s = .ok ⟨⟩ { s with pages } ∧
      ∀ k', pages.get? k' = (s.pages.get? k').map (mark ks k') := by
  induction ks with
  | nil =>
    intro s
    refine ⟨s.pages, rfl, fun k' => ?_⟩
    have hid : mark [] k' = id := funext fun page => if_neg (by simp)
    rw [hid, Option.map_id, id]
  | cons k ks ih =>
    intro s
    obtain ⟨pages1, hrun1, hget1⟩ := updatePage_run s k
    obtain ⟨pages2, hrun2, hget2⟩ := ih { s with pages := pages1 }
    refine ⟨pages2, ?_, fun k' => ?_⟩
    · exact (bind_of_ok hrun1).trans hrun2
    · rw [hget2, hget1, Option.map_map]
      exact congrArg (Option.map · (s.pages.get? k')) (funext (mark_mark k ks k'))

/-- The bytes go to the frames of the pages.  A page that is clean afterwards was clean before and
is not among those that were written. -/
theorem Caches.write (h : Caches w₀ id n size m s)
    (hfs : FramesAt s.frameOf (offset / pageSize) (numPages offset (offset + buf.length)) fs)
    (hframe : ∀ k, (pages.get? k).map CachePage.frame = (s.pages.get? k).map CachePage.frame)
    (hclean : ∀ k, (∀ page, pages.get? k = some page → page.state ≠ .dirty) → s.Clean k ∧
      ¬(offset / pageSize ≤ k ∧
        k < offset / pageSize + numPages offset (offset + buf.length))) :
    Caches w₀ id n size (writeAt m offset buf)
      { s with
        world.mem := writeFrames s.world.mem fs (offset % pageSize) buf
        pages } := by
  refine { h with wf := { h.wf with }, same := fun k => ?_, shown := ?_, clean := ?_ }
  · exact (h.same k).trans (hframe k).symm
  · exact h.shown.writeFrames h.frameOf_inj hfs
  · intro k hk hck j hj
    obtain ⟨hcs, hout⟩ := hclean k hck
    rw [writeAt_of_disjoint (not_mem_of_numPages hj hout)]
    exact h.clean k hk hcs j hj

/-- The pages of a write, which are in the cache, are marked. -/
theorem Caches.clean_of_mark (h : Caches w₀ id n size m s) {k₁ num : ℕ} {ks : List ℕ}
    (hfs : FramesAt s.frameOf k₁ num fs) (hks : ∀ k, k₁ ≤ k → k < k₁ + num → k ∈ ks)
    (hpages : ∀ k, pages.get? k = (s.pages.get? k).map (mark ks k))
    (hclean : ∀ page, pages.get? k = some page → page.state ≠ .dirty) :
    s.Clean k ∧ ¬(k₁ ≤ k ∧ k < k₁ + num) := by
  have hmark : ∀ page, s.pages.get? k = some page → (mark ks k page).state ≠ .dirty := by
    intro page hpage
    refine hclean _ ?_
    rw [hpages, hpage, Option.map_some]
  refine ⟨fun page hpage hdirty => hmark page hpage ?_, fun ⟨hle, hlt⟩ => ?_⟩
  · unfold mark
    split_ifs
    · rfl
    · exact hdirty
  · obtain ⟨f, -, hf⟩ :=
      exists_mem_of_forall₂ (List.Forall₂.flip hfs) (List.mem_range'_1.2 ⟨hle, hlt⟩)
    have hcom := h.committed_of_frameOf hf
    rw [h.same, Option.map_eq_some_iff] at hcom
    obtain ⟨page, hpage, -⟩ := hcom
    refine hmark page hpage ?_
    rw [mark, if_pos (hks k hle hlt)]

theorem frame_mark (ks : List ℕ) (k : ℕ) (page : CachePage) :
    (mark ks k page).frame = page.frame := by
  unfold mark
  split_ifs <;> rfl

theorem writeBytes_contract (hb : offset + buf.length ≤ size)
    (hn : offset + buf.length ≤ n * pageSize) :
    Contract (Caches w₀ id n size m) (writeBytes offset buf)
      (fun _ => Caches w₀ id n size (writeAt m offset buf)) (NoMemory w₀ id n size m) := by
  intro s h
  have hbound := h.bound
  have hsize : s.size = size := by rw [CachedFile.size, h.vmo_eq, h.size_eq]
  rw [writeBytes, addUsize_ok.2 ⟨by omega, rfl⟩, liftR_ok_bind, get_bind, hsize,
    (debugAssert_ok (u := ())).2 hb, liftR_ok_bind, if_neg (by omega),
    getPageIdxRange_of_lt (lt_of_le_size h.dvd h.bound hb), liftR_ok_bind]
  refine bind (ensureAllPagesExist_contract _ true s) (fun fs s' hs' => ?_) s ⟨h, fun _ _ hk => hk⟩
  obtain ⟨⟨h', -⟩, hfs⟩ := hs'
  rw [if_neg (FramesAt.le hfs).not_gt, modify_bind]
  obtain ⟨pages, hrun, hpages⟩ := updatePages_run (pageIdxs
    ⟨offset / pageSize, (offset + buf.length + (pageSize - 1)) / pageSize⟩)
    { s' with world.mem := writeFrames s'.world.mem fs (offset % pageSize) buf }
  rw [hrun]
  have hks : ∀ k, offset / pageSize ≤ k →
      k < offset / pageSize + numPages offset (offset + buf.length) →
      k ∈ pageIdxs
        ⟨offset / pageSize, (offset + buf.length + (pageSize - 1)) / pageSize⟩ := by
    intro k hle hlt
    rw [numPages] at hlt
    refine mem_pageIdxs.2 ⟨hle, ?_⟩
    change k < (offset + buf.length + (pageSize - 1)) / pageSize
    omega
  refine h'.write (h'.framesAt hn hfs) (fun k => ?_) fun k =>
    h'.clean_of_mark (h'.framesAt hn hfs) hks hpages
  rw [hpages, Option.map_map]
  exact congrArg (Option.map · (s'.pages.get? k)) (funext (frame_mark _ k))

end CachedFile

end Jinux
