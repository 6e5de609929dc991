import Jinux.Fs.CacheWriteBack
import Jinux.Vm.VmoBytes

/-!
# Shared mappings of a file

A `MAP_SHARED` mapping of a file shows a slice child of the VMO of its page cache.  The child shares
the frames of the cache but has no pager, so that the page cache manager is not told of what is
written through the child.

* `CachedFile.allocChildVmo` : how the mapping gets its child;
* `SharedOp` : calls on the page cache, and writes and user stores through a child;
* `SharedFile.Tracked` : the pages that are written through a child are in the cache, in the frames
  of the child, and dirty already;
* `SharedFile.reaches_file` : **what is written through a child reaches the file if it is tracked**;
* `SharedFile.exists_lost_write` : a write that is not is lost.
-/

namespace Jinux

open StateRules List World ByteStore Nat

namespace CachedFile

/-- `get_inherited_frames_from_parent`, for a list of page indices of the cache. -/
def getInheritedFramesFromParent (isCow : Bool) : List ℕ → CacheM (List FrameId)
  | [] => return []
  | pageIdx :: rest => fun s =>
    match getCommittedFrame pageIdx (!isCow) s with
    | .ok frame s =>
      (do let frames ← getInheritedFramesFromParent isCow rest; return frame :: frames) s
    | .error (.err _) s => .error (.panic .unwrap) s
    | .error p s => .error p s

/-- `alloc_child_vmo_`, for a child of the VMO of the page cache.  The child has no pager. -/
def allocChildVmo (range : Range) (flags : VmoFlags) (childType : ChildType) :
    CacheM VmoId := do
  liftR (debugAssert (range.start % pageSize = 0))
  liftR (debugAssert (range.stop % pageSize = 0))
  if range.start % pageSize ≠ 0 ∨ range.stop % pageSize ≠ 0 then
    liftR (returnErrnoWithMessage .einval "vmo range does not aligned with PAGE_SIZE")
  else
    let parentSize := (← get).size
    let isCow ← liftR (checkChildRange parentSize range childType)
    let inheritedEnd := min range.stop parentSize
    let cowSize := if range.start ≤ inheritedEnd then inheritedEnd - range.start else 0
    let inheritedPages ← getInheritedFramesFromParent isCow
      (List.range' (range.start / pageSize) (cowSize / pageSize))
    let size ← liftR (subUsize range.stop range.start)
    liftW (addVmo { flags, size, inheritedPages := some inheritedPages, isCow })

/-- A user's store to a page of a mapping of `child`: the page fault finds the frame. -/
def storeByte (child : VmoId) (offset : ℕ) (b : UInt8) : CacheM Unit := do
  let frame ← liftW (World.getCommittedFrame child (offset / pageSize) true)
  modify fun s => { s with
    world := s.world.setFrame frame
      (overwrite (s.world.mem frame) (offset % pageSize) [b]) }

end CachedFile

/-- A file with its page cache and the children of its shared mappings. -/
structure SharedFile where
  cache : CachedFile
  /-- The children, each with the offset of its first byte in the file. -/
  slices : List (VmoId × ℕ)

/-- A call on the page cache, or a use of a shared mapping. -/
inductive SharedOp where
  | cache (op : CacheOp)
  | map (range : Range) (flags : VmoFlags)
  /-- `write_bytes` on the child with number `i`. -/
  | write (i offset : ℕ) (buf : List UInt8)
  /-- A store to the mapping of the child with number `i`. -/
  | store (i offset : ℕ) (b : UInt8)

namespace SharedFile

open CachedFile (Caches fileBytes storeByte)

/-- A step, next to what it does to the file.  A call that returns an error does nothing to it. -/
inductive Step : SharedFile × Bytes → SharedOp → SharedFile × Bytes → Prop
  | cache {c c' : CachedFile} {l : List (VmoId × ℕ)} {m m' : Bytes} {op : CacheOp}
      (h : CachedFile.lts.step (c, m) op (c', m')) : Step (⟨c, l⟩, m) (.cache op) (⟨c', l⟩, m')
  | map {c c' : CachedFile} {l : List (VmoId × ℕ)} {m : Bytes} {range : Range} {flags : VmoFlags}
      {child : VmoId} (h : CachedFile.allocChildVmo range flags .slice c = .ok child c') :
      Step (⟨c, l⟩, m) (.map range flags) (⟨c', l ++ [(child, range.start)]⟩, m)
  | write {c c' : CachedFile} {l : List (VmoId × ℕ)} {m : Bytes} {i offset start : ℕ}
      {buf : List UInt8} {child : VmoId} (hi : l[i]? = some (child, start))
      (h : liftW (writeBytes child offset buf) c = .ok ⟨⟩ c') :
      Step (⟨c, l⟩, m) (.write i offset buf) (⟨c', l⟩, writeAt m (start + offset) buf)
  | writeFailed {c c' : CachedFile} {l : List (VmoId × ℕ)} {m : Bytes} {i offset start : ℕ}
      {buf : List UInt8} {child : VmoId} {e : Error} (hi : l[i]? = some (child, start))
      (h : liftW (writeBytes child offset buf) c = .error (.err e) c') :
      Step (⟨c, l⟩, m) (.write i offset buf) (⟨c', l⟩, m)
  | store {c c' : CachedFile} {l : List (VmoId × ℕ)} {m : Bytes} {i offset start : ℕ}
      {b : UInt8} {child : VmoId} (hi : l[i]? = some (child, start))
      (h : storeByte child offset b c = .ok ⟨⟩ c') :
      Step (⟨c, l⟩, m) (.store i offset b) (⟨c', l⟩, writeAt m (start + offset) [b])
  | storeFailed {c c' : CachedFile} {l : List (VmoId × ℕ)} {m : Bytes} {i offset start : ℕ}
      {b : UInt8} {child : VmoId} {e : Error} (hi : l[i]? = some (child, start))
      (h : storeByte child offset b c = .error (.err e) c') :
      Step (⟨c, l⟩, m) (.store i offset b) (⟨c', l⟩, m)

/-- All histories. -/
def lts : Lts (SharedFile × Bytes) SharedOp := ⟨Step⟩

/-- Page `k` of a child that starts with page `base` of the file is a dirty page of the cache. -/
def TrackedPage (c : CachedFile) (child : VmoId) (base k : ℕ) : Prop :=
  base + k < c.npages ∧ ∃ page, c.pages.get? (base + k) = some page ∧ page.state = .dirty ∧
    c.world.frameAt child k = some page.frame

/-- What is written through a child goes to pages of the cache that are dirty already. -/
def Tracked (s : SharedFile) : SharedOp → Prop
  | .cache _ => True
  | .map _ _ => True
  | .write i offset buf => ∀ child start, s.slices[i]? = some (child, start) →
      ∀ k, Touches ⟨offset, offset + buf.length⟩ k →
        TrackedPage s.cache child (start / pageSize) k
  | .store i offset _ => ∀ child start, s.slices[i]? = some (child, start) →
      TrackedPage s.cache child (start / pageSize) (offset / pageSize)

/-! ### Writing through a child -/

variable {w w₀ : World} {id child : VmoId} {n size offset start k : ℕ} {m : Bytes}
  {c c' : CachedFile} {buf : List UInt8} {f : FrameId} {fs : List FrameId}

/-- A slice shares the frames of its parent. -/
theorem shouldShare_of_slice (hcow : (w.vmo child).isCow = false) (writePage : Bool) :
    (w.vmo child).shouldShareFrameWithParent writePage = true := by
  simp [VmoInner.shouldShareFrameWithParent, hcow]

/-- A write to a slice all of whose pages have frames goes to those frames, or is refused before
anything is written. -/
theorem writeBytes_of_slice (hw : w.Wf) (hcow : (w.vmo child).isCow = false)
    (hf : ∀ k, Touches ⟨offset, offset + buf.length⟩ k → (w.frameAt child k).isSome = true) :
    (∃ fs, writeBytes child offset buf w =
        .ok ⟨⟩ { w with mem := writeFrames w.mem fs (offset % pageSize) buf } ∧
      FramesAt (w.frameAt child) (offset / pageSize)
        (numPages offset (offset + buf.length)) fs) ∨
      ∃ p, writeBytes child offset buf w = .error (.panic p) w := by
  unfold writeBytes
  by_cases hadd : offset + buf.length < usizeBound
  swap
  · exact .inr ⟨.addOverflow, by rw [addUsize, if_neg hadd]; rfl⟩
  rw [addUsize_ok.2 ⟨hadd, rfl⟩, liftR_ok_bind, get_bind]
  by_cases hsize : offset + buf.length ≤ (w.vmo child).size
  swap
  · exact .inr ⟨.debugAssertion, by rw [debugAssert, if_neg hsize]; rfl⟩
  rw [(debugAssert_ok (u := ())).2 hsize, liftR_ok_bind, if_neg (by omega)]
  by_cases hround : offset + buf.length + (pageSize - 1) < usizeBound
  swap
  · exact .inr ⟨.unwrap, by rw [getPageIdxRange_of_le (not_lt.1 hround)]; rfl⟩
  rw [getPageIdxRange_of_lt hround, liftR_ok_bind]
  have hall : ∀ k ∈ pageIdxs ⟨offset / pageSize, (offset + buf.length + (pageSize - 1)) / pageSize⟩,
      (w.frameAt child k).isSome = true :=
    fun k hk => hf k (RootVmo.touches_iff.2 (mem_pageIdxs.1 hk))
  obtain ⟨fs, hrun, hfs⟩ :=
    ensureAllPagesExist_of_frameAt hw (shouldShare_of_slice hcow true) hall
  rw [bind_of_ok hrun]
  rw [if_neg (FramesAt.le hfs).not_gt]
  exact .inl ⟨fs, rfl, hfs⟩

/-- What a child writes to tracked pages is written to the file. -/
theorem caches_of_tracked (h : Caches w₀ id n size m c) (hdvd : pageSize ∣ start)
    (hfs : FramesAt (c.world.frameAt child) (offset / pageSize)
      (numPages offset (offset + buf.length)) fs)
    (ht : ∀ k, Touches ⟨offset, offset + buf.length⟩ k → TrackedPage c child (start / pageSize) k) :
    Caches w₀ id n size (writeAt m (start + offset) buf)
      { c with world.mem := writeFrames c.world.mem fs (offset % pageSize) buf } := by
  obtain ⟨base, rfl⟩ := hdvd
  rw [Nat.mul_div_cancel_left _ pageSize_pos] at ht
  have hdiv : (pageSize * base + offset) / pageSize = base + offset / pageSize :=
    mul_add_div pageSize_pos base offset
  have hmod : (pageSize * base + offset) % pageSize = offset % pageSize := mul_add_mod ..
  have hnum : numPages (pageSize * base + offset) (pageSize * base + offset + buf.length) =
      numPages offset (offset + buf.length) := by
    unfold numPages
    rw [add_assoc, add_assoc, mul_add_div pageSize_pos, add_assoc]
    omega
  -- the pages that the child writes
  have hpages : ∀ k, offset / pageSize ≤ k →
      k < offset / pageSize + numPages offset (offset + buf.length) →
      TrackedPage c child base k := by
    intro k hle hlt
    refine ht k (RootVmo.touches_iff.2 ⟨hle, ?_⟩)
    rw [numPages] at hlt
    change k < (offset + buf.length + (pageSize - 1)) / pageSize
    omega
  have hfs' : FramesAt c.frameOf (base + offset / pageSize)
      (numPages offset (offset + buf.length)) fs := by
    refine hfs.shift fun k hle hlt => ?_
    obtain ⟨hn, page, hpage, -, hframe⟩ := hpages k hle hlt
    rw [h.npages_eq] at hn
    rw [h.frameOf_eq hn, h.same, hpage, hframe]
    rfl
  rw [← hmod]
  refine h.write (by rw [hdiv, hnum]; exact hfs') (fun _ => rfl) fun k hclean => ⟨hclean, ?_⟩
  rw [hdiv]
  rintro ⟨hle, hlt⟩
  have hbase : base ≤ k := (le_add_right _ _).trans hle
  obtain ⟨-, page, hpage, hdirty, -⟩ := hpages (k - base) (by omega) (by omega)
  rw [Nat.add_sub_cancel' hbase] at hpage
  exact hclean page hpage hdirty

/-! ### New children -/

theorem getInheritedFramesFromParent_ok {isCow : Bool} {ks : List ℕ} (h : Caches w₀ id n size m c)
    (hrun : CachedFile.getInheritedFramesFromParent isCow ks c = .ok fs c') :
    Caches w₀ id n size m c' ∧ CachedFile.Kept id c c' ∧
      ∀ f ∈ fs, ∃ k, (c'.world.vmo id).committedPages.get? k = some f := by
  induction ks generalizing c fs with
  | nil =>
    cases hrun
    exact ⟨h, fun _ _ hk => hk, nofun⟩
  | cons k ks ih =>
    unfold CachedFile.getInheritedFramesFromParent at hrun
    have hget := CachedFile.getCommittedFrame_contract k (!isCow) c c ⟨h, fun _ _ hk => hk⟩
    cases hr : CachedFile.getCommittedFrame k (!isCow) c with
    | error e c1 =>
      rw [hr] at hrun
      cases e <;> cases hrun
    | ok f c1 =>
      rw [hr] at hrun hget
      obtain ⟨⟨h1, hkept1⟩, hf⟩ := hget
      obtain ⟨fs', c2, hrest, hpure⟩ := bind_ok.1 hrun
      cases hpure
      obtain ⟨h2, hkept2, hfs⟩ := ih h1 hrest
      refine ⟨h2, fun k f hk => hkept2 k f (hkept1 k f hk), fun f' hf' => ?_⟩
      rcases mem_cons.1 hf' with rfl | hf'
      · exact ⟨k, hkept2 k _ hf⟩
      · exact hfs f' hf'

/-- A child of a shared mapping: a slice that begins with a page of the file. -/
structure IsSlice (id : VmoId) (w : World) (child : VmoId) (start : ℕ) : Prop where
  lt : child < w.vmos.length
  ne : child ≠ id
  slice : (w.vmo child).isCow = false
  dvd : pageSize ∣ start

/-- The cache stays as it is when a VMO is added. -/
theorem caches_append (h : Caches w₀ id n size m c) {v : VmoInner}
    (hcom : v.committedPages = .empty)
    (hinh : ∀ fs f, v.inheritedPages = some fs → f ∈ fs → f < c.world.nextFrame) :
    Caches { c.world with vmos := c.world.vmos ++ [v] } id n size m
      { c with world.vmos := c.world.vmos ++ [v] } := by
  have hv : ({ c.world with vmos := c.world.vmos ++ [v] } : World).vmo id = c.world.vmo id := by
    rw [vmo_append, if_neg h.lt.ne]
  refine ⟨h.wf.append hcom hinh, h.vmo_eq, ?_, rfl, fun _ _ => rfl, h.npages_eq,
    hv ▸ h.size_eq, h.dvd, h.bound, hv ▸ h.root, hv ▸ h.same, hv ▸ h.inj, ?_, h.clean⟩
  · simp only [length_append]
    exact h.lt.trans (lt_succ_self _)
  · intro k f hf j hj
    refine h.shown k f ?_ j hj
    simp only [CachedFile.frameOf, h.vmo_eq] at hf ⊢
    rw [hv] at hf
    exact hf

/-- A new mapping changes nothing that is seen, and its child is a slice. -/
theorem allocChildVmo_ok {range : Range} {flags : VmoFlags} (h : Caches w₀ id n size m c)
    (hrun : CachedFile.allocChildVmo range flags .slice c = .ok child c') :
    Caches c'.world id n size m c' ∧ IsSlice id c'.world child range.start ∧
      ∀ j ≠ id, j < w₀.vmos.length → c'.world.vmo j = w₀.vmo j ∧ j < c'.world.vmos.length := by
  obtain ⟨_, hstart, hrun⟩ := liftR_bind_ok.1 hrun
  obtain ⟨_, hstop, hrun⟩ := liftR_bind_ok.1 hrun
  rw [debugAssert_ok] at hstart hstop
  rw [if_neg (by simp [hstart, hstop])] at hrun
  obtain ⟨_, _, hx, hrun⟩ := bind_ok.1 hrun
  cases hx
  obtain ⟨isCow, hcow, hrun⟩ := liftR_bind_ok.1 hrun
  obtain rfl : isCow = false := checkChildRange_ok hcow
  obtain ⟨fs, c1, hfs, hrun⟩ := bind_ok.1 hrun
  obtain ⟨h1, -, hcom⟩ := getInheritedFramesFromParent_ok h hfs
  obtain ⟨len, -, hrun⟩ := liftR_bind_ok.1 hrun
  cases hrun
  have hinh : ∀ fs' f, some fs = some fs' → f ∈ fs' → f < c1.world.nextFrame := by
    rintro _ f ⟨⟩ hf
    obtain ⟨k, hk⟩ := hcom f hf
    exact h1.wf.committed_lt id k f hk
  refine ⟨caches_append h1 rfl hinh, ⟨by simp, h1.lt.ne', ?_, dvd_of_mod_eq_zero hstart⟩, ?_⟩
  · rw [vmo_append, if_pos rfl]
  · intro j hj hlt
    rw [← h1.length_eq] at hlt
    refine ⟨by rw [vmo_append, if_neg hlt.ne, h1.other j hj], hlt.trans ?_⟩
    simp

/-! ### Histories -/

/-- The cache shows the file, and the children are slices. -/
def Inv (id : VmoId) (n size : ℕ) (s : SharedFile × Bytes) : Prop :=
  ∃ w₀, Caches w₀ id n size s.2 s.1.cache ∧
    ∀ e ∈ s.1.slices, IsSlice id w₀ e.1 e.2

theorem numPages_one (offset : ℕ) : numPages offset (offset + 1) = 1 := by
  have hps := pageSize_pos
  rw [numPages, show offset + 1 + (pageSize - 1) = offset + pageSize by omega, add_div_right _ hps]
  omega

theorem touches_one : Touches ⟨offset, offset + 1⟩ k ↔ k = offset / pageSize := by
  rw [RootVmo.touches_iff]
  have hnum := numPages_one offset
  rw [numPages] at hnum
  change offset / pageSize ≤ k ∧ k < (offset + 1 + (pageSize - 1)) / pageSize ↔ _
  omega

section

variable (hc : Caches w₀ id n size m c)

include hc

theorem IsSlice.of_caches (h : IsSlice id w₀ child start) :
    child < c.world.vmos.length ∧ (c.world.vmo child).isCow = false := by
  rw [hc.length_eq, hc.other child h.ne]
  exact ⟨h.lt, h.slice⟩

theorem writeBytes_tracked (hsl : IsSlice id w₀ child start)
    (ht : ∀ k, Touches ⟨offset, offset + buf.length⟩ k → TrackedPage c child (start / pageSize) k) :
    (∃ c', liftW (writeBytes child offset buf) c = .ok ⟨⟩ c' ∧
        Caches w₀ id n size (writeAt m (start + offset) buf) c') ∨
      ∃ p c', liftW (writeBytes child offset buf) c = .error (.panic p) c' := by
  obtain ⟨hlt, hcow⟩ := hsl.of_caches hc
  have hframes : ∀ k, Touches ⟨offset, offset + buf.length⟩ k →
      (c.world.frameAt child k).isSome = true := by
    intro k hk
    obtain ⟨-, page, -, -, hframe⟩ := ht k hk
    rw [hframe]
    rfl
  rcases writeBytes_of_slice hc.wf hcow hframes with ⟨fs, hrun, hfs⟩ | ⟨p, hrun⟩
  · refine .inl ⟨_, ?_, caches_of_tracked hc hsl.dvd hfs ht⟩
    simp [liftW, hrun]
  · refine .inr ⟨p, c, ?_⟩
    simp [liftW, hrun]

theorem storeByte_tracked (hsl : IsSlice id w₀ child start)
    (ht : TrackedPage c child (start / pageSize) (offset / pageSize)) (b : UInt8) :
    ∃ c', storeByte child offset b c = .ok ⟨⟩ c' ∧
      Caches w₀ id n size (writeAt m (start + offset) [b]) c' := by
  obtain ⟨hlt, hcow⟩ := hsl.of_caches hc
  have hpage := ht
  obtain ⟨-, page, -, -, hframe⟩ := hpage
  have hget : liftW (getCommittedFrame child (offset / pageSize) true) c =
      .ok page.frame c := by
    simp [liftW, getCommittedFrame_of_frameAt hc.wf (shouldShare_of_slice hcow true) hframe]
  have hfs : FramesAt (c.world.frameAt child) (offset / pageSize)
      (numPages offset (offset + [b].length)) [page.frame] := by
    rw [length_singleton, numPages_one]
    exact .cons hframe .nil
  have hcaches := caches_of_tracked hc hsl.dvd hfs fun k hk => (touches_one.1 hk).symm ▸ ht
  -- one byte in one frame
  have hmem : writeFrames c.world.mem [page.frame] (offset % pageSize) [b] =
      (c.world.setFrame page.frame
        (overwrite (c.world.mem page.frame) (offset % pageSize) [b])).mem := by
    have hlen : min (pageSize - offset % pageSize) [b].length = 1 := by
      have := mod_lt offset (by decide : 0 < pageSize)
      rw [length_singleton]
      omega
    rw [writeFrames, hlen]
    rfl
  rw [hmem] at hcaches
  exact ⟨_, bind_of_ok hget, hcaches⟩

end

theorem Inv.step {s s' : SharedFile × Bytes} {op : SharedOp} (h : Inv id n size s)
    (ht : s.1.Tracked op) (hs : lts.step s op s') : Inv id n size s' := by
  obtain ⟨w₀, hc, hsl⟩ := h
  cases hs with
  | cache hstep => exact ⟨w₀, hc.step hstep, hsl⟩
  | map hrun =>
    obtain ⟨hc', hnew, hold⟩ := allocChildVmo_ok hc hrun
    refine ⟨_, hc', fun e he => ?_⟩
    rcases mem_append.1 he with he | he
    · obtain ⟨heq, hlt⟩ := hold e.1 (hsl e he).ne (hsl e he).lt
      exact ⟨hlt, (hsl e he).ne, heq ▸ (hsl e he).slice, (hsl e he).dvd⟩
    · cases mem_singleton.1 he
      exact hnew
  | write hi hrun =>
    rcases writeBytes_tracked hc (hsl _ (mem_of_getElem? hi)) (ht _ _ hi) with
      ⟨c', hrun', hc'⟩ | ⟨p, c', hrun'⟩
    · cases hrun.symm.trans hrun'
      exact ⟨w₀, hc', hsl⟩
    · cases hrun.symm.trans hrun'
  | writeFailed hi hrun =>
    rcases writeBytes_tracked hc (hsl _ (mem_of_getElem? hi)) (ht _ _ hi) with
      ⟨c', hrun', -⟩ | ⟨p, c', hrun'⟩
    · cases hrun.symm.trans hrun'
    · cases hrun.symm.trans hrun'
  | @store _ _ _ _ _ _ _ b _ hi hrun =>
    obtain ⟨c', hrun', hc'⟩ :=
      storeByte_tracked hc (hsl _ (mem_of_getElem? hi)) (ht _ _ hi) b
    cases hrun.symm.trans hrun'
    exact ⟨w₀, hc', hsl⟩
  | @storeFailed _ _ _ _ _ _ _ b _ _ hi hrun =>
    obtain ⟨c', hrun', -⟩ :=
      storeByte_tracked hc (hsl _ (mem_of_getElem? hi)) (ht _ _ hi) b
    cases hrun.symm.trans hrun'

/-- **What is written through a shared mapping reaches the file**, in every history in which it goes
to pages of the cache that are dirty already. -/
theorem reaches_file {capacity npages : ℕ} {backend : ℕ → ℕ → UInt8} {w w' : World}
    {c₀ : CachedFile} {s : SharedFile} (hw : w.Wf)
    (hnew : CachedFile.withCapacity capacity npages backend w = .ok c₀ w')
    (hr : (lts.restrict fun s op => s.1.Tracked op).Reachable
      (⟨c₀, []⟩, fileBytes backend) (s, m)) : s.cache.Serves npages m := by
  have hinv : Inv c₀.vmo npages c₀.size (s, m) :=
    hr.invariant ⟨c₀.world, CachedFile.caches_of_withCapacity hw hnew, nofun⟩
      fun _ _ _ h hs => h.step hs.1 hs.2
  obtain ⟨w₀, hc, -⟩ := hinv
  exact hc.serves

/-- A file of one page, all of whose bytes are zero. -/
def zeroFile : CachedFile where
  world := ⟨fun _ _ => 0, 0, fun _ => false, [{ flags := { resizable := true }, size := 4096 }]⟩
  vmo := 0
  pages := .empty
  npages := 1
  backend _ _ := 0

theorem withCapacity_zeroFile :
    ∃ w', CachedFile.withCapacity 4096 1 (fun _ _ => 0) RootVmo.emptyWorld = .ok zeroFile w' :=
  ⟨_, rfl⟩

/-- Write to the file, map it and write through the mapping.  The results are what `Tracked` asks of
the page. -/
def writeTwice : CacheM (ℕ × Option CachePage × Option FrameId) := do
  CachedFile.writeBytes 0 [1]
  let child ← CachedFile.allocChildVmo ⟨0, 4096⟩ {} .slice
  let c ← get
  liftW (writeBytes child 1 [7])
  return (c.npages, c.pages.get? 0, c.world.frameAt child 0)

/-- A page that has been written before it is mapped is tracked. -/
theorem reaches_file_after_write : ∃ s m,
    (lts.restrict fun s op => s.1.Tracked op).Reachable
      (⟨zeroFile, []⟩, fileBytes zeroFile.backend) (s, m) ∧
    m = writeAt (writeAt (fileBytes zeroFile.backend) 0 [1]) (0 + 1) [7] ∧
      s.slices.length = 1 ∧ s.cache.Serves 1 m := by
  have htwice : returned writeTwice zeroFile = some (1, some ⟨0, .dirty⟩, some 0) := by
    decide +kernel
  obtain ⟨_, hrun⟩ := ok_of_returned htwice
  obtain ⟨_, c1, hwrite, hrun⟩ := bind_ok.1 hrun
  obtain ⟨child, c2, hmap, hrun⟩ := bind_ok.1 hrun
  obtain ⟨_, _, hget, hrun⟩ := bind_ok.1 hrun
  cases hget
  obtain ⟨_, c3, hchild, hrun⟩ := bind_ok.1 hrun
  have hres := (EStateM.Result.ok.inj hrun).1
  simp only [Prod.mk.injEq] at hres
  obtain ⟨hn, hpage, hframe⟩ := hres
  obtain ⟨w', hnew⟩ := withCapacity_zeroFile
  have htracked : Tracked ⟨c2, [(child, 0)]⟩ (.write 0 1 [7]) := by
    rintro _ _ ⟨⟩ k hk
    obtain rfl : k = 0 := touches_one.1 hk
    exact ⟨hn.symm ▸ one_pos, ⟨0, .dirty⟩, hpage, rfl, hframe⟩
  have hwrite' : (CacheOp.write 0 [1]).exec zeroFile = .ok [] c1 := bind_of_ok hwrite
  have hin : (CacheOp.write 0 [1]).InBounds zeroFile := ⟨by decide, by decide⟩
  refine ⟨⟨c3, [(child, 0)]⟩, _, ?hr, rfl, rfl,
    reaches_file (w := RootVmo.emptyWorld) ⟨nofun, nofun⟩ hnew ?hr⟩
  exact .step (.step (.step (.refl _)
    (l := .cache (.write 0 [1])) ⟨trivial, .cache ⟨hin, .inl ⟨[], hwrite', rfl⟩⟩⟩)
    (l := .map ⟨0, 4096⟩ {}) ⟨trivial, .map hmap⟩)
    (l := .write 0 1 [7]) ⟨htracked, .write rfl hchild⟩

/-- Map the file, write through the mapping, write the page back by `x`, and read it again.  The
results are the byte of the backend and the byte that is read. -/
def writeMapped (x : CacheM Unit) : CacheM (UInt8 × List UInt8) := do
  let child ← CachedFile.allocChildVmo ⟨0, 4096⟩ {} .slice
  liftW (writeBytes child 0 [7])
  x
  let c ← get
  let out ← CachedFile.readBytes 0 1
  return (c.backend 0 0, out)

theorem writeMapped_ok {x : CacheM Unit} {b : UInt8} {out : List UInt8}
    (h : returned (writeMapped x) c = some (b, out)) : ∃ child c₁ c₂ c₃ c₄,
      CachedFile.allocChildVmo ⟨0, 4096⟩ {} .slice c = .ok child c₁ ∧
      liftW (writeBytes child 0 [7]) c₁ = .ok ⟨⟩ c₂ ∧ x c₂ = .ok ⟨⟩ c₃ ∧
      c₃.backend 0 0 = b ∧ CachedFile.readBytes 0 1 c₃ = .ok out c₄ := by
  obtain ⟨c₄, hrun⟩ := ok_of_returned h
  obtain ⟨child, c₁, hmap, hrun⟩ := bind_ok.1 hrun
  obtain ⟨_, c₂, hwrite, hrun⟩ := bind_ok.1 hrun
  obtain ⟨_, c₃, hx, hrun⟩ := bind_ok.1 hrun
  obtain ⟨_, _, hget, hrun⟩ := bind_ok.1 hrun
  cases hget
  obtain ⟨_, c5, hread, hrun⟩ := bind_ok.1 hrun
  cases hrun
  exact ⟨child, c₁, c₂, c₃, c₄, hmap, hwrite, hx, rfl, hread⟩

/-- **A write through a shared mapping is lost**: an eviction does not write it back, and after a
decommit it is not read any more. -/
theorem exists_lost_write : ∃ s m,
    lts.Reachable (⟨zeroFile, []⟩, fileBytes zeroFile.backend) (s, m) ∧ m 0 = 7 ∧
    (∃ c', PageCacheManager.evictRange ⟨0, 4096⟩ s.cache = .ok ⟨⟩ c' ∧ c'.backend 0 0 = 0) ∧
    ∃ c' c'', CachedFile.decommit ⟨0, 4096⟩ s.cache = .ok ⟨⟩ c' ∧ c'.backend 0 0 = 0 ∧
      CachedFile.readBytes 0 1 c' = .ok [0] c'' := by
  have hevict : returned (writeMapped (PageCacheManager.evictRange ⟨0, 4096⟩)) zeroFile =
      some (0, [7]) := by decide +kernel
  have hdecommit : returned (writeMapped (CachedFile.decommit ⟨0, 4096⟩)) zeroFile =
      some (0, [0]) := by decide +kernel
  obtain ⟨child, c1, c2, c3, -, hmap, hwrite, hevict, hb, -⟩ := writeMapped_ok hevict
  obtain ⟨_, _, _, c4, c5, hmap', hwrite', hdecommit, hb', hread⟩ := writeMapped_ok hdecommit
  -- both runs begin alike
  cases hmap.symm.trans hmap'
  cases hwrite.symm.trans hwrite'
  refine ⟨⟨c2, [(child, 0)]⟩, writeAt (fileBytes zeroFile.backend) (0 + 0) [7], ?_, rfl,
    ⟨c3, hevict, hb⟩, c4, c5, hdecommit, hb', hread⟩
  exact .step (.step (.refl _) (l := .map ⟨0, 4096⟩ {}) (.map hmap)) (l := .write 0 0 [7])
    (.write rfl hwrite)

end SharedFile

end Jinux
