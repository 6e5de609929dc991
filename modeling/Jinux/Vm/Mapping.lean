import Mathlib.Data.Finset.Basic
import Jinux.Vm.Space

/-!
# Mappings of VMOs

A `VmMapping` places the bytes of a VMO from `vmoOffset` on at the addresses from `mapToAddr` on.
Pages are named by their index in the VMO.  A mapping is shared by reference in the source and
changed in place; here an operation returns the changed mapping together with the changed
`VmSpace`.
-/

namespace Jinux

open World Result

/-- `VmMapping` and `VmMappingInner` -/
structure VmMapping where
  /-- The mapped VMO, with the rights of the mapping. -/
  vmo : Vmo
  vmoOffset : ℕ
  mapSize : ℕ
  /-- The address where the mapping starts. -/
  mapToAddr : ℕ
  isDestroyed : Bool := false
  /-- The pages already mapped in the `VmSpace`. -/
  mappedPages : Finset ℕ := ∅
  pagePerms : OrdMap ℕ VmPerm := .empty
  deriving DecidableEq

/-- `is_intersected` -/
def isIntersected (r s : Range) : Bool := max r.start s.start < min r.stop s.stop

/-- `get_intersected_range` -/
def getIntersectedRange (r s : Range) : Result Range := do
  debugAssert (isIntersected r s = true)
  pure (r.inter s)

namespace VmMapping

/-- `range` -/
def range (m : VmMapping) : Range := ⟨m.mapToAddr, m.mapToAddr + m.mapSize⟩

/-- `page_map_addr` -/
def pageMapAddr (m : VmMapping) (pageIdx : ℕ) : Result ℕ := do
  let x ← subUsize (pageIdx * pageSize) m.vmoOffset
  addUsize x m.mapToAddr

/-- `check_perm` -/
def checkPerm (m : VmMapping) (pageIdx : ℕ) (perm : VmPerm) : Result Unit :=
  match m.pagePerms.get? pageIdx with
  | none => returnErrnoWithMessage .einval "invalid page idx"
  | some pagePerm =>
    if pagePerm.contains perm then .ok ()
    else returnErrnoWithMessage .eacces "perm check fails"

/-! ### Single pages -/

/-- `map_one_page`; `cowChild` says whether the VMO is a copy-on-write child. -/
def mapOnePage (m : VmMapping) (cowChild : Bool) (s : VmSpace) (pageIdx : ℕ) (frame : FrameId)
    (isReadonly : Bool) : Result (VmMapping × VmSpace) := do
  let mapAddr ← m.pageMapAddr pageIdx
  let pagePerm ← unwrap (m.pagePerms.get? pageIdx)
  debugAssert (isReadonly = true → cowChild = true)
  let perm := if isReadonly then pagePerm.subW else pagePerm
  -- a copy-on-write child may replace the page that is mapped there
  let s ← (if cowChild && s.isMapped mapAddr then (s.unmap mapAddr).unwrap else pure s)
  let s ← s.map frame mapAddr perm
  pure ({ m with mappedPages := insert pageIdx m.mappedPages }, s)

/-- `unmap_one_page` -/
def unmapOnePage (p : VmMapping × VmSpace) (pageIdx : ℕ) : Result (VmMapping × VmSpace) := do
  let (m, s) := p
  let mapAddr ← m.pageMapAddr pageIdx
  let s ← if s.isMapped mapAddr then s.unmap mapAddr else pure s
  pure ({ m with mappedPages := m.mappedPages.erase pageIdx }, s)

/-! ### Ranges of pages -/

/-- `unmap` -/
def unmap (m : VmMapping) (s : VmSpace) (range : Range) (mayDestroy : Bool) :
    Result (VmMapping × VmSpace) := do
  let start ← subUsize range.start m.mapToAddr
  let start ← addUsize start m.vmoOffset
  let stop ← subUsize range.stop m.mapToAddr
  let stop ← addUsize stop m.vmoOffset
  let idxs ← getPageIdxRange ⟨start, stop⟩
  let (m, s) ← (pageIdxs idxs).foldlM unmapOnePage (m, s)
  -- the source stores `false` here
  pure (if mayDestroy ∧ range = m.range then { m with isDestroyed := false } else m, s)

/-- One round of the loop of `protect`. -/
def protectPage (perms : VmPerms) (p : VmMapping × VmSpace) (pageIdx : ℕ) :
    Result (VmMapping × VmSpace) := do
  let (m, s) := p
  let m := { m with pagePerms := m.pagePerms.insert pageIdx perms.toVmPerm }
  let pageAddr ← m.pageMapAddr pageIdx
  let s ← if s.isMapped pageAddr then s.protect pageAddr perms.toVmPerm else pure s
  pure (m, s)

/-- `protect` -/
def protect (m : VmMapping) (s : VmSpace) (perms : VmPerms) (range : Range) :
    Result (VmMapping × VmSpace) := do
  m.vmo.checkRights perms.toRights
  debugAssert (range.start % pageSize = 0)
  debugAssert (range.stop % pageSize = 0)
  let start ← subUsize range.start m.mapToAddr
  let start ← addUsize start m.vmoOffset
  let stop ← subUsize range.stop m.mapToAddr
  let stop ← addUsize stop m.vmoOffset
  (pageIdxs ⟨start / pageSize, stop / pageSize⟩).foldlM (protectPage perms) (m, s)

/-! ### Trimming -/

/-- One round of the loop of `trim_left`. -/
def trimLeftPage (p : VmMapping × VmSpace) (pageIdx : ℕ) : Result (VmMapping × VmSpace) :=
  let m := { p.1 with pagePerms := p.1.pagePerms.remove pageIdx }
  if pageIdx ∈ m.mappedPages then
    let m := { m with mappedPages := m.mappedPages.erase pageIdx }
    ignoreErr (m, p.2) (unmapOnePage (m, p.2) pageIdx)
  else .ok (m, p.2)

/-- `trim_left`: the fields move first, then the pages below the new start are unmapped. -/
def trimLeft (m : VmMapping) (s : VmSpace) (vaddr : ℕ) : Result (VmMapping × VmSpace) := do
  debugAssert (m.mapToAddr ≤ vaddr ∧ vaddr ≤ m.mapToAddr + m.mapSize)
  debugAssert (vaddr % pageSize = 0)
  let trimSize := vaddr - m.mapToAddr
  let newOffset ← addUsize m.vmoOffset trimSize
  let m' := { m with mapToAddr := vaddr, vmoOffset := newOffset, mapSize := m.mapSize - trimSize }
  (pageIdxs ⟨m.vmoOffset / pageSize, newOffset / pageSize⟩).foldlM trimLeftPage (m', s)

/-- One round of the loop of `trim_right`. -/
def trimRightPage (p : VmMapping × VmSpace) (pageIdx : ℕ) : Result (VmMapping × VmSpace) :=
  let m := { p.1 with pagePerms := p.1.pagePerms.remove pageIdx }
  ignoreErr (m, p.2) (unmapOnePage (m, p.2) pageIdx)

/-- `trim_right` -/
def trimRight (m : VmMapping) (s : VmSpace) (vaddr : ℕ) : Result (VmMapping × VmSpace) := do
  debugAssert (m.mapToAddr ≤ vaddr ∧ vaddr ≤ m.mapToAddr + m.mapSize)
  debugAssert (vaddr % pageSize = 0)
  let start ← addUsize (vaddr - m.mapToAddr) m.vmoOffset
  let stop ← addUsize m.mapSize m.vmoOffset
  let (m, s) ← (pageIdxs ⟨start / pageSize, stop / pageSize⟩).foldlM trimRightPage (m, s)
  pure ({ m with mapSize := vaddr - m.mapToAddr }, s)

/-- `try_clone` -/
def tryClone (m : VmMapping) : Result VmMapping := do
  let vmo ← m.vmo.dup
  pure { m with vmo }

/-- What `trim_mapping` did: the mapping itself, whether its key goes into `mappings_to_remove`, and
the mapping put into `mappings_to_append` under its new address. -/
structure Trimmed where
  /-- The mapping after the call. -/
  self : VmMapping
  /-- Its former address is to be removed. -/
  remove : Bool := false
  append : Option VmMapping := none
  deriving DecidableEq

/-- `trim_mapping` -/
def trimMapping (m : VmMapping) (s : VmSpace) (trimRange : Range) : Result (Trimmed × VmSpace) := do
  if !isIntersected m.range trimRange then pure ({ self := m }, s)
  else if trimRange.start ≤ m.mapToAddr ∧ m.mapToAddr + m.mapSize ≤ trimRange.stop then
    -- fast path: the whole mapping was trimmed
    let (m', s) ← m.unmap s trimRange true
    pure ({ self := m', remove := true }, s)
  else if trimRange.start ≤ m.range.start then
    if trimRange.stop ≤ m.range.stop then
      -- the range overlaps the mapping from the left
      let (m', s) ← m.trimLeft s trimRange.stop
      pure ({ self := m', remove := true, append := some m' }, s)
    else pure ({ self := m, remove := true }, s)
  else if trimRange.stop ≤ m.range.stop then
    -- the range was totally inside the mapping
    let another ← m.tryClone
    let (another, s) ← another.trimLeft s trimRange.stop
    let (m', s) ← m.trimRight s trimRange.start
    pure ({ self := m', append := some another }, s)
  else
    -- the range overlaps the mapping from the right
    let (m', s) ← m.trimRight s trimRange.start
    pure ({ self := m' }, s)

/-! ### Access through a mapping -/

/-- `read_bytes` -/
def readBytes (m : VmMapping) (offset len : ℕ) : VmoM (List UInt8) := do
  let start ← liftR (addUsize m.vmoOffset offset)
  let stop ← liftR (addUsize start len)
  let idxs ← liftR (getPageIdxRange ⟨start, stop⟩)
  (pageIdxs idxs).forM fun pageIdx => liftR (m.checkPerm pageIdx VmPerm.R)
  m.vmo.readBytes start len

/-- `write_bytes` -/
def writeBytes (m : VmMapping) (offset : ℕ) (buf : List UInt8) : VmoM Unit := do
  let start ← liftR (addUsize m.vmoOffset offset)
  let stop ← liftR (addUsize start buf.length)
  let idxs ← liftR (getPageIdxRange ⟨start, stop⟩)
  (pageIdxs idxs).forM fun pageIdx => liftR (m.checkPerm pageIdx VmPerm.W)
  m.vmo.writeBytes start buf

/-- `handle_page_fault` -/
def handlePageFault (m : VmMapping) (s : VmSpace) (pageFaultAddr : ℕ) (write : Bool) :
    VmoM (VmMapping × VmSpace) := do
  let x ← liftR (addUsize m.vmoOffset pageFaultAddr)
  let vmoOffset ← liftR (subUsize x m.mapToAddr)
  if ((← get).vmo m.vmo.id).size ≤ vmoOffset then
    liftR (returnErrnoWithMessage .eacces "page fault addr is not backed up by a vmo")
  else
    let pageIdx := vmoOffset / pageSize
    liftR (m.vmo.checkRights (if write then { write := true } else { read := true }))
    liftR (m.checkPerm pageIdx (if write then VmPerm.W else VmPerm.R))
    let frame ← getCommittedFrame m.vmo.id pageIdx write
    -- a read fault on a copy-on-write child maps the page read-only
    let cowChild := ((← get).vmo m.vmo.id).isCowChild
    liftR (m.mapOnePage cowChild s pageIdx frame (cowChild && !write))

/-- `new_cow`: the same mapping of a copy-on-write child of the VMO, with no page mapped. -/
def newCow (m : VmMapping) : VmoM VmMapping := do
  let parent ← liftR m.vmo.dup.unwrap
  let v := (← get).vmo parent.id
  let id ← allocChildVmo parent.id ⟨0, v.size⟩ (ChildType.flags .cow v.flags {}) .cow
  return { m with vmo := { parent with id }, mappedPages := ∅ }

/-- What mapping a page has done.  The page of a copy-on-write child may have replaced another. -/
theorem mapOnePage_ok {m m' : VmMapping} {cowChild isReadonly : Bool} {s s' : VmSpace} {k : ℕ}
    {frame : FrameId} (h : m.mapOnePage cowChild s k frame isReadonly = .ok (m', s')) :
    m' = { m with mappedPages := insert k m.mappedPages } ∧
      ∃ addr perm s₁, m.pageMapAddr k = .ok addr ∧ m.pagePerms.get? k = some perm ∧
        (s₁ = s ∨ cowChild = true ∧ s.unmap addr = .ok s₁) ∧
        s₁.map frame addr (if isReadonly then perm.subW else perm) = .ok s' := by
  obtain ⟨addr, haddr, h⟩ := bind_ok.1 h
  obtain ⟨perm, hperm, h⟩ := bind_ok.1 h
  obtain ⟨_, -, h⟩ := bind_ok.1 h
  obtain ⟨s₁, hs1, h⟩ := bind_ok.1 h
  obtain ⟨s2, hs2, h⟩ := bind_ok.1 h
  cases h
  refine ⟨rfl, addr, perm, s₁, haddr, unwrap_ok.1 hperm, ?_, hs2⟩
  split_ifs at hs1 with hcow
  · exact Or.inr ⟨(Bool.and_eq_true_iff.1 hcow).1, Result.unwrap_ok.1 hs1⟩
  · cases hs1
    exact Or.inl rfl

end VmMapping

end Jinux
