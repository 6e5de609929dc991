import Jinux.Vm.Mapping

/-!
# Virtual memory address regions

A VMAR owns a range of addresses and divides it into free regions, child VMARs and mappings of VMOs.
The VMARs of a process form a tree that shares one `VmSpace`.  The source reaches a child through a
reference counted handle; here a child is a value inside its parent, a handle is the path of keys
from the root (`Vmar.modifyAt`), and an operation returns the changed VMAR and `VmSpace`.
-/

namespace Jinux

/-- `FreeRegion` -/
structure FreeRegion where
  range : Range
  deriving DecidableEq, Repr

namespace FreeRegion

/-- `start` -/
def start (r : FreeRegion) : ℕ := r.range.start

/-- `end` -/
def stop (r : FreeRegion) : ℕ := r.range.stop

/-- `allocate_range`: what is left of the region. -/
def allocateRange (r : FreeRegion) (a : Range) : List FreeRegion :=
  (if r.range.start < a.start then [⟨⟨r.range.start, a.start⟩⟩] else []) ++
    if a.stop < r.range.stop then [⟨⟨a.stop, r.range.stop⟩⟩] else []

/-- `merge_other_region` -/
def mergeOtherRegion (r other : FreeRegion) : Result FreeRegion := do
  assert (r.range.stop = other.range.start)
  assert (r.range.start < other.range.stop)
  pure ⟨⟨r.range.start, other.range.stop⟩⟩

end FreeRegion

/-- The free regions of a VMAR, by start address. -/
abbrev FreeRegions := OrdMap ℕ FreeRegion

namespace FreeRegions

/-- Insert regions under their start addresses. -/
def insertRegions (m : FreeRegions) (rs : List FreeRegion) : FreeRegions :=
  m.insertAll (rs.map fun r => (r.start, r))

/-- Take `a` out of the region with key `base`. -/
def allocate (m : FreeRegions) (base : ℕ) (r : FreeRegion) (a : Range) : FreeRegions :=
  insertRegions (m.remove base) (r.allocateRange a)

/-- The `while let` loop of `merge_continuous_regions`; every round takes a region out of the map,
so `fuel` rounds are enough for a map of `fuel` regions. -/
def mergeLoop : ℕ → FreeRegion → FreeRegions → Result (FreeRegion × FreeRegions)
  | 0, r, m => .ok (r, m)
  | fuel + 1, r, m =>
    match m.get? r.stop with
    | none => .ok (r, m)
    | some other => do
      let r' ← r.mergeOtherRegion other
      mergeLoop fuel r' (m.remove r.stop)

/-- One round of the `for` loop of `merge_continuous_regions`: the old regions and the new ones. -/
def mergeStep (p : FreeRegions × FreeRegions) (key : ℕ) : Result (FreeRegions × FreeRegions) :=
  match p.1.get? key with
  | none => .ok p
  | some r => do
    let rest := p.1.remove key
    let (r, rest) ← mergeLoop rest.entries.length r rest
    pure (rest, p.2.insert r.start r)

/-- `merge_continuous_regions` -/
def mergeContinuousRegions (m : FreeRegions) : Result FreeRegions := do
  let (_, merged) ← m.keys.foldlM mergeStep (m, .empty)
  pure merged

end FreeRegions

/-- `Vmar_` and `VmarInner` -/
structure Vmar where
  base : ℕ
  /-- The size in bytes. -/
  size : ℕ
  isDestroyed : Bool
  /-- The child VMARs, by address. -/
  childVmars : OrdMap ℕ Vmar
  /-- The mappings, by address. -/
  vmMappings : OrdMap ℕ VmMapping
  /-- The free regions, by address. -/
  freeRegions : OrdMap ℕ FreeRegion

/-- `ROOT_VMAR_LOWEST_ADDR` -/
def rootVmarLowestAddr : ℕ := 0x00100000

/-- `ROOT_VMAR_HIGHEST_ADDR` -/
def rootVmarHighestAddr : ℕ := 0x100000000000

namespace Vmar

/-- `new_root` -/
def newRoot : Vmar where
  base := 0
  size := rootVmarHighestAddr
  isDestroyed := false
  childVmars := .empty
  vmMappings := .empty
  freeRegions := OrdMap.empty.insert rootVmarLowestAddr ⟨⟨rootVmarLowestAddr, rootVmarHighestAddr⟩⟩

/-- `range` -/
def range (v : Vmar) : Range := ⟨v.base, v.base + v.size⟩

/-- `get_vm_mapping` -/
def getVmMapping (v : Vmar) (offset : ℕ) : Result VmMapping :=
  match v.vmMappings.entries.find? fun e => e.1 ≤ offset && offset < e.1 + e.2.mapSize with
  | some e => .ok e.2
  | none => returnErrnoWithMessage .eacces "No mapped vmo at this offset"

/-! ### Trimming mappings -/

/-- What a loop over mappings with `trim_mapping` collects. -/
structure TrimOut where
  kept : List (ℕ × VmMapping) := []
  /-- `mappings_to_remove` -/
  remove : List ℕ := []
  /-- `mappings_to_append`, in the order of insertion. -/
  append : List (ℕ × VmMapping) := []

/-- A loop over mappings: each is trimmed by the range that `rangeOf` gives for it, if any. -/
def trimLoop (rangeOf : VmMapping → Option Range) :
    List (ℕ × VmMapping) → VmSpace → Result (TrimOut × VmSpace)
  | [], s => .ok ({}, s)
  | (k, m) :: es, s => do
    let (t, s) ← match rangeOf m with
      | none => pure ({ self := m }, s)
      | some r => m.trimMapping s r
    let (out, s) ← trimLoop rangeOf es s
    pure
      ({ kept := (k, t.self) :: out.kept
         remove := (if t.remove then [m.mapToAddr] else []) ++ out.remove
         append := (t.append.toList.map fun a => (a.mapToAddr, a)) ++ out.append }, s)

/-- Apply `mappings_to_remove` and `mappings_to_append`. -/
def TrimOut.mappings (out : TrimOut) : OrdMap ℕ VmMapping :=
  ((⟨out.kept⟩ : OrdMap ℕ VmMapping).removeAll out.remove).append
    (OrdMap.empty.insertAll out.append)

/-- `trim_existing_mappings` -/
def trimExistingMappings (v : Vmar) (s : VmSpace) (trimRange : Range) :
    Result (Vmar × VmSpace) := do
  let (out, s) ← trimLoop (fun _ => some trimRange) v.vmMappings.entries s
  pure ({ v with vmMappings := out.mappings }, s)

/-! ### Child VMARs -/

/-- The test of one free region in `find_free_region_for_child`. -/
def regionFits (childOffset : Option ℕ) (childSize align : ℕ) (base : ℕ) (r : FreeRegion) :
    Result (Option ℕ) :=
  match childOffset with
  | some offset =>
    if base ≤ offset then do
      let stop ← addUsize offset childSize
      pure (if stop ≤ r.stop then some offset else none)
    else pure none
  | none => do
    let realStart ← alignUp r.start align
    let realEnd ← addUsize realStart childSize
    pure (if r.start ≤ realStart ∧ realEnd ≤ r.stop then some realStart else none)

/-- The loop of `find_free_region_for_child`: the key and the region found, and the address. -/
def findFreeRegion (childOffset : Option ℕ) (childSize align : ℕ) :
    List (ℕ × FreeRegion) → Result (ℕ × FreeRegion × ℕ)
  | [] => returnErrnoWithMessage .eacces "Cannot find free region for child"
  | (base, r) :: es => do
    match ← regionFits childOffset childSize align base r with
    | some offset => pure (base, r, offset)
    | none => findFreeRegion childOffset childSize align es

/-- `alloc_child_vmar` -/
def allocChildVmar (v : Vmar) (childOffset : Option ℕ) (childSize align : ℕ) : Result Vmar := do
  let (base, r, offset) ← findFreeRegion childOffset childSize align v.freeRegions.entries
  let childRange : Range := ⟨offset, offset + childSize⟩
  let child : Vmar :=
    { base := offset, size := childSize, isDestroyed := false, childVmars := .empty,
      vmMappings := .empty, freeRegions := OrdMap.empty.insert offset ⟨childRange⟩ }
  pure { v with
    freeRegions := FreeRegions.allocate v.freeRegions base r childRange
    childVmars := v.childVmars.insert offset child }

/-- `VmarChildOptions` -/
structure ChildOptions where
  size : ℕ
  offset : Option ℕ := none
  align : Option ℕ := none
  deriving DecidableEq, Repr

/-- The alignment check of `VmarChildOptions::alloc`. -/
def ChildOptions.checkAlign (o : ChildOptions) : Result ℕ :=
  match o.align with
  | none => pure pageSize
  | some align => do
    debugAssert (align % pageSize = 0)
    debugAssert (isPowerOfTwo align = true)
    if align % pageSize ≠ 0 ∨ isPowerOfTwo align = false then returnErrno .einval else pure align

/-- The offset check of `VmarChildOptions::alloc`; returns the address. -/
def ChildOptions.checkOffset (o : ChildOptions) (base align : ℕ) : Result (Option ℕ) :=
  match o.offset with
  | none => pure none
  | some offset =>
    if offset % pageSize ≠ 0 then returnErrno .einval
    else do
      let rootOffset ← addUsize offset base
      if rootOffset % align ≠ 0 then returnErrno .einval else pure (some rootOffset)

/-- `VmarChildOptions::alloc`; its result type is `aster_frame::Result`. -/
def allocChild (v : Vmar) (o : ChildOptions) : Result Vmar := do
  let align ← o.checkAlign
  if o.size % align ≠ 0 then returnErrno .einval
  else do
    let offset ← o.checkOffset v.base align
    (v.allocChildVmar offset o.size align).viaFrame

/-! ### Mapping VMOs -/

/-- `VmarMapOptions`; `vmoSize` is the size of the VMO. -/
structure MapOptions where
  vmo : Vmo
  vmoSize : ℕ
  perms : VmPerms
  vmoOffset : ℕ := 0
  size : ℕ
  offset : Option ℕ := none
  align : ℕ := pageSize
  canOverwrite : Bool := false
  deriving DecidableEq, Repr

/-- `check_vmo_overwrite` -/
def checkVmoOverwrite (v : Vmar) (vmoRange : Range) (canOverwrite : Bool) : Result Unit :=
  if v.childVmars.values.any fun c => isIntersected vmoRange c.range then
    returnErrnoWithMessage .eacces "vmo range overlapped with child vmar range"
  else if !canOverwrite && v.vmMappings.entries.any fun e =>
      isIntersected vmoRange ⟨e.1, e.1 + e.2.mapSize⟩ then
    returnErrnoWithMessage .eacces "vmo range overlapped with another vmo"
  else pure ()

/-- `check_overwrite` -/
def checkOverwrite (v : Vmar) (o : MapOptions) : Result Unit := do
  debugAssert (o.canOverwrite = true → o.offset.isSome = true)
  match o.offset with
  | none =>
    if o.canOverwrite then
      returnErrnoWithMessage .einval "offset can not be none when can overwrite is true"
    else pure ()
  | some offset =>
    -- enough space is spared at least for the whole VMO
    let stop ← addUsize offset (max o.size o.vmoSize)
    v.checkVmoOverwrite ⟨offset, stop⟩ o.canOverwrite

/-- `check_options` -/
def checkOptions (v : Vmar) (o : MapOptions) : Result Unit := do
  debugAssert (o.align % pageSize = 0)
  debugAssert (isPowerOfTwo o.align = true)
  if o.align % pageSize ≠ 0 ∨ isPowerOfTwo o.align = false then
    returnErrnoWithMessage .einval "invalid align"
  debugAssert (o.vmoOffset % o.align = 0)
  if o.vmoOffset % o.align ≠ 0 then returnErrnoWithMessage .einval "invalid vmo offset"
  match o.offset with
  | none => pure ()
  | some offset => do
    debugAssert (offset % o.align = 0)
    if offset % o.align ≠ 0 then returnErrnoWithMessage .einval "invalid offset"
  o.vmo.checkRights o.perms.toRights
  v.checkOverwrite o

/-- One round of the loop of `allocate_free_region_for_vmo` over the regions to split. -/
def splitRegion (mapRange : Range) (m : FreeRegions) (base : ℕ) : Result FreeRegions := do
  let r ← unwrap (m.get? base)
  let a ← getIntersectedRange r.range mapRange
  pure (FreeRegions.allocate m base r a)

/-- The loop of `allocate_free_region_for_vmo` that splits the free regions meeting `mapRange`. -/
def splitRegions (mapRange : Range) (m : FreeRegions) : Result FreeRegions :=
  ((m.entries.filter fun e => isIntersected e.2.range mapRange).map Prod.fst).foldlM
    (splitRegion mapRange) m

/-- `allocate_free_region_for_vmo` -/
def allocateFreeRegionForVmo (v : Vmar) (s : VmSpace) (o : MapOptions) :
    Result (ℕ × Vmar × VmSpace) := do
  let mapSize := max o.size o.vmoSize
  if o.canOverwrite then
    match o.offset with
    | none => returnErrnoWithMessage .einval "offset cannot be None since can overwrite is set"
    | some offset =>
      let stop ← addUsize offset mapSize
      let mapRange : Range := ⟨offset, stop⟩
      let freeRegions ← splitRegions mapRange v.freeRegions
      let (v, s) ← { v with freeRegions }.trimExistingMappings s mapRange
      pure (offset, v, s)
  else
    let (base, r, offset) ← findFreeRegion o.offset mapSize o.align v.freeRegions.entries
    let stop ← addUsize offset mapSize
    let a ← getIntersectedRange r.range ⟨offset, stop⟩
    pure (offset, { v with freeRegions := FreeRegions.allocate v.freeRegions base r a }, s)

/-- `build_mapping` -/
def buildMapping (v : Vmar) (s : VmSpace) (o : MapOptions) :
    Result (VmMapping × Vmar × VmSpace) := do
  let (mapToAddr, v, s) ← v.allocateFreeRegionForVmo s o
  let stop ← addUsize o.vmoOffset o.size
  let idxs ← getPageIdxRange ⟨o.vmoOffset, stop⟩
  let pagePerms := OrdMap.empty.insertAll
    ((World.pageIdxs idxs).map fun pageIdx => (pageIdx, o.perms.toVmPerm))
  pure ({ vmo := o.vmo, vmoOffset := o.vmoOffset, mapSize := o.size, mapToAddr, pagePerms }, v, s)

/-- `VmarMapOptions::build` -/
def build (v : Vmar) (s : VmSpace) (o : MapOptions) : Result (ℕ × Vmar × VmSpace) := do
  v.checkOptions o
  let (m, v, s) ← v.buildMapping s o
  pure (m.mapToAddr, { v with vmMappings := v.vmMappings.insert m.mapToAddr m }, s)

/-! ### Destruction -/

/-- The free regions left by ranges that are given back. -/
def freed (rs : List Range) : FreeRegions := FreeRegions.insertRegions .empty (rs.map FreeRegion.mk)

/-- The loop of `destroy_all` over the mappings. -/
def unmapAll : List VmMapping → VmSpace → Result VmSpace
  | [], s => .ok s
  | m :: ms, s => do
    let (_, s) ← m.unmap s m.range true
    unmapAll ms s

mutual

/-- `destroy_all` -/
def destroyAll : Vmar → VmSpace → Result (Vmar × VmSpace)
  | ⟨base, size, _, ⟨children⟩, mappings, regions⟩, s => do
    let s ← destroyAllChildren children s
    let regions := regions.append (freed (children.map fun c => ⟨c.2.base, c.2.base + c.2.size⟩))
    let s ← unmapAll mappings.values s
    let regions := regions.append (freed (mappings.values.map VmMapping.range))
    let regions ← FreeRegions.mergeContinuousRegions regions
    pure (⟨base, size, true, .empty, .empty, regions⟩, s.clear)

/-- The loop of `destroy_all` over the children. -/
def destroyAllChildren : List (ℕ × Vmar) → VmSpace → Result VmSpace
  | [], s => .ok s
  | (_, c) :: cs, s => do
    let (_, s) ← destroyAll c s
    destroyAllChildren cs s

end

/-- `check_destroy_range` -/
def checkDestroyRange (v : Vmar) (range : Range) : Result Unit := do
  debugAssert (range.start % pageSize = 0)
  debugAssert (range.stop % pageSize = 0)
  v.childVmars.entries.forM fun e =>
    let start := e.1
    let stop := e.1 + e.2.size
    if stop ≤ range.start ∨ range.stop ≤ start then pure ()
    else if range.start ≤ start ∧ stop ≤ range.stop then pure ()
    else do
      assert (isIntersected range ⟨start, stop⟩ = true)
      returnErrnoWithMessage .eacces "Child vmar is partly intersected with destryed range"

/-- The loop of `destroy` over the children: those that meet the range are destroyed. -/
def destroyChildren (range : Range) :
    List (ℕ × Vmar) → VmSpace → Result (List (ℕ × Vmar) × VmSpace)
  | [], s => .ok ([], s)
  | (k, c) :: cs, s => do
    let (c', s) ← if isIntersected range c.range then c.destroyAll s else pure (c, s)
    let (cs', s) ← destroyChildren range cs s
    pure ((k, c') :: cs', s)

/-- The range by which `destroy` trims a mapping. -/
def destroyRangeOf (range : Range) (m : VmMapping) : Option Range :=
  if isIntersected m.range range then some (m.range.inter range) else none

/-- `destroy` -/
def destroy (v : Vmar) (s : VmSpace) (range : Range) : Result (Vmar × VmSpace) := do
  v.checkDestroyRange range
  let (children, s) ← destroyChildren range v.childVmars.entries s
  let (out, s) ← trimLoop (destroyRangeOf range) v.vmMappings.entries s
  -- the source gives back the range of every child, also of one that the range does not meet
  let ranges := v.childVmars.values.map Vmar.range ++
    v.vmMappings.values.filterMap (destroyRangeOf range)
  let regions ← FreeRegions.mergeContinuousRegions (v.freeRegions.append (freed ranges))
  pure ({ v with
    childVmars := (⟨children⟩ : OrdMap ℕ Vmar).retain fun _ c => !c.isDestroyed
    vmMappings := out.mappings.retain fun _ m => !m.isDestroyed
    freeRegions := regions }, s)

/-! ### Handles -/

/-- Run an operation on the VMAR at the end of a path of child keys. -/
def modifyAt (f : Vmar → VmSpace → Result (Vmar × VmSpace)) :
    List ℕ → Vmar → VmSpace → Result (Vmar × VmSpace)
  | [], v, s => f v s
  | k :: path, v, s => do
    let c ← unwrap (v.childVmars.get? k)
    let (c', s) ← modifyAt f path c s
    pure ({ v with childVmars := v.childVmars.insert k c' }, s)

end Vmar

end Jinux
