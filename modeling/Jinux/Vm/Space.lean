import Jinux.Vm.Vmo

/-!
# The virtual memory space

A `VmSpace` records which pages of an address space are mapped to which frames.  The source keeps
two structures side by side: the areas of the `MemorySet`, each one page long, and the hardware page
table.  `protect` changes the flags of the page table only.

A page-table walk looks at bits 12 to 47 of an address, so addresses that agree on these bits share
an entry (`VmSpace.ptIndex`).
-/

namespace Jinux

/-- A page-table entry. -/
structure Pte where
  frame : FrameId
  flags : PageTableFlags
  deriving DecidableEq, Repr

/-- `VmSpace`: the areas by start address, and the entries of the page table. -/
structure VmSpace where
  /-- The areas of the memory set; every area is one page. -/
  areas : OrdMap ℕ FrameId := .empty
  /-- The page table, by the page number that a walk sees. -/
  pt : OrdMap ℕ Pte := .empty
  deriving DecidableEq, Repr

namespace VmSpace

/-- `is_page_aligned` -/
def isPageAligned (p : ℕ) : Bool := p % pageSize == 0

/-- `is_kernel_vaddr` -/
def isKernelVaddr (vaddr : ℕ) : Bool := vaddr / 2 ^ 47 % 2 == 1

/-- The page number that a four-level walk sees. -/
def ptIndex (vaddr : ℕ) : ℕ := vaddr / pageSize % 2 ^ 36

/-- `MemorySet::is_mapped` -/
def isMapped (s : VmSpace) (vaddr : ℕ) : Bool :=
  s.areas.keys.any fun start => start ≤ vaddr && vaddr < start + pageSize

/-- `PageTable::map`, unwrapped: a kernel address and an entry in use are panics. -/
def ptMap (s : VmSpace) (vaddr : ℕ) (pte : Pte) : Result VmSpace :=
  if isKernelVaddr vaddr ∨ (s.pt.get? (ptIndex vaddr)).isSome then .error (.panic .unwrap)
  else .ok { s with pt := s.pt.insert (ptIndex vaddr) pte }

/-- `PageTable::unmap`, unwrapped. -/
def ptUnmap (s : VmSpace) (vaddr : ℕ) : Result VmSpace :=
  if isKernelVaddr vaddr ∨ (s.pt.get? (ptIndex vaddr)).isNone then .error (.panic .unwrap)
  else .ok { s with pt := s.pt.remove (ptIndex vaddr) }

/-- `PageTable::protect`, unwrapped. -/
def ptProtect (s : VmSpace) (vaddr : ℕ) (flags : PageTableFlags) : Result VmSpace :=
  if isKernelVaddr vaddr then .error (.panic .unwrap)
  else
    match s.pt.get? (ptIndex vaddr) with
    | none => .error (.panic .unwrap)
    | some pte => .ok { s with pt := s.pt.insert (ptIndex vaddr) { pte with flags } }

/-- `VmSpace::map`, for one frame at a given address and without `can_overwrite`. -/
def map (s : VmSpace) (frame : FrameId) (addr : ℕ) (perm : VmPerm) : Result VmSpace := do
  assert (isPageAligned addr = true)
  -- an area that starts at the address is a panic
  if (s.areas.get? addr).isSome then .error (.panic .unwrap)
  else ptMap { s with areas := s.areas.insert addr frame } addr ⟨frame, perm.toFlags⟩

/-- `MemorySet::unmap` -/
def unmapPage (s : VmSpace) (va : ℕ) : Result VmSpace :=
  match s.areas.get? va with
  | none => returnErrno .efault
  | some _ => ptUnmap { s with areas := s.areas.remove va } va

/-- `VmSpace::unmap`, for the one page that every caller passes. -/
def unmap (s : VmSpace) (addr : ℕ) : Result VmSpace := do
  assert (isPageAligned addr = true)
  s.unmapPage addr

/-- `VmSpace::protect`, for the one page that every caller passes. -/
def protect (s : VmSpace) (addr : ℕ) (perm : VmPerm) : Result VmSpace := do
  debugAssert (addr % pageSize = 0)
  s.ptProtect addr perm.toFlags

/-- `VmSpace::clear`: the page table loses the entries of all areas. -/
def clear (s : VmSpace) : VmSpace :=
  { areas := .empty, pt := s.pt.removeAll (s.areas.keys.map ptIndex) }

end VmSpace

end Jinux
