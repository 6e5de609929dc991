import Mathlib.Tactic.SplitIfs

/-!
# Access rights, permissions and page-table flags

The bit sets of the source, one Boolean for each bit that a modelled function reads.
-/

namespace Jinux

/-- `Rights`: what a capability allows. -/
structure Rights where
  dup : Bool := false
  read : Bool := false
  write : Bool := false
  exec : Bool := false
  signal : Bool := false
  deriving DecidableEq, Repr

namespace Rights

/-- `Rights::all` -/
def all : Rights := ⟨true, true, true, true, true⟩

/-- `contains` -/
def contains (r s : Rights) : Bool :=
  (!s.dup || r.dup) && (!s.read || r.read) && (!s.write || r.write) && (!s.exec || r.exec) &&
    (!s.signal || r.signal)

end Rights

/-- `VmPerms`: the permissions of a memory mapping. -/
structure VmPerms where
  read : Bool := false
  write : Bool := false
  exec : Bool := false
  deriving DecidableEq, Repr

/-- `VmPerm`: the permissions of a page. -/
structure VmPerm where
  r : Bool := false
  w : Bool := false
  x : Bool := false
  u : Bool := false
  deriving DecidableEq, Repr

namespace VmPerm

/-- `VmPerm::R` -/
def R : VmPerm := { r := true }

/-- `VmPerm::W` -/
def W : VmPerm := { w := true }

/-- `contains` -/
def contains (p q : VmPerm) : Bool :=
  (!q.r || p.r) && (!q.w || p.w) && (!q.x || p.x) && (!q.u || p.u)

/-- `p - VmPerm::W` -/
def subW (p : VmPerm) : VmPerm := { p with w := false }

@[simp] theorem subW_w (p : VmPerm) : p.subW.w = false := rfl

@[simp] theorem contains_W (p : VmPerm) : p.contains W = p.w := by
  simp [contains, W]

end VmPerm

namespace VmPerms

/-- `Rights::from` -/
def toRights (p : VmPerms) : Rights := { read := p.read, write := p.write, exec := p.exec }

/-- `VmPerm::from` -/
def toVmPerm (p : VmPerms) : VmPerm := { r := p.read, w := p.write, x := p.exec }

end VmPerms

/-- `PageTableFlags`: the flags of a page-table entry of a user page. -/
structure PageTableFlags where
  present : Bool
  writable : Bool
  user : Bool
  noExecute : Bool
  deriving DecidableEq, Repr

/-- `PageTableFlags::from` -/
def VmPerm.toFlags (p : VmPerm) : PageTableFlags where
  present := true
  writable := p.contains VmPerm.W
  user := true
  noExecute := !p.x

@[simp] theorem VmPerm.toFlags_writable (p : VmPerm) : p.toFlags.writable = p.w := by
  simp [toFlags]

end Jinux
