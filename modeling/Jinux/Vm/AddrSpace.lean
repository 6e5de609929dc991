import Jinux.Lib.Lts
import Jinux.Vm.Vmar

/-!
# The address space of a process

The root VMAR of a process with the `VmSpace` its VMARs share, as a transition system: a step runs
one operation on one VMAR of the tree, named by the path of child keys that leads to it, and
succeeds.  A step that fails is no step; what it leaves behind is not followed.

Steps on a VMAR that has been taken out of the tree are not steps of the system.
-/

namespace Jinux

namespace Vmar

/-- The VMAR at the end of a path. -/
def at? : List ℕ → Vmar → Option Vmar
  | [], v => some v
  | k :: path, v => (v.childVmars.get? k).bind (at? path)

/-- `u` is `v` or a VMAR of the tree below it. -/
def InTree (u v : Vmar) : Prop := ∃ path, v.at? path = some u

/-- Put a VMAR at the end of a path. -/
def replaceAt : List ℕ → Vmar → Vmar → Vmar
  | [], _, u => u
  | k :: path, v, u =>
    match v.childVmars.get? k with
    | none => v
    | some c => { v with childVmars := v.childVmars.insert k (c.replaceAt path u) }

/-- An operation at the end of a path replaces the VMAR there. -/
theorem modifyAt_ok {f : Vmar → VmSpace → Result (Vmar × VmSpace)} {path : List ℕ} {v v' : Vmar}
    {s s' : VmSpace} (h : modifyAt f path v s = .ok (v', s')) :
    ∃ u u', v.at? path = some u ∧ f u s = .ok (u', s') ∧ v' = v.replaceAt path u' := by
  induction path generalizing v v' s s' with
  | nil =>
    exact ⟨v, v', rfl, h, rfl⟩
  | cons k path ih =>
    obtain ⟨c, hc, h⟩ := Result.bind_ok.1 h
    rw [unwrap_ok] at hc
    obtain ⟨⟨c', s1⟩, hc', h⟩ := Result.bind_ok.1 h
    cases h
    obtain ⟨u, u', hu, hf, rfl⟩ := ih hc'
    refine ⟨u, u', ?_, hf, ?_⟩
    · rw [at?, hc]
      exact hu
    · rw [replaceAt, hc]

/-- What a page fault at an address of a mapping does to the VMAR and the `VmSpace`: the mapping is
looked up as in `handle_page_fault`, and `map_one_page` maps the page to some frame. -/
def mapPage (v : Vmar) (s : VmSpace) (addr : ℕ) (cowChild : Bool) (frame : FrameId)
    (isReadonly : Bool) : Result (Vmar × VmSpace) :=
  match v.vmMappings.entries.find? fun e => e.1 ≤ addr && addr < e.1 + e.2.mapSize with
  | none => returnErrnoWithMessage .eacces "page fault addr is not in current vmar"
  | some (key, m) => do
    let x ← addUsize m.vmoOffset addr
    let vmoOffset ← subUsize x m.mapToAddr
    let (m', s) ← m.mapOnePage cowChild s (vmoOffset / pageSize) frame isReadonly
    pure ({ v with vmMappings := v.vmMappings.insert key m' }, s)

end Vmar

/-- The operations on a VMAR. -/
inductive VmarOp where
  | allocChild (options : Vmar.ChildOptions)
  | build (options : Vmar.MapOptions)
  | destroy (range : Range)
  | destroyAll
  /-- The page of an address is mapped to a frame. -/
  | mapPage (addr : ℕ) (cowChild : Bool) (frame : FrameId) (isReadonly : Bool)
  deriving DecidableEq, Repr

/-- Run an operation on a VMAR. -/
def VmarOp.run : VmarOp → Vmar → VmSpace → Result (Vmar × VmSpace)
  | .allocChild o, v, s => do
    let v ← v.allocChild o
    pure (v, s)
  | .build o, v, s => do
    let (_, v, s) ← v.build s o
    pure (v, s)
  | .destroy range, v, s => v.destroy s range
  | .destroyAll, v, s => v.destroyAll s
  | .mapPage addr cowChild frame isReadonly, v, s => v.mapPage s addr cowChild frame isReadonly

/-- The root VMAR and the shared `VmSpace`. -/
structure AddrSpace where
  vmar : Vmar
  space : VmSpace

namespace AddrSpace

/-- A new root VMAR. -/
def init : AddrSpace := ⟨Vmar.newRoot, {}⟩

/-- Run an operation on the VMAR at the end of a path. -/
def apply (a : AddrSpace) (path : List ℕ) (op : VmarOp) : Result AddrSpace := do
  let (vmar, space) ← Vmar.modifyAt op.run path a.vmar a.space
  pure ⟨vmar, space⟩

/-- A step is an operation that succeeds, on a VMAR of the tree. -/
def lts : Lts AddrSpace (List ℕ × VmarOp) where
  step a l a' := a.apply l.1 l.2 = .ok a'

theorem apply_ok {a a' : AddrSpace} {path : List ℕ} {op : VmarOp} (h : a.apply path op = .ok a') :
    ∃ u u', a.vmar.at? path = some u ∧ op.run u a.space = .ok (u', a'.space) ∧
      a'.vmar = a.vmar.replaceAt path u' := by
  obtain ⟨⟨vmar, space⟩, hm, h⟩ := Result.bind_ok.1 h
  cases h
  exact Vmar.modifyAt_ok hm

/-- Run operations one after the other. -/
def runAll (a : AddrSpace) (ls : List (List ℕ × VmarOp)) : Result AddrSpace :=
  ls.foldlM (fun a l => a.apply l.1 l.2) a

/-- Every step of a run meets the condition in the state before it. -/
def StepsMeet (ok : AddrSpace → List ℕ × VmarOp → Prop) :
    AddrSpace → List (List ℕ × VmarOp) → Prop
  | _, [] => True
  | a, l :: ls => ok a l ∧ ∀ a', a.apply l.1 l.2 = .ok a' → StepsMeet ok a' ls

variable {ls : List (List ℕ × VmarOp)}

theorem reachable_restrict_runAll {ok : AddrSpace → List ℕ × VmarOp → Prop} {a₀ a a' : AddrSpace}
    (hr : (lts.restrict ok).Reachable a₀ a) (hok : StepsMeet ok a ls) (h : a.runAll ls = .ok a') :
    (lts.restrict ok).Reachable a₀ a' := by
  induction ls generalizing a₀ a with
  | nil =>
    cases h
    exact hr
  | cons l ls ih =>
    obtain ⟨a1, h1, h⟩ := Result.bind_ok.1 h
    exact ih (hr.step (l := l) ⟨hok.1, h1⟩) (hok.2 a1 h1) h

theorem stepsMeet_true : ∀ {a : AddrSpace}, StepsMeet (fun _ _ => True) a ls := by
  induction ls with
  | nil => exact trivial
  | cons l ls ih => exact ⟨trivial, fun _ _ => ih⟩

theorem reachable_runAll {a a' : AddrSpace} (h : a.runAll ls = .ok a') : lts.Reachable a a':=
  (reachable_restrict_runAll (.refl a) stepsMeet_true h).of_restrict

/-- The state after a run that succeeds. -/
def after (a : AddrSpace) (ls : List (List ℕ × VmarOp)) : AddrSpace :=
  (a.runAll ls).toOption.getD a

end AddrSpace

end Jinux
