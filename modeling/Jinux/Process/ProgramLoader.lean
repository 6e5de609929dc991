import Jinux.Vm.PageFault

/-!
# Loading a program

`load_program_to_vm` clears the address space of a process, which maps a new heap, maps the vDSO,
and maps the segments of the program and its stack.  What it writes goes to the VMOs, so that the
page table of a program that has just been loaded is empty (`Loaded.fresh`).
-/

namespace Jinux

open VmSpace Vmar Result AddrSpace

/-- `mprotect` in the root VMAR -/
def AddrSpace.protect (a : AddrSpace) (perms : VmPerms) (range : Range) :
    AddrSpace × Result Unit :=
  let p := a.vmar.protect a.space perms range
  (⟨p.1.1, p.1.2⟩, p.2)

/-- `map_vdso_to_vm` -/
def mapVdsoToVm (vdsoVmo : Vmo) (a : AddrSpace) : Result (ℕ × AddrSpace) := do
  let vmo ← vdsoVmo.dup.unwrap
  let (vdsoDataBase, v, s) ← (a.vmar.build a.space
    { vmo, vmoSize := 5 * pageSize, perms := {}, size := 5 * pageSize }).unwrap
  let vdsoTextBase := vdsoDataBase + 0x4000
  let dataPerms : VmPerms := { read := true, write := true }
  let textPerms : VmPerms := { read := true, exec := true }
  let p := protect ⟨v, s⟩ dataPerms ⟨vdsoDataBase, vdsoDataBase + pageSize⟩
  p.2.unwrap
  let q := p.1.protect textPerms ⟨vdsoTextBase, vdsoTextBase + pageSize⟩
  q.2.unwrap
  pure (vdsoTextBase, q.1)

/-- Mappings of VMOs other than the vDSO: the heap, the segments of the program and the stack. -/
def buildAll (options : List MapOptions) (a : AddrSpace) : Result AddrSpace :=
  options.foldlM (fun a o => a.apply [] (.build o)) a

/-- The address space as `load_program_to_vm` leaves it: cleared, with the heap, the vDSO, and then
the program. -/
def Loaded (vdsoVmo : Vmo) (a : AddrSpace) : Prop :=
  ∃ heap program base a₁ a₂, (∀ o ∈ heap ++ program, o.vmo.id ≠ vdsoVmo.id) ∧
    buildAll heap .init = .ok a₁ ∧ mapVdsoToVm vdsoVmo a₁ = .ok (base, a₂) ∧
    buildAll program a₂ = .ok a

/-- What is known of an address space that has just been loaded. -/
structure Fresh (a : AddrSpace) : Prop where
  ordered : a.vmar.Everywhere Ordered
  range : a.vmar.range = newRoot.range
  empty : ∀ i, a.space.pt.get? i = none

variable {a a' : AddrSpace}

theorem Fresh.step (h : Fresh a) {path : List ℕ} {op : VmarOp} (hop : op.IsCall)
    (hs : a.apply path op = .ok a') : Fresh a' := by
  have hstep : lts.step a (path, op) a' := hs
  refine ⟨localInvariant_shaped.step h.ordered (fun _ _ => trivial) hstep,
    (range_step hstep).trans h.range, ?_⟩
  have hclosed : Closed fun s => ∀ i, s.pt.get? i = none := by
    refine ⟨fun s x s' hs h i => ?_, fun s hs i => ?_⟩
    · rw [(unmapPage_ok h).2, OrdMap.get?_remove, hs i, ite_self]
    · change (s.pt.removeAll _).get? i = none
      rw [OrdMap.get?_removeAll, hs i, ite_self]
  obtain ⟨u, u', -, hrun, -⟩ := apply_ok hs
  exact VmarOp.run_closed hclosed hop hrun h.empty

theorem Fresh.protect (h : Fresh a) (perms : VmPerms) (range : Range) :
    Fresh (a.protect perms range).1 := by
  obtain ⟨hbare, hflags⟩ := @protect_reflags perms a.vmar a.space range
  refine ⟨h.ordered.of_bare hbare, (range_of_bare hbare).trans h.range, fun i => ?_⟩
  have hf := hflags.frame i
  rw [h.empty i] at hf
  exact Option.map_eq_none_iff.1 hf

theorem Fresh.build (h : Fresh a) {o : MapOptions} {addr : ℕ} {v : Vmar}
    {s : VmSpace} (hb : a.vmar.build a.space o = .ok (addr, v, s)) : Fresh ⟨v, s⟩ := by
  have happly : a.apply [] (.build o) = .ok ⟨v, s⟩ :=
    bind_ok.2 ⟨(v, s), bind_ok.2 ⟨_, hb, rfl⟩, rfl⟩
  exact h.step (show (VmarOp.build o).IsCall from trivial) happly

theorem Fresh.buildAll {options : List MapOptions} (h : Fresh a)
    (hrun : Jinux.buildAll options a = .ok a') : Fresh a' :=
  foldlM_invariant (P := fun _ a => Fresh a)
    (fun o _ _ _ h hs => h.step (show (VmarOp.build o).IsCall from trivial) hs) h hrun

theorem Loaded.fresh {vdsoVmo : Vmo} (h : Loaded vdsoVmo a) : Fresh a := by
  obtain ⟨heap, program, base, a1, a2, -, hheap, hvdso, hprogram⟩ := h
  have hinit : Fresh init :=
    ⟨everywhere_of_empty ⟨Shaped.empty, OrdMap.sorted_empty⟩ rfl, rfl, fun _ => rfl⟩
  refine Fresh.buildAll ?_ hprogram
  obtain ⟨vmo, -, hvdso⟩ := bind_ok.1 hvdso
  obtain ⟨⟨addr, v, s⟩, hbuild, hvdso⟩ := bind_ok.1 hvdso
  obtain ⟨_, -, hvdso⟩ := bind_ok.1 hvdso
  obtain ⟨_, -, hvdso⟩ := Result.bind_ok.1 hvdso
  have hbuilt := (hinit.buildAll hheap).build (Result.unwrap_ok.1 hbuild)
  have hloaded := (hbuilt.protect { read := true, write := true } ⟨addr, addr + pageSize⟩).protect
    { read := true, exec := true } ⟨addr + 0x4000, addr + 0x4000 + pageSize⟩
  cases hvdso
  exact hloaded

end Jinux
