import Jinux.Vm.VmarFault

/-!
# The areas and the page table

The areas of a `VmSpace` and its page table are changed together, by mapping and unmapping single
pages.

* `VmSpace.Paired` : every area is a page of the user, and the page table maps it to its frame and
  maps nothing else there;
* `VmSpace.Closed` : what unmapping keeps, every operation on a VMAR keeps (`VmarOp.run_closed`).
-/

namespace Jinux

open VmSpace OrdMap Vmar

namespace VmSpace

variable {s s' : VmSpace} {x : ℕ}

/-- A page of the user. -/
def UserPage (x : ℕ) : Prop := pageSize ∣ x ∧ x < rootVmarHighestAddr

theorem UserPage.eq_of_ptIndex {y : ℕ} (hx : UserPage x) (hy : UserPage y)
    (h : ptIndex x = ptIndex y) : x = y :=
  AddrSpace.eq_of_ptIndex ⟨Nat.zero_le x, hx.2⟩ ⟨Nat.zero_le y, hy.2⟩ hx.1 hy.1 h

/-- Areas are pages of the user, and the page table maps those pages and no others. -/
structure Paired (s : VmSpace) : Prop where
  page : ∀ x f, s.areas.get? x = some f → UserPage x
  entry : ∀ x, UserPage x → (s.pt.get? (ptIndex x)).map Pte.frame = s.areas.get? x

theorem paired_empty : Paired {} := ⟨nofun, fun _ _ => rfl⟩

theorem Paired.reflags (hs : s.Paired) (h : s.Reflags s') : s'.Paired :=
  ⟨fun x f hx => hs.page x f (h.areas ▸ hx), fun x hx => by rw [h.frame, h.areas, hs.entry x hx]⟩

theorem Paired.map (hs : s.Paired) (hx : UserPage x) {frame : FrameId} {perm : VmPerm}
    (h : s.map frame x perm = .ok s') : s'.Paired := by
  obtain ⟨-, hareas, hpt⟩ := map_ok h
  refine ⟨hareas ▸ forall_insert hs.page hx, fun y hy => ?_⟩
  rw [hpt, hareas, get?_insert, get?_insert]
  by_cases heq : y = x
  · rw [if_pos heq, if_pos (congrArg ptIndex heq)]
    rfl
  · rw [if_neg heq, if_neg fun h => heq (hy.eq_of_ptIndex hx h), hs.entry y hy]

theorem closed_paired : Closed Paired where
  unmapPage s x s' hs h := by
    obtain ⟨hareas, hpt⟩ := unmapPage_ok h
    have hx : UserPage x := by
      cases hget : s.areas.get? x with
      | some f => exact hs.page x f hget
      | none =>
        unfold VmSpace.unmapPage at h
        rw [hget] at h
        cases h
    refine ⟨fun y f hy => hs.page y f (of_get?_remove (hareas ▸ hy)).2, fun y hy => ?_⟩
    rw [hpt, hareas, get?_remove, get?_remove]
    by_cases heq : y = x
    · rw [if_pos heq, if_pos (congrArg ptIndex heq)]
      rfl
    · rw [if_neg heq, if_neg fun h => heq (hy.eq_of_ptIndex hx h), hs.entry y hy]
  clear s hs := by
    refine ⟨nofun, fun x hx => ?_⟩
    change ((s.pt.removeAll (s.areas.keys.map ptIndex)).get? (ptIndex x)).map Pte.frame = none
    rw [get?_removeAll]
    split_ifs with hmem
    · rfl
    · rw [hs.entry x hx]
      cases hget : s.areas.get? x with
      | none => rfl
      | some f =>
        have hkey : x ∈ s.areas.keys := List.mem_map.2 ⟨_, mem_of_get? hget, rfl⟩
        exact absurd (List.mem_map.2 ⟨x, hkey, rfl⟩) hmem

end VmSpace

variable {I : VmSpace → Prop}

/-- The operations of a VMAR other than the one that stands for a page fault. -/
def VmarOp.IsCall : VmarOp → Prop
  | .mapPage .. => False
  | _ => True

/-- What unmapping keeps, an operation on a VMAR keeps. -/
theorem VmarOp.run_closed (hI : Closed I) {op : VmarOp} (hop : op.IsCall) {v v' : Vmar}
    {s s' : VmSpace} (h : op.run v s = .ok (v', s')) (hs : I s) : I s' := by
  cases op with
  | allocChild o =>
    obtain ⟨v1, -, h⟩ := Result.bind_ok.1 h
    cases h
    exact hs
  | build o =>
    obtain ⟨⟨addr, v1, s1⟩, hv1, h⟩ := Result.bind_ok.1 h
    cases h
    obtain ⟨-, v2, hres, -⟩ := build_ok hv1
    cases hres with
    | overwrite _ _ _ hout => exact trimLoop_closed hI hout hs
    | fit _ _ _ => exact hs
  | destroy range =>
    obtain ⟨children, s1, out, F, hcs, hout, -⟩ := destroy_ok h
    exact trimLoop_closed hI hout ((destroyChildren_closed hI hcs).1 hs)
  | destroyAll => exact destroyAll_closed hI v s h hs
  | mapPage _ _ _ _ => exact hop.elim

end Jinux
