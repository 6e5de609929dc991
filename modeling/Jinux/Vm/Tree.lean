import Jinux.Vm.VmarOps

/-!
# Invariants of every VMAR of a tree

A step of an address space changes one VMAR of the tree; its ancestors only get a child replaced by
one with the same range.  `LocalInvariant` collects what a property of single VMARs needs for that
to be enough: it holds at the start and of a new child, it survives the replacement of a child, and
every operation keeps it.  `LocalInvariant.everywhere` then gives it for every VMAR in every state
reached.
-/

namespace Jinux

open Vmar

variable {P : Vmar → Prop} {op : VmarOp}

namespace Vmar

/-- The property holds of every VMAR of the tree. -/
def Everywhere (P : Vmar → Prop) (v : Vmar) : Prop := ∀ u : Vmar, u.InTree v → P u

variable {v u : Vmar} {path : List ℕ}

theorem inTree_iff : u.InTree v ↔ u = v ∨ ∃ k c, v.childVmars.get? k = some c ∧ u.InTree c := by
  constructor
  · rintro ⟨path, hu⟩
    cases path with
    | nil =>
      cases hu
      exact .inl rfl
    | cons k path =>
      obtain ⟨c, hc, hu⟩ := Option.bind_eq_some_iff.1 hu
      exact .inr ⟨k, c, hc, path, hu⟩
  · rintro (rfl | ⟨k, c, hc, path, hu⟩)
    · exact ⟨[], rfl⟩
    · exact ⟨k :: path, by rw [at?, hc]; exact hu⟩

theorem everywhere_iff :
    v.Everywhere P ↔ P v ∧ ∀ k c, v.childVmars.get? k = some c → c.Everywhere P := by
  constructor
  · exact fun h => ⟨h v (inTree_iff.2 (.inl rfl)),
      fun k c hc u hu => h u (inTree_iff.2 (.inr ⟨k, c, hc, hu⟩))⟩
  · rintro ⟨h, hc⟩ u hu
    rcases inTree_iff.1 hu with rfl | ⟨k, c, hget, hu⟩
    · exact h
    · exact hc k c hget u hu

theorem everywhere_of_empty (h : P v) (hc : v.childVmars = .empty) : v.Everywhere P := by
  refine everywhere_iff.2 ⟨h, fun k c hget => ?_⟩
  rw [hc] at hget
  cases hget

theorem Everywhere.at? (h : v.Everywhere P) (hu : v.at? path = some u) : u.Everywhere P := by
  induction path generalizing u v with
  | nil =>
    cases hu
    exact h
  | cons k path ih =>
    obtain ⟨c, hc, hu⟩ := Option.bind_eq_some_iff.1 hu
    exact ih ((everywhere_iff.1 h).2 k c hc) hu

/-- The property survives the replacement of a child by one with the same range. -/
def Replaceable (P : Vmar → Prop) : Prop :=
  ∀ (v c c' : Vmar) (k : ℕ), P v → v.childVmars.get? k = some c → c'.range = c.range →
    P { v with childVmars := v.childVmars.insert k c' }

/-- Replacing a VMAR by one with the same range keeps the ranges of its ancestors. -/
theorem replaceAt_range {u' : Vmar} (hu : v.at? path = some u) (hr : u'.range = u.range) :
    (v.replaceAt path u').range = v.range := by
  cases path with
  | nil =>
    cases hu
    exact hr
  | cons k path =>
    obtain ⟨c, hc, -⟩ := Option.bind_eq_some_iff.1 hu
    rw [replaceAt, hc]
    rfl

theorem Everywhere.replaceAt (hP : Replaceable P) :
    ∀ {u u' v : Vmar}, v.Everywhere P → v.at? path = some u → u'.Everywhere P →
      u'.range = u.range → (v.replaceAt path u').Everywhere P := by
  induction path with
  | nil => exact fun _ _ h' _ => h'
  | cons k path ih =>
    intro u u' v h hu h' hr
    obtain ⟨hself, hchild⟩ := everywhere_iff.1 h
    obtain ⟨c, hc, hu⟩ := Option.bind_eq_some_iff.1 hu
    have hc' := ih (hchild k c hc) hu h' hr
    rw [Vmar.replaceAt, hc]
    exact everywhere_iff.2 ⟨hP v c _ k hself hc (replaceAt_range hu hr),
      OrdMap.forall_insert hchild hc'⟩

end Vmar

/-- What an operation keeps of the VMAR it works on. -/
structure VmarOp.Keeps (op : VmarOp) (v v' : Vmar) : Prop where
  range : v'.range = v.range
  /-- All operations but `destroyAll` keep a VMAR alive. -/
  live : op ≠ .destroyAll → v'.isDestroyed = v.isDestroyed
  sorted : v.childVmars.Sorted → v'.childVmars.Sorted
  /-- Each child is one from before or a new one. -/
  children : v.childVmars.Sorted → ∀ k c, v'.childVmars.get? k = some c →
    v.childVmars.get? k = some c ∨ ∃ offset size, c = fresh offset size

/-- An operation that leaves the children alone. -/
theorem VmarOp.Keeps.of_childVmars {v v' : Vmar} (hr : v'.range = v.range)
    (hd : v'.isDestroyed = v.isDestroyed) (hc : v'.childVmars = v.childVmars) : op.Keeps v v' :=
  ⟨hr, fun _ => hd, fun h => hc ▸ h, fun _ _ _ h => .inl (hc ▸ h)⟩

theorem VmarOp.run_keeps {v v' : Vmar} {s s' : VmSpace} (hrun : op.run v s = .ok (v', s')) :
    op.Keeps v v' := by
  cases op with
  | allocChild o =>
    obtain ⟨v1, hv1, hrun⟩ := Result.bind_ok.1 hrun
    cases hrun
    obtain ⟨childOffset, align, base, r, offset, -, rfl⟩ := allocChild_ok hv1
    exact ⟨rfl, fun _ => rfl, fun hs => hs.insert _ _, fun hs =>
      OrdMap.forall_insert (fun _ _ => .inl) (.inr ⟨offset, o.size, rfl⟩)⟩
  | build o =>
    obtain ⟨⟨addr, v1, s1⟩, hv1, hrun⟩ := Result.bind_ok.1 hrun
    cases hrun
    obtain ⟨-, v2, hres, rfl⟩ := build_ok hv1
    cases hres <;> exact .of_childVmars rfl rfl rfl
  | destroy range =>
    obtain ⟨children, s1, out, F, hchildren, -, -, rfl⟩ := destroy_ok hrun
    have hsurv hs := survivors_get? hs (destroyChildren_ok hchildren)
    exact ⟨rfl, fun _ => rfl, fun hs => (hsurv hs).1, fun hs k c hc => .inl ((hsurv hs).2 k c hc).1⟩
  | destroyAll =>
    obtain ⟨F, s1, -, rfl, -⟩ := destroyAll_ok hrun
    exact ⟨rfl, fun h => absurd rfl h, fun _ => OrdMap.sorted_empty, nofun⟩
  | mapPage addr cowChild frame isReadonly =>
    obtain ⟨key, m, m', -, -, -, -, rfl⟩ := mapPage_ok hrun
    exact .of_childVmars rfl rfl rfl

namespace AddrSpace

/-- The step meets the condition at the VMAR it works on. -/
def Locally (ok : VmarOp → Vmar → Prop) (a : AddrSpace) (l : List ℕ × VmarOp) : Prop :=
  ∀ u, a.vmar.at? l.1 = some u → ok l.2 u

/-- A property of single VMARs that operations meeting the condition keep. -/
structure LocalInvariant (ok : VmarOp → Vmar → Prop) (P : Vmar → Prop) : Prop where
  root : P newRoot
  fresh : ∀ offset size, P (fresh offset size)
  sorted : ∀ v, P v → v.childVmars.Sorted
  replace : Replaceable P
  run : ∀ (op : VmarOp) (v v' : Vmar) (s s' : VmSpace), ok op v → P v →
    op.run v s = .ok (v', s') → P v'

variable {ok : VmarOp → Vmar → Prop} {a a' : AddrSpace} {l : List ℕ × VmarOp}

theorem LocalInvariant.step (h : LocalInvariant ok P) (hi : a.vmar.Everywhere P)
    (hok : a.Locally ok l) (hstep : lts.step a l a') : a'.vmar.Everywhere P := by
  obtain ⟨u, u', hu, hrun, hvmar⟩ := apply_ok hstep
  obtain ⟨hself, hchild⟩ := everywhere_iff.1 (hi.at? hu)
  have hkeeps := VmarOp.run_keeps hrun
  rw [hvmar]
  refine hi.replaceAt h.replace hu (everywhere_iff.2
    ⟨h.run l.2 u u' a.space a'.space (hok u hu) hself hrun, fun k c hc => ?_⟩)
    hkeeps.range
  rcases hkeeps.children (h.sorted u hself) k c hc with hold | ⟨offset, size, rfl⟩
  · exact hchild k c hold
  · exact everywhere_of_empty (h.fresh offset size) rfl

/-- **A local invariant holds of every VMAR in every state reached.** -/
theorem LocalInvariant.everywhere (h : LocalInvariant ok P)
    (hr : (lts.restrict (Locally ok)).Reachable init a) : a.vmar.Everywhere P :=
  hr.invariant (P := fun a => a.vmar.Everywhere P) (everywhere_of_empty h.root rfl)
    fun _ _ _ hi hs => h.step hi hs.1 hs.2

/-- An invariant that every operation keeps holds in every run. -/
theorem LocalInvariant.everywhere_of_reachable (h : LocalInvariant (fun _ _ => True) P)
    (hr : lts.Reachable init a) : a.vmar.Everywhere P :=
  h.everywhere (hr.restrict fun _ _ _ _ => trivial)

theorem range_step (hstep : lts.step a l a') : a'.vmar.range = a.vmar.range := by
  obtain ⟨u, u', hu, hrun, hvmar⟩ := apply_ok hstep
  rw [hvmar]
  exact replaceAt_range hu (VmarOp.run_keeps hrun).range

/-- The root VMAR keeps its range. -/
theorem range_of_reachable (hr : lts.Reachable init a) : a.vmar.range = newRoot.range :=
  hr.invariant (P := fun a => a.vmar.range = newRoot.range) rfl
    fun _ _ _ hi hstep => (range_step hstep).trans hi

end AddrSpace

end Jinux
