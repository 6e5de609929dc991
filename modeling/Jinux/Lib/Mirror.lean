import Mathlib.Logic.Relation

/-!
# A flag that mirrors a condition

Two parties keep a flag equal to a condition.  The raiser can only make the condition true;
afterwards it enters a section, tests the condition and sets the flag if it holds.  The lowerer can
only make the condition false, and afterwards clears the flag in the same way.  The condition may
change while a party is in its section, but the two are never in their sections together.

* `Mirror.Step` : what the two can do; a step of the lowerer is one of the raiser in the `dual`;
* `Mirror.Inv.flag_eq_cond` : the flag is right whenever both parties are away.
-/

namespace Jinux

/-- Where a party is. -/
inductive Phase where
  | away
  /-- It has changed the condition and not entered the section. -/
  | announced
  /-- In the section, before the test. -/
  | testing
  /-- In the section, after a test that told it to change the flag. -/
  | editing
  /-- In the section, with nothing left to do. -/
  | leaving
  deriving DecidableEq

/-- In the section. -/
def Phase.inside : Phase → Bool
  | .testing | .editing | .leaving => true
  | .away | .announced => false

/-- The party has still to look after the flag. -/
def Phase.owes : Phase → Bool
  | .announced | .testing | .editing => true
  | .away | .leaving => false

/-- A condition, the flag that mirrors it and the two parties. -/
@[ext]
structure Mirror where
  cond : Bool
  flag : Bool
  /-- The party that can make the condition true. -/
  raiser : Phase
  /-- The party that can make the condition false. -/
  lowerer : Phase

namespace Mirror

/-- The negation of the condition, with the parties exchanged. -/
def dual (m : Mirror) : Mirror := ⟨!m.cond, !m.flag, m.lowerer, m.raiser⟩

@[simp] theorem dual_dual (m : Mirror) : m.dual.dual = m := by simp [dual]

/-- The steps of the raiser. -/
inductive Raises : Mirror → Mirror → Prop
  | change {cond cond' flag : Bool} {l : Phase} (h : cond = true → cond' = true) :
      Raises ⟨cond, flag, .away, l⟩ ⟨cond', flag, .announced, l⟩
  | enter {cond flag : Bool} {l : Phase} (h : l.inside = false) :
      Raises ⟨cond, flag, .announced, l⟩ ⟨cond, flag, .testing, l⟩
  | test_true {flag : Bool} {l : Phase} :
      Raises ⟨true, flag, .testing, l⟩ ⟨true, flag, .editing, l⟩
  | test_false {flag : Bool} {l : Phase} :
      Raises ⟨false, flag, .testing, l⟩ ⟨false, flag, .leaving, l⟩
  | edit {cond flag : Bool} {l : Phase} :
      Raises ⟨cond, flag, .editing, l⟩ ⟨cond, true, .leaving, l⟩
  | leave {cond flag : Bool} {l : Phase} :
      Raises ⟨cond, flag, .leaving, l⟩ ⟨cond, flag, .away, l⟩

/-- A step of one of the parties. -/
def Step (m m' : Mirror) : Prop := Raises m m' ∨ Raises m.dual m'.dual

/-- Any number of steps. -/
abbrev Steps : Mirror → Mirror → Prop := Relation.ReflTransGen Step

section Lower

variable {cond cond' flag : Bool} {r : Phase}

theorem Step.lower_change (h : cond' = true → cond = true) :
    Step ⟨cond, flag, r, .away⟩ ⟨cond', flag, r, .announced⟩ := by
  refine .inr (.change fun hc => ?_)
  cases cond' <;> simp_all

theorem Step.lower_enter (h : r.inside = false) :
    Step ⟨cond, flag, r, .announced⟩ ⟨cond, flag, r, .testing⟩ := .inr (.enter h)

theorem Step.lower_test_true : Step ⟨true, flag, r, .testing⟩ ⟨true, flag, r, .leaving⟩ :=
  .inr .test_false

theorem Step.lower_test_false : Step ⟨false, flag, r, .testing⟩ ⟨false, flag, r, .editing⟩ :=
  .inr .test_true

theorem Step.lower_edit : Step ⟨cond, flag, r, .editing⟩ ⟨cond, false, r, .leaving⟩ := .inr .edit

theorem Step.lower_leave : Step ⟨cond, flag, r, .leaving⟩ ⟨cond, flag, r, .away⟩ := .inr .leave

end Lower

/-- The invariant: whoever made the flag wrong has still to look after it, and a party that is about
to edit the flag is right, or the other one has to come after it. -/
structure Inv (m : Mirror) : Prop where
  apart : m.raiser.inside = true → m.lowerer.inside = true → False
  up : m.cond = true → m.flag = true ∨ m.raiser.owes = true
  down : m.cond = false → m.flag = false ∨ m.lowerer.owes = true
  raising : m.raiser = .editing → m.cond = true ∨ m.lowerer = .announced
  lowering : m.lowerer = .editing → m.cond = false ∨ m.raiser = .announced

variable {m m' : Mirror}

theorem Inv.dual (h : m.Inv) : m.dual.Inv where
  apart hl hr := h.apart hr hl
  up hc := by simpa [Mirror.dual] using h.down (by simpa [Mirror.dual] using hc)
  down hc := by simpa [Mirror.dual] using h.up (by simpa [Mirror.dual] using hc)
  raising he := by simpa [Mirror.dual] using h.lowering he
  lowering he := by simpa [Mirror.dual] using h.raising he

theorem Inv.raises (h : m.Inv) (hs : Raises m m') : m'.Inv := by
  -- when the raiser is in its section, the lowerer is not about to edit the flag
  have hedit : m.raiser.inside = true → m.lowerer ≠ .editing := fun hin he =>
    h.apart hin (he ▸ rfl)
  cases hs with
  | change hc =>
    refine ⟨nofun, fun _ => .inr rfl, fun hf => h.down ?_,
      nofun, fun _ => .inr rfl⟩
    refine Bool.eq_false_iff.2 fun ht => ?_
    rw [hc ht] at hf
    cases hf
  | enter hl =>
    refine ⟨fun _ hin => ?_, fun _ => .inr rfl, h.down, nofun, fun he => ?_⟩
    · rw [hl] at hin
      cases hin
    · dsimp only at he
      rw [he] at hl
      cases hl
  | test_true =>
    exact ⟨fun _ => h.apart rfl, fun _ => .inr rfl, h.down, fun _ => .inl rfl,
      fun he => absurd he (hedit rfl)⟩
  | test_false =>
    exact ⟨fun _ => h.apart rfl, nofun, h.down, nofun,
      fun _ => .inl rfl⟩
  | edit =>
    refine ⟨fun _ => h.apart rfl, fun _ => .inl rfl, fun hc => .inr ?_, nofun,
      fun he => absurd he (hedit rfl)⟩
    rcases h.raising rfl with ht | ha
    · rw [ht] at hc
      cases hc
    · dsimp only at ha
      rw [ha]
      rfl
  | leave =>
    exact ⟨nofun, h.up, h.down, nofun,
      fun he => absurd he (hedit rfl)⟩

theorem Inv.step (h : m.Inv) (hs : Step m m') : m'.Inv := by
  rcases hs with hs | hs
  · exact h.raises hs
  · exact dual_dual m' ▸ (h.dual.raises hs).dual

theorem Inv.steps (h : m.Inv) (hs : Steps m m') : m'.Inv := by
  induction hs with
  | refl => exact h
  | tail _ hstep ih => exact ih.step hstep

/-- **The flag is right** whenever neither party has still to look after it. -/
theorem Inv.flag_eq_cond (h : m.Inv) (hr : m.raiser.owes = false) (hl : m.lowerer.owes = false) :
    m.flag = m.cond := by
  cases hc : m.cond with
  | true => exact (h.up hc).resolve_right (by simp [hr])
  | false => exact (h.down hc).resolve_right (by simp [hl])

end Mirror

end Jinux
