import Mathlib.Order.MinMax
import Mathlib.Tactic.Tauto

/-!
# Half-open spans

`Span α` is the half-open interval `[start, stop)` of a linear order, as a pair of its ends.  A
span whose ends are out of order is empty, and so is one whose ends agree.  Two spans are *apart*
when they have no element in common; this is decided on the ends (`Span.apart_iff`).
-/

namespace Jinux

universe u

/-- The half-open interval `[start, stop)`. -/
structure Span (α : Type u) where
  start : α
  /-- The first element past the end. -/
  stop : α
  deriving DecidableEq, Repr

namespace Span

variable {α : Type u} [LinearOrder α]

instance : Membership α (Span α) := ⟨fun r a => r.start ≤ a ∧ a < r.stop⟩

variable {r s : Span α} {a : α}

theorem mem_def : a ∈ r ↔ r.start ≤ a ∧ a < r.stop := Iff.rfl

@[simp] theorem mem_mk {x y : α} : a ∈ (⟨x, y⟩ : Span α) ↔ x ≤ a ∧ a < y := Iff.rfl

instance (r : Span α) (a : α) : Decidable (a ∈ r) := inferInstanceAs (Decidable (_ ∧ _))

/-- The spans have no element in common. -/
def Apart (r s : Span α) : Prop := min r.stop s.stop ≤ max r.start s.start

instance (r s : Span α) : Decidable (r.Apart s) := inferInstanceAs (Decidable (_ ≤ _))

/-- The elements of both spans. -/
def inter (r s : Span α) : Span α := ⟨max r.start s.start, min r.stop s.stop⟩

/-- Every element of `r` is one of `s`. -/
def Within (r s : Span α) : Prop := ∀ a ∈ r, a ∈ s

@[simp] theorem mem_inter : a ∈ r.inter s ↔ a ∈ r ∧ a ∈ s := by
  simp only [inter, mem_def, max_le_iff, lt_min_iff]
  tauto

theorem apart_iff : r.Apart s ↔ ∀ a ∈ r, a ∉ s := by
  constructor
  · intro h a ha hs
    exact absurd (h.trans (max_le ha.1 hs.1)) (not_le.2 (lt_min ha.2 hs.2))
  · intro h
    by_contra hc
    have hc' := not_le.1 hc
    obtain ⟨h1, h2⟩ := lt_min_iff.1 hc'
    exact h _ ⟨le_max_left _ _, h1⟩ ⟨le_max_right _ _, h2⟩

/-- A span that is not empty holds its start. -/
theorem start_mem (h : a ∈ r) : r.start ∈ r := ⟨le_rfl, h.1.trans_lt h.2⟩

theorem Apart.symm (h : r.Apart s) : s.Apart r := by
  rw [apart_iff] at h ⊢
  exact fun a ha hs => h a hs ha

theorem Within.refl (r : Span α) : r.Within r := fun _ => id

theorem Within.trans {t : Span α} (h : r.Within s) (h' : s.Within t) : r.Within t :=
  fun a ha => h' a (h a ha)

theorem within_of_le (h₁ : s.start ≤ r.start) (h₂ : r.stop ≤ s.stop) :
    r.Within s := fun _ h => ⟨h₁.trans h.1, h.2.trans_le h₂⟩

end Span

end Jinux
