import Mathlib.Data.Nat.Notation
import Mathlib.Logic.Function.Basic

/-!
# Objects behind handles

Several owners `π` have handles to objects; two owners with the same handle share the object.  What
one owner does to its object is seen by another one only if they share it, and an owner that is
always given a new object shares it with nobody (`Shared.Apart`).
-/

namespace Jinux

open Function

universe u v

/-- The handle of each owner, and the objects behind the handles. -/
structure Shared (π : Type u) (α : Type v) where
  handle : π → ℕ
  object : ℕ → α
  /-- No handle from here on is in use. -/
  next : ℕ

namespace Shared

variable {π : Type u} {α : Type v} {s : Shared π α} {live live' : π → Prop} {p q : π}

/-- The object of an owner. -/
def get (s : Shared π α) (p : π) : α := s.object (s.handle p)

/-- An owner changes its object. -/
def set (s : Shared π α) (p : π) (a : α) : Shared π α :=
  { s with object := update s.object (s.handle p) a }

/-- No two owners that are `live` share an object. -/
structure Apart (s : Shared π α) (live : π → Prop) : Prop where
  used : ∀ p, live p → s.handle p < s.next
  inj : ∀ p q, live p → live q → s.handle p = s.handle q → p = q

theorem Apart.mono (h : s.Apart live) (hlive : ∀ p, live' p → live p) : s.Apart live' :=
  ⟨fun p hp => h.used p (hlive p hp), fun p q hp hq => h.inj p q (hlive p hp) (hlive q hq)⟩

theorem Apart.set (h : s.Apart live) (p : π) (a : α) : (s.set p a).Apart live := ⟨h.used, h.inj⟩

/-- A change to the object of one owner is not seen by another one. -/
theorem Apart.get_set_of_ne (h : s.Apart live) (hp : live p) (hq : live q) (hne : q ≠ p) (a : α) :
    (s.set p a).get q = s.get q :=
  update_of_ne (fun heq => hne (h.inj q p hq hp heq)) ..

variable [DecidableEq π]

/-- `q` gets the handle of `p`. -/
def share (s : Shared π α) (p q : π) : Shared π α :=
  { s with handle := update s.handle q (s.handle p) }

/-- `q` gets a new object. -/
def give (s : Shared π α) (q : π) (a : α) : Shared π α :=
  ⟨update s.handle q s.next, update s.object s.next a, s.next + 1⟩

theorem Apart.give (h : s.Apart live) (q : π) (a : α) :
    (s.give q a).Apart fun p => p = q ∨ live p := by
  have hold : ∀ p, p ≠ q → (s.give q a).handle p = s.handle p :=
    fun p hp => update_of_ne hp ..
  have hnew : (s.give q a).handle q = s.next := update_self ..
  refine ⟨fun p hp => ?_, fun p p' hp hp' heq => ?_⟩
  · change (s.give q a).handle p < s.next + 1
    rcases eq_or_ne p q with rfl | hne
    · rw [hnew]
      exact Nat.lt_succ_self _
    · rw [hold p hne]
      exact Nat.lt_succ_of_lt (h.used p (hp.resolve_left hne))
  · rcases eq_or_ne p q with rfl | hne <;> rcases eq_or_ne p' p with rfl | hne'
    · rfl
    · rw [hnew, hold p' hne'] at heq
      exact absurd heq.symm (Nat.ne_of_lt (h.used p' (hp'.resolve_left hne')))
    · rfl
    · rw [hold p hne] at heq
      rcases eq_or_ne p' q with rfl | hq
      · rw [hnew] at heq
        exact absurd heq (Nat.ne_of_lt (h.used p (hp.resolve_left hne)))
      · rw [hold p' hq] at heq
        exact h.inj p p' (hp.resolve_left hne) (hp'.resolve_left hq) heq

end Shared

end Jinux
