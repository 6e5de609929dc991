import Mathlib.Algebra.BigOperators.Group.List.Basic

/-!
# Tables

Objects that are never forgotten are kept in a list, and an object is named by its index: a new one
comes to the end, and one that changes is replaced where it is.  A partial map leads from keys to
objects.  The lemmas say what stands in the table or in the map afterwards.
-/

namespace Jinux

open List Function

namespace Table

universe u

variable {α : Type u} {l : List α} {a b c : α} {i j : ℕ} {κ : Type*} {m : κ → Option α}

/-- A table with one more object. -/
theorem getElem?_concat (l : List α) (a : α) (i : ℕ) :
    (l ++ [a])[i]? = if i = l.length then some a else l[i]? := by
  rcases Nat.lt_trichotomy i l.length with h | h | h
  · rw [getElem?_append_left h, if_neg (Nat.ne_of_lt h)]
  · rw [if_pos h, h, getElem?_concat_length]
  · rw [if_neg (Nat.ne_of_gt h), getElem?_eq_none (Nat.le_of_lt h), getElem?_eq_none]
    rw [length_append]
    exact h

theorem getElem?_concat_eq_some :
    (l ++ [a])[i]? = some b ↔ l[i]? = some b ∨ i = l.length ∧ a = b := by
  rw [getElem?_concat]
  split_ifs with h
  · rw [h, getElem?_eq_none (Nat.le_refl _), Option.some.injEq]
    exact ⟨fun hab => .inr ⟨rfl, hab⟩, fun hor => hor.elim nofun And.right⟩
  · exact ⟨.inl, fun hor => hor.resolve_right fun hi => h hi.1⟩

theorem getD_concat (l : List α) (a d : α) (i : ℕ) :
    (l ++ [a]).getD i d = if i = l.length then a else l.getD i d := by
  simp only [List.getD, getElem?_concat]
  split_ifs <;> rfl

/-- A table in which one object is replaced. -/
theorem getElem?_set_eq_some (h : l[i]? = some a) :
    (l.set i b)[j]? = some c ↔ j = i ∧ c = b ∨ j ≠ i ∧ l[j]? = some c := by
  rcases eq_or_ne j i with rfl | hne
  · rw [List.getElem?_set_self (List.getElem?_eq_some_iff.1 h).1, Option.some.injEq]
    exact ⟨fun hbc => .inl ⟨rfl, hbc.symm⟩,
      fun hor => (hor.resolve_right fun hne => hne.1 rfl).2.symm⟩
  · rw [getElem?_set_ne hne.symm]
    exact ⟨fun hc => .inr ⟨hne, hc⟩, fun hor => (hor.resolve_left fun hi => hne hi.1).2⟩

/-- A map in which a key leads to an object. -/
theorem update_some_eq_some [DecidableEq κ] {k k' : κ} :
    update m k (some a) k' = some b ↔ k' = k ∧ b = a ∨ k' ≠ k ∧ m k' = some b := by
  rcases eq_or_ne k' k with rfl | hne
  · rw [update_self, Option.some.injEq]
    exact ⟨fun hab => .inl ⟨rfl, hab.symm⟩,
      fun hor => (hor.resolve_right fun hne => hne.1 rfl).2.symm⟩
  · rw [update_of_ne hne]
    exact ⟨fun hb => .inr ⟨hne, hb⟩, fun hor => (hor.resolve_left fun hk => hne hk.1).2⟩

/-- A map in which a key leads to nothing. -/
theorem update_none_eq_some [DecidableEq κ] {k k' : κ} :
    update m k none k' = some b ↔ k' ≠ k ∧ m k' = some b := by
  rcases eq_or_ne k' k with rfl | hne
  · rw [update_self]
    exact ⟨nofun, fun hand => absurd rfl hand.1⟩
  · rw [update_of_ne hne]
    exact ⟨fun hb => ⟨hne, hb⟩, And.right⟩

/-- A sum over a table in which one object is replaced. -/
theorem sum_map_set {M : Type*} [AddCommMonoid M] (f : α → M) :
    ∀ {l : List α} {i : ℕ}, l[i]? = some a →
      ((l.set i b).map f).sum + f a = (l.map f).sum + f b := by
  intro l
  induction l with
  | nil => exact nofun
  | cons c l ih =>
    intro i h
    cases i with
    | zero =>
      cases h
      simp only [set_cons_zero, map_cons, sum_cons]
      rw [add_right_comm, add_comm (f b), add_right_comm]
    | succ i =>
      simp only [set_cons_succ, map_cons, sum_cons, add_assoc]
      rw [ih h]

end Table

end Jinux
