import Mathlib.Data.List.Iterate
import Mathlib.Data.List.Nodup
import Mathlib.Data.List.Pairwise

/-!
# Lists that are threaded through a table

A table that gives each index the index of the next one holds lists: `List.iterate next a n` are the
first `n` indices from `a` on.  The lemmas say which entries such a list depends on, and how two
lists are joined by one entry.
-/

namespace Jinux

open List

namespace Links

universe u

variable {α : Type u} {f g : α → α} {a b : α} {n : ℕ}

/-- A list depends on the entries of all its indices but the last. -/
theorem iterate_congr : ∀ {n : ℕ} {a : α}, (∀ b ∈ (iterate f a n).dropLast, g b = f b) →
    iterate g a n = iterate f a n := by
  intro n
  induction n with
  | zero => exact fun _ => rfl
  | succ n ih =>
    intro a h
    cases n with
    | zero => rfl
    | succ n =>
      have ha : g a = f a := h a mem_cons_self
      have hrest : iterate g (f a) (n + 1) = iterate f (f a) (n + 1) :=
        ih fun b hb => h b (mem_cons_of_mem a hb)
      rw [iterate, ha, hrest]
      rfl

/-- What comes after a list is the entry of its last index. -/
theorem iterate_getLast (f : α → α) (a : α) (n : ℕ) :
    (iterate f a (n + 1)).getLast? = some (f^[n] a) := by
  rw [getLast?_eq_getElem?, length_iterate]
  exact getElem?_iterate f a (n + 1) n (Nat.lt_succ_self n)

/-- A list whose last entry leads to `b` goes on with the list from `b`. -/
theorem iterate_append {l : ℕ} (hlast : f (f^[n] a) = b) :
    iterate f a (n + 1 + l) = iterate f a (n + 1) ++ iterate f b l := by
  rw [iterate_add, Function.iterate_succ_apply', hlast]

/-- Lists without a common index: the last index of one of them is not in the front of any. -/
theorem getLast_notMem_dropLast {ls : List (List α)} (h : ls.flatten.Nodup) {x y : List α}
    (hx : x ∈ ls) (hy : y ∈ ls) {p : α} (hp : x.getLast? = some p) : p ∉ y.dropLast := by
  intro hmem
  obtain ⟨hnodup, hdisj⟩ := nodup_flatten.1 h
  by_cases hxy : x = y
  · subst hxy
    obtain ⟨l, rfl⟩ := getLast?_eq_some_iff.1 hp
    rw [dropLast_concat] at hmem
    exact (nodup_append.1 (hnodup _ hx)).2.2 p hmem p mem_cons_self rfl
  · have hsymm : Std.Symm (Disjoint (α := α)) := ⟨fun _ _ hd _ hy hx => hd hx hy⟩
    exact hdisj.forall hx hy hxy (mem_of_getLast? hp) (dropLast_subset y hmem)

end Links

end Jinux
