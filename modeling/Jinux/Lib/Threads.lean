import Mathlib.Algebra.Order.BigOperators.Group.Finset
import Mathlib.Data.Fintype.BigOperators

/-!
# Counting over threads

An invariant of a program of several threads often says that shared memory holds the sum of what the
threads have put there.  `total f c` is that sum for the local states `c`; a step of one thread
changes it by what the step changes in that thread (`total_update`).
-/

namespace Jinux

open Finset Function

universe u v

variable {ι : Type u} {L : Type v} [Fintype ι] {c : ι → L}

/-- The sum over all threads of what `f` counts in the local state of each. -/
def total (f : L → ℕ) (c : ι → L) : ℕ := ∑ i, f (c i)

theorem le_total (f : L → ℕ) (c : ι → L) (i : ι) : f (c i) ≤ total f c :=
  single_le_sum (f := fun i => f (c i)) (fun _ _ => Nat.zero_le _) (mem_univ i)

theorem total_le_total {f g : L → ℕ} (h : ∀ i, f (c i) ≤ g (c i)) :
    total f c ≤ total g c := sum_le_sum fun i _ => h i

theorem total_eq_zero {f : L → ℕ} : total f c = 0 ↔ ∀ i, f (c i) = 0 := by
  simp [total]

theorem total_add (f g : L → ℕ) (c : ι → L) :
    total (fun l => f l + g l) c = total f c + total g c := sum_add_distrib

variable [DecidableEq ι]

/-- A step of thread `i` changes the sum by what it changes in `i`. -/
theorem total_update (f : L → ℕ) (c : ι → L) (i : ι) (l : L) :
    total f (update c i l) + f (c i) = total f c + f l := by
  have hsame : ∑ j ∈ univ.erase i, f (update c i l j) =
      ∑ j ∈ univ.erase i, f (c j) := by
    refine sum_congr rfl fun j hj => ?_
    rw [update_of_ne (ne_of_mem_erase hj)]
  unfold total
  rw [← sum_erase_add _ _ (mem_univ i), update_self,
    ← sum_erase_add univ (fun j => f (c j)) (mem_univ i)]
  omega

/-- Two threads together count no more than all of them. -/
theorem add_le_total (f : L → ℕ) (c : ι → L) {i j : ι} (h : i ≠ j) :
    f (c i) + f (c j) ≤ total f c := by
  have hj := single_le_sum (f := fun k => f (c k)) (fun _ _ => Nat.zero_le _)
    (mem_erase.2 ⟨h.symm, mem_univ j⟩)
  have hsplit := sum_erase_add univ (fun k => f (c k)) (mem_univ i)
  unfold total
  omega

omit [DecidableEq ι] in
/-- What each thread counts at most once is counted at most as often as there are other threads, if
thread `i` does not count. -/
theorem total_lt_card {f : L → ℕ} {i : ι} (hle : ∀ l, f l ≤ 1) (hi : f (c i) = 0) :
    total f c < Fintype.card ι := by
  have hlt : ∑ j, f (c j) < ∑ _j : ι, 1 :=
    sum_lt_sum (fun j _ => hle (c j)) ⟨i, mem_univ i, by rw [hi]; exact Nat.one_pos⟩
  simpa [total] using hlt

end Jinux
