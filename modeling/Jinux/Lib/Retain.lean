import Mathlib.Data.List.Perm.Basic

/-!
# Filtering with a bound

A queue is filtered in place by a closure that has a state of its own, such as a counter that makes
it stop after some number of elements.  What such a filter leaves and what it takes out is said with
the list functions `filter`, `take` and `drop`.

* `Retain.retain` : the filter;
* `Retain.upTo` : the closure that takes out the elements with a property until there are enough;
* `Retain.dropFirst` : a list without the first elements that have a property, with how it commutes
  with other filters;
* `Retain.mapFirst` : a list in which the first elements that have a property are replaced.
-/

namespace Jinux

open List

namespace Retain

universe u v

variable {α : Type u} {σ : Type v} {p r : α → Bool} {f : α → α} {l : List α} {a : α}

/-- Keep the elements for which the closure says so.  It carries its state from one element to the
next. -/
def retain (f : σ → α → Bool × σ) : σ → List α → List α × σ
  | s, [] => ([], s)
  | s, a :: l =>
    let rest := retain f (f s a).2 l
    (if (f s a).1 then a :: rest.1 else rest.1, rest.2)

/-- The closure that lets an element go if it satisfies `p` and fewer than `max` have gone. -/
def upTo (p : α → Bool) (max : ℕ) (act : σ → α → σ) (s : ℕ × σ) (a : α) : Bool × (ℕ × σ) :=
  if max ≤ s.1 || !p a then (true, s) else (false, (s.1 + 1, act s.2 a))

/-- The list without the first `n` elements that satisfy `p`. -/
def dropFirst (p : α → Bool) : ℕ → List α → List α
  | 0, l => l
  | _ + 1, [] => []
  | n + 1, a :: l => if p a then dropFirst p n l else a :: dropFirst p (n + 1) l

/-- The list in which `f` is applied to the first `n` elements that satisfy `p`. -/
def mapFirst (p : α → Bool) (f : α → α) : ℕ → List α → List α
  | 0, l => l
  | _ + 1, [] => []
  | n + 1, a :: l => if p a then f a :: mapFirst p f n l else a :: mapFirst p f (n + 1) l

@[simp] theorem dropFirst_nil (n : ℕ) : dropFirst p n [] = [] := by cases n <;> rfl

@[simp] theorem mapFirst_nil (n : ℕ) : mapFirst p f n [] = [] := by cases n <;> rfl

theorem dropFirst_cons_of_neg (ha : ¬ p a) (n : ℕ) (l : List α) :
    dropFirst p n (a :: l) = a :: dropFirst p n l := by
  cases n with
  | zero => simp [dropFirst]
  | succ n => rw [dropFirst, if_neg ha]

theorem mapFirst_cons_of_neg (ha : ¬ p a) (n : ℕ) (l : List α) :
    mapFirst p f n (a :: l) = a :: mapFirst p f n l := by
  cases n with
  | zero => simp [mapFirst]
  | succ n => rw [mapFirst, if_neg ha]

/-- What a bounded filter leaves, and what its closure has done with the elements it took out. -/
theorem retain_upTo (max : ℕ) (act : σ → α → σ) (l : List α) : ∀ (count : ℕ) (s : σ),
    retain (upTo p max act) (count, s) l =
      (dropFirst p (max - count) l, (count + ((l.filter p).take (max - count)).length,
          ((l.filter p).take (max - count)).foldl act s)) := by
  induction l with
  | nil =>
    simp [retain]
  | cons a l ih =>
    intro count s
    by_cases ha : p a
    · rcases Nat.lt_or_ge count max with hlt | hge
      · -- the element goes, and one fewer may go after it
        obtain ⟨k, hk⟩ : ∃ k, max - count = k + 1 := ⟨max - count - 1, by omega⟩
        have hu : upTo p max act (count, s) a = (false, (count + 1, act s a)) := by
          simp [upTo, ha, Nat.not_le.2 hlt]
        have hk' : max - (count + 1) = k := by omega
        rw [retain, hu, ih, hk, hk', dropFirst, if_pos ha, filter_cons_of_pos ha]
        simp [Nat.add_assoc, Nat.add_comm 1]
      · have hu : upTo p max act (count, s) a = (true, (count, s)) := by simp [upTo, hge]
        rw [retain, hu, ih, Nat.sub_eq_zero_of_le hge]
        simp [dropFirst]
    · have hu : upTo p max act (count, s) a = (true, (count, s)) := by simp [upTo, ha]
      rw [retain, hu, ih, dropFirst_cons_of_neg ha, filter_cons_of_neg ha]
      simp

/-! ### What is left -/

theorem dropFirst_sublist (n : ℕ) (l : List α) : (dropFirst p n l).Sublist l := by
  fun_induction dropFirst p n l with
  | case1 l => exact .refl l
  | case2 n => exact .refl _
  | case3 n a l ha ih => exact ih.cons a
  | case4 n a l ha ih => exact ih.cons_cons a

/-- Nothing is lost: an element is taken out or left. -/
theorem take_append_dropFirst_perm (n : ℕ) (l : List α) :
    ((l.filter p).take n ++ dropFirst p n l).Perm l := by
  fun_induction dropFirst p n l with
  | case1 l | case2 n => simp
  | case3 n a l ha ih =>
    rw [filter_cons_of_pos ha]
    exact ih.cons a
  | case4 n a l ha ih =>
    rw [filter_cons_of_neg ha]
    exact perm_middle.trans (ih.cons a)

/-- A filter that keeps all that may go commutes with it. -/
theorem filter_dropFirst (h : ∀ a, p a → r a) (n : ℕ) (l : List α) :
    (dropFirst p n l).filter r = dropFirst p n (l.filter r) := by
  fun_induction dropFirst p n l with
  | case1 l => rw [dropFirst]
  | case2 n => simp
  | case3 n a l ha ih => rw [filter_cons_of_pos (h a ha), dropFirst, if_pos ha, ih]
  | case4 n a l ha ih =>
    rw [filter_cons, filter_cons, ih]
    split_ifs
    · rw [dropFirst, if_neg ha]
    · rfl

/-- A filter that keeps nothing of what may go does not see it go. -/
theorem filter_dropFirst_of_disjoint (h : ∀ a ∈ l, p a → ¬ r a) (n : ℕ) :
    (dropFirst p n l).filter r = l.filter r := by
  fun_induction dropFirst p n l with
  | case1 l | case2 n => rfl
  | case3 n a l ha ih =>
    obtain ⟨hr, hl⟩ := forall_mem_cons.1 h
    rw [filter_cons_of_neg (hr ha), ih hl]
  | case4 n a l ha ih => rw [filter_cons, filter_cons, ih (forall_mem_cons.1 h).2]

/-- Where all elements have the property the first ones go. -/
theorem dropFirst_of_forall (h : ∀ a ∈ l, p a) (n : ℕ) : dropFirst p n l = l.drop n := by
  fun_induction dropFirst p n l with
  | case1 l | case2 n => rfl
  | case3 n a l ha ih => rw [drop_succ_cons, ih (forall_mem_cons.1 h).2]
  | case4 n a l ha ih => exact absurd (h a mem_cons_self) ha

/-! ### What is replaced -/

theorem mem_mapFirst {n : ℕ} {b : α} (h : b ∈ mapFirst p f n l) :
    b ∈ l ∨ ∃ a ∈ l, p a ∧ b = f a := by
  have hcons : ∀ {a : α} {l : List α}, (b ∈ l ∨ ∃ a ∈ l, p a ∧ b = f a) →
      b ∈ a :: l ∨ ∃ c ∈ a :: l, p c ∧ b = f c := fun h =>
    h.imp (mem_cons_of_mem _) fun ⟨c, hc, hpc⟩ => ⟨c, mem_cons_of_mem _ hc, hpc⟩
  fun_induction mapFirst p f n l with
  | case1 l => exact .inl h
  | case2 n => cases h
  | case3 n a l ha ih =>
    rcases mem_cons.1 h with rfl | h
    · exact .inr ⟨a, mem_cons_self, ha, rfl⟩
    · exact hcons (ih h)
  | case4 n a l ha ih =>
    rcases mem_cons.1 h with rfl | h
    · exact .inl mem_cons_self
    · exact hcons (ih h)

/-- A function that does not see the replacement. -/
theorem map_mapFirst {β : Type v} {g : α → β} (h : ∀ a, g (f a) = g a) (n : ℕ) (l : List α) :
    (mapFirst p f n l).map g = l.map g := by
  fun_induction mapFirst p f n l with
  | case1 l | case2 n => rfl
  | case3 n a l ha ih => rw [map_cons, map_cons, ih, h]
  | case4 n a l ha ih => rw [map_cons, map_cons, ih]

/-- A filter that keeps neither the elements replaced nor what replaces them. -/
theorem filter_mapFirst_of_disjoint (h : ∀ a ∈ l, p a → ¬ r a ∧ ¬ r (f a))
    (n : ℕ) : (mapFirst p f n l).filter r = l.filter r := by
  fun_induction mapFirst p f n l with
  | case1 l | case2 n => rfl
  | case3 n a l ha ih =>
    obtain ⟨hr, hl⟩ := forall_mem_cons.1 h
    rw [filter_cons_of_neg (hr ha).1, filter_cons_of_neg (hr ha).2, ih hl]
  | case4 n a l ha ih => rw [filter_cons, filter_cons, ih (forall_mem_cons.1 h).2]

/-- The first elements with the property lose it. -/
theorem filter_mapFirst_self (h : ∀ a, p a → ¬ p (f a)) (n : ℕ) (l : List α) :
    (mapFirst p f n l).filter p = (l.filter p).drop n := by
  fun_induction mapFirst p f n l with
  | case1 l | case2 n => rfl
  | case3 n a l ha ih =>
    rw [filter_cons_of_neg (h a ha), ih, filter_cons_of_pos ha, drop_succ_cons]
  | case4 n a l ha ih => rw [filter_cons_of_neg ha, filter_cons_of_neg ha, ih]

section Gain

variable (h : ∀ a, p a → ¬ r a ∧ r (f a)) (n : ℕ) (l : List α)
include h

/-- The elements that had a property keep their order. -/
theorem sublist_filter_mapFirst : (l.filter r).Sublist ((mapFirst p f n l).filter r) := by
  fun_induction mapFirst p f n l with
  | case1 l | case2 n => exact .refl _
  | case3 n a l ha ih =>
    rw [filter_cons_of_neg (h a ha).1, filter_cons_of_pos (h a ha).2]
    exact ih.cons _
  | case4 n a l ha ih =>
    rw [filter_cons, filter_cons]
    split_ifs
    · exact ih.cons_cons a
    · exact ih

/-- The elements that get a property keep their order. -/
theorem map_take_sublist_filter_mapFirst :
    (((l.filter p).take n).map f).Sublist ((mapFirst p f n l).filter r) := by
  fun_induction mapFirst p f n l with
  | case1 l | case2 n => simp
  | case3 n a l ha ih =>
    rw [filter_cons_of_pos ha, filter_cons_of_pos (h a ha).2]
    exact ih.cons_cons _
  | case4 n a l ha ih =>
    rw [filter_cons_of_neg ha, filter_cons]
    split_ifs
    · exact ih.cons a
    · exact ih

/-- These two kinds of elements are all that have the property. -/
theorem filter_mapFirst_perm :
    ((mapFirst p f n l).filter r).Perm (l.filter r ++ ((l.filter p).take n).map f) := by
  fun_induction mapFirst p f n l with
  | case1 l | case2 n => simp
  | case3 n a l ha ih =>
    rw [filter_cons_of_neg (h a ha).1, filter_cons_of_pos ha,
      filter_cons_of_pos (h a ha).2]
    exact (ih.cons _).trans perm_middle.symm
  | case4 n a l ha ih =>
    rw [filter_cons_of_neg ha, filter_cons, filter_cons]
    split_ifs
    · exact ih.cons a
    · exact ih

end Gain

end Retain

end Jinux
