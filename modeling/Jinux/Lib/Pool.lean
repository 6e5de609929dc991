import Mathlib.Data.Set.Lattice
import Mathlib.Order.CompletePartialOrder

/-!
# Pools of resources

A pool hands out resources: each one is free, belongs to an owner, or is lost.  A pool is *sound* if
no resource is both free and owned and none has two owners; what is free or owned is its `total`.

* `Pool.reserve` takes free resources out of the pool;
* `Pool.assign` gives an owner what was taken out;
* `Pool.give` returns what an owner has;
* `Pool.forget` is the end of an owner who returns nothing.

All four keep a pool sound, and for each there is a law about `total`.
-/

namespace Jinux

open Set

universe u v

/-- Resources `φ`, of which some are free and some belong to owners `ι`. -/
@[ext]
structure Pool (φ : Type u) (ι : Type v) where
  free : Set φ
  owns : ι → Set φ

namespace Pool

variable {φ : Type u} {ι : Type v} {p : Pool φ ι} {b : Set φ} {i : ι}

/-- What is not lost. -/
def total (p : Pool φ ι) : Set φ := p.free ∪ ⋃ i, p.owns i

/-- Nothing is both free and owned, and nothing has two owners. -/
structure Sound (p : Pool φ ι) : Prop where
  owned : ∀ i, Disjoint (p.owns i) p.free
  unique : ∀ i j, i ≠ j → Disjoint (p.owns i) (p.owns j)

/-- `b` is taken out. -/
def reserve (p : Pool φ ι) (b : Set φ) : Pool φ ι := ⟨p.free \ b, p.owns⟩

theorem mem_total {x : φ} : x ∈ p.total ↔ x ∈ p.free ∨ ∃ i, x ∈ p.owns i := by
  rw [total, mem_union, mem_iUnion]

theorem Sound.reserve (h : p.Sound) (b : Set φ) : (p.reserve b).Sound :=
  ⟨fun i => (h.owned i).mono_right sdiff_subset, h.unique⟩

theorem total_reserve (h : p.Sound) (hb : b ⊆ p.free) : (p.reserve b).total = p.total \ b := by
  ext x
  simp only [mem_total, mem_sdiff]
  constructor
  · rintro (⟨hx, hxb⟩ | ⟨i, hx⟩)
    · exact ⟨.inl hx, hxb⟩
    · exact ⟨.inr ⟨i, hx⟩, fun hxb => disjoint_left.1 (h.owned i) hx (hb hxb)⟩
  · rintro ⟨hx | hx, hxb⟩
    · exact .inl ⟨hx, hxb⟩
    · exact .inr hx

variable [DecidableEq ι] {x : φ} {j : ι}

/-- Owner `i` gets `b`. -/
def assign (p : Pool φ ι) (i : ι) (b : Set φ) : Pool φ ι :=
  ⟨p.free, Function.update p.owns i (p.owns i ∪ b)⟩

/-- Owner `i` returns what it has. -/
def give (p : Pool φ ι) (i : ι) : Pool φ ι := ⟨p.free ∪ p.owns i, Function.update p.owns i ∅⟩

/-- Owner `i` is gone. -/
def forget (p : Pool φ ι) (i : ι) : Pool φ ι := ⟨p.free, Function.update p.owns i ∅⟩

theorem mem_assign : x ∈ (p.assign i b).owns j ↔ x ∈ p.owns j ∨ j = i ∧ x ∈ b := by
  rw [assign]
  by_cases hj : j = i
  · subst hj
    simp
  · simp [hj]

theorem total_assign : (p.assign i b).total = p.total ∪ b := by
  ext x
  simp only [mem_union, mem_total, mem_assign]
  constructor
  · rintro (hx | ⟨j, hx | ⟨-, hx⟩⟩)
    · exact .inl (.inl hx)
    · exact .inl (.inr ⟨j, hx⟩)
    · exact .inr hx
  · rintro ((hx | ⟨j, hx⟩) | hx)
    · exact .inl hx
    · exact .inr ⟨j, .inl hx⟩
    · exact .inr ⟨i, .inr ⟨rfl, hx⟩⟩

theorem Sound.assign (h : p.Sound) (i : ι) (hb : Disjoint b p.total) : (p.assign i b).Sound := by
  have hnew : ∀ x ∈ b, x ∉ p.free ∧ ∀ j, x ∉ p.owns j := by
    intro x hx
    have hno := disjoint_left.1 hb hx
    exact ⟨fun hf => hno (mem_total.2 (.inl hf)), fun j hj => hno (mem_total.2 (.inr ⟨j, hj⟩))⟩
  refine ⟨fun j => disjoint_left.2 fun x hx hfree => ?_,
    fun j k hjk => disjoint_left.2 fun x hj hk => ?_⟩
  · rcases mem_assign.1 hx with hx | ⟨-, hx⟩
    · exact disjoint_left.1 (h.owned j) hx hfree
    · exact (hnew x hx).1 hfree
  · rcases mem_assign.1 hj with hj | ⟨hji, hj⟩ <;> rcases mem_assign.1 hk with hk | ⟨hki, hk⟩
    · exact disjoint_left.1 (h.unique j k hjk) hj hk
    · exact (hnew x hk).2 j hj
    · exact (hnew x hj).2 k hk
    · exact hjk (hji.trans hki.symm)

theorem mem_forget : x ∈ (p.forget i).owns j ↔ x ∈ p.owns j ∧ j ≠ i := by
  rw [forget]
  by_cases hj : j = i
  · subst hj
    simp
  · simp [hj]

theorem Sound.forget (h : p.Sound) (i : ι) : (p.forget i).Sound where
  owned j := (h.owned j).mono_left fun _ hx => (mem_forget.1 hx).1
  unique j k hjk := (h.unique j k hjk).mono (fun _ hx => (mem_forget.1 hx).1)
    fun _ hx => (mem_forget.1 hx).1

theorem Sound.give (h : p.Sound) (i : ι) : (p.give i).Sound := by
  refine ⟨fun j => disjoint_left.2 fun x hx hfree => ?_, (h.forget i).unique⟩
  obtain ⟨hx, hj⟩ := mem_forget.1 hx
  rcases hfree with hfree | hi
  · exact disjoint_left.1 (h.owned j) hx hfree
  · exact disjoint_left.1 (h.unique j i hj) hx hi

theorem total_give : (p.give i).total = p.total := by
  ext x
  change (x ∈ p.free ∪ p.owns i ∨ x ∈ ⋃ j, (p.forget i).owns j) ↔ _
  simp only [mem_iUnion, mem_forget, mem_total]
  constructor
  · rintro ((hx | hx) | ⟨j, hx, -⟩)
    · exact .inl hx
    · exact .inr ⟨i, hx⟩
    · exact .inr ⟨j, hx⟩
  · rintro (hx | ⟨j, hx⟩)
    · exact .inl (.inl hx)
    · by_cases hj : j = i
      · exact .inl (.inr (hj ▸ hx))
      · exact .inr ⟨j, hx, hj⟩

end Pool

end Jinux
