import Mathlib.Logic.Relation
import Mathlib.Tactic.SplitIfs

/-!
# Labelled transition systems

A program that takes one operation after another is a labelled transition system: the states, the
operations with their arguments as labels, and the steps.  `Lts.Reachable` is what any run can
reach, `Lts.restrict` keeps the steps whose label meets a condition in the state before the step,
and `Lts.Reachable.invariant` is the induction every safety proof over runs goes through.
-/

namespace Jinux

universe u v

/-- A transition system with states `σ` and labels `ℓ`. -/
structure Lts (σ : Type u) (ℓ : Type v) where
  /-- `step s l s'`: performing `l` in `s` can lead to `s'`. -/
  step : σ → ℓ → σ → Prop

namespace Lts

variable {σ : Type u} {ℓ : Type v} {f : σ → ℓ → Option σ}

/-- Some step leads from `s` to `s'`. -/
def Moves (A : Lts σ ℓ) (s s' : σ) : Prop := ∃ l, A.step s l s'

/-- Some run leads from `s₀` to `s`. -/
def Reachable (A : Lts σ ℓ) (s₀ s : σ) : Prop := Relation.ReflTransGen A.Moves s₀ s

/-- The steps whose label meets `ok` in the state before the step. -/
def restrict (A : Lts σ ℓ) (ok : σ → ℓ → Prop) : Lts σ ℓ where
  step s l s' := ok s l ∧ A.step s l s'

/-- The system of a partial step function. -/
def ofFun (f : σ → ℓ → Option σ) : Lts σ ℓ where
  step s l s' := f s l = some s'

variable {A : Lts σ ℓ}

theorem Reachable.refl (s : σ) : A.Reachable s s := Relation.ReflTransGen.refl

variable {s₀ s : σ} {ok : σ → ℓ → Prop} {s' : σ} {ls : List ℓ}

theorem Reachable.step {l : ℓ} (h : A.Reachable s₀ s) (hs : A.step s l s') :
    A.Reachable s₀ s' := Relation.ReflTransGen.tail h ⟨l, hs⟩

/-- A predicate that holds at the start and is kept by every step holds in every reachable
state. -/
theorem Reachable.invariant {P : σ → Prop} (h : A.Reachable s₀ s) (h₀ : P s₀)
    (hstep : ∀ s l s', P s → A.step s l s' → P s') : P s := by
  induction h with
  | refl => exact h₀
  | tail _ hm ih =>
    obtain ⟨l, hl⟩ := hm
    exact hstep _ l _ ih hl

theorem Reachable.of_restrict (h : (A.restrict ok).Reachable s₀ s) : A.Reachable s₀ s :=
  h.invariant (Reachable.refl s₀) fun _ _ _ hr hs => hr.step hs.2

/-- Take the steps of a list of labels one after the other. -/
def run (f : σ → ℓ → Option σ) (s : σ) (ls : List ℓ) : Option σ := ls.foldlM f s

/-- A run whose labels meet a condition in every state. -/
theorem reachable_run_restrict (hok : ∀ s, ∀ l ∈ ls, ok s l) (h : run f s ls = some s') :
    ((ofFun f).restrict ok).Reachable s s' := by
  induction ls generalizing s s' with
  | nil =>
    cases h
    exact .refl s
  | cons l ls ih =>
    rw [run, List.foldlM_cons, Option.bind_eq_bind, Option.bind_eq_some_iff] at h
    obtain ⟨s1, h1, h⟩ := h
    exact Relation.ReflTransGen.head ⟨l, hok s l List.mem_cons_self, h1⟩
      (ih (fun s l hl => hok s l (List.mem_cons_of_mem _ hl)) h)

/-- What a list of labels leads to is reachable. -/
theorem reachable_run (h : run f s ls = some s') : (ofFun f).Reachable s s' :=
  Reachable.of_restrict (reachable_run_restrict (fun _ _ _ => trivial) h)

/-- The steps of `f` whose label meets `ok`. -/
def guard (ok : σ → ℓ → Prop) [∀ s l, Decidable (ok s l)] (f : σ → ℓ → Option σ) (s : σ) (l : ℓ) :
    Option σ :=
  if ok s l then f s l else none

theorem reachable_guard [∀ s l, Decidable (ok s l)]
    (h : (ofFun (guard ok f)).Reachable s s') : ((ofFun f).restrict ok).Reachable s s' := by
  refine h.invariant (.refl s) fun s1 l s2 hr hs => ?_
  simp only [ofFun, guard] at hs
  split_ifs at hs with hok
  exact hr.step ⟨hok, hs⟩

section Evaluation

variable (f : σ → ℓ → Option σ) (s : σ) (ls : List ℓ) (p : σ → Prop) [DecidablePred p]

/-- A run that is carried out, and what is then decided. -/
theorem exists_run (h : (run f s ls).any (fun s => p s) = true) :
    ∃ s', (ofFun f).Reachable s s' ∧ p s' := by
  obtain ⟨s', hs, hp⟩ := (Option.any_eq_true _ _).1 h
  exact ⟨s', reachable_run hs, of_decide_eq_true hp⟩

/-- A run whose labels meet a condition, and what is then decided. -/
theorem exists_run_restrict (ok : σ → ℓ → Prop) [∀ s l, Decidable (ok s l)]
    (h : (run (guard ok f) s ls).any (fun s => p s) = true) :
    ∃ s', ((ofFun f).restrict ok).Reachable s s' ∧ p s' := by
  obtain ⟨s', hr, hp⟩ := exists_run _ s ls p h
  exact ⟨s', reachable_guard hr, hp⟩

/-- A run and one more step, and what is then decided. -/
theorem exists_run_step (l : ℓ) (q : σ → σ → Prop) [∀ s s', Decidable (q s s')]
    (h : (run f s ls).any (fun s => (f s l).any fun s' => q s s') = true) :
    ∃ s₁ s₂, (ofFun f).Reachable s s₁ ∧ f s₁ l = some s₂ ∧ q s₁ s₂ := by
  obtain ⟨s₁, hs, h⟩ := (Option.any_eq_true _ _).1 h
  obtain ⟨s₂, hs', hq⟩ := (Option.any_eq_true _ _).1 h
  exact ⟨s₁, s₂, reachable_run hs, hs', of_decide_eq_true hq⟩

end Evaluation

/-- A condition that every step meets restricts nothing. -/
theorem Reachable.restrict (h : A.Reachable s₀ s) (hok : ∀ s l, ok s l) :
    (A.restrict ok).Reachable s₀ s :=
  h.invariant (Reachable.refl s₀) fun s l _ hr hs => hr.step ⟨hok s l, hs⟩

end Lts

end Jinux
