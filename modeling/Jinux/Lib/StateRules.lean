import Mathlib.Data.Nat.Notation
import Mathlib.Order.Defs.Unbundled

/-!
# Rules for stateful programs that can fail

`EStateM ε σ α` is a program on states `σ` that returns an `α` or fails with an `ε`; the state
survives a failure.  The rules here take a run apart (`bind_ok`, `bind_error`) and derive what every
run of a program does to the state from what its parts do: `Keeps R x` says that `R` relates the
state before and after any run of `x`, failed or not, and `Ensures R x s Q` says it of the run from
`s`, with `Q` for what a successful run returns.  `Triple P x Q` is about the successful runs alone,
and `Contract P x Q E` also says what holds after a failure.
-/

namespace Jinux

namespace StateRules

variable {ε σ α β : Type}

/-- The state after a run, whatever its outcome. -/
def after (x : EStateM ε σ α) (s : σ) : σ :=
  match x s with
  | .ok _ s' => s'
  | .error _ s' => s'

/-- Every run of `x` relates the state before it to the state after it by `R`. -/
def Keeps (R : σ → σ → Prop) (x : EStateM ε σ α) : Prop := ∀ s, R s (after x s)

variable {x : EStateM ε σ α} {f : α → EStateM ε σ β} {s s' s'' : σ} {R : σ → σ → Prop}

variable {a : α} {e : ε}

theorem after_of_ok (h : x s = .ok a s') : after x s = s' := by simp [after, h]

theorem after_of_error (h : x s = .error e s') : after x s = s' := by simp [after, h]

theorem bind_ok {b : β} :
    (x >>= f) s = .ok b s'' ↔ ∃ a s', x s = .ok a s' ∧ f a s' = .ok b s'' := by
  cases h : x s <;> simp [bind, EStateM.bind, h, and_assoc]

theorem bind_error : (x >>= f) s = .error e s'' ↔
      x s = .error e s'' ∨ ∃ a s', x s = .ok a s' ∧ f a s' = .error e s'' := by
  cases h : x s <;> simp [bind, EStateM.bind, h, and_assoc]

theorem bind_of_ok (h : x s = .ok a s') : (x >>= f) s = f a s' := by
  simp [bind, EStateM.bind, h]

theorem bind_of_error (h : x s = .error e s') : (x >>= f) s = .error e s' := by
  simp [bind, EStateM.bind, h]

theorem pure_run (a : α) (s : σ) : (pure a : EStateM ε σ α) s = .ok a s := rfl

theorem get_bind {f : σ → EStateM ε σ β} : (get >>= f) s = f s s := rfl

theorem modify_run (g : σ → σ) (s : σ) : (modify g : EStateM ε σ PUnit) s = .ok ⟨⟩ (g s) := rfl

theorem modify_bind {g : σ → σ} {f : PUnit → EStateM ε σ β} : (modify g >>= f) s = f ⟨⟩ (g s) := rfl

/-- The value that a run returns. -/
def returned (x : EStateM ε σ α) (s : σ) : Option α :=
  match x s with
  | .ok a _ => some a
  | .error _ _ => none

theorem ok_of_returned (h : returned x s = some a) : ∃ s', x s = .ok a s' := by
  unfold returned at h
  split at h
  · next a' s' hrun =>
    cases h
    exact ⟨s', hrun⟩
  · cases h

/-! ### Composition -/

theorem Keeps.pure (hrefl : ∀ s, R s s) (a : α) : Keeps R (Pure.pure a : EStateM ε σ α) :=
  fun s => hrefl s

theorem Keeps.bind (htrans : ∀ {s s' s''}, R s s' → R s' s'' → R s s'') (hx : Keeps R x)
    (hf : ∀ a, Keeps R (f a)) : Keeps R (x >>= f) := by
  intro s
  have h := hx s
  cases hr : x s with
  | ok a s' =>
    rw [after_of_ok hr] at h
    have h' := hf a s'
    simp only [after, bind_of_ok hr]
    exact htrans h h'
  | error e s' =>
    rw [after_of_error hr] at h
    rw [after_of_error (bind_of_error hr)]
    exact h

/-- A loop over a list keeps what each of its rounds keeps. -/
theorem Keeps.forM {γ : Type} {g : γ → EStateM ε σ PUnit} (hrefl : ∀ s, R s s)
    (htrans : ∀ {s s' s''}, R s s' → R s' s'' → R s s'') (hg : ∀ c, Keeps R (g c)) (l : List γ) :
    Keeps R (l.forM g) := by
  induction l with
  | nil => exact Keeps.pure hrefl _
  | cons c l ih => exact Keeps.bind htrans (hg c) fun _ => ih

/-! ### Postconditions -/

/-- The run of `x` from `s` relates the states by `R`, and what it returns satisfies `Q`. -/
def Ensures (R : σ → σ → Prop) (x : EStateM ε σ α) (s : σ) (Q : α → σ → Prop) : Prop :=
  match x s with
  | .ok a s' => R s s' ∧ Q a s'
  | .error _ s' => R s s'

variable {Q : α → σ → Prop} {Q' : β → σ → Prop}

theorem Ensures.after (h : Ensures R x s Q) : R s (after x s) := by
  unfold Ensures at h
  cases hr : x s with
  | ok a s' =>
    rw [hr] at h
    rw [after_of_ok hr]
    exact h.1
  | error e s' =>
    rw [hr] at h
    rw [after_of_error hr]
    exact h

theorem Ensures.of_ok (h : Ensures R x s Q) (hr : x s = .ok a s') : R s s' ∧ Q a s' := by
  unfold Ensures at h
  rw [hr] at h
  exact h

theorem Ensures.pure (hrefl : R s s) (hQ : Q a s) :
    Ensures R (Pure.pure a : EStateM ε σ α) s Q := ⟨hrefl, hQ⟩

theorem Ensures.bind (htrans : ∀ {s' s''}, R s s' → R s' s'' → R s s'') (hx : Ensures R x s Q)
    (hf : ∀ a s', R s s' → Q a s' → Ensures R (f a) s' Q') : Ensures R (x >>= f) s Q' := by
  unfold Ensures at hx ⊢
  cases hr : x s with
  | error e s' =>
    rw [hr] at hx
    rw [bind_of_error hr]
    exact hx
  | ok a s' =>
    rw [hr] at hx
    rw [bind_of_ok hr]
    have h := hf a s' hx.1 hx.2
    unfold Ensures at h
    cases hr' : f a s' with
    | error e s'' =>
      rw [hr'] at h
      exact htrans hx.1 h
    | ok b s'' =>
      rw [hr'] at h
      exact ⟨htrans hx.1 h.1, h.2⟩

/-! ### Contracts -/

/-- From a state with `P`, a run of `x` ends with `Q` if it succeeds and with `E` if it fails. -/
def Contract (P : σ → Prop) (x : EStateM ε σ α) (Q : α → σ → Prop) (E : ε → σ → Prop) : Prop :=
  ∀ s, P s → match x s with
    | .ok a s' => Q a s'
    | .error e s' => E e s'

variable {P P' : σ → Prop} {M : α → σ → Prop} {E E' : ε → σ → Prop} {φ : Prop} {γ : Type}
  {g : γ → EStateM ε σ PUnit} {l : List γ}

theorem Contract.of_ok (h : Contract P x Q E) (hs : P s) (hr : x s = .ok a s') : Q a s' := by
  have hx := h s hs
  rw [hr] at hx
  exact hx

theorem Contract.of_error (h : Contract P x Q E) (hs : P s) (hr : x s = .error e s') : E e s' := by
  have hx := h s hs
  rw [hr] at hx
  exact hx

theorem Contract.weaken (h : Contract P x M E') (hP : ∀ s, P' s → P s)
    (hQ : ∀ a s, M a s → Q a s) (hE : ∀ e s, E' e s → E e s) : Contract P' x Q E := by
  intro s hs
  cases hr : x s with
  | ok a s' => exact hQ a s' (h.of_ok (hP s hs) hr)
  | error e s' => exact hE e s' (h.of_error (hP s hs) hr)

theorem Contract.pure (h : ∀ s, P s → Q a s) : Contract P (Pure.pure a : EStateM ε σ α) Q E := h

theorem Contract.bind (hx : Contract P x M E) (hf : ∀ a, Contract (M a) (f a) Q' E) :
    Contract P (x >>= f) Q' E := by
  intro s hs
  cases hr : x s with
  | error e s' =>
    rw [bind_of_error hr]
    exact hx.of_error hs hr
  | ok a s' =>
    rw [bind_of_ok hr]
    exact hf a s' (hx.of_ok hs hr)

/-- A program whose result is replaced. -/
theorem Contract.void {Q : σ → Prop} {x : EStateM ε σ PUnit} {b : β}
    (hx : Contract P x (fun _ => Q) E) :
    Contract P (do x; return b : EStateM ε σ β) (fun c s => c = b ∧ Q s) E :=
  Contract.bind hx fun _ => Contract.pure fun _ h => ⟨rfl, h⟩

/-- A part of the precondition that does not mention the state. -/
theorem Contract.intro (h : φ → Contract P x Q E) : Contract (fun s => φ ∧ P s) x Q E :=
  fun s hs => h hs.1 s hs.2

/-- A property of the state that every run keeps, failed or not. -/
theorem Contract.of_after (h : ∀ s, P s → P (after x s)) :
    Contract P x (fun _ => P) (fun _ => P) := by
  intro s hs
  have hx := h s hs
  cases hr : x s with
  | ok a s' =>
    rw [after_of_ok hr] at hx
    exact hx
  | error e s' =>
    rw [after_of_error hr] at hx
    exact hx

/-- What every run keeps is a contract. -/
theorem Keeps.contract (h : Keeps R x) (hR : ∀ s s', P s → R s s' → P s')
    (hE : ∀ e s, P s → E e s) : Contract P x (fun _ => P) E := by
  intro s hs
  have hx := h s
  cases hr : x s with
  | ok a s' =>
    rw [after_of_ok hr] at hx
    exact hR s s' hs hx
  | error e s' =>
    rw [after_of_error hr] at hx
    exact hE e s' (hR s s' hs hx)

/-- A loop over a list keeps what each of its rounds keeps. -/
theorem Contract.forM (hg : ∀ c ∈ l, Contract P (g c) (fun _ => P) E) :
    Contract P (l.forM g) (fun _ => P) E := by
  induction l with
  | nil => exact Contract.pure fun _ h => h
  | cons c l ih =>
    exact Contract.bind (hg c List.mem_cons_self) fun _ =>
      ih fun c hc => hg c (List.mem_cons_of_mem _ hc)

/-! ### Triples -/

/-- From a state with `P`, a run of `x` that succeeds returns a value and a state with `Q`. -/
def Triple (P : σ → Prop) (x : EStateM ε σ α) (Q : α → σ → Prop) : Prop :=
  ∀ s a s', P s → x s = .ok a s' → Q a s'

/-- A triple says nothing about failures. -/
theorem Triple.contract (h : Triple P x Q) : Contract P x Q fun _ _ => True := by
  intro s hs
  cases hr : x s with
  | ok a s' => exact h s a s' hs hr
  | error e s' => trivial

theorem Contract.triple (h : Contract P x Q E) : Triple P x Q :=
  fun _ _ _ hs hr => h.of_ok hs hr

theorem Triple.weaken (h : Triple P x M) (hP : ∀ s, P' s → P s) (hQ : ∀ a s, M a s → Q a s) :
    Triple P' x Q :=
  fun s a s' hs hrun => hQ a s' (h s a s' (hP s hs) hrun)

theorem Triple.pure (h : ∀ s, P s → Q a s) : Triple P (Pure.pure a : EStateM ε σ α) Q :=
  (Contract.pure (E := fun _ _ => True) h).triple

theorem Triple.bind (hx : Triple P x M) (hf : ∀ a, Triple (M a) (f a) Q') : Triple P (x >>= f) Q' :=
  (hx.contract.bind fun a => (hf a).contract).triple

/-- A part of the precondition that does not mention the state. -/
theorem Triple.intro (h : φ → Triple P x Q) : Triple (fun s => φ ∧ P s) x Q :=
  fun s a s' hs hrun => h hs.1 s a s' hs.2 hrun

/-- A loop over a list keeps what each of its rounds keeps. -/
theorem Triple.forM (hg : ∀ c ∈ l, Triple P (g c) fun _ => P) : Triple P (l.forM g) fun _ => P :=
  (Contract.forM fun c hc => (hg c hc).contract).triple

/-- A loop over a range, with an invariant for each number. -/
theorem Triple.forM_range' {g : ℕ → EStateM ε σ PUnit} {I : ℕ → σ → Prop} {m k : ℕ}
    (hg : ∀ j, m ≤ j → j < m + k → Triple (I j) (g j) fun _ => I (j + 1)) :
    Triple (I m) ((List.range' m k).forM g) fun _ => I (m + k) := by
  induction k generalizing m with
  | zero => exact Triple.pure fun _ h => h
  | succ k ih =>
    refine Triple.bind (hg m (Nat.le_refl m) (by omega)) fun _ => ?_
    rw [show m + (k + 1) = m + 1 + k by omega]
    exact ih fun j hle hlt => hg j (by omega) (by omega)

/-! ### Programs that only read -/

/-- No run of `x` changes the state. -/
def ReadOnly (x : EStateM ε σ α) : Prop := Keeps (fun s s' => s' = s) x

theorem ReadOnly.keeps (h : ReadOnly x) (hrefl : ∀ s, R s s) : Keeps R x := by
  intro s
  rw [h s]
  exact hrefl s

theorem ReadOnly.pure (a : α) : ReadOnly (Pure.pure a : EStateM ε σ α) := fun _ => rfl

theorem ReadOnly.bind (hx : ReadOnly x) (hf : ∀ a, ReadOnly (f a)) : ReadOnly (x >>= f) :=
  Keeps.bind (fun h h' => h'.trans h) hx hf

/-- A read whose result is of use. -/
theorem ReadOnly.contract_ok (h : ReadOnly x) (hE : ∀ e s, P s → E e s)
    (hM : ∀ s a, P s → x s = .ok a s → M a s) : Contract P x M E := by
  intro s hs
  have hsame := h s
  cases hr : x s with
  | ok a s' =>
    rw [after_of_ok hr] at hsame
    subst hsame
    exact hM s' a hs hr
  | error e s' =>
    rw [after_of_error hr] at hsame
    subst hsame
    exact hE e s' hs

theorem ReadOnly.contract (h : ReadOnly x) (hE : ∀ e s, P s → E e s) :
    Contract P x (fun _ => P) E :=
  h.contract_ok hE fun _ _ hs _ => hs

theorem ReadOnly.triple (h : ReadOnly x) : Triple P x fun _ => P :=
  (h.contract fun _ _ _ => trivial).triple

end StateRules

end Jinux
