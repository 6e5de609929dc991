import Mathlib.Data.List.Basic
import Jinux.Kernel.Result

/-!
# Computations that do not underflow

`NoUnderflow x` says that `x` does not panic on a subtraction; it may fail otherwise.  There is one
rule for each way to build a computation, so a proof follows the text of the function and ends at
its subtractions.
-/

namespace Jinux

/-- The computation does not subtract below zero. -/
def NoUnderflow {α : Type*} (x : Result α) : Prop := x ≠ .error (.panic .subOverflow)

namespace NoUnderflow

universe u

variable {α β : Type u} {x : Result α} {as : List α}

theorem ok (a : α) : NoUnderflow (.ok a) := by simp [NoUnderflow]

theorem pure (a : α) : NoUnderflow (Pure.pure a : Result α) := ok a

theorem bind {f : α → Result β} (hx : NoUnderflow x) (hf : ∀ a, x = .ok a → NoUnderflow (f a)) :
    NoUnderflow (x >>= f) := by
  cases x with
  | ok a => exact hf a rfl
  | error e =>
    intro h
    cases h
    exact hx rfl

theorem ite {c : Prop} [Decidable c] {y : Result α} (hx : c → NoUnderflow x)
    (hy : ¬ c → NoUnderflow y) : NoUnderflow (if c then x else y) := by
  split_ifs with h
  · exact hx h
  · exact hy h

theorem assert (c : Prop) [Decidable c] : NoUnderflow (Jinux.assert c) := by
  unfold Jinux.assert
  split_ifs <;> simp [NoUnderflow]

theorem debugAssert (c : Prop) [Decidable c] : NoUnderflow (Jinux.debugAssert c) := by
  unfold Jinux.debugAssert
  split_ifs <;> simp [NoUnderflow]

theorem unwrap (o : Option α) : NoUnderflow (Jinux.unwrap o) := by
  cases o <;> simp [NoUnderflow, Jinux.unwrap]

theorem returnErrno (errno : Errno) : NoUnderflow (Jinux.returnErrno errno : Result α) := by
  simp [NoUnderflow, Jinux.returnErrno]

theorem returnErrnoWithMessage (errno : Errno) (msg : String) :
    NoUnderflow (Jinux.returnErrnoWithMessage errno msg : Result α) := by
  simp [NoUnderflow, Jinux.returnErrnoWithMessage]

theorem addUsize (a b : ℕ) : NoUnderflow (Jinux.addUsize a b) := by
  unfold Jinux.addUsize
  split_ifs <;> simp [NoUnderflow]

/-- The one rule with a condition. -/
theorem subUsize {a b : ℕ} (h : b ≤ a) : NoUnderflow (Jinux.subUsize a b) := by
  rw [Jinux.subUsize, if_pos h]
  exact ok _

theorem ignoreErr {s : α} (h : NoUnderflow x) : NoUnderflow (Jinux.ignoreErr s x) := by
  unfold Jinux.ignoreErr
  split
  · exact ok _
  · exact h

/-- A loop whose rounds keep an invariant. -/
theorem foldlM {f : β → α → Result β} {I : β → Prop}
    (hf : ∀ b, ∀ a ∈ as, I b → NoUnderflow (f b a) ∧ ∀ b', f b a = .ok b' → I b') :
    ∀ {b : β}, I b → NoUnderflow (as.foldlM f b) := by
  induction as with
  | nil => exact fun _ => ok _
  | cons a as ih =>
    intro b hb
    obtain ⟨hround, hnext⟩ := hf b a List.mem_cons_self hb
    exact bind hround fun b' hb' =>
      ih (fun b a ha => hf b a (List.mem_cons_of_mem _ ha)) (hnext b' hb')

theorem forM {f : α → Result PUnit} (hf : ∀ a ∈ as, NoUnderflow (f a)) :
    NoUnderflow (as.forM f) := by
  induction as with
  | nil => exact ok _
  | cons a as ih =>
    exact bind (hf a List.mem_cons_self) fun _ _ => ih fun a ha => hf a (List.mem_cons_of_mem _ ha)

theorem alignUp (x align : ℕ) : NoUnderflow (Jinux.alignUp x align) :=
  bind (assert _) fun _ _ => bind (unwrap _) fun _ _ => pure _

theorem getPageIdxRange (r : Range) : NoUnderflow (Jinux.getPageIdxRange r) :=
  bind (alignUp _ _) fun _ _ => pure _

end NoUnderflow

end Jinux
