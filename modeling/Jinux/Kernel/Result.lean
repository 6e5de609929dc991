import Mathlib.Algebra.Group.Nat.Defs
import Jinux.Lib.Span

/-!
# Results, errors and machine arithmetic

A kernel function returns a value, returns an `Error` (an error number with an optional message),
or panics.  `Fault` is the second and third outcome, so a fallible function has type `Result α`.

The model follows the default build (the `dev` profile, `RELEASE_MODE ?= 0` in the Makefile):
overflow checks and debug assertions are on, so an arithmetic overflow and a failed
`debug_assert!` are panics.  `usize` is 64 bits wide.  A sum that an earlier check already keeps
below `2 ^ 64` is written with plain `+`; every other one goes through `addUsize` and `subUsize`.
-/

namespace Jinux

/-- Error numbers. -/
inductive Errno where
  | eperm
  | enoent
  | esrch
  | eintr
  | echild
  | ebadf
  | eagain
  | enomem
  | eacces
  | efault
  | eexist
  | enotdir
  | eisdir
  | einval
  | enotty
  | enospc
  | epipe
  | enametoolong
  | enotempty
  | enobufs
  | enotconn
  | euclean
  deriving DecidableEq, Repr

/-- An error: its number and an optional message. -/
structure Error where
  errno : Errno
  msg : Option String := none
  deriving DecidableEq, Repr

/-- Why the kernel panicked. -/
inductive Panic where
  | addOverflow
  | subOverflow
  | mulOverflow
  | shlOverflow
  /-- A failed `assert!`. -/
  | assertion
  /-- A failed `debug_assert!`. -/
  | debugAssertion
  /-- An `unwrap` of `None` or `Err`, or an explicit `panic!`. -/
  | unwrap
  | outOfBounds
  | divideByZero
  /-- "not yet implemented": a `todo!()`. -/
  | notImplemented
  deriving DecidableEq, Repr

/-- A call that does not return a value: it returns an error or panics. -/
inductive Fault where
  | err (e : Error)
  | panic (p : Panic)
  deriving DecidableEq, Repr

/-- The outcome of a fallible function. -/
abbrev Result (α : Type*) := Except Fault α

/-- `return_errno_with_message!` -/
def returnErrnoWithMessage {α : Type*} (errno : Errno) (msg : String) : Result α :=
  .error (.err ⟨errno, some msg⟩)

/-- `return_errno!` -/
def returnErrno {α : Type*} (errno : Errno) : Result α := .error (.err ⟨errno, none⟩)

/-- `assert!` -/
def assert (c : Prop) [Decidable c] : Result Unit :=
  if c then .ok () else .error (.panic .assertion)

/-- `debug_assert!` -/
def debugAssert (c : Prop) [Decidable c] : Result Unit :=
  if c then .ok () else .error (.panic .debugAssertion)

/-- `Option::unwrap` -/
def unwrap {α : Type*} : Option α → Result α
  | some a => .ok a
  | none => .error (.panic .unwrap)

/-- `Result::unwrap`: an error becomes a panic. -/
def Result.unwrap {α : Type*} : Result α → Result α
  | .error (.err _) => .error (.panic .unwrap)
  | r => r

/-- The number of `usize` values. -/
def usizeBound : ℕ := 2 ^ 64

/-- `a + b` on `usize`. -/
def addUsize (a b : ℕ) : Result ℕ :=
  if a + b < usizeBound then .ok (a + b) else .error (.panic .addOverflow)

/-- `a - b` on `usize`. -/
def subUsize (a b : ℕ) : Result ℕ :=
  if b ≤ a then .ok (a - b) else .error (.panic .subOverflow)

/-- `a * b` on `usize`. -/
def mulUsize (a b : ℕ) : Result ℕ :=
  if a * b < usizeBound then .ok (a * b) else .error (.panic .mulOverflow)

/-- `let _ = r;`: an error is dropped and the state stays as it was; a panic is not caught. -/
def ignoreErr {σ : Type*} (s : σ) : Result σ → Result σ
  | .error (.err _) => .ok s
  | r => r

/-- An error of the kernel library converted to an `aster_frame::Error` and back: the message is
lost, and `AccessDenied` comes back as `EFAULT`. -/
def Error.viaFrame (e : Error) : Error :=
  match e.errno with
  | .enomem => ⟨.enomem, none⟩
  | .eacces | .efault => ⟨.efault, none⟩
  | _ => ⟨.einval, none⟩

/-- A fallible function whose result type is `aster_frame::Result`. -/
def Result.viaFrame {α : Type*} : Result α → Result α
  | .error (.err e) => .error (.err e.viaFrame)
  | r => r

/-! ### Reading a successful call back -/

section Ok

universe u

variable {α β : Type u}

variable {x : Result α} {b : ℕ} {e : Error} {a : α} {c : Prop} {errno : Errno} {f : α → Result β}
  {o : Option α} {u : Unit} {msg : String}

theorem Result.bind_ok {b : β} : (x >>= f) = .ok b ↔ ∃ a, x = .ok a ∧ f a = .ok b := by
  cases x with
  | error e | ok a => simp [bind, Except.bind]

theorem Result.bind_err {e : Fault} :
    (x >>= f) = .error e ↔ x = .error e ∨ ∃ a, x = .ok a ∧ f a = .error e := by
  cases x with
  | error e | ok a => simp [bind, Except.bind]

theorem Result.ok_of_toOption (h : x.toOption = some a) : x = .ok a := by
  cases x with
  | error e => cases h
  | ok b => exact congrArg Except.ok (Option.some.inj h)

@[simp] theorem addUsize_ne_err {a : ℕ} : addUsize a b ≠ .error (.err e) := by
  unfold addUsize; split_ifs <;> simp

@[simp] theorem subUsize_ne_err {a : ℕ} : subUsize a b ≠ .error (.err e) := by
  unfold subUsize; split_ifs <;> simp

@[simp] theorem assert_ne_err [Decidable c] : assert c ≠ .error (.err e) := by
  unfold assert
  split_ifs <;> simp

@[simp] theorem debugAssert_ne_err [Decidable c] : debugAssert c ≠ .error (.err e) := by
  unfold debugAssert
  split_ifs <;> simp

@[simp] theorem unwrap_ne_err : unwrap o ≠ .error (.err e) := by
  cases o <;> simp [unwrap]

@[simp] theorem Result.unwrap_ne_err {r : Result α} : r.unwrap ≠ .error (.err e) := by
  rcases r with ⟨_ | _⟩ | _ <;> simp [unwrap]

@[simp] theorem Result.pure_ok {b : α} : (pure a : Result α) = .ok b ↔ a = b := by
  simp [pure, Except.pure]

@[simp] theorem assert_ok [Decidable c] : assert c = .ok u ↔ c := by
  unfold assert; split_ifs with h <;> simp [h]

@[simp] theorem debugAssert_ok [Decidable c] : debugAssert c = .ok u ↔ c := by
  unfold debugAssert; split_ifs with h <;> simp [h]

@[simp] theorem unwrap_ok : unwrap o = .ok a ↔ o = some a := by
  cases o <;> simp [unwrap]

@[simp] theorem addUsize_ok {a c : ℕ} : addUsize a b = .ok c ↔ a + b < usizeBound ∧ a + b = c := by
  unfold addUsize; split_ifs with h <;> simp [h]

@[simp] theorem subUsize_ok {a c : ℕ} : subUsize a b = .ok c ↔ b ≤ a ∧ a - b = c := by
  unfold subUsize; split_ifs with h <;> simp [h]

@[simp] theorem mulUsize_ok {a c : ℕ} : mulUsize a b = .ok c ↔ a * b < usizeBound ∧ a * b = c := by
  unfold mulUsize; split_ifs with h <;> simp [h]

@[simp] theorem returnErrnoWithMessage_ok : returnErrnoWithMessage errno msg = .ok a ↔ False := by
  simp [returnErrnoWithMessage]

/-- A check that a successful call has passed. -/
theorem Result.ite_errno_ok [Decidable c] :
    (if c then returnErrnoWithMessage errno msg else x) = .ok a ↔ ¬c ∧ x = .ok a := by
  split_ifs with h <;> simp [h]

@[simp] theorem returnErrno_ok : returnErrno errno = .ok a ↔ False := by
  simp [returnErrno]

@[simp] theorem Result.unwrap_ok : x.unwrap = .ok a ↔ x = .ok a := by
  rcases x with (_ | _) | _ <;> simp [Result.unwrap]

/-- A step whose errors are dropped: it has succeeded, or nothing has changed. -/
theorem Result.ok_or_eq_of_ignoreErr {s s' : α} (h : (ignoreErr s x).toOption = some s') :
    x = .ok s' ∨ s' = s := by
  rcases x with (e | p) | a
  · exact .inr (Option.some.inj h).symm
  · cases h
  · exact .inl (congrArg Except.ok (Option.some.inj h))

@[simp] theorem Result.viaFrame_ok : x.viaFrame = .ok a ↔ x = .ok a := by
  rcases x with (_ | _) | _ <;> simp [Result.viaFrame]

end Ok

/-- An invariant of a loop that speaks of the elements still to come. -/
theorem Result.foldlM_invariant {α β : Type*} {f : β → α → Result β} {P : List α → β → Prop}
    (hstep : ∀ a as b b', P (a :: as) b → f b a = .ok b' → P as b') {as : List α} {b b' : β}
    (hP : P as b) (h : as.foldlM f b = .ok b') : P [] b' := by
  induction as generalizing b with
  | nil =>
    cases h
    exact hP
  | cons a as ih =>
    obtain ⟨b1, h1, h⟩ := Result.bind_ok.1 h
    exact ih (hstep a as b b1 hP h1) h

/-! ### Fallible steps on a state -/

/-- A pure fallible step. -/
def liftR {σ : Type} {α : Type} (r : Result α) : EStateM Fault σ α := fun s =>
  match r with
  | .ok a => .ok a s
  | .error e => .error e s

section

variable {σ α β : Type} {r : Result α} {f : α → EStateM Fault σ β} {s s' : σ} {a : α} {b : β}
  {e : Fault}

theorem liftR_ok_bind : (liftR (.ok a) >>= f) s = f a s := rfl

theorem liftR_error_bind : (liftR (.error e) >>= f) s = .error e s := rfl

theorem liftR_ok : liftR r s = .ok a s' ↔ r = .ok a ∧ s = s' := by
  cases r <;> simp [liftR]

theorem liftR_error : liftR r s = .error e s' ↔ r = .error e ∧ s = s' := by
  cases r <;> simp [liftR]

theorem liftR_bind_ok : (liftR r >>= f) s = .ok b s' ↔ ∃ a, r = .ok a ∧ f a s = .ok b s' := by
  cases r <;> simp [liftR_ok_bind, liftR_error_bind]

theorem liftR_bind_error : (liftR r >>= f) s = .error e s' ↔
    liftR r s = .error e s' ∨ ∃ a, r = .ok a ∧ f a s = .error e s' := by
  cases r <;> simp [liftR_ok_bind, liftR_error_bind, liftR]

end

/-! ### Pages and alignment -/

/-- Ranges of addresses or indices. -/
abbrev Range := Span ℕ

/-- `PAGE_SIZE` -/
def pageSize : ℕ := 0x1000

theorem pageSize_pos : 0 < pageSize := by decide

/-- `is_power_of_two` -/
def isPowerOfTwo (n : ℕ) : Bool := n != 0 && (n &&& (n - 1)) == 0

/-- `align_up`: the least multiple of the power of two `align` that is at least `x`.  For a power
of two the mask `& !(align - 1)` of the source is the division below. -/
def alignUp (x align : ℕ) : Result ℕ := do
  assert (isPowerOfTwo align = true ∧ 2 ≤ align)
  let s ← unwrap (if x + (align - 1) < usizeBound then some (x + (align - 1)) else none)
  pure (s / align * align)

/-- `align_down`, for the page size. -/
def alignDownPage (x : ℕ) : ℕ := x / pageSize * pageSize

/-- `get_page_idx_range`: the indices of the pages that meet a range of offsets. -/
def getPageIdxRange (r : Range) : Result Range := do
  let stop ← alignUp r.stop pageSize
  pure ⟨alignDownPage r.start / pageSize, stop / pageSize⟩

theorem alignUp_ok {x align y : ℕ} (h : alignUp x align = .ok y) :
    x + (align - 1) < usizeBound ∧ y = (x + (align - 1)) / align * align := by
  simp only [alignUp, Result.bind_ok, unwrap_ok, Result.pure_ok] at h
  obtain ⟨-, -, s, hs, rfl⟩ := h
  split_ifs at hs with hlt
  cases hs
  exact ⟨hlt, rfl⟩

theorem dvd_of_alignUp {x align y : ℕ} (h : alignUp x align = .ok y) : align ∣ y := by
  obtain ⟨-, rfl⟩ := alignUp_ok h
  exact Nat.dvd_mul_left _ _

theorem getPageIdxRange_ok {r s : Range} (h : getPageIdxRange r = .ok s) :
    s = ⟨r.start / pageSize, (r.stop + (pageSize - 1)) / pageSize⟩ := by
  simp only [getPageIdxRange, Result.bind_ok, Result.pure_ok] at h
  obtain ⟨y, hy, rfl⟩ := h
  obtain ⟨-, rfl⟩ := alignUp_ok hy
  simp [alignDownPage, Nat.mul_div_cancel _ pageSize_pos]

end Jinux
