import Jinux.Time.Vdso

/-!
# The clock source

`ClockSource` turns the cycles of a counter into the time since the start.  It keeps the cycles and
the time of its last update, and a reader adds to this time what the cycles since then amount to.
The cycles and the time are behind two locks.

* `Coeff` : the factor from cycles to nanoseconds, a product and a shift;
* `ClockSource.new` : a clock source for a frequency;
* `ClockSystem` : the clock source with one updater and any number of readers; each access to the
  counter and each access behind one of the two locks is a step.
-/

namespace Jinux

universe u

/-- `NANOS_PER_SECOND` -/
def nanosPerSecond : ℕ := 1000000000

/-! ### Coefficients -/

/-- `Coeff` -/
structure Coeff where
  mult : ℕ
  shift : ℕ
  maxMultiplier : ℕ
  deriving DecidableEq

namespace Coeff

/-- The first loop of `Coeff::new`: a bit less for each bit of `tmp`, which has at most `fuel`. -/
def shiftAcc : ℕ → ℕ → ℕ → ℕ
  | 0, _, acc => acc
  | fuel + 1, tmp, acc => if 0 < tmp then shiftAcc fuel (tmp / 2) (acc - 1) else acc

/-- The second loop of `Coeff::new`, from a shift downwards.  A shift to the left drops bits. -/
def search (numerator denominator acc : ℕ) : ℕ → ℕ → Result (ℕ × ℕ)
  | 0, mult => pure (mult, 0)
  | shift + 1, _ => do
    let sum ← addUsize (numerator * 2 ^ (shift + 1) % usizeBound) (denominator / 2)
    let mult := sum / denominator
    if mult / 2 ^ acc = 0 then pure (mult, shift + 1)
    else search numerator denominator acc shift mult

/-- `Coeff::new` -/
def new (numerator denominator maxMultiplier : ℕ) : Result Coeff := do
  debugAssert (maxMultiplier < 2 ^ 40)
  if denominator = 0 then .error (.panic .divideByZero)
  else
    let r ← search numerator denominator (shiftAcc 64 (maxMultiplier / 2 ^ 32) 32) 32 0
    pure ⟨r.1 % 2 ^ 32, r.2, maxMultiplier⟩

/-- `Coeff * u64` -/
def mul (c : Coeff) (rhs : ℕ) : Result ℕ := do
  debugAssert (rhs ≤ c.maxMultiplier)
  let product ← mulUsize rhs c.mult
  pure (product / 2 ^ c.shift)

end Coeff

/-! ### Instants -/

namespace Instant

/-- `Instant::zero` -/
def zero : Instant := ⟨0, 0⟩

/-- The nanoseconds of an instant. -/
def toNanos (t : Instant) : ℕ := t.secs.toNat * nanosPerSecond + t.nanos.toNat

/-- `Instant + Duration`, for a duration of the given nanoseconds. -/
def addNanos (t : Instant) (duration : ℕ) : Result Instant := do
  let secs ← addUsize t.secs.toNat (duration / nanosPerSecond)
  let nanos := t.nanos.toNat + duration % nanosPerSecond
  if 2 ^ 32 ≤ nanos then .error (.panic .addOverflow)
  else if nanosPerSecond ≤ nanos then do
    let secs ← addUsize secs 1
    pure ⟨UInt64.ofNat secs, UInt32.ofNat (nanos - nanosPerSecond)⟩
  else pure ⟨UInt64.ofNat secs, UInt32.ofNat nanos⟩

end Instant

/-! ### The clock source -/

/-- `ClockSource` without the two locked fields. -/
structure ClockSource where
  freq : ℕ
  maxDelaySecs : ℕ
  coeff : Coeff
  deriving DecidableEq

/-- `ClockSource::new` -/
def ClockSource.new (freq maxDelaySecs : ℕ) : Result ClockSource := do
  debugAssert (maxDelaySecs < 600)
  let maxMultiplier ← mulUsize maxDelaySecs freq
  let coeff ← Coeff.new nanosPerSecond freq maxMultiplier
  pure ⟨freq, max 2 maxDelaySecs, coeff⟩

/-- Where a call of `read_instant` is.  `before` are the instants that other calls had returned when
it began. -/
inductive ReadPc where
  | idle
  /-- The counter was read. -/
  | sampled (before : List Instant) (cycles : ℕ)
  /-- `last_cycles` was read and the cycles since then were turned into nanoseconds. -/
  | converted (before : List Instant) (nanos : ℕ)
  deriving DecidableEq

/-- Where the updater is in `update`. -/
inductive UpdatePc where
  | idle
  /-- The counter was read. -/
  | sampled (cycles : ℕ)
  /-- `last_cycles` was read and the cycles since then were turned into nanoseconds. -/
  | converted (cycles nanos : ℕ)
  /-- `last_instant` was read and the instant was computed. -/
  | computed (cycles : ℕ) (instant : Instant)
  /-- `last_cycles` was written. -/
  | storedCycles (instant : Instant)
  deriving DecidableEq

/-- A clock source, its updater, and the calls of `read_instant` that the readers `ι` make. -/
structure ClockSystem (ι : Type u) where
  lastCycles : ℕ
  lastInstant : Instant
  /-- The last value of the counter that was read. -/
  now : ℕ
  updater : UpdatePc
  readers : ι → ReadPc
  /-- All instants that calls have returned. -/
  returned : List Instant
  /-- For each call that has returned: the instants that calls had returned when it began, and the
  instant that it returned. -/
  calls : List (List Instant × Instant)
  panicked : Option Panic

namespace ClockSystem

variable {ι : Type u} [DecidableEq ι]

/-- After `calibrate`, with the cycles that it was given. -/
def calibrated (cycles : ℕ) : ClockSystem ι :=
  ⟨cycles, .zero, cycles, .idle, fun _ => .idle, [], [], none⟩

/-- The next step. -/
inductive Act (ι : Type u) where
  /-- A reader calls `read_instant` and reads the counter. -/
  | startRead (i : ι) (cycles : ℕ)
  | read (i : ι)
  /-- The timer calls `update`, which reads the counter. -/
  | startUpdate (cycles : ℕ)
  | update

/-- The counter can have this value now: it never runs backwards, and the last update was not more
than `max_delay_secs` ago. -/
def CanRead (cs : ClockSource) (s : ClockSystem ι) (cycles : ℕ) : Prop :=
  s.now ≤ cycles ∧ cycles < usizeBound ∧ cycles ≤ s.lastCycles + cs.coeff.maxMultiplier

instance (cs : ClockSource) (s : ClockSystem ι) (cycles : ℕ) : Decidable (s.CanRead cs cycles) :=
  inferInstanceAs (Decidable (_ ∧ _))

/-- The nanoseconds since the last update, in `calculate_instant`. -/
def deltaNanos (cs : ClockSource) (s : ClockSystem ι) (cycles : ℕ) : Result ℕ := do
  let deltaCycles ← subUsize cycles s.lastCycles
  cs.coeff.mul deltaCycles

/-- The state after a computation that may panic. -/
def after {α : Type} (s : ClockSystem ι) (r : Result α) (f : α → ClockSystem ι) : ClockSystem ι :=
  match r with
  | .ok a => f a
  | .error (.panic p) => { s with panicked := some p }
  | .error (.err _) => s

/-- What a step does, if it can be taken. -/
def exec (cs : ClockSource) (s : ClockSystem ι) : Act ι → Option (ClockSystem ι)
  | .startRead i cycles =>
    if s.readers i = .idle ∧ s.CanRead cs cycles then
      some { s with
        now := cycles
        readers := Function.update s.readers i (.sampled s.returned cycles) }
    else none
  | .read i =>
    match s.readers i with
    | .idle => none
    | .sampled before cycles =>
      some (s.after (s.deltaNanos cs cycles) fun nanos =>
        { s with readers := Function.update s.readers i (.converted before nanos) })
    | .converted before nanos =>
      some (s.after (s.lastInstant.addNanos nanos) fun instant =>
        { s with
          readers := Function.update s.readers i .idle
          returned := instant :: s.returned
          calls := (before, instant) :: s.calls })
  | .startUpdate cycles =>
    if s.updater = .idle ∧ s.CanRead cs cycles then
      some { s with now := cycles, updater := .sampled cycles }
    else none
  | .update =>
    match s.updater with
    | .idle => none
    | .sampled cycles =>
      some (s.after (s.deltaNanos cs cycles) fun nanos =>
        { s with updater := .converted cycles nanos })
    | .converted cycles nanos =>
      some (s.after (s.lastInstant.addNanos nanos) fun instant =>
        { s with updater := .computed cycles instant })
    | .computed cycles instant =>
      some { s with lastCycles := cycles, updater := .storedCycles instant }
    | .storedCycles instant => some { s with lastInstant := instant, updater := .idle }

/-- One step; a panic stops the system. -/
def step (cs : ClockSource) (s : ClockSystem ι) (a : Act ι) : Option (ClockSystem ι) :=
  if s.panicked = none then s.exec cs a else none

/-- All interleavings. -/
def lts (cs : ClockSource) : Lts (ClockSystem ι) (Act ι) := .ofFun (step cs)

end ClockSystem

end Jinux
