import Mathlib.Data.Nat.Bitwise
import Mathlib.Tactic.IntervalCases
import Jinux.Kernel.Result

/-!
# The word of a reader-writer lock

`RwLock` and `RwMutex` keep their state in one atomic word: bit 63 for a writer, bit 62 for an
upgradeable reader, bit 61 while it is being upgraded, and the readers in the bits below, of which
bit 60 says that there are too many.  Every access to the word is one atomic operation; the
operations are the same in the two locks.

* `RwWord.tryRead`, `tryWrite`, `tryUpread`, `tryUpgrade` : what an attempt does to the word and
  whether it succeeds; a failed attempt may have to be undone in a second step;
* `RwWord.pack` : the word for given numbers of writers, upgradeable readers, upgrades and readers,
  with the effect of the operations on it (`pack_or_upgradeableReader` and so on).
-/

namespace Jinux

open Nat

/-- The three ways to lock: `read`, `write` and `upread`. -/
inductive Access where
  | read
  | write
  | upread
  deriving DecidableEq

/-- The outcome of the first atomic operation of `try_read`, `try_write` or `try_upread`. -/
inductive Attempt where
  | acquired
  | refused
  /-- There will be none, but the word has to be put right first. -/
  | undo
  deriving DecidableEq

namespace RwWord

/-- `READER` -/
def reader : ℕ := 1

/-- `WRITER` -/
def writer : ℕ := 2 ^ 63

/-- `UPGRADEABLE_READER` -/
def upgradeableReader : ℕ := 2 ^ 62

/-- `BEING_UPGRADED` -/
def beingUpgraded : ℕ := 2 ^ 61

/-- `MAX_READER` -/
def maxReader : ℕ := 2 ^ 60

/-- The word after `fetch_add`. -/
def fetchAdd (lock k : ℕ) : ℕ := (lock + k) % usizeBound

/-- The word after `fetch_sub`. -/
def fetchSub (lock k : ℕ) : ℕ := (lock + usizeBound - k) % usizeBound

/-- `!mask` on words -/
def complement (mask : ℕ) : ℕ := usizeBound - 1 - mask

/-- The first step of `try_read`. -/
def tryRead (lock : ℕ) : ℕ × Attempt :=
  (fetchAdd lock reader,
    if lock &&& (writer ||| maxReader ||| beingUpgraded) = 0 then .acquired else .undo)

/-- `try_write` -/
def tryWrite (lock : ℕ) : ℕ × Attempt :=
  if lock = 0 then (writer, .acquired) else (lock, .refused)

/-- The first step of `try_upread`. -/
def tryUpread (lock : ℕ) : ℕ × Attempt :=
  (lock ||| upgradeableReader,
    if lock &&& (writer ||| upgradeableReader) = 0 then .acquired
    else if lock &&& (writer ||| upgradeableReader) = writer then .undo else .refused)

/-- The `compare_exchange` of `try_upgrade`. -/
def tryUpgrade (lock : ℕ) : Option ℕ :=
  if lock = upgradeableReader ||| beingUpgraded then some (writer ||| upgradeableReader) else none

/-- The first step of `upgrade`. -/
def upgrade (lock : ℕ) : ℕ := lock ||| beingUpgraded

/-- The drop of a read guard. -/
def dropRead (lock : ℕ) : ℕ := fetchSub lock reader

/-- The drop of a write guard. -/
def dropWrite (lock : ℕ) : ℕ := lock &&& complement writer

/-- The drop of an upgradeable guard. -/
def dropUpread (lock : ℕ) : ℕ := fetchSub lock upgradeableReader

end RwWord

namespace Access

/-- The first step of `try_read`, `try_write` and `try_upread`. -/
def attempt : Access → ℕ → ℕ × Attempt
  | .read => RwWord.tryRead
  | .write => RwWord.tryWrite
  | .upread => RwWord.tryUpread

/-- The second step of an attempt that failed: what it did to the word is taken back. -/
def undo : Access → ℕ → ℕ
  | .read, lock => RwWord.fetchSub lock RwWord.reader
  | .write, lock => lock
  | .upread, lock => RwWord.fetchSub lock RwWord.upgradeableReader

/-- The drop of the guard. -/
def drop : Access → ℕ → ℕ
  | .read => RwWord.dropRead
  | .write => RwWord.dropWrite
  | .upread => RwWord.dropUpread

end Access

/-! ### Words of which the parts are known -/

namespace RwWord

/-- The word for `w` writers, `u` upgradeable readers, `b` upgrades and `r` readers. -/
def pack (w u b r : ℕ) : ℕ := w * 2 ^ 63 + u * 2 ^ 62 + b * 2 ^ 61 + r

theorem pack_def (w u b r : ℕ) :
    pack w u b r =
      w * 9223372036854775808 + u * 4611686018427387904 + b * 2305843009213693952 + r :=
  rfl

/-- The upper four bits and the rest. -/
theorem pack_eq_high (w u b r : ℕ) :
    pack w u b r = 2 ^ 60 * (8 * w + 4 * u + 2 * b + r / 2 ^ 60) + r % 2 ^ 60 := by
  unfold pack
  omega

/-- A mask over the upper bits reads the upper bits only. -/
theorem and_high {n lo : ℕ} (hi mask : ℕ) (h : lo < 2 ^ n) :
    (2 ^ n * hi + lo) &&& (2 ^ n * mask) = 2 ^ n * (hi &&& mask) := by
  refine eq_of_testBit_eq fun j => ?_
  rw [testBit_and, testBit_two_pow_mul_add _ h, testBit_two_pow_mul,
    testBit_two_pow_mul]
  by_cases hj : j < n
  · simp [not_le.2 hj]
  · simp [hj, not_lt.1 hj]

/-- Setting upper bits leaves the rest as it is. -/
theorem or_high {n lo : ℕ} (hi mask : ℕ) (h : lo < 2 ^ n) :
    (2 ^ n * hi + lo) ||| (2 ^ n * mask) = 2 ^ n * (hi ||| mask) + lo := by
  refine eq_of_testBit_eq fun j => ?_
  rw [testBit_or, testBit_two_pow_mul_add _ h, testBit_two_pow_mul,
    testBit_two_pow_mul_add _ h]
  by_cases hj : j < n
  · simp [hj]
  · simp [hj, not_lt.1 hj]

section

variable {w u b r : ℕ}

theorem pack_eq_zero : pack w u b r = 0 ↔ w = 0 ∧ u = 0 ∧ b = 0 ∧ r = 0 := by
  rw [pack_def]
  omega

theorem dropRead_pack (hw : w ≤ 1) (hu : u ≤ 1) (hb : b ≤ 1) (hr : r + 1 < 2 ^ 61) :
    dropRead (pack w u b (r + 1)) = pack w u b r := by
  simp only [dropRead, fetchSub, pack_def, reader, usizeBound]
  omega

theorem dropUpread_pack (hw : w ≤ 1) (hb : b ≤ 1) (hr : r < 2 ^ 61) :
    dropUpread (pack w 1 b r) = pack w 0 b r := by
  simp only [dropUpread, fetchSub, pack_def, upgradeableReader, usizeBound]
  omega

theorem dropWrite_pack (hu : u ≤ 1) (hb : b ≤ 1) (hr : r < 2 ^ 61) :
    dropWrite (pack w u b r) = pack 0 u b r := by
  have hmask : complement writer = 2 ^ 63 - 1 := by decide
  rw [dropWrite, hmask, and_two_pow_sub_one_eq_mod]
  simp only [pack_def]
  omega

theorem tryWrite_pack :
    tryWrite (pack w u b r) =
      if w = 0 ∧ u = 0 ∧ b = 0 ∧ r = 0 then (pack 1 0 0 0, .acquired)
      else (pack w u b r, .refused) := by
  simp only [tryWrite, pack_eq_zero]
  rfl

theorem tryUpgrade_pack (hu : u ≤ 1) (hb : b ≤ 1) (hr : r < 2 ^ 61) :
    tryUpgrade (pack w u b r) =
      if w = 0 ∧ u = 1 ∧ b = 1 ∧ r = 0 then some (pack 1 1 0 0) else none := by
  have hold : upgradeableReader ||| beingUpgraded = pack 0 1 1 0 := by decide
  have hnew : writer ||| upgradeableReader = pack 1 1 0 0 := by decide
  have hiff : pack w u b r = pack 0 1 1 0 ↔ w = 0 ∧ u = 1 ∧ b = 1 ∧ r = 0 := by
    simp only [pack_def]
    omega
  rw [tryUpgrade, hold, hnew]
  simp [hiff]

variable (hw : w ≤ 1) (hu : u ≤ 1) (hb : b ≤ 1) (hr : r < 2 ^ 61)

include hw hu hb hr

/-- A property of the bits of a counter is checked case by case. -/
@[elab_as_elim] theorem forall_bits {P : ℕ → ℕ → ℕ → ℕ → Prop}
    (h : ∀ w < 2, ∀ u < 2, ∀ b < 2, ∀ q < 2, P w u b q) : P w u b (r / 2 ^ 60) :=
  h w (by omega) u (by omega) b (by omega) _ (by omega)

/-- A reader may enter if there is no writer, no upgrade and not too many readers. -/
theorem pack_and_read :
    pack w u b r &&& (writer ||| maxReader ||| beingUpgraded) = 0 ↔ w = 0 ∧ b = 0 ∧ r < 2 ^ 60 := by
  have hmask : writer ||| maxReader ||| beingUpgraded = 2 ^ 60 * 11 := by decide
  have hlt : r < 2 ^ 60 ↔ r / 2 ^ 60 = 0 := by omega
  rw [pack_eq_high, hmask, and_high _ _ (mod_lt _ (by decide)), hlt, ← Nat.add_eq_zero_iff,
    ← Nat.add_eq_zero_iff]
  exact forall_bits hw hu hb hr (by decide)

/-- `try_upread` looks at the writer and the upgradeable reader. -/
theorem pack_and_upread : pack w u b r &&& (writer ||| upgradeableReader) = pack w u 0 0 := by
  have hmask : writer ||| upgradeableReader = 2 ^ 60 * 12 := by decide
  rw [pack_eq_high, hmask, and_high _ _ (mod_lt _ (by decide))]
  exact forall_bits hw hu hb hr (by decide)

theorem pack_or_upgradeableReader : pack w u b r ||| upgradeableReader = pack w 1 b r := by
  have hmask : upgradeableReader = 2 ^ 60 * 4 := by decide
  rw [pack_eq_high, hmask, or_high _ _ (mod_lt _ (by decide)), pack_eq_high w 1 b r]
  congr 2
  exact forall_bits hw hu hb hr (by decide)

theorem upgrade_pack : upgrade (pack w u b r) = pack w u 1 r := by
  have hmask : beingUpgraded = 2 ^ 60 * 2 := by decide
  rw [upgrade, pack_eq_high, hmask, or_high _ _ (mod_lt _ (by decide)), pack_eq_high w u 1 r]
  congr 2
  exact forall_bits hw hu hb hr (by decide)

theorem tryUpread_pack :
    tryUpread (pack w u b r) =
      (pack w 1 b r, if u = 1 then .refused else if w = 1 then .undo else .acquired) := by
  rw [tryUpread, pack_or_upgradeableReader hw hu hb hr, pack_and_upread hw hu hb hr]
  interval_cases w <;> interval_cases u <;> rfl

omit hr in
theorem tryRead_pack (hr : r + 1 < 2 ^ 61) :
    tryRead (pack w u b r) =
      (pack w u b (r + 1), if w = 0 ∧ b = 0 ∧ r < 2 ^ 60 then .acquired else .undo) := by
  have hadd : fetchAdd (pack w u b r) reader = pack w u b (r + 1) := by
    simp only [fetchAdd, pack_def, reader, usizeBound]
    omega
  simp [tryRead, hadd, pack_and_read hw hu hb (lt_of_succ_lt hr)]

end

end RwWord

end Jinux
