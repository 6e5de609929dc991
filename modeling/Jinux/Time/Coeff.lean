import Mathlib.Data.Nat.Size
import Mathlib.Tactic.FieldSimp
import Mathlib.Tactic.Linarith
import Mathlib.Tactic.Qify
import Mathlib.Tactic.Ring
import Jinux.Time.ClockSource

/-!
# Coefficients

`Coeff::new` tries the shifts from 32 down to 1 and takes the first one whose factor fits.  When
only the shift 0 is left, the loop ends with the factor that it computed for the shift 1.

* `Coeff.new_eq` : **a coefficient whose factor fits with a shift from 1 on never overflows**;
* `Coeff.new_approximates_iff` : **its product is close to the product with the fraction**, and when
  only the shift 0 fits, this is so in two small cases only;
* `Coeff.exists_factor_doubled` : a fraction for which only the shift 0 fits.
-/

namespace Jinux.Coeff

open Nat

/-- The factor for a shift: the fraction times `2 ^ shift`, rounded. -/
def factor (numerator denominator shift : ℕ) : ℕ :=
  (numerator * 2 ^ shift + denominator / 2) / denominator

/-- `shift_acc` leaves room for the bits of `tmp`. -/
theorem shiftAcc_eq {fuel tmp acc : ℕ} (hfuel : tmp < 2 ^ fuel) :
    shiftAcc fuel tmp acc = acc - tmp.size := by
  induction fuel generalizing tmp acc with
  | zero =>
    obtain rfl : tmp = 0 := by omega
    simp [shiftAcc]
  | succ fuel ih =>
    rw [shiftAcc]
    split_ifs with htmp
    · have hsize : tmp.size = (tmp / 2).size + 1 := by
        refine eq_of_forall_ge_iff fun k => ?_
        cases k with
        | zero => simpa using Nat.size_eq_zero.not.2 htmp.ne'
        | succ k =>
          rw [Nat.add_le_add_iff_right, Nat.size_le, Nat.size_le]
          omega
      rw [ih (by omega), hsize]
      omega
    · obtain rfl : tmp = 0 := by omega
      simp

theorem factor_mono (n d : ℕ) {s s' : ℕ} (h : s ≤ s') : factor n d s ≤ factor n d s' :=
  Nat.div_le_div_right
    (Nat.add_le_add_right (Nat.mul_le_mul_left _ (Nat.pow_le_pow_right Nat.two_pos h)) _)

/-- What the second loop ends with: a factor of at most `acc` bits, or the one for the shift 1. -/
def Found (n d acc f shift : ℕ) : Prop :=
  1 ≤ shift ∧ f = factor n d shift ∧ f < 2 ^ acc ∨ shift = 0 ∧ f = factor n d 1 ∧ 2 ^ acc ≤ f

theorem search_spec {n d : ℕ} (acc : ℕ) (hsum : n * 2 ^ 32 + d / 2 < usizeBound) (k mult : ℕ)
    (hpos : 1 ≤ k) (hk : k ≤ 32) :
    ∃ f shift, search n d acc k mult = .ok (f, shift) ∧ Found n d acc f shift := by
  induction k generalizing mult with
  | zero => cases hpos
  | succ k ih =>
    have hle : n * 2 ^ (k + 1) ≤ n * 2 ^ 32 :=
      Nat.mul_le_mul_left _ (Nat.pow_le_pow_right Nat.two_pos hk)
    have hadd : addUsize (n * 2 ^ (k + 1) % usizeBound) (d / 2) =
        .ok (n * 2 ^ (k + 1) + d / 2) := by
      rw [Nat.mod_eq_of_lt (by omega)]
      exact addUsize_ok.2 ⟨by omega, rfl⟩
    simp only [search, hadd, bind, Except.bind]
    change ∃ f shift, (if factor n d (k + 1) / 2 ^ acc = 0 then _ else _) = _ ∧ _
    split_ifs with hfit
    · exact ⟨_, k + 1, rfl, .inl ⟨by omega, rfl,
        (Nat.div_eq_zero_iff_lt (Nat.two_pow_pos acc)).1 hfit⟩⟩
    · rcases Nat.eq_zero_or_pos k with rfl | hpos
      · exact ⟨_, 0, rfl, .inr ⟨rfl, rfl, Nat.not_lt.1
          (mt (Nat.div_eq_zero_iff_lt (Nat.two_pow_pos acc)).2 hfit)⟩⟩
      · exact ih _ hpos (by omega)

/-- The coefficient that the two loops make. -/
theorem new_spec {n d m : ℕ} (hd : 0 < d) (hm : m < 2 ^ 40)
    (hsum : n * 2 ^ 32 + d / 2 < usizeBound) :
    ∃ f shift, new n d m = .ok ⟨f % 2 ^ 32, shift, m⟩ ∧
      Found n d (32 - (m / 2 ^ 32).size) f shift := by
  obtain ⟨f, shift, hsearch, h⟩ :=
    search_spec (32 - (m / 2 ^ 32).size) hsum 32 0 (by decide) le_rfl
  refine ⟨f, shift, ?_, h⟩
  simp only [new, debugAssert, if_pos hm, shiftAcc_eq (show m / 2 ^ 32 < 2 ^ 64 by omega), hsearch,
    if_neg hd.ne']
  rfl

/-- The coefficient for a factor that fits, with which no product overflows. -/
theorem new_eq {n d m : ℕ} (hd : 0 < d) (hm : m < 2 ^ 40) (hsum : n * 2 ^ 32 + d / 2 < usizeBound)
    (hone : factor n d 1 < 2 ^ (32 - (m / 2 ^ 32).size)) :
    ∃ shift, new n d m = .ok ⟨factor n d shift, shift, m⟩ ∧
      ∀ rhs ≤ m, rhs * factor n d shift < usizeBound := by
  obtain ⟨_, shift, hnew, ⟨-, rfl, hlt⟩ | ⟨-, rfl, hle⟩⟩ := new_spec hd hm hsum
  · rw [Nat.mod_eq_of_lt (hlt.trans_le (Nat.pow_le_pow_right Nat.two_pos (sub_le _ _)))] at hnew
    refine ⟨shift, hnew, fun rhs hrhs => ?_⟩
    -- the bits of both factors add up to at most 64
    have hsize : (m / 2 ^ 32).size ≤ 8 := Nat.size_le.2 (by omega)
    have hM : m < 2 ^ (m / 2 ^ 32).size * 2 ^ 32 :=
      (Nat.div_lt_iff_lt_mul (Nat.two_pow_pos 32)).1 (Nat.lt_size_self _)
    generalize (m / 2 ^ 32).size = w at *
    calc rhs * factor n d shift < 2 ^ w * 2 ^ 32 * 2 ^ (32 - w) :=
          mul_lt_mul'' (hrhs.trans_lt hM) hlt
      _ = 2 ^ (w + 32 + (32 - w)) := by rw [pow_add, pow_add]
      _ = usizeBound := by
          congr 1
          omega
  · exact absurd hone (Nat.not_lt.2 hle)

/-- A factor differs from the fraction by half a unit at most. -/
theorem factor_near (n : ℕ) {d : ℕ} (hd : 0 < d) (s : ℕ) :
    2 * (d * factor n d s) ≤ 2 * (n * 2 ^ s) + d ∧
      2 * (n * 2 ^ s) ≤ 2 * (d * factor n d s) + d := by
  have hdiv := Nat.div_add_mod (n * 2 ^ s + d / 2) d
  have hmod := Nat.mod_lt (n * 2 ^ s + d / 2) hd
  rw [← factor] at hdiv
  omega

/-- A coefficient never overflows, and its product is close to the product with the fraction: off by
less than 1 for the shift to the right, and by half a unit of the factor for each unit of `k`. -/
def Approximates (c : Coeff) (n d : ℕ) : Prop :=
  ∀ k ≤ c.maxMultiplier, k * c.mult < usizeBound ∧
    ∃ p, c.mul k = .ok p ∧ |(p : ℚ) - n * k / d| ≤ 1 + k / 2 ^ (c.shift + 1)

variable {c : Coeff} {n d m s k : ℕ}

theorem mul_eq (hk : k ≤ c.maxMultiplier) (hlt : k * c.mult < usizeBound) :
    c.mul k = .ok (k * c.mult / 2 ^ c.shift) := by
  simp only [mul, debugAssert, mulUsize, if_pos hk, if_pos hlt]
  rfl

theorem approximates_factor (hd : 0 < d) (hlt : ∀ k ≤ m, k * factor n d s < usizeBound) :
    Approximates ⟨factor n d s, s, m⟩ n d := by
  refine fun k hk => ⟨hlt k hk, _, mul_eq hk (hlt k hk), ?_⟩
  obtain ⟨hle, hge⟩ := factor_near n hd s
  dsimp only
  set f := factor n d s
  set p := k * f / 2 ^ s with hp
  have hle' : p * 2 ^ s ≤ k * f := Nat.div_mul_le_self _ _
  have hge' : k * f < (p + 1) * 2 ^ s :=
    Nat.lt_mul_of_div_lt (Nat.lt_succ_self _) (Nat.two_pow_pos _)
  have hd' : (0 : ℚ) < d := by exact_mod_cast hd
  have h2 : (0 : ℚ) < 2 ^ s := by positivity
  have hk' : (0 : ℚ) ≤ k := by positivity
  qify at hle hge hle' hge'
  rw [abs_le, pow_succ]
  constructor
  · rw [neg_le_sub_iff_le_add, div_le_iff₀ hd']
    field_simp
    nlinarith
  · rw [tsub_le_iff_left]
    field_simp
    nlinarith

/-- With the shift 0 the product itself is close to the product with the fraction. -/
theorem approximates_zero_iff {f : ℕ} (hd : 0 < d) : Approximates ⟨f, 0, m⟩ n d ↔
    ∀ k ≤ m, k * f < usizeBound ∧ 2 * (k * (d * f)) ≤ 2 * (k * n) + (2 + k) * d ∧
      2 * (k * n) ≤ 2 * (k * (d * f)) + (2 + k) * d := by
  refine forall₂_congr fun k hk => and_congr_right fun hlt => ?_
  have hd' : (0 : ℚ) < d := by exact_mod_cast hd
  simp only [mul_eq (c := ⟨f, 0, m⟩) hk hlt, Except.ok.injEq, exists_eq_left', abs_le, pow_zero,
    Nat.div_one, zero_add, pow_one]
  qify
  constructor
  · rintro ⟨hge, hle⟩
    field_simp at hge hle
    constructor <;> linarith
  · rintro ⟨hle, hge⟩
    field_simp
    constructor <;> linarith

/-- The factor for the shift 1 that does not fit, cut to 32 bits. -/
theorem approximates_doubled_iff (hn : n < 2 ^ 32) (hd : 0 < d) (hm : m < 2 ^ 40)
    (hzero : factor n d 0 < 2 ^ (32 - (m / 2 ^ 32).size))
    (hone : 2 ^ (32 - (m / 2 ^ 32).size) ≤ factor n d 1) :
    Approximates ⟨factor n d 1 % 2 ^ 32, 0, m⟩ n d ↔
      m = 0 ∨ n = 2 ^ 32 - 1 ∧ d = 1 ∧ m ≤ 2 := by
  rw [approximates_zero_iff hd]
  constructor
  · intro h
    rcases Nat.eq_zero_or_pos m with hm0 | hm0
    · exact .inl hm0
    obtain ⟨-, hle, hge⟩ := h 1 hm0
    obtain ⟨hle0, hge0⟩ := factor_near n hd 0
    obtain ⟨hle1, hge1⟩ := factor_near n hd 1
    rcases Nat.eq_zero_or_pos (m / 2 ^ 32).size with hsize | hsize
    · simp only [hsize, Nat.sub_zero] at hzero hone
      have hmul := Nat.mul_le_mul_left d hone
      obtain rfl : d = 1 := by omega
      have hf : factor n 1 1 = 2 * n := by simp [factor]; omega
      rw [hf] at h hle hge hone
      obtain rfl : n = 2 ^ 32 - 1 := by omega
      refine .inr ⟨rfl, rfl, ?_⟩
      by_contra hlt
      have := h 3 (by omega)
      omega
    · -- fewer than 32 bits: nothing is cut, and the factor is twice the fraction
      have hsize8 : (m / 2 ^ 32).size ≤ 8 := Nat.size_le.2 (by omega)
      have hpow : 2 ^ (32 - (m / 2 ^ 32).size) ≤ 2 ^ 31 :=
        Nat.pow_le_pow_right Nat.two_pos (by omega)
      have hpow' : 2 ^ 24 ≤ 2 ^ (32 - (m / 2 ^ 32).size) :=
        Nat.pow_le_pow_right Nat.two_pos (by omega)
      have hmul0 : d * factor n d 0 ≤ d * (2 ^ 31 - 1) := Nat.mul_le_mul_left d (by omega)
      have hmul1 : d * 4 ≤ d * factor n d 1 := Nat.mul_le_mul_left d (by omega)
      have hlt : factor n d 1 < 2 ^ 32 := by
        by_contra hge
        have hmul := Nat.mul_le_mul_left d (Nat.not_lt.1 hge)
        omega
      rw [Nat.mod_eq_of_lt hlt] at hle
      omega
  · rintro (rfl | ⟨rfl, rfl, hm2⟩) k hk
    · obtain rfl : k = 0 := by omega
      simp [usizeBound]
    · have hf : factor (2 ^ 32 - 1) 1 1 % 2 ^ 32 = 2 ^ 32 - 2 := by decide
      rw [hf, usizeBound]
      omega

/-- **The product with a coefficient is close to the product with the fraction**, if some shift from
1 on makes the factor fit.  When only the shift 0 does, nothing may be multiplied but 0, or the
fraction is the largest one and nothing above 2. -/
theorem new_approximates_iff (hn : n < 2 ^ 32) (hd : 0 < d) (hd' : d < 2 ^ 32) (hm : m < 2 ^ 40)
    (hfit : factor n d s < 2 ^ (32 - (m / 2 ^ 32).size)) :
    (∃ c, new n d m = .ok c ∧ c.maxMultiplier = m ∧ c.Approximates n d) ↔
      factor n d 1 < 2 ^ (32 - (m / 2 ^ 32).size) ∨ m = 0 ∨
        n = 2 ^ 32 - 1 ∧ d = 1 ∧ m ≤ 2 := by
  have hsum : n * 2 ^ 32 + d / 2 < usizeBound := by
    unfold usizeBound
    omega
  rcases Nat.lt_or_ge (factor n d 1) (2 ^ (32 - (m / 2 ^ 32).size)) with hone | hone
  · obtain ⟨shift, hnew, hlt⟩ := new_eq hd hm hsum hone
    exact iff_of_true ⟨_, hnew, rfl, approximates_factor hd hlt⟩ (.inl hone)
  · obtain ⟨_, _, hnew, ⟨hs, rfl, hlt⟩ | ⟨rfl, rfl, -⟩⟩ := new_spec hd hm hsum
    · exact absurd ((factor_mono n d hs).trans_lt hlt) (Nat.not_lt.2 hone)
    · rw [hnew, or_iff_right (Nat.not_lt.2 hone), ← approximates_doubled_iff hn hd hm
        ((factor_mono n d s.zero_le).trans_lt hfit) hone]
      simp

theorem new_approximates_third : ∃ c, new 1 3 1000000 = .ok c ∧ c.maxMultiplier = 1000000 ∧
    c.Approximates 1 3 :=
  (new_approximates_iff (s := 32) (by decide) (by decide) (by decide) (by decide)
    (by simp [factor])).2 (.inl (by simp [factor]))

/-- The factor of 3000000000 has 32 bits for the shift 0, and 33 bits for the shift 1. -/
theorem exists_factor_doubled : ∃ n d m c p, n < 2 ^ 32 ∧ 0 < d ∧ d < 2 ^ 32 ∧ 1 ≤ m ∧ m < 2 ^ 40 ∧
    factor n d 0 < 2 ^ (32 - (m / 2 ^ 32).size) ∧ new n d m = .ok c ∧ c.mul 1 = .ok p ∧
      1 + 1 / 2 ^ (c.shift + 1) < |(p : ℚ) - n * 1 / d| := by
  refine ⟨3000000000, 1, 1000, ⟨1705032704, 0, 1000⟩, 1705032704, by decide, by decide, by decide,
    by decide, by decide, by simp [factor], by decide +kernel, by decide +kernel, ?_⟩
  norm_num

end Jinux.Coeff
