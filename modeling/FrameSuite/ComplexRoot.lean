import FrameSuite.LogAccuracy
import Mathlib.Analysis.SpecialFunctions.Pow.Real

/-! The principal square root of a fixed-point number, on the imaginary axis for those below zero. -/

namespace FrameSuite

open FixedNumber

variable {F : FixedRepr} {x : FixedNumber F}

structure ComplexNumber (F : FixedRepr) where
  real : FixedNumber F
  imgn : FixedNumber F
deriving DecidableEq

noncomputable def ComplexNumber.value (z : ComplexNumber F) : ℂ := ⟨z.real.toReal, z.imgn.toReal⟩

def complexSqrt (x : FixedNumber F) : Option (ComplexNumber F) :=
  if x = zero then some ⟨zero, zero⟩
  else if x.inner < 0 then some ⟨zero, fixedSqrtNewton x.saturatingAbs⟩
  else some ⟨fixedSqrtNewton x, zero⟩

section Principal

theorem cpow_half_of_nonneg {a : ℝ} (ha : 0 ≤ a) : (a : ℂ) ^ (1 / 2 : ℂ) = (√a : ℝ) := by
  have hhalf : (1 / 2 : ℂ) = ((1 / 2 : ℝ) : ℂ) := by norm_num
  rw [hhalf, ← Complex.ofReal_cpow ha, ← Real.sqrt_eq_rpow]

theorem cpow_half_of_nonpos {a : ℝ} (ha : a ≤ 0) : (a : ℂ) ^ (1 / 2 : ℂ) = (√(-a) : ℝ) * Complex.I := by
  have hturn : Complex.exp (Real.pi * Complex.I * (1 / 2 : ℂ)) = Complex.I := by
    rw [show (Real.pi : ℂ) * Complex.I * (1 / 2 : ℂ) = ((Real.pi / 2 : ℝ) : ℂ) * Complex.I by push_cast; ring,
      Complex.exp_mul_I, ← Complex.ofReal_cos, ← Complex.ofReal_sin, Real.cos_pi_div_two, Real.sin_pi_div_two]
    simp
  rw [Complex.ofReal_cpow_of_nonpos ha, hturn, ← Complex.ofReal_neg, cpow_half_of_nonneg (by linarith)]

theorem sqrt_add_le {a u : ℝ} (ha : 1 ≤ a) (hu : 0 ≤ u) : √(a + u) ≤ √a + u := by
  have hroot : 1 ≤ √a := Real.one_le_sqrt.mpr ha
  have hsq := Real.sq_sqrt (by linarith : 0 ≤ a)
  rw [Real.sqrt_le_left (by linarith)]
  nlinarith

end Principal

section Accuracy

/-- A format reaches at most one unit further below zero than above. -/
theorem FixedKind.neg_minInner_le (k : FixedKind) : -k.repr.minInner ≤ k.repr.maxInner + 1 := by
  cases k <;> decide

theorem sqrtNewton_real_near (k : FixedKind) {y : k.Number} (hy : 0 < y.inner) :
    |(fixedSqrtNewton y).toReal - √y.toReal| ≤ 2 * k.repr.unit := by
  obtain ⟨v, hv⟩ := Int.eq_ofNat_of_zero_le hy.le
  obtain ⟨-, -, hlow, hhigh⟩ := fixedSqrtNewton_real k.sqrtBounds hv (by omega)
  have hu := k.repr.unit_pos
  rw [abs_le]
  constructor <;> linarith

/-- The absolute value is exact but for the least value, which loses one unit. -/
theorem saturatingAbs_cases (k : FixedKind) {x : k.Number} (hx : x.inner < 0) :
    x.saturatingAbs.inner = -x.inner ∨
      x.saturatingAbs.inner = k.repr.maxInner ∧ -x.inner = k.repr.maxInner + 1 := by
  have hmin := x.min_le
  have hreach := k.neg_minInner_le
  rw [saturatingAbs, abs_of_neg hx, clamp_of_nonneg (by omega)]
  omega

theorem saturatingAbs_root (k : FixedKind) {x : k.Number} (hx : x.inner < 0) :
    0 < x.saturatingAbs.inner ∧ |√x.saturatingAbs.toReal - √(-x.toReal)| ≤ k.repr.unit := by
  have hu := k.repr.unit_pos
  have hmax := k.repr.one_le_max
  rcases saturatingAbs_cases k hx with h | ⟨h, hlast⟩
  · have hsame : x.saturatingAbs.toReal = -x.toReal := by
      rw [toReal, h, toReal]
      push_cast
      exact neg_div _ _
    rw [hsame, sub_self, abs_zero]
    exact ⟨by omega, hu.le⟩
  · have hnext : -x.toReal = x.saturatingAbs.toReal + k.repr.unit := by
      rw [toReal, toReal, h, FixedRepr.unit, ← neg_div, ← add_div]
      congr 1
      exact_mod_cast hlast
    have hone : 1 ≤ x.saturatingAbs.toReal := by
      rw [← toReal_one, toReal_le_toReal, h]
      exact FixedNumber.le_max one
    have hle := sqrt_add_le hone hu.le
    have hmono := Real.sqrt_le_sqrt (by linarith : x.saturatingAbs.toReal ≤ x.saturatingAbs.toReal + k.repr.unit)
    rw [hnext, abs_le]
    exact ⟨by omega, by constructor <;> linarith⟩

/-- The root of every number is there, and within three units of the principal one. -/
theorem complexSqrt_accurate (k : FixedKind) (x : k.Number) :
    ∃ z, complexSqrt x = some z ∧ ‖z.value - (x.toReal : ℂ) ^ (1 / 2 : ℂ)‖ ≤ 3 * k.repr.unit := by
  have hu := k.repr.unit_pos
  unfold complexSqrt
  split_ifs with hzero hneg
  · refine ⟨_, rfl, ?_⟩
    rw [hzero, toReal_zero, cpow_half_of_nonneg le_rfl, Real.sqrt_zero]
    have hvalue : (⟨zero, zero⟩ : ComplexNumber k.repr).value = 0 :=
      Complex.ext toReal_zero toReal_zero
    rw [hvalue]
    simpa using hu.le
  · refine ⟨_, rfl, ?_⟩
    have hx : x.toReal ≤ 0 := by
      rw [← toReal_zero (F := k.repr), toReal_le_toReal]
      exact hneg.le
    obtain ⟨hpos, habs⟩ := saturatingAbs_root k hneg
    have hnear := sqrtNewton_real_near k hpos
    have hvalue : (⟨zero, fixedSqrtNewton x.saturatingAbs⟩ : ComplexNumber k.repr).value =
        ((fixedSqrtNewton x.saturatingAbs).toReal : ℝ) * Complex.I :=
      Complex.ext (by simp [ComplexNumber.value]) (by simp [ComplexNumber.value])
    rw [cpow_half_of_nonpos hx, hvalue, ← sub_mul, ← Complex.ofReal_sub, norm_mul, Complex.norm_I, mul_one,
      Complex.norm_real, Real.norm_eq_abs]
    have htriangle := abs_sub_le (fixedSqrtNewton x.saturatingAbs).toReal √x.saturatingAbs.toReal √(-x.toReal)
    linarith
  · refine ⟨_, rfl, ?_⟩
    have hpos : 0 < x.inner := by
      have hne : x.inner ≠ 0 := fun h => hzero (FixedNumber.ext h)
      omega
    have hnear := sqrtNewton_real_near k hpos
    have hvalue : (⟨fixedSqrtNewton x, zero⟩ : ComplexNumber k.repr).value = ((fixedSqrtNewton x).toReal : ℝ) :=
      Complex.ext rfl toReal_zero
    rw [cpow_half_of_nonneg (toReal_nonneg.mpr hpos.le), hvalue, ← Complex.ofReal_sub, Complex.norm_real,
      Real.norm_eq_abs]
    linarith

end Accuracy

end FrameSuite
