import FrameSuite.FixedBridge
import FrameSuite.TaylorRounding

/-! Fixed-point numbers as real numbers: what each operation loses against the exact one. -/

namespace FrameSuite

open FixedNumber

variable {F : FixedRepr}

namespace FixedRepr

/-- The unit in the last place. -/
noncomputable def unit (F : FixedRepr) : ℝ := 1 / F.div

/-- What the four formats have in common. -/
structure Decimal (F : FixedRepr) : Prop where
  le_div : 10 ^ 9 ≤ F.div
  div_le : F.div ≤ 10 ^ 18
  decimals_eq : F.div = 10 ^ F.decimals
  sq_le_max : (F.div : Int) * F.div ≤ F.maxInner
  max_le : F.maxInner ≤ F.div * 4 * 10 ^ 20
  signed : F.minInner = 0 ∨ F.minInner ≤ -(F.div * F.div : Int)

theorem div_pos_real (F : FixedRepr) : (0 : ℝ) < F.div := by exact_mod_cast F.div_pos

theorem unit_pos (F : FixedRepr) : 0 < F.unit := one_div_pos.mpr F.div_pos_real

theorem div_mul_unit (F : FixedRepr) : F.div * F.unit = 1 := mul_one_div_cancel F.div_pos_real.ne'

theorem Decimal.unit_le (h : F.Decimal) : F.unit ≤ 1 / 10 ^ 9 := by
  have hle : ((10 : ℝ) ^ 9) ≤ F.div := by exact_mod_cast h.le_div
  exact one_div_le_one_div_of_le (by norm_num) hle

theorem Decimal.mul_le_max (h : F.Decimal) {n : Int} (hn : n ≤ 10 ^ 9) : n * F.div ≤ F.maxInner := by
  have hD : (10 ^ 9 : Int) ≤ F.div := by exact_mod_cast h.le_div
  exact (Int.mul_le_mul_of_nonneg_right (hn.trans hD) F.div_pos'.le).trans h.sq_le_max

end FixedRepr

theorem FixedKind.decimal (k : FixedKind) : k.repr.Decimal := by
  cases k <;> exact ⟨by decide, by decide, by decide, by decide, by decide, by decide⟩

namespace FixedNumber

noncomputable def toReal (x : FixedNumber F) : ℝ := x.inner / F.div

@[simp] theorem toReal_one : (one : FixedNumber F).toReal = 1 := by
  have hne := F.div_pos_real.ne'
  change ((F.div : Int) : ℝ) / F.div = 1
  rw [Int.cast_natCast]
  exact div_self hne

@[simp] theorem toReal_zero : (zero : FixedNumber F).toReal = 0 := by
  change ((0 : Int) : ℝ) / F.div = 0
  simp

theorem inner_eq (x : FixedNumber F) : (x.inner : ℝ) = F.div * x.toReal :=
  (mul_div_cancel₀ _ F.div_pos_real.ne').symm

theorem toReal_le_toReal {x y : FixedNumber F} : x.toReal ≤ y.toReal ↔ x.inner ≤ y.inner := by
  rw [toReal, toReal, div_le_div_iff_of_pos_right F.div_pos_real]
  exact Int.cast_le

theorem toReal_lt_toReal {x y : FixedNumber F} : x.toReal < y.toReal ↔ x.inner < y.inner := by
  rw [toReal, toReal, div_lt_div_iff_of_pos_right F.div_pos_real]
  exact Int.cast_lt

theorem toReal_nonneg {x : FixedNumber F} : 0 ≤ x.toReal ↔ 0 ≤ x.inner := by
  rw [← toReal_zero (F := F), toReal_le_toReal]
  rfl

theorem one_inner_nonneg : 0 ≤ (one : FixedNumber F).inner := F.div_pos'.le

theorem toReal_le_max (x : FixedNumber F) : x.toReal ≤ (maxValue : FixedNumber F).toReal :=
  toReal_le_toReal.mpr x.le_max

theorem product_real (x y : FixedNumber F) :
    ((x.inner * y.inner : Int) : ℝ) / ((F.div : Int) : ℝ) = F.div * (x.toReal * y.toReal) := by
  have hne := F.div_pos_real.ne'
  push_cast
  rw [inner_eq x, inner_eq y]
  field_simp

theorem quotient_real (x y : FixedNumber F) :
    ((x.inner * F.div : Int) : ℝ) / (y.inner : ℝ) = F.div * (x.toReal / y.toReal) := by
  have hne := F.div_pos_real.ne'
  push_cast
  rw [inner_eq x, inner_eq y]
  field_simp

theorem one_le_toReal {z : FixedNumber F} : 1 ≤ z.toReal ↔ (F.div : Int) ≤ z.inner := by
  rw [← toReal_one (F := F), toReal_le_toReal, one_inner]

theorem toReal_le_one {z : FixedNumber F} : z.toReal ≤ 1 ↔ z.inner ≤ F.div := by
  rw [← toReal_one (F := F), toReal_le_toReal, one_inner]

theorem toReal_pos {x : FixedNumber F} (hx : 0 < x.inner) : 0 < x.toReal := by
  rw [← toReal_zero (F := F), toReal_lt_toReal]
  exact hx

theorem unit_le_toReal {x : FixedNumber F} (hx : 0 < x.inner) : F.unit ≤ x.toReal := by
  have hone : (1 : ℝ) ≤ x.inner := by exact_mod_cast hx
  exact div_le_div_of_nonneg_right hone F.div_pos_real.le

section Toward

theorem clamp_toward (n : Int) : Toward ((clamp n : FixedNumber F).inner : ℝ) n := by
  have hmin := F.min_nonpos
  have hmax := F.one_le_max
  rw [clamp_inner]
  rcases Int.le_total 0 n with h | h
  · left
    exact ⟨by exact_mod_cast (by omega : 0 ≤ max F.minInner (min n F.maxInner)),
      by exact_mod_cast (by omega : max F.minInner (min n F.maxInner) ≤ n)⟩
  · right
    exact ⟨by exact_mod_cast (by omega : n ≤ max F.minInner (min n F.maxInner)),
      by exact_mod_cast (by omega : max F.minInner (min n F.maxInner) ≤ 0)⟩

theorem ofInner?_toward (n : Int) : Toward ((((ofInner? n).getD zero : FixedNumber F).inner : Int) : ℝ) n := by
  cases h : (ofInner? n : Option (FixedNumber F)) with
  | none =>
    rw [Option.getD_none, zero_inner, Int.cast_zero]
    exact Toward.zero _
  | some x =>
    rw [Option.getD_some, ofInner?_eq_some.mp h]
    exact Toward.refl _

theorem toReal_toward {x : FixedNumber F} {q : ℝ} (h : Toward (x.inner : ℝ) (F.div * q)) : Toward x.toReal q := by
  have hdiv := h.div F.div_pos_real.le
  rwa [mul_div_cancel_left₀ _ F.div_pos_real.ne'] at hdiv

variable (x y : FixedNumber F)

theorem checkedMul_toward : Toward ((x.checkedMul y).getD zero).toReal (x.toReal * y.toReal) := by
  refine toReal_toward ((ofInner?_toward _).trans ?_)
  rw [← product_real]
  exact tdiv_toward _ F.div_pos'

theorem saturatingMul_toward : Toward (x.saturatingMul y).toReal (x.toReal * y.toReal) := by
  refine toReal_toward ((clamp_toward _).trans ?_)
  rw [← product_real]
  exact tdiv_toward _ F.div_pos'

theorem saturatingAdd_toward : Toward (x.saturatingAdd y).toReal (x.toReal + y.toReal) := by
  refine toReal_toward ((clamp_toward _).trans ?_)
  rw [mul_add, ← inner_eq, ← inner_eq]
  push_cast
  exact Toward.refl _

theorem saturatingSub_toward : Toward (x.saturatingSub y).toReal (x.toReal - y.toReal) := by
  refine toReal_toward ((clamp_toward _).trans ?_)
  rw [mul_sub, ← inner_eq, ← inner_eq]
  push_cast
  exact Toward.refl _

variable {x y}

theorem checkedDiv_toward (hy : 0 < y.inner) : Toward ((x.checkedDiv y).getD zero).toReal (x.toReal / y.toReal) := by
  have hdiv : x.checkedDiv y = ofInner? ((x.inner * F.div).tdiv y.inner) := if_neg hy.ne'
  rw [hdiv]
  refine toReal_toward ((ofInner?_toward _).trans ?_)
  rw [← quotient_real]
  exact tdiv_toward _ hy

end Toward

section Product

variable {x y : FixedNumber F}

theorem saturatingMul_nonneg (hx : 0 ≤ x.inner) (hy : 0 ≤ y.inner) : 0 ≤ (x.saturatingMul y).inner := by
  have hprod := mul_nonneg (toReal_nonneg.mpr hx) (toReal_nonneg.mpr hy)
  exact toReal_nonneg.mp ((saturatingMul_toward x y).of_nonneg hprod).1

theorem div_le_product (hx : 1 ≤ x.toReal) (hy : 1 ≤ y.toReal) : (F.div : Int) ≤ (x.inner * y.inner).tdiv F.div := by
  have hD := F.div_pos'
  have hx1 : (F.div : Int) ≤ x.inner :=
    toReal_le_toReal.mp (by rw [toReal_one]; exact hx : (one : FixedNumber F).toReal ≤ _)
  have hy1 : (F.div : Int) ≤ y.inner :=
    toReal_le_toReal.mp (by rw [toReal_one]; exact hy : (one : FixedNumber F).toReal ≤ _)
  exact Int.le_tdiv_of_mul_le hD (Int.mul_le_mul hx1 hy1 hD.le (by omega))

/-- A product of numbers from one on loses at most a unit relative to itself, unless it exceeds the type. -/
theorem le_saturatingMul (hx : 1 ≤ x.toReal) (hy : 1 ≤ y.toReal) :
    1 ≤ (x.saturatingMul y).toReal ∧
      (x.saturatingMul y = maxValue ∨ x.toReal * y.toReal * (1 - F.unit) ≤ (x.saturatingMul y).toReal) := by
  have hD := F.div_pos_real
  have hone : 1 ≤ x.toReal * y.toReal := one_le_mul_of_one_le_of_one_le hx hy
  have hcut := div_lt_tdiv_add_one (x.inner * y.inner) F.div_pos'
  rw [product_real] at hcut
  have hdiv := div_le_product hx hy
  have hmin := F.min_nonpos
  have hle := F.div_le
  constructor
  · rw [← toReal_one (F := F), toReal_le_toReal]
    exact le_clamp_of_le hdiv hle
  · rcases le_or_gt ((x.inner * y.inner).tdiv F.div) F.maxInner with hin | hout
    · right
      have hinner : (x.saturatingMul y).inner = (x.inner * y.inner).tdiv F.div :=
        clamp_of_mem (by omega) hin
      have hvalue : (x.saturatingMul y).toReal = ((x.inner * y.inner).tdiv F.div : Int) / F.div := by
        rw [toReal, hinner]
      rw [hvalue, le_div_iff₀ hD, FixedRepr.unit]
      have hloss : x.toReal * y.toReal * (1 - 1 / (F.div : ℝ)) * F.div =
          F.div * (x.toReal * y.toReal) - x.toReal * y.toReal := by
        field_simp
      rw [hloss]
      linarith
    · left
      refine FixedNumber.ext ?_
      rw [saturatingMul_inner, clamp_inner, maxValue_inner]
      omega

theorem checkedMul_real (hx : 1 ≤ x.toReal) (hy : 1 ≤ y.toReal) :
    (∃ w, x.checkedMul y = some w ∧ 1 ≤ w.toReal ∧ w.toReal ≤ x.toReal * y.toReal ∧
      x.toReal * y.toReal - F.unit ≤ w.toReal) ∨
      (x.checkedMul y = none ∧ (maxValue : FixedNumber F).toReal ≤ x.toReal * y.toReal) := by
  have hD := F.div_pos_real
  have hdiv := div_le_product hx hy
  have hcut := div_lt_tdiv_add_one (x.inner * y.inner) F.div_pos'
  have hnum : 0 ≤ x.inner * y.inner :=
    Int.mul_nonneg (toReal_nonneg.mp (by linarith)) (toReal_nonneg.mp (by linarith))
  have hle := tdiv_le_div hnum F.div_pos'
  rw [product_real] at hcut hle
  cases hres : x.checkedMul y with
  | some w =>
    left
    have hw := checkedMul_eq_some.mp hres
    refine ⟨w, rfl, ?_, ?_, ?_⟩
    · rw [← toReal_one (F := F), toReal_le_toReal, hw]
      exact hdiv
    · rw [toReal, hw, div_le_iff₀ hD, mul_comm (x.toReal * _)]
      exact hle
    · have hvalue : w.toReal = ((x.inner * y.inner).tdiv F.div : Int) / F.div := by rw [toReal, hw]
      rw [hvalue, le_div_iff₀ hD, sub_mul, mul_comm F.unit, F.div_mul_unit]
      linarith
  | none =>
    right
    have hmin := F.min_nonpos
    have hpos := F.div_pos'
    have hout : F.maxInner < (x.inner * y.inner).tdiv F.div :=
      (ofInner?_eq_none.mp hres).resolve_left (by omega)
    refine ⟨rfl, ?_⟩
    rw [toReal, div_le_iff₀ hD, mul_comm (x.toReal * _)]
    have hout' : (F.maxInner : ℝ) ≤ ((x.inner * y.inner).tdiv F.div : Int) := by exact_mod_cast hout.le
    exact hout'.trans hle

theorem checkedMul_of_le_one (hx : 0 ≤ x.toReal) (hx' : x.toReal ≤ 1) (hy : 0 ≤ y.toReal) (hy' : y.toReal ≤ 1) :
    ∃ w, x.checkedMul y = some w ∧ 0 ≤ w.toReal ∧ w.toReal ≤ 1 ∧
      |w.toReal - x.toReal * y.toReal| ≤ F.unit := by
  have hD := F.div_pos_real
  have hnum : 0 ≤ x.inner * y.inner := Int.mul_nonneg (toReal_nonneg.mp hx) (toReal_nonneg.mp hy)
  have hle := tdiv_le_div hnum F.div_pos'
  have hnear := abs_tdiv_sub_le (x.inner * y.inner) F.div_pos'
  rw [product_real] at hle hnear
  have hnonneg := Int.tdiv_nonneg hnum F.div_pos'.le
  have hone : (x.inner * y.inner).tdiv F.div ≤ F.div := by
    have hprod : x.toReal * y.toReal ≤ 1 := mul_le_one₀ hx' hy hy'
    have hreal : (((x.inner * y.inner).tdiv F.div : Int) : ℝ) ≤ F.div :=
      hle.trans (mul_le_of_le_one_right hD.le hprod)
    exact_mod_cast hreal
  refine ⟨⟨(x.inner * y.inner).tdiv F.div, F.min_nonpos.trans hnonneg, hone.trans F.div_le⟩,
    checkedMul_eq_some.mpr rfl, toReal_nonneg.mpr hnonneg, ?_, ?_⟩
  · rw [← toReal_one (F := F), toReal_le_toReal]
    exact hone
  · rw [toReal, FixedRepr.unit, le_div_iff₀ hD, ← abs_of_pos hD, ← abs_mul, abs_of_pos hD, sub_mul,
      div_mul_cancel₀ _ hD.ne', mul_comm (x.toReal * _)]
    exact hnear

/-- The inverse of a number from one on loses less than a unit. -/
theorem checkedDiv_one_real (hx : 1 ≤ x.toReal) :
    ∃ w, (one : FixedNumber F).checkedDiv x = some w ∧ 0 ≤ w.toReal ∧ w.toReal ≤ 1 / x.toReal ∧
      1 / x.toReal - F.unit ≤ w.toReal := by
  have hD := F.div_pos'
  have hDr := F.div_pos_real
  have hinner := one_le_toReal.mp hx
  have hpos : 0 < x.inner := hD.trans_le hinner
  have hnum : (0 : Int) ≤ F.div * F.div := Int.mul_nonneg hD.le hD.le
  have hle := tdiv_le_div hnum hpos
  have hlt := div_lt_tdiv_add_one ((F.div : Int) * F.div) hpos
  have hreal : (((F.div : Int) * F.div : Int) : ℝ) / (x.inner : ℝ) = F.div * (1 / x.toReal) := by
    have hquot := quotient_real (one : FixedNumber F) x
    rwa [toReal_one, one_inner] at hquot
  rw [hreal] at hle hlt
  have hnonneg := Int.tdiv_nonneg hnum hpos.le
  have hone : ((F.div : Int) * F.div).tdiv x.inner ≤ F.div := by
    rw [Int.tdiv_eq_ediv_of_nonneg hnum]
    exact Int.ediv_le_of_le_mul hpos (Int.mul_le_mul_of_nonneg_left hinner hD.le)
  refine ⟨⟨((F.div : Int) * F.div).tdiv x.inner, F.min_nonpos.trans hnonneg, hone.trans F.div_le⟩,
    checkedDiv_eq_some.mpr ⟨hpos.ne', rfl⟩, toReal_nonneg.mpr hnonneg, ?_, ?_⟩
  · rw [toReal, div_le_iff₀ hDr, mul_comm (1 / _)]
    exact hle
  · change _ ≤ ((((F.div : Int) * F.div).tdiv x.inner : Int) : ℝ) / F.div
    rw [le_div_iff₀ hDr, sub_mul, mul_comm F.unit, F.div_mul_unit]
    linarith

end Product

end FixedNumber

end FrameSuite
