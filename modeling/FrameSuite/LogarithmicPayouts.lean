import FrameSuite.PolynomialPayouts
import FrameSuite.PowPrecision

/-! The payout by a logarithm. It is never above the exact curve by more than the error of the logarithm, and below
it by no more than that and a whole as long as nothing saturates. -/

namespace FrameSuite

open FixedNumber IntValue

variable {F : FixedRepr} {t : IntType}

structure LogarithmicConfig (F : FixedRepr) where
  verticalScale : FixedNumber F
  horizontalScale : FixedNumber F
  horizontalShift : FixedNumber F
  verticalShift : FixedNumber F

def logarithmicPayout (input : IntValue t) (context : LogarithmicConfig t.fixedPoint.repr) : IntValue t :=
  let inner := (context.horizontalScale.saturatingMul input.toFixed).saturatingAdd context.horizontalShift
  let lnVal := (fixedLn inner).getD FixedNumber.zero
  fromFixed ((context.verticalScale.saturatingMul lnVal).saturatingAdd context.verticalShift)

structure LogarithmicConfig.Nonneg (context : LogarithmicConfig F) : Prop where
  verticalScale : 0 ≤ context.verticalScale.inner
  horizontalScale : 0 ≤ context.horizontalScale.inner
  horizontalShift : 0 ≤ context.horizontalShift.inner
  verticalShift : 0 ≤ context.verticalShift.inner

/-- What the curve takes the logarithm of. -/
noncomputable def LogarithmicConfig.argument (context : LogarithmicConfig F) (n : Int) : ℝ :=
  context.horizontalScale.toReal * n + context.horizontalShift.toReal

/-- The curve for a logarithm. -/
noncomputable def LogarithmicConfig.curve (context : LogarithmicConfig F) (l : ℝ) : ℝ :=
  context.verticalScale.toReal * l + context.verticalShift.toReal

theorem LogarithmicConfig.curve_le {context : LogarithmicConfig F} (hcontext : context.Nonneg) {l m : ℝ}
    (h : l ≤ m) : context.curve l ≤ context.curve m :=
  add_le_add_left (mul_le_mul_of_nonneg_left h (toReal_nonneg.mpr hcontext.verticalScale)) _

theorem Toward.le_of_le {m n q : ℝ} (h : Toward m n) (hn : n ≤ q) (hq : 0 ≤ q) : m ≤ q := by
  rcases h with h | h
  · exact h.2.trans hn
  · exact h.2.trans hq

section Sums

variable {x y : FixedNumber F}

theorem saturatingAdd_fits (hx : 0 ≤ x.inner) (hy : 0 ≤ y.inner)
    (h : x.toReal + y.toReal ≤ (maxValue : FixedNumber F).toReal) :
    (x.saturatingAdd y).toReal = x.toReal + y.toReal := by
  have hle : x.inner + y.inner ≤ F.maxInner := by
    have hD := F.div_pos_real
    rw [toReal, toReal, toReal, ← add_div, div_le_div_iff_of_pos_right hD] at h
    exact_mod_cast h
  rw [toReal, saturatingAdd_of_nonneg hx hy, min_eq_left hle, toReal, toReal, ← add_div]
  push_cast
  rfl

/-- The logarithm counts as zero where it is missing. -/
theorem fixedLn_getD_le (hF : F.Decimal) (hS : SqrtBounds F) {z : ℝ} (h : y.toReal ≤ z) :
    ((fixedLn y).getD FixedNumber.zero).toReal ≤ max 0 (Real.log z) + 1 / 25000 := by
  have hmax := le_max_left 0 (Real.log z)
  rcases le_or_gt (F.div : Int) y.inner with hone | hone
  · obtain ⟨l, hl, -, hnear⟩ := fixedLn_of_one_le hF hS hone
    have hpos := toReal_pos (F.div_pos'.trans_le hone)
    have hlog := (Real.log_le_log hpos h).trans (le_max_right 0 _)
    rw [hl, Option.getD_some]
    linarith [(abs_le.mp hnear).2]
  · cases hl : fixedLn y with
    | none =>
      rw [Option.getD_none, toReal_zero]
      linarith
    | some l =>
      have hpos : 0 < y.inner := by
        by_contra hneg
        rw [fixedLn, if_pos (not_lt.mp hneg)] at hl
        cases hl
      obtain ⟨l', hl', -, hnonpos, -⟩ := fixedLn_eq_some hF hS hpos (not_isUnsigned_of_fixedLn hl)
      obtain rfl := Option.some.inj (hl.symm.trans hl')
      have hreal : l.toReal ≤ 0 :=
        div_nonpos_of_nonpos_of_nonneg (by exact_mod_cast hnonpos hone.le) F.div_pos_real.le
      rw [Option.getD_some]
      linarith

end Sums

section Payout

variable {n : IntValue t} {context : LogarithmicConfig t.fixedPoint.repr}

theorem argument_le (hn : 0 ≤ n.value) (hcontext : context.Nonneg) :
    ((context.horizontalScale.saturatingMul n.toFixed).saturatingAdd context.horizontalShift).toReal ≤
      context.argument n.value := by
  have hb := toReal_nonneg.mpr hcontext.horizontalScale
  have hc := toReal_nonneg.mpr hcontext.horizontalShift
  have hprod := (saturatingMul_toward context.horizontalScale n.toFixed).of_nonneg
    (mul_nonneg hb (toReal_nonneg.mpr (toFixed_nonneg hn)))
  have hsum := (saturatingAdd_toward (context.horizontalScale.saturatingMul n.toFixed)
    context.horizontalShift).of_nonneg (add_nonneg hprod.1 hc)
  have hle := mul_le_mul_of_nonneg_left (toFixed_toReal_le hn) hb
  unfold LogarithmicConfig.argument
  linarith

theorem le_argument (hn : 0 ≤ n.value) (hrange : InRange n) (hcontext : context.Nonneg)
    (h : context.argument n.value ≤ (maxValue : t.fixedPoint.Number).toReal) :
    context.argument n.value - t.fixedPoint.repr.unit ≤
      ((context.horizontalScale.saturatingMul n.toFixed).saturatingAdd context.horizontalShift).toReal := by
  have hb := toReal_nonneg.mpr hcontext.horizontalScale
  have hc := toReal_nonneg.mpr hcontext.horizontalShift
  have hx := toFixed_nonneg hn
  have hexact := mul_nonneg hb (toReal_nonneg.mpr hx)
  unfold LogarithmicConfig.argument at h ⊢
  rw [← toFixed_toReal_of_inRange hrange] at h ⊢
  have hfits : |context.horizontalScale.toReal * n.toFixed.toReal| ≤ (maxValue : t.fixedPoint.Number).toReal := by
    rw [abs_of_nonneg hexact]
    linarith
  have hnear := (abs_le.mp (saturatingMul_near t.fixedPoint.evenRange hfits)).1
  have hcut := ((saturatingMul_toward context.horizontalScale n.toFixed).of_nonneg hexact).2
  rw [saturatingAdd_fits (saturatingMul_nonneg hcontext.horizontalScale hx) hcontext.horizontalShift (by linarith)]
  linarith

theorem logarithmicPayout_le (hn : 0 ≤ n.value) (hcontext : context.Nonneg) :
    ((logarithmicPayout n context).value : ℝ) ≤
      context.curve (max 0 (Real.log (context.argument n.value)) + 1 / 25000) := by
  have ha := toReal_nonneg.mpr hcontext.verticalScale
  have hd := toReal_nonneg.mpr hcontext.verticalShift
  have hmax := le_max_left 0 (Real.log (context.argument n.value))
  have hln := fixedLn_getD_le t.fixedPoint.decimal t.fixedPoint.sqrtBounds (argument_le hn hcontext)
  have hscaled := mul_le_mul_of_nonneg_left hln ha
  have hscaled0 : 0 ≤ context.verticalScale.toReal *
      (max 0 (Real.log (context.argument n.value)) + 1 / 25000) := mul_nonneg ha (by linarith)
  have hprod := (saturatingMul_toward _ _).le_of_le hscaled hscaled0
  have hsum := (saturatingAdd_toward _ context.verticalShift).le_of_le (add_le_add_left hprod _)
    (add_nonneg hscaled0 hd)
  exact (fromFixed_toward _).le_of_le hsum (add_nonneg hscaled0 hd)

/-- A logarithm of a number from one on moves no more than the number. -/
theorem log_sub_le {y z u : ℝ} (hy : 1 ≤ y) (hyz : y ≤ z) (hu : z - u ≤ y) : Real.log z - u ≤ Real.log y := by
  have hy0 : 0 < y := by linarith
  have hquot := Real.log_le_sub_one_of_pos (div_pos (hy0.trans_le hyz) hy0)
  rw [Real.log_div (by linarith) hy0.ne'] at hquot
  have hdiv : z / y - 1 ≤ u := by
    rw [div_sub_one hy0.ne', div_le_iff₀ hy0]
    nlinarith
  linarith

/-- What is paid for a logarithm that fits, with its part below a whole. -/
theorem scaled_lt {l : t.fixedPoint.Number} (hcontext : context.Nonneg) (hl : 0 ≤ l.inner)
    (hfits : context.curve l.toReal ≤ min (maxValue : t.fixedPoint.Number).toReal t.max) :
    context.curve l.toReal - t.fixedPoint.repr.unit < (fromFixed
      ((context.verticalScale.saturatingMul l).saturatingAdd context.verticalShift) : IntValue t).value + 1 := by
  have ha := toReal_nonneg.mpr hcontext.verticalScale
  have hd := toReal_nonneg.mpr hcontext.verticalShift
  obtain ⟨hfits, hfits'⟩ := le_min_iff.mp hfits
  unfold LogarithmicConfig.curve at hfits hfits' ⊢
  have hexact := mul_nonneg ha (toReal_nonneg.mpr hl)
  have hnear := (abs_le.mp (saturatingMul_near t.fixedPoint.evenRange (x := context.verticalScale) (y := l)
    (by rw [abs_of_nonneg hexact]; linarith))).1
  have hcut := ((saturatingMul_toward context.verticalScale l).of_nonneg hexact).2
  have hprod := saturatingMul_nonneg hcontext.verticalScale hl
  have hsum := saturatingAdd_fits hprod hcontext.verticalShift (by linarith)
  obtain ⟨hfloor, hceil⟩ := toReal_floor
    (l := (context.verticalScale.saturatingMul l).saturatingAdd context.verticalShift)
  rw [hsum] at hfloor hceil
  have hwhole : ((context.verticalScale.saturatingMul l).saturatingAdd context.verticalShift).inner /
      t.fixedPoint.repr.div ≤ t.max := by
    exact_mod_cast hfloor.trans ((add_le_add_left hcut _).trans hfits')
  rw [fromFixed_floor (saturatingAdd_nonneg hprod hcontext.verticalShift), min_eq_left hwhole]
  linarith

theorem lt_logarithmicPayout (hn : 0 ≤ n.value) (hcontext : context.Nonneg) (hrange : InRange n)
    (hone : 1 + t.fixedPoint.repr.unit ≤ context.argument n.value)
    (hmax : context.argument n.value ≤ (maxValue : t.fixedPoint.Number).toReal)
    (hfits : context.curve (Real.log (context.argument n.value) + 1 / 25000) ≤
      min (maxValue : t.fixedPoint.Number).toReal t.max) :
    context.curve (Real.log (context.argument n.value) - 1 / 25000 - t.fixedPoint.repr.unit) -
      t.fixedPoint.repr.unit < (logarithmicPayout n context).value + 1 := by
  have hle := argument_le hn hcontext
  have hge := le_argument hn hrange hcontext hmax
  have hy : 1 ≤ ((context.horizontalScale.saturatingMul n.toFixed).saturatingAdd
    context.horizontalShift).toReal := by linarith
  obtain ⟨l, hl, hl0, hnear⟩ := fixedLn_of_one_le t.fixedPoint.decimal t.fixedPoint.sqrtBounds (one_le_toReal.mp hy)
  have hlog := log_sub_le hy hle hge
  have hlog' := Real.log_le_log (by linarith) hle
  obtain ⟨hlow, hup⟩ := abs_le.mp hnear
  have hpaid := scaled_lt hcontext hl0 ((LogarithmicConfig.curve_le hcontext (by linarith)).trans hfits)
  have hcurve := LogarithmicConfig.curve_le hcontext
    (by linarith : Real.log (context.argument n.value) - 1 / 25000 - t.fixedPoint.repr.unit ≤ l.toReal)
  unfold logarithmicPayout
  dsimp only
  rw [hl]
  exact (sub_le_sub_right hcurve _).trans_lt hpaid

/-- With parameters that are not negative the payout by a logarithm is at most the exact curve, up to the error of the
logarithm, and where nothing saturates and the argument is above one it is the whole part of it, up to that error. -/
theorem logarithmicPayout_near (hn : 0 ≤ n.value) (hcontext : context.Nonneg) :
    ((logarithmicPayout n context).value : ℝ) ≤
        context.curve (max 0 (Real.log (context.argument n.value)) + 1 / 25000) ∧
      (InRange n → 1 + t.fixedPoint.repr.unit ≤ context.argument n.value →
        context.argument n.value ≤ (maxValue : t.fixedPoint.Number).toReal →
        context.curve (Real.log (context.argument n.value) + 1 / 25000) ≤
          min (maxValue : t.fixedPoint.Number).toReal t.max →
        context.curve (Real.log (context.argument n.value) - 1 / 25000 - t.fixedPoint.repr.unit) -
          t.fixedPoint.repr.unit < (logarithmicPayout n context).value + 1) :=
  ⟨logarithmicPayout_le hn hcontext, lt_logarithmicPayout hn hcontext⟩

def tenfoldLogarithm : LogarithmicConfig IntType.u128.fixedPoint.repr :=
  ⟨saturatingFromInteger 10, one, one, FixedNumber.zero⟩

def nineAssets : IntValue .u128 := IntValue.clamp 9

theorem tenfoldLogarithm_argument : tenfoldLogarithm.argument nineAssets.value = 10 := by
  have hnine : nineAssets.value = 9 := by decide
  rw [LogarithmicConfig.argument, hnine]
  change (FixedNumber.one : FixedU128).toReal * _ + (FixedNumber.one : FixedU128).toReal = _
  rw [toReal_one]
  norm_num

theorem tenfoldLogarithm_curve (l : ℝ) : tenfoldLogarithm.curve l = 10 * l := by
  have hscale : tenfoldLogarithm.verticalScale.inner = 10 * IntType.u128.fixedPoint.repr.div := by decide
  rw [LogarithmicConfig.curve, toReal, hscale]
  change _ + (FixedNumber.zero : FixedU128).toReal = _
  rw [toReal_zero]
  push_cast
  rw [mul_div_cancel_right₀ _ IntType.u128.fixedPoint.repr.div_pos_real.ne', add_zero]

/-- Ten times the logarithm of ten is 23 and a part. -/
theorem logarithmicPayout_near_nine :
    (logarithmicPayout nineAssets tenfoldLogarithm).value = 23 ∧
      (23 : ℝ) ≤ 10 * (max 0 (Real.log 10) + 1 / 25000) ∧
      10 * (Real.log 10 - 1 / 25000 - FixedKind.fixedU128.repr.unit) - FixedKind.fixedU128.repr.unit < 24 := by
  have hvalue : (logarithmicPayout nineAssets tenfoldLogarithm).value = 23 := by decide +kernel
  obtain ⟨habove, hbelow⟩ := @logarithmicPayout_near .u128 nineAssets tenfoldLogarithm (by decide)
    ⟨by decide, by decide, by decide, by decide⟩
  rw [hvalue, tenfoldLogarithm_argument, tenfoldLogarithm_curve] at habove
  rw [hvalue, tenfoldLogarithm_argument, tenfoldLogarithm_curve, tenfoldLogarithm_curve] at hbelow
  have hunit := FixedKind.fixedU128.decimal.unit_le
  have hlarge : (10 ^ 3 : ℝ) ≤ (maxValue : FixedU128).toReal := by
    rw [toReal, le_div_iff₀ FixedKind.fixedU128.repr.div_pos_real]
    exact_mod_cast (by decide : (10 ^ 3 * FixedKind.fixedU128.repr.div : Int) ≤ FixedKind.fixedU128.repr.maxInner)
  have hlog := Real.log_le_sub_one_of_pos (by norm_num : (0 : ℝ) < 10)
  have hmax : (10 ^ 3 : ℝ) ≤ (IntType.max .u128 : Int) := by
    exact_mod_cast (by decide : (10 ^ 3 : Int) ≤ IntType.max .u128)
  refine ⟨hvalue, by exact_mod_cast habove, ?_⟩
  have hlt := hbelow ⟨by decide, by decide⟩
    ((add_le_add_right hunit 1).trans (by norm_num)) ((by norm_num : (10 : ℝ) ≤ 10 ^ 3).trans hlarge)
    (le_min ((by linarith : 10 * (Real.log 10 + 1 / 25000) ≤ (10 ^ 3 : ℝ)).trans hlarge)
      ((by linarith : 10 * (Real.log 10 + 1 / 25000) ≤ (10 ^ 3 : ℝ)).trans hmax))
  exact hlt.trans_eq (by norm_num)

end Payout

end FrameSuite
