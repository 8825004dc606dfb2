import FrameSuite.PolynomialPayouts
import FrameSuite.PowPrecision

/-! The payout by an annual rate. What the payouts of a year compound to does not exceed the rate by more than the
error of the power, which is a few units for each payout. -/

namespace FrameSuite

open FixedNumber IntValue

variable {F : FixedRepr} {t : IntType}

structure FixedAnnualConfig (t : IntType) where
  apr : t.fixedPoint.Number
  timeCount : IntValue t

/-- A power that overflows is taken for the largest number. -/
def periodPower (base exponent : FixedNumber F) : FixedNumber F := (fixedPow base exponent).getD maxValue

def fixedAnnualPayout (input : IntValue t) (context : FixedAnnualConfig t) : IntValue t :=
  let n := context.timeCount.toFixed
  if n = FixedNumber.zero then fromFixed FixedNumber.zero
  else
    let base := one.saturatingAdd context.apr
    let exponent := (one.checkedDiv n).getD FixedNumber.zero
    let epr := (periodPower base exponent).saturatingSub one
    fromFixed (input.toFixed.saturatingMul epr)

section Roots

variable {x e w : FixedNumber F}

theorem pos_of_one_le (hx : 1 ≤ x.toReal) : 0 < x.inner := F.div_pos'.trans_le (one_le_toReal.mp hx)

/-- An exponent from zero to one is whole at its ends only. -/
theorem whole_exponent {n : Int} (he : 0 ≤ e.toReal) (he' : e.toReal ≤ 1) (h : fixedToI128? e = some n) :
    n = 0 ∨ n = 1 := by
  obtain ⟨-, hn⟩ := fixedToI128?_eq_some.mp h
  have hD := F.div_pos'
  have hlow := toReal_nonneg.mp he
  have hhigh := toReal_le_one.mp he'
  rw [hn] at hlow hhigh
  have hn0 : 0 ≤ n := by
    by_contra hneg
    have hmul := Int.mul_le_mul_of_nonneg_right (by omega : n ≤ -1) hD.le
    omega
  have hn1 : n ≤ 1 := by
    by_contra hlarge
    have hmul := Int.mul_le_mul_of_nonneg_right (by omega : 2 ≤ n) hD.le
    omega
  omega

theorem fixedPowi_one_le (hB : EvenRange F) (hx : 1 ≤ x.toReal) :
    (fixedPowiPositive x 1).toReal ≤ x.toReal * (1 + F.unit) := by
  have habs : |x.toReal| = x.toReal := abs_of_nonneg (by linarith)
  have hfits : |x.toReal| ^ 1 ≤ (maxValue : FixedNumber F).toReal := by
    rw [pow_one, habs]
    exact toReal_le_max x
  have hnear := fixedPowiPositive_near hB (by norm_num) hfits
  rw [habs, max_eq_right hx, pow_one, Nat.cast_one, one_mul] at hnear
  have hle := (abs_le.mp hnear).2
  linarith

/-- The root of a number from one on, with its error as a factor. -/
theorem fixedPow_root_le (hF : F.Decimal) (hS : SqrtBounds F) (hB : EvenRange F) (hx : 1 ≤ x.toReal)
    (he : 0 ≤ e.toReal) (he' : e.toReal ≤ 1) (h : fixedPow x e = some w) :
    w.toReal ≤ x.toReal ^ e.toReal * Real.exp (powError x e + 61 * F.unit) := by
  have hu := F.unit_pos
  have hx0 := pos_of_one_le hx
  have hpow := Real.one_le_rpow hx he
  have herr : F.unit ≤ powError x e := by
    have hterm : 0 ≤ |e.toReal| * (110 * (1 + 6 * |Real.log x.toReal|) * rootError x) := by
      rw [rootError_of_one_le hx]
      positivity
    unfold powError
    linarith
  have hexp := Real.add_one_le_exp (powError x e + 61 * F.unit)
  have hone : 1 ≤ x.toReal ^ e.toReal * Real.exp (powError x e + 61 * F.unit) :=
    one_le_mul_of_one_le_of_one_le hpow (by linarith)
  have hcase := fixedPow_case x e
  rw [h] at hcase
  generalize hr : some w = r at hcase
  cases hcase with
  | zeroBase h0 => cases hr
  | zero h0 => rw [h0] at hx0; exact absurd hx0 (lt_irrefl _)
  | notReal h0 => omega
  | one h0 hone' =>
    obtain rfl := Option.some.inj hr
    rwa [toReal_one]
  | whole h0 hn =>
    rcases whole_exponent he he' hn with rfl | rfl
    · obtain rfl := Option.some.inj hr
      rwa [toReal_one]
    · obtain rfl := Option.some.inj hr
      have heone : e.toReal = 1 := by
        obtain ⟨-, heq⟩ := fixedToI128?_eq_some.mp hn
        rw [toReal, heq, one_mul, Int.cast_natCast]
        exact div_self F.div_pos_real.ne'
      rw [heone, Real.rpow_one]
      refine (fixedPowi_one_le hB hx).trans (mul_le_mul_of_nonneg_left ?_ (by linarith))
      linarith
  | fractional =>
    have hnear := (powExpLn_near hF hS hx0 hr.symm).2
    rw [Real.exp_add, ← mul_assoc]
    have hfactor : 1 ≤ x.toReal ^ e.toReal * Real.exp (powError x e) :=
      one_le_mul_of_one_le_of_one_le hpow (Real.one_le_exp (hu.le.trans herr))
    have hunits := Real.add_one_le_exp (61 * F.unit)
    nlinarith

/-- Up to the square root a power cannot overflow. -/
theorem fixedPow_root_isSome (hF : F.Decimal) (hS : SqrtBounds F) (hx : 1 ≤ x.toReal) (he : 0 ≤ e.toReal)
    (he' : e = one ∨ e.toReal ≤ 1 / 2) : ∃ w, fixedPow x e = some w := by
  have hu := F.unit_pos
  have hu' := hF.unit_le
  have hx0 := pos_of_one_le hx
  have hle : e.toReal ≤ 1 := by
    rcases he' with rfl | he'
    · exact toReal_one.le
    · linarith
  rw [← Option.ne_none_iff_exists']
  intro hnone
  have hcase := fixedPow_case x e
  rw [hnone] at hcase
  generalize hr : (none : Option (FixedNumber F)) = r at hcase
  cases hcase with
  | zeroBase h0 => rw [h0] at hx0; exact absurd hx0 (lt_irrefl _)
  | zero h0 => cases hr
  | notReal h0 => omega
  | one h0 hone => cases hr
  | whole h0 hn => rcases whole_exponent he hle hn with rfl | rfl <;> cases hr
  | fractional h0 hn =>
    have hhalf : e.toReal ≤ 1 / 2 := by
      refine he'.resolve_left fun hone => ?_
      rw [hone, fixedToI128?_eq_some.mpr ⟨?_, (one_mul _).symm⟩] at hn
      · cases hn
      · have hD : (F.div : Int) ≤ 10 ^ 18 := by exact_mod_cast hF.div_le
        exact hD.trans (by norm_num)
    have hdomain : ¬(isUnsigned F ∧ x.inner < (one : FixedNumber F).inner) := fun h =>
      absurd h.2 (not_lt.mpr (one_le_toReal.mp hx))
    obtain ⟨l, hl, hnear⟩ := fixedLn_near hF hS hx0 hdomain
    have hexp : fixedExp (e.saturatingMul l) = none := by
      rw [powExpLn, hl] at hr
      exact hr.symm
    have hlog0 := Real.log_nonneg hx
    have hlogmax := Real.log_le_log (by linarith) (toReal_le_max x)
    have hmax48 := fortyEight_le_max hF
    have hL := Real.one_sub_inv_le_log_of_pos (by linarith : 0 < (maxValue : FixedNumber F).toReal)
    have hinv : (maxValue : FixedNumber F).toReal⁻¹ ≤ 1 / 48 := by
      rw [inv_eq_one_div]
      exact one_div_le_one_div_of_le (by norm_num) hmax48
    have hz := (Real.log_le_iff_le_exp (by linarith)).mpr (fixedExp_none hF hexp)
    rw [rootError_of_one_le hx, abs_of_nonneg hlog0] at hnear
    have herr : 110 * (1 + 6 * Real.log x.toReal) * F.unit ≤
        110 * (1 + 6 * Real.log (maxValue : FixedNumber F).toReal) * (1 / 10 ^ 9) :=
      mul_le_mul (by linarith) hu' hu.le (by linarith)
    have hlle := (abs_le.mp hnear).2
    rcases saturatingMul_toward e l with ⟨-, hle'⟩ | ⟨-, hle'⟩
    · nlinarith
    · linarith

end Roots

section Compounding

theorem pow_le_of_root {b e w d : ℝ} {n : Nat} (hb : 1 ≤ b) (hen : e * n ≤ 1) (hw0 : 0 ≤ w)
    (hw : w ≤ b ^ e * Real.exp d) : w ^ n ≤ b * Real.exp (n * d) := by
  have hb0 : 0 ≤ b := zero_le_one.trans hb
  calc w ^ n ≤ (b ^ e * Real.exp d) ^ n := pow_le_pow_left₀ hw0 hw n
    _ = b ^ (e * n) * Real.exp (n * d) := by
        rw [mul_pow, ← Real.rpow_natCast, ← Real.rpow_mul hb0, ← Real.exp_nat_mul]
    _ ≤ b ^ (1 : ℝ) * Real.exp (n * d) :=
        mul_le_mul_of_nonneg_right (Real.rpow_le_rpow_of_exponent_le hb hen) (Real.exp_pos _).le
    _ = b * Real.exp (n * d) := by rw [Real.rpow_one]

/-- The error of the power over a year: what the logarithm is off by once, and 62 units for each payout. -/
theorem year_powError_le {base e : FixedNumber F} {apr : ℝ} {n : Nat} (hbase : 1 ≤ base.toReal)
    (hle : base.toReal ≤ 1 + apr) (he : 0 ≤ e.toReal) (hen : e.toReal * n ≤ 1) :
    n * (powError base e + 61 * F.unit) ≤ F.unit * (110 * (1 + 6 * Real.log (1 + apr)) + 62 * n) := by
  have hu := F.unit_pos
  have hlog0 := Real.log_nonneg hbase
  have hlog := Real.log_le_log (by linarith) hle
  have hloss : 110 * (1 + 6 * Real.log base.toReal) * F.unit ≤ 110 * (1 + 6 * Real.log (1 + apr)) * F.unit :=
    mul_le_mul_of_nonneg_right (by linarith) hu.le
  have hloss0 : 0 ≤ 110 * (1 + 6 * Real.log base.toReal) * F.unit := by positivity
  have hshare := mul_le_mul_of_nonneg_right hen hloss0
  rw [powError, abs_of_nonneg he, abs_of_nonneg hlog0, rootError_of_one_le hbase]
  linarith

variable {input : IntValue t} {context : FixedAnnualConfig t}

/-- What is paid is at most the rate times the input. -/
theorem fromFixed_product_le {rate : t.fixedPoint.Number} (hin : 0 ≤ input.value) (hrate : 0 ≤ rate.inner) :
    0 ≤ (fromFixed (input.toFixed.saturatingMul rate) : IntValue t).value ∧
      ((fromFixed (input.toFixed.saturatingMul rate) : IntValue t).value : ℝ) ≤ input.value * rate.toReal := by
  have hx := toFixed_nonneg hin
  have hrate' := toReal_nonneg.mpr hrate
  obtain ⟨hpaid, hle⟩ := ((fromFixed_toward _).trans (saturatingMul_toward input.toFixed rate)).of_nonneg
    (mul_nonneg (toReal_nonneg.mpr hx) hrate')
  exact ⟨by exact_mod_cast hpaid, hle.trans (mul_le_mul_of_nonneg_right (toFixed_toReal_le hin) hrate')⟩

theorem one_le_toFixed {n : IntValue t} (hn : 0 < n.value) : 1 ≤ n.toFixed.toReal := by
  have hD := t.fixedPoint.repr.div_pos'
  have hle : 1 * (t.fixedPoint.repr.div : Int) ≤ n.value * t.fixedPoint.repr.div :=
    Int.mul_le_mul_of_nonneg_right (by omega) hD.le
  rw [one_le_toReal, toFixed_inner_of_nonneg hn.le]
  exact le_min (by omega) t.fixedPoint.repr.div_le

/-- Only two types hold numbers that their format does not, and of these the share of one is nothing. -/
theorem period_share_of_not_inRange {n : IntValue t} (hn : 0 < n.value) (h : ¬InRange n) :
    (FixedNumber.one : t.fixedPoint.Number).checkedDiv n.toFixed = some FixedNumber.zero := by
  have hinner : n.toFixed.inner = t.fixedPoint.repr.maxInner := by
    have hmin := t.fixedPoint.repr.min_nonpos
    have hmul := Int.mul_nonneg hn.le t.fixedPoint.repr.div_pos'.le
    rw [toFixed_inner_of_nonneg hn.le]
    refine min_eq_right (le_of_not_ge fun hle => h ⟨hmin.trans hmul, hle⟩)
  rw [checkedDiv_eq_some, hinner]
  rcases (inRange_or n).resolve_left h with rfl | rfl <;> exact ⟨by decide, by decide⟩

/-- The share of one in a year stays within the year, and is one or at most a half. -/
theorem period_share {n : IntValue t} (hn : 0 < n.value) : ∃ e : t.fixedPoint.Number,
    (FixedNumber.one : t.fixedPoint.Number).checkedDiv n.toFixed = some e ∧ 0 ≤ e.toReal ∧
      e.toReal * n.value ≤ 1 ∧ (e = FixedNumber.one ∨ e.toReal ≤ 1 / 2) := by
  by_cases hrange : InRange n
  · obtain ⟨e, he, he0, hle, -⟩ := checkedDiv_one_real (one_le_toFixed hn)
    have hpos : (0 : ℝ) < n.value := by exact_mod_cast hn
    rw [toFixed_toReal_of_inRange hrange] at hle
    refine ⟨e, he, he0, (le_div_iff₀ hpos).mp hle, ?_⟩
    rcases (by omega : n.value = 1 ∨ 2 ≤ n.value) with hone | htwo
    · left
      have hD := t.fixedPoint.repr.div_pos'
      have hinner := (checkedDiv_eq_some.mp he).2
      rw [toFixed_inner_of_inRange hrange, hone, one_mul, one_inner, Int.mul_tdiv_cancel _ hD.ne'] at hinner
      exact FixedNumber.ext hinner
    · right
      have hreal : (2 : ℝ) ≤ n.value := by exact_mod_cast htwo
      exact hle.trans (one_div_le_one_div_of_le (by norm_num) hreal)
  · refine ⟨FixedNumber.zero, period_share_of_not_inRange hn hrange, toReal_zero.ge, ?_, Or.inr ?_⟩
    · rw [toReal_zero, zero_mul]
      exact zero_le_one
    · rw [toReal_zero]
      norm_num

theorem saturatingAdd_one_real {apr : FixedNumber F} (h : 0 ≤ apr.inner) :
    1 ≤ (FixedNumber.one.saturatingAdd apr).toReal ∧
      (FixedNumber.one.saturatingAdd apr).toReal ≤ 1 + apr.toReal := by
  have hD := F.div_pos'
  have hle := F.div_le
  have hapr := toReal_nonneg.mpr h
  have hcut := (saturatingAdd_toward (x := FixedNumber.one) (y := apr)).of_nonneg
    (by rw [toReal_one]; linarith)
  rw [toReal_one] at hcut
  refine ⟨one_le_toReal.mpr ?_, hcut.2⟩
  rw [saturatingAdd_of_nonneg one_inner_nonneg h, one_inner]
  omega

/-- The root for a payout exists, and its power over the year is off by the error of the year. -/
theorem year_root {apr : t.fixedPoint.Number} {n : IntValue t} (hn : 0 < n.value) (hapr : 0 ≤ apr.inner) :
    ∃ e w : t.fixedPoint.Number, (FixedNumber.one : t.fixedPoint.Number).checkedDiv n.toFixed = some e ∧
      fixedPow (FixedNumber.one.saturatingAdd apr) e = some w ∧ 1 ≤ w.toReal ∧
        w.toReal ^ n.value.toNat ≤
          (1 + apr.toReal) * Real.exp (t.fixedPoint.repr.unit *
            (110 * (1 + 6 * Real.log (1 + apr.toReal)) + 62 * n.value.toNat)) := by
  have hF := t.fixedPoint.decimal
  have hS := t.fixedPoint.sqrtBounds
  obtain ⟨e, he, he0, hen, hroot⟩ := period_share hn
  have hcount : (n.value : ℝ) = (n.value.toNat : ℝ) := by exact_mod_cast (Int.toNat_of_nonneg hn.le).symm
  rw [hcount] at hen
  obtain ⟨hbase, hbase'⟩ := saturatingAdd_one_real hapr
  obtain ⟨w, hw⟩ := fixedPow_root_isSome hF hS hbase he0 hroot
  have he1 : e.toReal ≤ 1 := by
    rcases hroot with rfl | hhalf
    · exact toReal_one.le
    · linarith
  have hw1 : 1 ≤ w.toReal := one_le_toReal.mpr
    (((powSides hF hS (pos_of_one_le hbase) (toReal_nonneg.mp he0)).result w hw).above (one_le_toReal.mp hbase))
  have hwle := fixedPow_root_le hF hS t.fixedPoint.evenRange hbase he0 he1 hw
  refine ⟨e, w, he, hw, hw1, ?_⟩
  calc _ ≤ _ := pow_le_of_root hbase hen (zero_le_one.trans hw1) hwle
    _ ≤ _ := mul_le_mul hbase' (Real.exp_le_exp.mpr (year_powError_le hbase hbase' he0 hen)) (Real.exp_pos _).le
        (by linarith)

/-- Payouts at this rate that are put back each time make at most the annual rate of the input in a year. -/
theorem fixedAnnualPayout_compounds (hin : 0 < input.value) (hn : 0 < context.timeCount.value)
    (hapr : 0 ≤ context.apr.inner) :
    0 ≤ (fixedAnnualPayout input context).value ∧
      (1 + ((fixedAnnualPayout input context).value : ℝ) / input.value) ^ context.timeCount.value.toNat ≤
        (1 + context.apr.toReal) * Real.exp (t.fixedPoint.repr.unit *
          (110 * (1 + 6 * Real.log (1 + context.apr.toReal)) + 62 * context.timeCount.value.toNat)) := by
  have hn' : context.timeCount.toFixed ≠ FixedNumber.zero := by
    intro hzero
    have hone := one_le_toFixed hn
    rw [hzero, toReal_zero] at hone
    linarith
  obtain ⟨e, w, he, hw, hw1, hyear⟩ := year_root hn hapr
  have hrate := (saturatingSub_toward (x := w) (y := FixedNumber.one)).of_nonneg
    (by rw [toReal_one]; linarith)
  rw [toReal_one] at hrate
  have hpayout : fixedAnnualPayout input context =
      fromFixed (input.toFixed.saturatingMul (w.saturatingSub FixedNumber.one)) := by
    unfold fixedAnnualPayout periodPower
    dsimp only
    rw [if_neg hn', he, Option.getD_some, hw, Option.getD_some]
  obtain ⟨hpaid, hpaid'⟩ := fromFixed_product_le hin.le (toReal_nonneg.mp hrate.1)
  rw [← hpayout] at hpaid hpaid'
  have hinput : (0 : ℝ) < input.value := by exact_mod_cast hin
  have hnonneg : (0 : ℝ) ≤ (fixedAnnualPayout input context).value := by exact_mod_cast hpaid
  have hquot := (div_le_iff₀' hinput).mpr hpaid'
  refine ⟨hpaid, le_trans (pow_le_pow_left₀ (by positivity) ?_ _) hyear⟩
  linarith

def twelvePercent : FixedU128 := ⟨12 * 10 ^ 16, by decide, by decide⟩

def monthly : FixedAnnualConfig .u128 := ⟨twelvePercent, IntValue.clamp 12⟩

def hundredThousand : IntValue .u128 := IntValue.clamp 100000

theorem fixedAnnualPayout_compounds_monthly :
    (fixedAnnualPayout hundredThousand monthly).value = 948 ∧
      (1 + (948 : ℝ) / hundredThousand.value) ^ 12 ≤
        (1 + twelvePercent.toReal) * Real.exp (FixedKind.fixedU128.repr.unit *
          (110 * (1 + 6 * Real.log (1 + twelvePercent.toReal)) + 62 * (12 : Nat))) := by
  have hvalue : (fixedAnnualPayout hundredThousand monthly).value = 948 := by decide +kernel
  have hbound := (@fixedAnnualPayout_compounds .u128 hundredThousand monthly (by decide) (by decide) (by decide)).2
  rw [hvalue] at hbound
  exact ⟨hvalue, by exact_mod_cast hbound⟩

end Compounding

end FrameSuite
