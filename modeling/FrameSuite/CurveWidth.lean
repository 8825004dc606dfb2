import FrameSuite.SignedWorkspace

/-! The logistic curve with the parameters of the narrow type and with the same ones at 18 decimal places. -/

namespace FrameSuite

open FixedNumber IntValue FixedKind

theorem tdiv_of_nonpos {a b : Int} (ha : a ≤ 0) : a.tdiv b = -(-a / b) := by
  rw [← Int.tdiv_eq_ediv_of_nonneg (by omega), Int.neg_tdiv, Int.neg_neg]

theorem abs_tdiv_ediv (a : Int) {b : Int} (hb : 0 ≤ b) : |a.tdiv b| = |a| / b := by
  rcases le_total 0 a with ha | ha
  · rw [Int.tdiv_eq_ediv_of_nonneg ha, abs_of_nonneg ha, abs_of_nonneg (Int.ediv_nonneg ha hb)]
  · rw [tdiv_of_nonpos ha, abs_of_nonpos ha, abs_neg, abs_of_nonneg (Int.ediv_nonneg (by omega) hb)]

section Workspace

variable {l k x0 x z : FixedI128}

/-- The argument of the exponential function of the curve. -/
def curveArg (k x0 x : FixedI128) : FixedI128 :=
  FixedNumber.zero.saturatingSub (k.saturatingMul (x.saturatingSub x0))

theorem clamp_workspace {n : Int} (h : |n| ≤ 2 ^ 127 - 1) : (FixedNumber.clamp n : FixedI128).inner = n := by
  obtain ⟨hlow, hhigh⟩ := abs_le.mp h
  refine FixedNumber.clamp_of_mem ?_ hhigh
  change -2 ^ 127 ≤ n
  omega

/-- Within the bound of the workspace the argument is the negated product, rounded toward zero. -/
theorem curveArg_inner {d : Int} (hd : (x.saturatingSub x0).inner = d)
    (h : |(k.inner * d).tdiv (10 ^ 18)| ≤ 2 ^ 127 - 1) : (curveArg k x0 x).inner = -(k.inner * d).tdiv (10 ^ 18) := by
  have hprod : (k.saturatingMul (x.saturatingSub x0)).inner = (k.inner * d).tdiv (10 ^ 18) := by
    rw [saturatingMul_inner, hd]
    exact clamp_workspace h
  rw [curveArg, saturatingSub_inner, hprod, zero_inner, zero_sub]
  exact clamp_workspace ((abs_neg _).trans_le h)

theorem logistic_curveArg :
    logistic l k x0 x = (l.checkedDiv (logisticDenom (curveArg k x0 x))).getD FixedNumber.zero := rfl

theorem logistic_of_mul_eq_zero (hl : 0 ≤ l.inner) (h : k.inner * (x.saturatingSub x0).inner = 0) :
    (logistic l k x0 x).inner = l.inner / 2 := by
  have hzero : curveArg k x0 x = FixedNumber.zero := by
    refine FixedNumber.ext ?_
    rw [curveArg, saturatingSub_inner, saturatingMul_inner, h, Int.zero_tdiv]
    rfl
  have hdenom : (logisticDenom (FixedNumber.zero : FixedI128)).inner = 2 * ((10 ^ 18 : Nat) : Int) := rfl
  have hquot : (l.inner * ((10 ^ 18 : Nat) : Int)).tdiv (2 * ((10 ^ 18 : Nat) : Int)) = l.inner / 2 := by
    rw [Int.mul_tdiv_mul_of_pos_left _ _ (by decide), Int.tdiv_eq_ediv_of_nonneg hl]
  have hmax := l.le_max
  rw [logistic_curveArg, hzero]
  have hsome : l.checkedDiv (logisticDenom FixedNumber.zero) =
      some ⟨l.inner / 2, le_trans (by decide) (Int.ediv_nonneg hl (by decide)), by omega⟩ :=
    checkedDiv_eq_some.mpr ⟨by rw [hdenom]; decide, by rw [hdenom]; exact hquot.symm⟩
  rw [hsome]
  rfl

/-- The value of the curve is its level over the denominator, rounded down. -/
theorem logistic_mul_le (hl : 0 ≤ l.inner) {c : ℝ} (hc : 0 < c)
    (h : c ≤ (logisticDenom (curveArg k x0 x)).toReal) :
    ((logistic l k x0 x).inner : ℝ) * c ≤ l.inner := by
  have hD := FixedKind.fixedI128.repr.div_pos_real
  rw [logistic_curveArg]
  obtain ⟨hnonneg, -, hup, -⟩ := logistic_quotient FixedKind.fixedI128.decimal hl
    (curveArg k x0 x)
  generalize (l.checkedDiv _).getD FixedNumber.zero = q at hnonneg hup ⊢
  rw [le_div_iff₀ (hc.trans_le h)] at hup
  have hmul := (mul_le_mul_of_nonneg_left h (toReal_nonneg.mpr hnonneg)).trans hup
  rw [toReal, toReal, div_mul_eq_mul_div] at hmul
  exact (div_le_div_iff_of_pos_right hD).mp hmul

theorem le_logistic_mul (hl : 0 ≤ l.inner) {c : ℝ}
    (h : (logisticDenom (curveArg k x0 x)).toReal ≤ c) :
    (l.inner : ℝ) ≤ ((logistic l k x0 x).inner + 1) * c := by
  have hD := FixedKind.fixedI128.repr.div_pos_real
  have hge := logisticDenom_ge FixedKind.fixedI128.decimal
    (curveArg k x0 x)
  have hone : (1 : ℝ) ≤ (logisticDenom (curveArg k x0 x)).toReal := by
    rw [← toReal_one (F := FixedKind.fixedI128.repr), toReal_le_toReal]
    exact hge
  rw [logistic_curveArg]
  obtain ⟨hnonneg, -, -, hdown⟩ := logistic_quotient FixedKind.fixedI128.decimal hl
    (curveArg k x0 x)
  generalize (l.checkedDiv _).getD FixedNumber.zero = q at hnonneg hdown ⊢
  have hsum : (q.inner + 1 : ℝ) / FixedKind.fixedI128.repr.div = q.toReal + FixedKind.fixedI128.repr.unit := by
    rw [toReal, FixedRepr.unit, add_div]
  have hle : l.toReal ≤ (q.inner + 1 : ℝ) / FixedKind.fixedI128.repr.div * c := by
    rw [hsum]
    have hq : 0 ≤ q.toReal + FixedKind.fixedI128.repr.unit :=
      add_nonneg (toReal_nonneg.mpr hnonneg) FixedKind.fixedI128.repr.unit_pos.le
    refine le_trans ?_ (mul_le_mul_of_nonneg_left h hq)
    rw [← div_le_iff₀ (by linarith)]
    linarith
  rw [toReal, div_mul_eq_mul_div] at hle
  exact (div_le_div_iff_of_pos_right hD).mp hle

theorem logisticDenom_le (z : FixedI128) : (logisticDenom z).toReal ≤ 1 + (expOrMax z).toReal := by
  have hD := FixedKind.fixedI128.repr.div_pos_real
  have hnonneg := toReal_nonneg.mp (expOrMax_nonneg FixedKind.fixedI128.decimal z)
  have hclamp : (logisticDenom z).inner ≤ FixedKind.fixedI128.repr.div + (expOrMax z).inner := by
    refine clamp_le_of_le (le_refl _) ?_
    have hpos := FixedKind.fixedI128.repr.div_pos'
    have hmin := FixedKind.fixedI128.repr.min_nonpos
    omega
  rw [toReal, div_le_iff₀ hD, add_mul, one_mul, ← mul_comm (FixedKind.fixedI128.repr.div : ℝ), ← inner_eq]
  exact_mod_cast hclamp

theorem le_logisticDenom {c : ℝ} (hc : c ≤ 10 ^ 20) (h : c ≤ 1 + (expOrMax z).toReal) :
    c ≤ (logisticDenom z).toReal := by
  have hD := FixedKind.fixedI128.repr.div_pos_real
  have hnonneg := toReal_nonneg.mp (expOrMax_nonneg FixedKind.fixedI128.decimal z)
  have hpos := FixedKind.fixedI128.repr.div_pos'
  have hinner : (logisticDenom z).inner =
      min (FixedKind.fixedI128.repr.div + (expOrMax z).inner) FixedKind.fixedI128.repr.maxInner :=
    FixedNumber.clamp_of_nonneg (by rw [one_inner]; omega)
  rw [toReal, hinner, le_div_iff₀ hD]
  push_cast
  rw [le_min_iff]
  constructor
  · have hscaled := mul_le_mul_of_nonneg_right h hD.le
    rw [add_mul, one_mul, mul_comm (expOrMax z).toReal, ← inner_eq] at hscaled
    exact hscaled
  · change c * ((10 ^ 18 : Nat) : ℝ) ≤ ((2 ^ 127 - 1 : Int) : ℝ)
    push_cast
    norm_num at hc ⊢
    linarith

theorem expOrMax_of_nonpos (hz : z.inner ≤ 0) : |(expOrMax z).toReal - Real.exp z.toReal| ≤ 60 / 10 ^ 18 := by
  obtain ⟨w, hw, -, -, hnear⟩ := fixedExp_of_nonpos FixedKind.fixedI128.decimal hz
  have hunit : FixedKind.fixedI128.repr.unit = 1 / 10 ^ 18 := by
    change 1 / ((10 ^ 18 : Nat) : ℝ) = _
    norm_num
  rw [expOrMax, hw, Option.getD_some]
  rw [hunit] at hnear
  linarith

/-- The exponential of an argument from one on is above a lower bound of the true one, or the largest value. -/
theorem le_expOrMax {b : ℝ} (hz : 0 ≤ z.inner) (hb : b ≤ 10 ^ 20) (h : b ≤ Real.exp z.toReal * (1 - 150 / 10 ^ 18)) :
    b ≤ (expOrMax z).toReal := by
  obtain ⟨-, -, hmax | hlow⟩ := expOrMax_of_nonneg FixedKind.fixedI128.decimal hz
  · rw [hmax, toReal, le_div_iff₀ FixedKind.fixedI128.repr.div_pos_real]
    change b * ((10 ^ 18 : Nat) : ℝ) ≤ ((2 ^ 127 - 1 : Int) : ℝ)
    push_cast
    norm_num at hb ⊢
    linarith
  · have hunit : FixedKind.fixedI128.repr.unit = 1 / 10 ^ 18 := by
      change 1 / ((10 ^ 18 : Nat) : ℝ) = _
      norm_num
    rw [hunit] at hlow
    linarith

section Denominators

theorem toReal_le_of_inner {b : Int} (h : z.inner ≤ b * 10 ^ 18) : z.toReal ≤ b := by
  rw [toReal, div_le_iff₀ FixedKind.fixedI128.repr.div_pos_real]
  change _ ≤ (b : ℝ) * ((10 ^ 18 : Nat) : ℝ)
  have hcast : (z.inner : ℝ) ≤ ((b * 10 ^ 18 : Int) : ℝ) := by exact_mod_cast h
  push_cast at hcast ⊢
  exact hcast

theorem le_toReal_of_inner {b : Int} (h : b * 10 ^ 18 ≤ z.inner) : (b : ℝ) ≤ z.toReal := by
  rw [toReal, le_div_iff₀ FixedKind.fixedI128.repr.div_pos_real]
  change (b : ℝ) * ((10 ^ 18 : Nat) : ℝ) ≤ _
  have hcast : ((b * 10 ^ 18 : Int) : ℝ) ≤ z.inner := by exact_mod_cast h
  push_cast at hcast ⊢
  exact hcast

theorem logisticDenom_of_faded (h : z.inner ≤ -45 * 10 ^ 18) : (logisticDenom z).toReal ≤ 1 + 61 / 10 ^ 18 := by
  have hexp := exp_le_of_le_neg (t := z.toReal) (by exact_mod_cast toReal_le_of_inner h)
  have hnear := (abs_le.mp (expOrMax_of_nonpos (z := z) (by omega))).2
  have hle := logisticDenom_le z
  linarith

theorem logisticDenom_of_le_neg_one (h : z.inner ≤ -1 * 10 ^ 18) : (logisticDenom z).toReal ≤ 1.37 := by
  have hz : z.toReal ≤ -1 := by exact_mod_cast toReal_le_of_inner h
  have hexp : Real.exp z.toReal ≤ 0.368 := by
    refine (Real.exp_le_exp.mpr hz).trans ?_
    rw [Real.exp_neg, inv_le_comm₀ (Real.exp_pos 1) (by norm_num)]
    exact le_trans (by norm_num) Real.exp_one_gt_d9.le
  have hnear := (abs_le.mp (expOrMax_of_nonpos (z := z) (by omega))).2
  have hle := logisticDenom_le z
  norm_num at hexp hnear ⊢
  linarith

/-- Close to zero the exponential is close to one, on either side. -/
theorem exp_near_one {t : ℝ} (h : -(1 / 10) ≤ t) : 0.9 ≤ Real.exp t := by
  have hle := Real.add_one_le_exp t
  norm_num
  linarith

theorem le_logisticDenom_near (h : -(10 ^ 17) ≤ z.inner) (h' : z.inner ≤ 0) : 1.89 ≤ (logisticDenom z).toReal := by
  have hz : -(1 / 10) ≤ z.toReal := by
    rw [toReal, le_div_iff₀ FixedKind.fixedI128.repr.div_pos_real]
    change -(1 / 10) * ((10 ^ 18 : Nat) : ℝ) ≤ _
    have hcast : ((-(10 ^ 17) : Int) : ℝ) ≤ z.inner := by exact_mod_cast h
    push_cast at hcast ⊢
    linarith
  have hexp := exp_near_one hz
  have hnear := (abs_le.mp (expOrMax_of_nonpos h')).1
  refine le_logisticDenom (by norm_num) ?_
  norm_num at hexp hnear ⊢
  linarith

theorem logisticDenom_near_le (h : 0 ≤ z.inner) (h' : z.inner ≤ 10 ^ 17) : (logisticDenom z).toReal ≤ 2.12 := by
  have hz : -(1 / 10) ≤ -z.toReal := by
    rw [toReal, neg_le_neg_iff, div_le_iff₀ FixedKind.fixedI128.repr.div_pos_real]
    change _ ≤ 1 / 10 * ((10 ^ 18 : Nat) : ℝ)
    have hcast : (z.inner : ℝ) ≤ ((10 ^ 17 : Int) : ℝ) := by exact_mod_cast h'
    push_cast at hcast ⊢
    linarith
  have hexp := exp_near_one hz
  rw [Real.exp_neg, le_inv_comm₀ (by norm_num) (Real.exp_pos _)] at hexp
  obtain ⟨-, hup, -⟩ := expOrMax_of_nonneg FixedKind.fixedI128.decimal h
  have hle := logisticDenom_le z
  norm_num at hexp ⊢
  linarith

theorem le_logisticDenom_of_one_le (h : 1 * 10 ^ 18 ≤ z.inner) : 3.7 ≤ (logisticDenom z).toReal := by
  have hz : 1 ≤ z.toReal := by exact_mod_cast le_toReal_of_inner h
  have hexp : 2.71 ≤ Real.exp z.toReal :=
    (le_trans (by norm_num) Real.exp_one_gt_d9.le).trans (Real.exp_le_exp.mpr hz)
  have hlow : (2.7 : ℝ) ≤ (expOrMax z).toReal := by
    refine le_expOrMax (by omega) (by norm_num) ?_
    norm_num at hexp ⊢
    linarith
  refine le_logisticDenom (by norm_num) ?_
  norm_num at hlow ⊢
  linarith

theorem le_logisticDenom_of_large (h : 45 * 10 ^ 18 ≤ z.inner) : 2 * 10 ^ 19 ≤ (logisticDenom z).toReal := by
  have hz : 45 ≤ z.toReal := by exact_mod_cast le_toReal_of_inner h
  have hexp := le_exp_large hz
  have hlow : (2 * 10 ^ 19 : ℝ) ≤ (expOrMax z).toReal := by
    refine le_expOrMax (by omega) (by norm_num) ?_
    norm_num at hexp ⊢
    linarith
  refine le_logisticDenom (by norm_num) ?_
  linarith

end Denominators

end Workspace

section Curve

variable {params : CurveParams .fixedU64} {x : FixedKind.fixedU64.Number}

/-- The same parameters with 18 decimal places. -/
def CurveParams.rescale (params : CurveParams .fixedU64) : CurveParams .fixedU128 where
  l := FrameSuite.rescale params.l
  k := FrameSuite.rescale params.k
  x0 := FrameSuite.rescale params.x0

/-- The growth between the midpoint and the input, in units of the last place of both. -/
def CurveParams.growth (params : CurveParams .fixedU64) (x : FixedKind.fixedU64.Number) : Int :=
  params.k.inner * (x.inner - params.x0.inner)

theorem evaluate_u64 (params : CurveParams .fixedU64) (x : FixedKind.fixedU64.Number) :
    (params.evaluate x).inner = (logistic (takenU64 params.l) (takenU64 params.k) (takenU64 params.x0)
      (takenU64 x)).inner :=
  evaluate_inner params.l.min_le

theorem evaluate_rescale (params : CurveParams .fixedU64) (x : FixedKind.fixedU64.Number) :
    (params.rescale.evaluate (rescale x)).inner = (logistic (takenU128 params.l)
      (takenU128 params.k) (takenU128 params.x0) (takenU128 x) : FixedI128).inner :=
  evaluate_inner (rescale params.l).min_le

theorem evaluate_bounds (params : CurveParams .fixedU64) (x : FixedKind.fixedU64.Number) :
    (0 ≤ (params.evaluate x).inner ∧ (params.evaluate x).inner ≤ params.l.inner) ∧
      0 ≤ (params.rescale.evaluate (rescale x)).inner ∧
        (params.rescale.evaluate (rescale x)).inner ≤ params.l.inner * 10 ^ 9 :=
  ⟨evaluate_le params.l.min_le, evaluate_le (rescale params.l).min_le⟩

theorem curveDelta_u64 (x x0 : FixedKind.fixedU64.Number) :
    ((takenU64 x).saturatingSub (takenU64 x0)).inner = x.inner - x0.inner := by
  have hx : 0 ≤ x.inner := x.min_le
  have hx' : x.inner ≤ 2 ^ 64 - 1 := x.le_max
  have hx0 : 0 ≤ x0.inner := x0.min_le
  have hx0' : x0.inner ≤ 2 ^ 64 - 1 := x0.le_max
  rw [saturatingSub_inner, takenU64_inner, takenU64_inner]
  refine clamp_workspace ?_
  rw [abs_le]
  omega

theorem curveDelta_rescale (x x0 : FixedKind.fixedU64.Number) :
    ((takenU128 x).saturatingSub (takenU128 x0)).inner =
      (x.inner - x0.inner) * 10 ^ 9 := by
  have hx : 0 ≤ x.inner := x.min_le
  have hx' : x.inner ≤ 2 ^ 64 - 1 := x.le_max
  have hx0 : 0 ≤ x0.inner := x0.min_le
  have hx0' : x0.inner ≤ 2 ^ 64 - 1 := x0.le_max
  rw [saturatingSub_inner, takenU128_inner, takenU128_inner, ← Int.sub_mul]
  refine clamp_workspace ?_
  rw [abs_le]
  omega

/-- The product of two numbers of the narrow type, one with a sign, is far below the bound of the workspace. -/
theorem growth_bounds (params : CurveParams .fixedU64) (x : FixedKind.fixedU64.Number) :
    |params.growth x| ≤ 2 ^ 128 := by
  have hk : |params.k.inner| ≤ 2 ^ 64 := by
    have hk0 : 0 ≤ params.k.inner := params.k.min_le
    have hk1 : params.k.inner ≤ 2 ^ 64 - 1 := params.k.le_max
    rw [abs_le]
    omega
  have hd : |x.inner - params.x0.inner| ≤ 2 ^ 64 := by
    have hx : 0 ≤ x.inner := x.min_le
    have hx' : x.inner ≤ 2 ^ 64 - 1 := x.le_max
    have hx0 : 0 ≤ params.x0.inner := params.x0.min_le
    have hx0' : params.x0.inner ≤ 2 ^ 64 - 1 := params.x0.le_max
    rw [abs_le]
    omega
  rw [CurveParams.growth, abs_mul]
  exact (Int.mul_le_mul hk hd (abs_nonneg _) (by decide)).trans (by decide)

/-- The argument of the curve on the narrow type. -/
def CurveParams.argU64 (params : CurveParams .fixedU64) (x : FixedKind.fixedU64.Number) : FixedI128 :=
  curveArg (takenU64 params.k) (takenU64 params.x0) (takenU64 x)

def CurveParams.argU128 (params : CurveParams .fixedU64) (x : FixedKind.fixedU64.Number) : FixedI128 :=
  curveArg (takenU128 params.k) (takenU128 params.x0) (takenU128 x)

theorem argU64_inner (params : CurveParams .fixedU64) (x : FixedKind.fixedU64.Number) :
    (params.argU64 x).inner = -(params.growth x).tdiv (10 ^ 18) := by
  have hbounds := growth_bounds params x
  have hgrowth : (takenU64 params.k).inner * (x.inner - params.x0.inner) = params.growth x := by
    rw [takenU64_inner, CurveParams.growth]
  rw [← hgrowth]
  refine curveArg_inner (curveDelta_u64 x params.x0) ?_
  rw [hgrowth, abs_tdiv_ediv _ (by decide)]
  omega

theorem argU128_inner (params : CurveParams .fixedU64) (x : FixedKind.fixedU64.Number) :
    (params.argU128 x).inner = max (-(2 ^ 127 - 1)) (min (-params.growth x) (2 ^ 127 - 1)) := by
  have hprod : ((takenU128 params.k).saturatingMul
      ((takenU128 x).saturatingSub (takenU128 params.x0))).inner =
        max (-2 ^ 127) (min (params.growth x) (2 ^ 127 - 1)) := by
    rw [saturatingMul_inner, curveDelta_rescale, takenU128_inner]
    have hcancel : (params.k.inner * 10 ^ 9 * ((x.inner - params.x0.inner) * 10 ^ 9)).tdiv
        FixedKind.fixedI128.repr.div = params.growth x := by
      have hscale : params.k.inner * 10 ^ 9 * ((x.inner - params.x0.inner) * 10 ^ 9) = params.growth x * 10 ^ 18 := by
        rw [CurveParams.growth]
        ring
      rw [hscale]
      exact Int.mul_tdiv_cancel _ (by decide)
    exact congrArg (fun i : Int => (FixedNumber.clamp i : FixedI128).inner) hcancel
  refine (congrArg (fun i : Int => (FixedNumber.clamp (0 - i) : FixedI128).inner) hprod).trans ?_
  change max (-2 ^ 127) (min _ (2 ^ 127 - 1)) = _
  omega

section Value

variable {c : ℝ}

theorem evaluate_u64_mul_le (hc : 0 < c) (h : c ≤ (logisticDenom (params.argU64 x)).toReal) :
    ((params.evaluate x).inner : ℝ) * c ≤ params.l.inner := by
  have hl : 0 ≤ (takenU64 params.l).inner := (takenU64_inner params.l).symm ▸ params.l.min_le
  rw [evaluate_u64, ← takenU64_inner params.l]
  exact logistic_mul_le hl hc h

theorem le_evaluate_u64_mul (h : (logisticDenom (params.argU64 x)).toReal ≤ c) :
    (params.l.inner : ℝ) ≤ ((params.evaluate x).inner + 1) * c := by
  have hl : 0 ≤ (takenU64 params.l).inner := (takenU64_inner params.l).symm ▸ params.l.min_le
  rw [evaluate_u64, ← takenU64_inner params.l]
  exact le_logistic_mul hl h

theorem takenU128_level (params : CurveParams .fixedU64) :
    0 ≤ (takenU128 params.l).inner ∧ ((takenU128 params.l).inner : ℝ) = params.l.inner * 10 ^ 9 := by
  have hl : 0 ≤ params.l.inner := params.l.min_le
  rw [takenU128_inner]
  exact ⟨by omega, by push_cast; ring⟩

theorem evaluate_rescale_mul_le (hc : 0 < c) (h : c ≤ (logisticDenom (params.argU128 x)).toReal) :
    ((params.rescale.evaluate (rescale x)).inner : ℝ) * c ≤ params.l.inner * 10 ^ 9 := by
  obtain ⟨hl, hlevel⟩ := takenU128_level params
  rw [evaluate_rescale, ← hlevel]
  exact logistic_mul_le hl hc h

theorem le_evaluate_rescale_mul (h : (logisticDenom (params.argU128 x)).toReal ≤ c) :
    (params.l.inner : ℝ) * 10 ^ 9 ≤ ((params.rescale.evaluate (rescale x)).inner + 1) * c := by
  obtain ⟨hl, hlevel⟩ := takenU128_level params
  rw [evaluate_rescale, ← hlevel]
  exact le_logistic_mul hl h

end Value

/-- The level is a unit of the last place at most, or the curve is at its midpoint or does not grow. -/
def CurveParams.WidthSafe (params : CurveParams .fixedU64) (x : FixedKind.fixedU64.Number) : Prop :=
  params.l.inner ≤ 1 ∨ params.growth x = 0

/-- Where the curve is safe the values agree up to the last place of the narrow type, and where both types have
reached an end of the curve they agree up to the rounding of its exponential; a growth that only the wide type sees
tells them apart by a tenth of the level. -/
structure CurveWidth (params : CurveParams .fixedU64) (x : FixedKind.fixedU64.Number) : Prop where
  agree : params.WidthSafe x →
    |(params.evaluate x).inner * 10 ^ 9 - (params.rescale.evaluate (rescale x)).inner| ≤ 10 ^ 9
  saturated : 45 * 10 ^ 36 ≤ |params.growth x| →
    10 ^ 9 * |(params.evaluate x).inner * 10 ^ 9 - (params.rescale.evaluate (rescale x)).inner| ≤
      10 ^ 18 + 61 * params.l.inner
  differ : 10 ^ 18 ≤ |params.growth x| → |params.growth x| ≤ 10 ^ 35 → 10 ≤ params.l.inner →
    10 ^ 8 * params.l.inner ≤
      |(params.evaluate x).inner * 10 ^ 9 - (params.rescale.evaluate (rescale x)).inner|

/-- Half of the level is left where the curve does not grow. -/
theorem evaluate_of_growth_zero (h : params.growth x = 0) : (params.evaluate x).inner = params.l.inner / 2 ∧
    (params.rescale.evaluate (rescale x)).inner = params.l.inner * 10 ^ 9 / 2 := by
  have hl : 0 ≤ params.l.inner := params.l.min_le
  rw [CurveParams.growth, Int.mul_eq_zero] at h
  constructor
  · rw [evaluate_u64, logistic_of_mul_eq_zero, takenU64_inner]
    · rwa [takenU64_inner]
    · rwa [takenU64_inner, curveDelta_u64, Int.mul_eq_zero]
  · rw [evaluate_rescale, logistic_of_mul_eq_zero, takenU128_inner]
    · rw [takenU128_inner]
      omega
    · rw [takenU128_inner, curveDelta_rescale, Int.mul_eq_zero]
      omega

theorem evaluate_near_of_safe (h : params.WidthSafe x) :
    |(params.evaluate x).inner * 10 ^ 9 - (params.rescale.evaluate (rescale x)).inner| ≤ 10 ^ 9 := by
  have hl : 0 ≤ params.l.inner := params.l.min_le
  rcases h with hunit | hgrowth
  · obtain ⟨⟨hn0, hn1⟩, hw0, hw1⟩ := evaluate_bounds params x
    rw [abs_le]
    omega
  · obtain ⟨hnarrow, hwide⟩ := evaluate_of_growth_zero hgrowth
    rw [hnarrow, hwide, abs_le]
    omega

/-- Beyond the ends of the curve both types have all of the level or nothing of it. -/
theorem evaluate_near_of_saturated (h : 45 * 10 ^ 36 ≤ |params.growth x|) :
    10 ^ 9 * |(params.evaluate x).inner * 10 ^ 9 - (params.rescale.evaluate (rescale x)).inner| ≤
      10 ^ 18 + 61 * params.l.inner := by
  have hl : 0 ≤ params.l.inner := params.l.min_le
  have hl' : params.l.inner ≤ 2 ^ 64 - 1 := params.l.le_max
  have hbound := abs_le.mp (growth_bounds params x)
  have hargn := argU64_inner params x
  have hargw := argU128_inner params x
  obtain ⟨⟨hn0, hn1⟩, hw0, hw1⟩ := evaluate_bounds params x
  rcases le_total 0 (params.growth x) with hpos | hneg
  · rw [abs_of_nonneg hpos] at h
    rw [Int.tdiv_eq_ediv_of_nonneg hpos] at hargn
    have hn := le_evaluate_u64_mul (logisticDenom_of_faded (z := params.argU64 x) (by omega))
    have hw := le_evaluate_rescale_mul (logisticDenom_of_faded (z := params.argU128 x) (by omega))
    generalize (params.evaluate x).inner = N at *
    generalize (params.rescale.evaluate (rescale x)).inner = W at *
    have hn' : 10 ^ 18 * params.l.inner ≤ (N + 1) * (10 ^ 18 + 61) := by
      have hscaled : (10 : ℝ) ^ 18 * params.l.inner ≤ (N + 1) * (10 ^ 18 + 61) := by
        norm_num at hn ⊢
        linarith
      exact_mod_cast hscaled
    have hw' : 10 ^ 18 * (params.l.inner * 10 ^ 9) ≤ (W + 1) * (10 ^ 18 + 61) := by
      have hscaled : (10 : ℝ) ^ 18 * (params.l.inner * 10 ^ 9) ≤ (W + 1) * (10 ^ 18 + 61) := by
        norm_num at hw ⊢
        linarith
      exact_mod_cast hscaled
    rcases abs_cases (N * 10 ^ 9 - W) with ⟨habs, -⟩ | ⟨habs, -⟩ <;> rw [habs] <;> omega
  · rw [abs_of_nonpos hneg] at h
    rw [tdiv_of_nonpos hneg] at hargn
    have hn := evaluate_u64_mul_le (by norm_num) (le_logisticDenom_of_large (z := params.argU64 x) (by omega))
    have hw := evaluate_rescale_mul_le (by norm_num) (le_logisticDenom_of_large (z := params.argU128 x) (by omega))
    generalize (params.evaluate x).inner = N at *
    generalize (params.rescale.evaluate (rescale x)).inner = W at *
    have hn' : N * (2 * 10 ^ 19) ≤ params.l.inner := by exact_mod_cast hn
    have hw' : W * (2 * 10 ^ 19) ≤ params.l.inner * 10 ^ 9 := by exact_mod_cast hw
    rcases abs_cases (N * 10 ^ 9 - W) with ⟨habs, -⟩ | ⟨habs, -⟩ <;> rw [habs] <;> omega

theorem evaluate_differ (h : 10 ^ 18 ≤ |params.growth x|) (h' : |params.growth x| ≤ 10 ^ 35)
    (hl : 10 ≤ params.l.inner) :
    10 ^ 8 * params.l.inner ≤
      |(params.evaluate x).inner * 10 ^ 9 - (params.rescale.evaluate (rescale x)).inner| := by
  have hargn := argU64_inner params x
  have hargw := argU128_inner params x
  have hreal : (10 : ℝ) ≤ params.l.inner := by exact_mod_cast hl
  rcases le_total 0 (params.growth x) with hpos | hneg
  · rw [abs_of_nonneg hpos] at h h'
    rw [Int.tdiv_eq_ediv_of_nonneg hpos] at hargn
    have hn := evaluate_u64_mul_le (by norm_num)
      (le_logisticDenom_near (z := params.argU64 x) (by omega) (by omega))
    have hw := le_evaluate_rescale_mul (logisticDenom_of_le_neg_one (z := params.argU128 x) (by omega))
    refine le_trans ?_ (neg_le_abs _)
    generalize (params.evaluate x).inner = N at *
    generalize (params.rescale.evaluate (rescale x)).inner = W at *
    have hgoal : (10 : ℝ) ^ 8 * params.l.inner ≤ -(N * 10 ^ 9 - W) := by
      norm_num at hn hw ⊢
      linarith
    exact_mod_cast hgoal
  · rw [abs_of_nonpos hneg] at h h'
    rw [tdiv_of_nonpos hneg] at hargn
    have hn := le_evaluate_u64_mul (logisticDenom_near_le (z := params.argU64 x) (by omega) (by omega))
    have hw := evaluate_rescale_mul_le (by norm_num) (le_logisticDenom_of_one_le (z := params.argU128 x) (by omega))
    refine le_trans ?_ (le_abs_self _)
    generalize (params.evaluate x).inner = N at *
    generalize (params.rescale.evaluate (rescale x)).inner = W at *
    have hgoal : (10 : ℝ) ^ 8 * params.l.inner ≤ N * 10 ^ 9 - W := by
      norm_num at hn hw ⊢
      linarith
    exact_mod_cast hgoal

theorem curveWidth (params : CurveParams .fixedU64) (x : FixedKind.fixedU64.Number) : CurveWidth params x :=
  ⟨evaluate_near_of_safe, evaluate_near_of_saturated, evaluate_differ⟩

end Curve

end FrameSuite
