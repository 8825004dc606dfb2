import FrameSuite.GrowthRate

/-! The logistic curve never exceeds its largest value, and grows up to the rounding of its exponential function;
an interpolated segment is exact at its ends and monotone. -/

namespace FrameSuite

open FixedNumber IntValue FixedKind

variable {F : FixedRepr}

section Monotone

variable {x y k : FixedNumber F}

theorem saturatingSub_mono {x y x' y' : FixedNumber F} (hx : x.inner ≤ x'.inner) (hy : y'.inner ≤ y.inner) :
    (x.saturatingSub y).inner ≤ (x'.saturatingSub y').inner :=
  clamp_mono (Int.sub_le_sub hx hy)

theorem saturatingMul_mono (hk : 0 ≤ k.inner) (h : x.inner ≤ y.inner) :
    (k.saturatingMul x).inner ≤ (k.saturatingMul y).inner :=
  clamp_mono (Int.tdiv_le_tdiv F.div_pos' (Int.mul_le_mul_of_nonneg_left h hk))

end Monotone

section Logistic

variable {l k x0 x y z z' : FixedNumber F}

/-- The exponential of the logistic curve, with the largest value on overflow. -/
def expOrMax (z : FixedNumber F) : FixedNumber F := (fixedExp z).getD maxValue

theorem expOrMax_nonneg (hF : F.Decimal) (z : FixedNumber F) : 0 ≤ (expOrMax z).toReal := by
  rcases le_total 0 z.inner with hz | hz
  · rcases fixedExp_of_nonneg hF hz with ⟨w, hw, hone, -, -⟩ | ⟨hnone, -⟩
    · rw [expOrMax, hw, Option.getD_some]
      linarith
    · rw [expOrMax, hnone, Option.getD_none]
      exact zero_le_one.trans one_le_max_real
  · obtain ⟨w, hw, hzero, -, -⟩ := fixedExp_of_nonpos hF hz
    rw [expOrMax, hw, Option.getD_some]
    exact hzero

theorem expOrMax_of_nonneg (hF : F.Decimal) (hz : 0 ≤ z.inner) :
    1 ≤ (expOrMax z).toReal ∧ (expOrMax z).toReal ≤ Real.exp z.toReal ∧
      (expOrMax z = maxValue ∨ Real.exp z.toReal * (1 - 150 * F.unit) ≤ (expOrMax z).toReal) := by
  rcases fixedExp_of_nonneg hF hz with ⟨w, hw, hone, hle, hge⟩ | ⟨hnone, hmax⟩
  · rw [expOrMax, hw, Option.getD_some]
    exact ⟨hone, hle, Or.inr hge⟩
  · rw [expOrMax, hnone, Option.getD_none]
    exact ⟨one_le_max_real, hmax, Or.inl rfl⟩

theorem expOrMax_near (hF : F.Decimal) (h : z'.inner ≤ z.inner) :
    (expOrMax z').toReal ≤ (expOrMax z).toReal * (1 + 300 * F.unit) + 120 * F.unit := by
  have hu0 := F.unit_pos
  have hu := hF.unit_le
  have hexp : Real.exp z'.toReal ≤ Real.exp z.toReal := Real.exp_le_exp.mpr (toReal_le_toReal.mpr h)
  rcases le_total 0 z.inner with hz | hz
  · obtain ⟨hone, -, hlow⟩ := expOrMax_of_nonneg hF hz
    rcases le_total 0 z'.inner with hz' | hz'
    · obtain ⟨-, hle, -⟩ := expOrMax_of_nonneg hF hz'
      rcases hlow with hmax | hlow
      · have hbound := toReal_le_max (expOrMax z')
        rw [← hmax] at hbound
        nlinarith
      · have hscale : Real.exp z.toReal ≤ Real.exp z.toReal * (1 - 150 * F.unit) * (1 + 300 * F.unit) := by
          have hfactor : 1 ≤ (1 - 150 * F.unit) * (1 + 300 * F.unit) := by nlinarith
          rw [mul_assoc]
          exact le_mul_of_one_le_right (Real.exp_pos _).le hfactor
        have hmul := mul_le_mul_of_nonneg_right hlow (by linarith : 0 ≤ 1 + 300 * F.unit)
        linarith
    · obtain ⟨w, hw, -, hle, -⟩ := fixedExp_of_nonpos hF hz'
      have hsmall : (expOrMax z').toReal ≤ 1 := by
        rw [expOrMax, hw, Option.getD_some]
        exact hle
      nlinarith
  · obtain ⟨w, hw, -, -, hnear⟩ := fixedExp_of_nonpos hF hz
    obtain ⟨w', hw', -, -, hnear'⟩ := fixedExp_of_nonpos hF (h.trans hz)
    have hnonneg := expOrMax_nonneg hF z
    rw [expOrMax, hw, Option.getD_some] at hnonneg
    rw [expOrMax, expOrMax, hw, hw', Option.getD_some, Option.getD_some]
    have hup := (abs_le.mp hnear').2
    have hdown := (abs_le.mp hnear).1
    nlinarith

/-- The denominator of the curve. -/
def logisticDenom (z : FixedNumber F) : FixedNumber F := one.saturatingAdd (expOrMax z)

theorem logisticDenom_ge (hF : F.Decimal) (z : FixedNumber F) : (F.div : Int) ≤ (logisticDenom z).inner := by
  have hnonneg := toReal_nonneg.mp (expOrMax_nonneg hF z)
  refine le_clamp_of_le ?_ F.div_le
  rw [one_inner]
  omega

theorem logisticDenom_near (hF : F.Decimal) (h : z'.inner ≤ z.inner) :
    (logisticDenom z').toReal ≤ (logisticDenom z).toReal * (1 + 300 * F.unit) := by
  have hu0 := F.unit_pos
  have hD := F.div_pos_real
  have hnonneg := toReal_nonneg.mp (expOrMax_nonneg hF z)
  have hnonneg' := toReal_nonneg.mp (expOrMax_nonneg hF z')
  have hone : 1 ≤ (logisticDenom z).toReal := by
    rw [← toReal_one (F := F), toReal_le_toReal]
    exact logisticDenom_ge hF z
  have hmin := F.min_nonpos
  have hsum (a : FixedNumber F) (ha : 0 ≤ a.inner) :
      one.saturatingAdd a = maxValue ∨ (one.saturatingAdd a).toReal = 1 + a.toReal := by
    have hpos := F.div_pos'
    rcases le_or_gt ((F.div : Int) + a.inner) F.maxInner with hin | hout
    · right
      have hinner : (one.saturatingAdd a).inner = F.div + a.inner := by
        rw [saturatingAdd_inner, one_inner, FixedNumber.clamp_of_mem] <;> omega
      rw [toReal, hinner, toReal]
      push_cast
      rw [add_div, div_self hD.ne']
    · left
      refine FixedNumber.ext ?_
      rw [saturatingAdd_inner, one_inner, clamp_of_nonneg (by omega), maxValue_inner]
      omega
  rcases hsum _ hnonneg with hmax | heq
  · have hle := toReal_le_max (logisticDenom z')
    rw [← hmax] at hle
    change (logisticDenom z').toReal ≤ (logisticDenom z).toReal at hle
    nlinarith
  · have hle : (logisticDenom z').toReal ≤ 1 + (expOrMax z').toReal := by
      rcases hsum _ hnonneg' with hmax | heq'
      · have hclamp : (logisticDenom z').inner ≤ F.div + (expOrMax z').inner := by
          refine clamp_le_of_le (le_refl _) ?_
          have hpos := F.div_pos'
          omega
        rw [toReal, div_le_iff₀ hD, add_mul, one_mul, ← mul_comm (F.div : ℝ), ← inner_eq]
        exact_mod_cast hclamp
      · exact heq'.le
    have hnear := expOrMax_near hF h
    change (logisticDenom z).toReal = 1 + (expOrMax z).toReal at heq
    rw [heq]
    linarith

theorem logistic_eq : logistic l k x0 x =
    (l.checkedDiv (logisticDenom (zero.saturatingSub (k.saturatingMul (x.saturatingSub x0))))).getD zero := rfl

theorem logistic_quotient (hF : F.Decimal) (hl : 0 ≤ l.inner) (z : FixedNumber F) :
    0 ≤ ((l.checkedDiv (logisticDenom z)).getD zero).inner ∧
      ((l.checkedDiv (logisticDenom z)).getD zero).inner ≤ l.inner ∧
        ((l.checkedDiv (logisticDenom z)).getD zero).toReal ≤ l.toReal / (logisticDenom z).toReal ∧
          l.toReal / (logisticDenom z).toReal - F.unit ≤ ((l.checkedDiv (logisticDenom z)).getD zero).toReal := by
  have hD := F.div_pos'
  have hDr := F.div_pos_real
  have hge := logisticDenom_ge hF z
  have hpos : 0 < (logisticDenom z).inner := hD.trans_le hge
  have hnum : 0 ≤ l.inner * F.div := Int.mul_nonneg hl hD.le
  have hnonneg := Int.tdiv_nonneg hnum hpos.le
  have hle := tdiv_le_div hnum hpos
  have hlt := div_lt_tdiv_add_one (l.inner * F.div) hpos
  rw [quotient_real] at hle hlt
  have hbound : (l.inner * F.div).tdiv (logisticDenom z).inner ≤ l.inner := by
    rw [Int.tdiv_eq_ediv_of_nonneg hnum]
    exact Int.ediv_le_of_le_mul hpos (Int.mul_le_mul_of_nonneg_left hge hl)
  have hsome : l.checkedDiv (logisticDenom z) = some ⟨(l.inner * F.div).tdiv (logisticDenom z).inner,
      F.min_nonpos.trans hnonneg, hbound.trans l.le_max⟩ := checkedDiv_eq_some.mpr ⟨hpos.ne', rfl⟩
  rw [hsome, Option.getD_some]
  refine ⟨hnonneg, hbound, ?_, ?_⟩
  · simp only [toReal] at hle ⊢
    rw [div_le_iff₀ hDr, mul_comm (_ / _ : ℝ) (F.div : ℝ)]
    exact hle
  · simp only [toReal] at hlt ⊢
    rw [le_div_iff₀ hDr, sub_mul, mul_comm F.unit, F.div_mul_unit]
    linarith

theorem logistic_bounds (hF : F.Decimal) (hl : 0 ≤ l.inner) :
    0 ≤ (logistic l k x0 x).inner ∧ (logistic l k x0 x).inner ≤ l.inner := by
  rw [logistic_eq]
  obtain ⟨hnonneg, hle, -, -⟩ := logistic_quotient hF hl
    (zero.saturatingSub (k.saturatingMul (x.saturatingSub x0)))
  exact ⟨hnonneg, hle⟩

theorem logistic_near (x0 : FixedNumber F) (hF : F.Decimal) (hl : 0 ≤ l.inner) (hk : 0 ≤ k.inner)
    (h : x.inner ≤ y.inner) :
    (logistic l k x0 x).toReal ≤ (logistic l k x0 y).toReal + (300 * l.toReal + 1) * F.unit := by
  have hu0 := F.unit_pos
  have hl0 := toReal_nonneg.mpr hl
  have hz : (zero.saturatingSub (k.saturatingMul (y.saturatingSub x0))).inner ≤
      (zero.saturatingSub (k.saturatingMul (x.saturatingSub x0))).inner :=
    saturatingSub_mono (le_refl _) (saturatingMul_mono hk (saturatingSub_mono h (le_refl _)))
  rw [logistic_eq, logistic_eq]
  generalize (zero.saturatingSub (k.saturatingMul (y.saturatingSub x0)) : FixedNumber F) = z' at hz ⊢
  generalize (zero.saturatingSub (k.saturatingMul (x.saturatingSub x0)) : FixedNumber F) = z at hz ⊢
  obtain ⟨-, -, hup, -⟩ := logistic_quotient hF hl z
  obtain ⟨-, -, -, hdown⟩ := logistic_quotient hF hl z'
  have hnear := logisticDenom_near hF hz
  have hone (a : FixedNumber F) : 1 ≤ (logisticDenom a).toReal := by
    rw [← toReal_one (F := F), toReal_le_toReal]
    exact logisticDenom_ge hF a
  have hd := hone z
  have hd' := hone z'
  have hquot : l.toReal / (logisticDenom z).toReal ≤ l.toReal / (logisticDenom z').toReal * (1 + 300 * F.unit) := by
    rw [div_mul_eq_mul_div, div_le_div_iff₀ (by linarith) (by linarith), mul_assoc, mul_comm (1 + 300 * F.unit)]
    exact mul_le_mul_of_nonneg_left hnear hl0
  have hsmall : l.toReal / (logisticDenom z').toReal ≤ l.toReal := div_le_self hl0 hd'
  nlinarith

end Logistic

section Casts

variable {k : FixedKind}

theorem saturatedInto_mono {x y : k.Number} (h : x.inner ≤ y.inner) :
    (saturatedInto x).inner ≤ (saturatedInto y).inner := clamp_mono h

theorem saturatedInto_of_nonneg {x : k.Number} (h : 0 ≤ x.inner) :
    0 ≤ (saturatedInto x).inner ∧ (saturatedInto x).inner ≤ x.inner :=
  ⟨le_clamp_of_le h (by have hM := k.signed.repr.one_le_max; omega),
    clamp_le_of_le (le_refl _) (k.signed.repr.min_nonpos.trans h)⟩

/-- A value of the workspace between zero and a number of the type comes back unchanged. -/
theorem saturatedFrom_inner {y : k.signed.Number} {x : k.Number} (h : 0 ≤ y.inner) (h' : y.inner ≤ x.inner) :
    (saturatedFrom y : k.Number).inner = y.inner :=
  FixedNumber.clamp_of_mem (k.repr.min_nonpos.trans h) (h'.trans x.le_max)

variable {t : IntType}

theorem toFixed_mono {m n : IntValue t} (h : m.value ≤ n.value) : m.toFixed.inner ≤ n.toFixed.inner :=
  clamp_mono (Int.mul_le_mul_of_nonneg_right h t.fixedPoint.repr.div_pos'.le)

theorem toFixed_of_nonneg {n : IntValue t} (h : 0 ≤ n.value) :
    0 ≤ n.toFixed.inner ∧ n.toFixed.inner ≤ n.value * t.fixedPoint.repr.div := by
  have hnonneg : 0 ≤ n.value * t.fixedPoint.repr.div := Int.mul_nonneg h t.fixedPoint.repr.div_pos'.le
  exact ⟨le_clamp_of_le hnonneg (by have hM := t.fixedPoint.repr.one_le_max; omega),
    clamp_le_of_le (le_refl _) (t.fixedPoint.repr.min_nonpos.trans hnonneg)⟩

theorem fromFixed_value {f : t.fixedPoint.Number} {n : IntValue t} (h : 0 ≤ f.inner)
    (h' : f.inner ≤ n.value * t.fixedPoint.repr.div) :
    (fromFixed f : IntValue t).value = f.inner / t.fixedPoint.repr.div ∧
      f.inner / t.fixedPoint.repr.div ≤ n.value := by
  have hD := t.fixedPoint.repr.div_pos'
  have hle : f.inner / t.fixedPoint.repr.div ≤ n.value := Int.ediv_le_of_le_mul hD h'
  have hnonneg : 0 ≤ f.inner / t.fixedPoint.repr.div := Int.ediv_nonneg h hD.le
  refine ⟨?_, hle⟩
  rw [fromFixed, Int.tdiv_eq_ediv_of_nonneg h,
    IntValue.clamp_of_mem (t.min_nonpos.trans hnonneg) (hle.trans n.le_max)]

theorem fromFixed_mono {f g : t.fixedPoint.Number} (h : f.inner ≤ g.inner) :
    (fromFixed f : IntValue t).value ≤ (fromFixed g : IntValue t).value := by
  have hdiv := Int.tdiv_le_tdiv t.fixedPoint.repr.div_pos' h
  have hmin := t.min_nonpos
  have hmax := t.max_pos
  unfold fromFixed IntValue.clamp
  split <;> split <;> (try split) <;> (try split) <;> dsimp only <;> omega

end Casts

section Payouts

variable {t : IntType} {k : FixedKind}

theorem evaluate_inner {params : CurveParams k} {x : k.Number} (hl : 0 ≤ params.l.inner) :
    (params.evaluate x).inner = (logistic (saturatedInto params.l) (saturatedInto params.k)
      (saturatedInto params.x0) (saturatedInto x)).inner := by
  obtain ⟨hl0, hle⟩ := saturatedInto_of_nonneg hl
  obtain ⟨hnonneg, hbound⟩ := logistic_bounds (k := saturatedInto params.k)
    (x := saturatedInto x) k.signed.decimal hl0
  exact saturatedFrom_inner hnonneg (hbound.trans hle)

theorem evaluate_le {params : CurveParams k} {x : k.Number} (hl : 0 ≤ params.l.inner) :
    0 ≤ (params.evaluate x).inner ∧ (params.evaluate x).inner ≤ params.l.inner := by
  obtain ⟨hl0, hle⟩ := saturatedInto_of_nonneg hl
  obtain ⟨hnonneg, hbound⟩ := logistic_bounds (k := saturatedInto params.k)
    (x := saturatedInto x) k.signed.decimal hl0
  rw [evaluate_inner hl]
  exact ⟨hnonneg, hbound.trans hle⟩

theorem logistic_near_inner {F : FixedRepr} {l k x y : FixedNumber F} (x0 : FixedNumber F) (hF : F.Decimal)
    (hl : 0 ≤ l.inner) (hk : 0 ≤ k.inner) (h : x.inner ≤ y.inner) :
    F.div * (logistic l k x0 x).inner ≤ F.div * ((logistic l k x0 y).inner + 1) + 300 * l.inner := by
  have hD := F.div_pos_real
  have hnear := mul_le_mul_of_nonneg_left (logistic_near x0 hF hl hk h) (mul_nonneg hD.le hD.le)
  have hleft : (F.div : ℝ) * F.div * (logistic l k x0 x).toReal = F.div * (logistic l k x0 x).inner := by
    rw [inner_eq, mul_assoc]
  have hright : (F.div : ℝ) * F.div * ((logistic l k x0 y).toReal + (300 * l.toReal + 1) * F.unit) =
      F.div * ((logistic l k x0 y).inner + 1) + 300 * l.inner := by
    rw [inner_eq, inner_eq l]
    have hunit := F.div_mul_unit
    linear_combination ((F.div : ℝ) * (300 * l.toReal + 1)) * hunit
  rw [hleft, hright] at hnear
  exact_mod_cast hnear

theorem evaluate_near {params : CurveParams k} {x y : k.Number} (hl : 0 ≤ params.l.inner) (hk : 0 ≤ params.k.inner)
    (h : x.inner ≤ y.inner) :
    k.signed.repr.div * (params.evaluate x).inner ≤
      k.signed.repr.div * ((params.evaluate y).inner + 1) + 300 * params.l.inner := by
  obtain ⟨hl0, hle⟩ := saturatedInto_of_nonneg hl
  have hnear := logistic_near_inner (saturatedInto params.x0) k.signed.decimal hl0
    (saturatedInto_of_nonneg hk).1 (saturatedInto_mono h)
  rw [evaluate_inner hl, evaluate_inner hl]
  omega

section Sigmoid

variable {context : SigmoidPayoutConfig t} {rate x0 : t.fixedPoint.signed.Number} {x y : IntValue t}

theorem sigmoidPayout_of_shape (hshape : sigmoidShape context.growthStart context.growthEnd = some (rate, x0)) :
    sigmoidPayout x context = fromFixed (saturatedFrom
      (logistic (saturatedInto context.maxReward.toFixed) rate x0 (saturatedInto x.toFixed))) := by
  rw [sigmoidPayout, hshape]

theorem sigmoidPayout_value (hL : 0 ≤ context.maxReward.value)
    (hshape : sigmoidShape context.growthStart context.growthEnd = some (rate, x0)) :
    (sigmoidPayout x context).value = (logistic (saturatedInto context.maxReward.toFixed) rate x0
        (saturatedInto x.toFixed)).inner / t.fixedPoint.repr.div ∧
      (sigmoidPayout x context).value ≤ context.maxReward.value := by
  obtain ⟨hL0, hLle⟩ := toFixed_of_nonneg hL
  obtain ⟨hl0, hle⟩ := saturatedInto_of_nonneg hL0
  obtain ⟨hnonneg, hbound⟩ := logistic_bounds (k := rate) (x := saturatedInto x.toFixed)
    t.fixedPoint.signed.decimal hl0
  have hinner := saturatedFrom_inner hnonneg (hbound.trans hle)
  obtain ⟨hvalue, hmax⟩ := fromFixed_value (n := context.maxReward) (hinner.symm ▸ hnonneg)
    (hinner.trans_le (hbound.trans (hle.trans hLle)))
  rw [sigmoidPayout_of_shape hshape, hvalue, hinner]
  rw [hinner] at hmax
  exact ⟨rfl, hmax⟩

theorem sigmoidPayout_le (hL : 0 ≤ context.maxReward.value) :
    (sigmoidPayout x context).value ≤ context.maxReward.value := by
  cases hshape : sigmoidShape context.growthStart context.growthEnd with
  | none =>
    rw [sigmoidPayout, hshape]
    exact hL
  | some shape => exact (sigmoidPayout_value hL hshape).2

theorem sigmoidPayout_near (hL : 0 ≤ context.maxReward.value)
    (hshape : sigmoidShape context.growthStart context.growthEnd = some (rate, x0)) (hrate : 0 ≤ rate.inner)
    (h : x.value ≤ y.value) :
    t.fixedPoint.signed.repr.div * (sigmoidPayout x context).value ≤
      t.fixedPoint.signed.repr.div * ((sigmoidPayout y context).value + 1) + 300 * context.maxReward.value := by
  have hD := t.fixedPoint.repr.div_pos'
  have hS := t.fixedPoint.signed.repr.div_pos'
  obtain ⟨hL0, hLle⟩ := toFixed_of_nonneg hL
  obtain ⟨hl0, hle⟩ := saturatedInto_of_nonneg hL0
  have hnear := logistic_near_inner x0 t.fixedPoint.signed.decimal hl0 hrate
    (saturatedInto_mono (toFixed_mono h))
  rw [(sigmoidPayout_value hL hshape).1, (sigmoidPayout_value hL hshape).1]
  generalize (logistic (saturatedInto context.maxReward.toFixed) rate x0 (saturatedInto x.toFixed)).inner = a at hnear ⊢
  generalize (logistic (saturatedInto context.maxReward.toFixed) rate x0 (saturatedInto y.toFixed)).inner = b at hnear ⊢
  generalize (t.fixedPoint.repr.div : Int) = D at *
  generalize (t.fixedPoint.signed.repr.div : Int) = S at *
  have hlow : a / D * D ≤ a := Int.ediv_mul_le a hD.ne'
  have hhigh : b + 1 ≤ (b / D + 1) * D := Int.lt_ediv_add_one_mul_self b hD
  refine le_of_mul_le_mul_right ?_ hD
  calc S * (a / D) * D = S * (a / D * D) := by ring
    _ ≤ S * a := Int.mul_le_mul_of_nonneg_left hlow hS.le
    _ ≤ S * (b + 1) + 300 * (context.maxReward.value * D) := by omega
    _ ≤ S * ((b / D + 1) * D) + 300 * (context.maxReward.value * D) :=
        Int.add_le_add_right (Int.mul_le_mul_of_nonneg_left hhigh hS.le) _
    _ = (S * (b / D + 1) + 300 * context.maxReward.value) * D := by ring

end Sigmoid

section Linear

variable {startX endX startY endY x y : k.Number}

/-- The ratio of the interpolation, in units of the last place. -/
def linearRatio (startX endX x : k.Number) : Int :=
  (x.inner - startX.inner) * k.repr.div / (endX.inner - startX.inner)

theorem linearRatio_bounds (hlt : startX.inner < endX.inner) (hx : startX.inner ≤ x.inner) (hx' : x.inner ≤ endX.inner) :
    0 ≤ linearRatio startX endX x ∧ linearRatio startX endX x ≤ k.repr.div := by
  have hD := k.repr.div_pos'
  refine ⟨Int.ediv_nonneg (Int.mul_nonneg (by omega) hD.le) (by omega), ?_⟩
  refine Int.ediv_le_of_le_mul (by omega) ?_
  rw [Int.mul_comm]
  exact Int.mul_le_mul_of_nonneg_left (by omega) hD.le

theorem linearRatio_mono (hlt : startX.inner < endX.inner) (h : x.inner ≤ y.inner) :
    linearRatio startX endX x ≤ linearRatio startX endX y :=
  Int.ediv_le_ediv (by omega) (Int.mul_le_mul_of_nonneg_right (by omega) k.repr.div_pos'.le)

theorem tdiv_part {r D d : Int} (hD : 0 < D) (hr : 0 ≤ r) (hr' : r ≤ D) :
    min 0 d ≤ (r * d).tdiv D ∧ (r * d).tdiv D ≤ max 0 d := by
  have hpart (e : Int) (he : 0 ≤ e) : 0 ≤ (r * e).tdiv D ∧ (r * e).tdiv D ≤ e := by
    have hnum := Int.mul_nonneg hr he
    refine ⟨Int.tdiv_nonneg hnum hD.le, ?_⟩
    rw [Int.tdiv_eq_ediv_of_nonneg hnum]
    refine Int.ediv_le_of_le_mul hD ?_
    rw [Int.mul_comm e]
    exact Int.mul_le_mul_of_nonneg_right hr' he
  rcases Int.le_total 0 d with hd | hd
  · have hbounds := hpart d hd
    omega
  · have hbounds := hpart (-d) (by omega)
    rw [Int.mul_neg, Int.neg_tdiv] at hbounds
    omega

/-- With outputs that the workspace represents, the segment is an interpolation by the rounded ratio, at the
accuracy of the workspace. -/
theorem linearValue_clamp (hscale : k.repr.div ≤ k.signed.repr.div) (hlt : startX.inner < endX.inner)
    (hwidth : endX.inner - startX.inner ≤ k.repr.maxInner)
    (hx : startX.inner ≤ x.inner) (hx' : x.inner ≤ endX.inner)
    (hsy : 0 ≤ startY.inner ∧ startY.inner ≤ k.signed.repr.maxInner)
    (hey : 0 ≤ endY.inner ∧ endY.inner ≤ k.signed.repr.maxInner)
    (hsigned : k.signed.repr.minInner ≤ -k.signed.repr.maxInner) :
    Segment.linearValue startX endX startY endY x = FixedNumber.clamp (startY.inner +
      (linearRatio startX endX x * (endY.inner - startY.inner)).tdiv k.signed.repr.div) := by
  have hD := k.repr.div_pos'
  have hDmax := k.repr.div_le
  have hDmax' := k.signed.repr.div_le
  have hmin := k.repr.min_nonpos
  have hM := k.signed.repr.one_le_max
  obtain ⟨hr0, hr1⟩ := linearRatio_bounds hlt hx hx'
  have hpart := tdiv_part (d := endY.inner - startY.inner) k.signed.repr.div_pos' hr0 (by omega)
  have hw : (endX.saturatingSub startX).inner = endX.inner - startX.inner := by
    rw [saturatingSub_inner, FixedNumber.clamp_of_mem] <;> omega
  have hdx : (x.saturatingSub startX).inner = x.inner - startX.inner := by
    rw [saturatingSub_inner, FixedNumber.clamp_of_mem] <;> omega
  have hne : endX.saturatingSub startX ≠ FixedNumber.zero := by
    intro h
    rw [h, zero_inner] at hw
    omega
  have hratio : (x.saturatingSub startX).checkedDiv (endX.saturatingSub startX) =
      some ⟨linearRatio startX endX x, hmin.trans hr0, hr1.trans hDmax⟩ := by
    rw [checkedDiv_eq_some, hw, hdx, Int.tdiv_eq_ediv_of_nonneg (Int.mul_nonneg (by omega) hD.le)]
    exact ⟨by omega, rfl⟩
  have hint : ∀ a : k.Number, 0 ≤ a.inner → a.inner ≤ k.signed.repr.maxInner → (saturatedInto a).inner = a.inner :=
    fun a ha ha' => FixedNumber.clamp_of_mem (by have h0 := k.signed.repr.min_nonpos; omega) ha'
  have hdelta : ((saturatedInto endY).saturatingSub (saturatedInto startY)).inner = endY.inner - startY.inner := by
    rw [saturatingSub_inner, hint _ hey.1 hey.2, hint _ hsy.1 hsy.2, FixedNumber.clamp_of_mem] <;> omega
  have hratioInto : (saturatedInto (⟨linearRatio startX endX x, hmin.trans hr0, hr1.trans hDmax⟩ : k.Number)).inner =
      linearRatio startX endX x := hint _ hr0 (hr1.trans (by omega))
  have hprod : ((saturatedInto (⟨linearRatio startX endX x, hmin.trans hr0, hr1.trans hDmax⟩ : k.Number)).saturatingMul
      ((saturatedInto endY).saturatingSub (saturatedInto startY))).inner =
        (linearRatio startX endX x * (endY.inner - startY.inner)).tdiv k.signed.repr.div := by
    rw [saturatingMul_inner, hdelta, hratioInto, FixedNumber.clamp_of_mem] <;> omega
  have hsum : ((saturatedInto startY).saturatingAdd ((saturatedInto (⟨linearRatio startX endX x, hmin.trans hr0,
      hr1.trans hDmax⟩ : k.Number)).saturatingMul ((saturatedInto endY).saturatingSub (saturatedInto startY)))).inner =
        startY.inner + (linearRatio startX endX x * (endY.inner - startY.inner)).tdiv k.signed.repr.div := by
    rw [saturatingAdd_inner, hprod, hint _ hsy.1 hsy.2, FixedNumber.clamp_of_mem] <;> omega
  rw [Segment.linearValue, if_neg hne, hratio, Option.getD_some]
  exact congrArg FixedNumber.clamp hsum

end Linear

section Segments

/-- The segment is the first one of the configuration that contains the input. -/
def SegmentAt (context : PiecewiseConfig t.fixedPoint) (segment : Segment t.fixedPoint) (x : IntValue t) : Prop :=
  context.segments.find? (fun seg => seg.contains x.toFixed) = some segment

/-- A linear segment pays the whole parts of its outputs at its ends, and goes from one to the other without a
step back. -/
structure InterpolatesExactly (context : PiecewiseConfig t.fixedPoint)
    (startX endX startY endY : t.fixedPoint.Number) : Prop where
  start : ∀ x : IntValue t, SegmentAt context (.linear startX endX startY endY) x → x.toFixed = startX →
    piecewisePayout x context = fromFixed startY
  finish : ∀ x : IntValue t, SegmentAt context (.linear startX endX startY endY) x → x.toFixed = endX →
    piecewisePayout x context = fromFixed endY
  rising : startY.inner ≤ endY.inner → ∀ x y : IntValue t,
    SegmentAt context (.linear startX endX startY endY) x → SegmentAt context (.linear startX endX startY endY) y →
      x.value ≤ y.value → (fromFixed startY : IntValue t).value ≤ (piecewisePayout x context).value ∧
        (piecewisePayout x context).value ≤ (piecewisePayout y context).value ∧
          (piecewisePayout y context).value ≤ (fromFixed endY : IntValue t).value
  falling : endY.inner ≤ startY.inner → ∀ x y : IntValue t,
    SegmentAt context (.linear startX endX startY endY) x → SegmentAt context (.linear startX endX startY endY) y →
      x.value ≤ y.value → (fromFixed endY : IntValue t).value ≤ (piecewisePayout y context).value ∧
        (piecewisePayout y context).value ≤ (piecewisePayout x context).value ∧
          (piecewisePayout x context).value ≤ (fromFixed startY : IntValue t).value

variable {context : PiecewiseConfig t.fixedPoint} {startX endX startY endY x y : k.Number}

theorem linearValue_of_u128 (hk : k = .fixedU128) (hlt : startX.inner < endX.inner)
    (hx : startX.inner ≤ x.inner) (hx' : x.inner ≤ endX.inner)
    (hsy : startY.inner ≤ 2 ^ 127 - 1) (hey : endY.inner ≤ 2 ^ 127 - 1) :
    (Segment.linearValue startX endX startY endY x).inner =
      startY.inner + (linearRatio startX endX x * (endY.inner - startY.inner)).tdiv k.repr.div := by
  subst hk
  have hmin (a : FixedKind.fixedU128.Number) : 0 ≤ a.inner := a.min_le
  have hmax := endX.le_max
  have hsmax := startY.le_max
  have hemax := endY.le_max
  have hstart := hmin startX
  have hsY := hmin startY
  have heY := hmin endY
  obtain ⟨hr0, hr1⟩ := linearRatio_bounds hlt hx hx'
  have hpart := tdiv_part (d := endY.inner - startY.inner) FixedKind.fixedU128.signed.repr.div_pos' hr0 hr1
  rw [linearValue_clamp (le_refl _) hlt (by omega) hx hx' ⟨hsY, hsy⟩ ⟨heY, hey⟩ (by decide)]
  refine FixedNumber.clamp_of_mem ?_ ?_
  · exact le_trans (by decide : FixedKind.fixedU128.repr.minInner ≤ 0) (by omega)
  · omega

/-- The parts of the difference along a segment, from nothing at its start to the whole at its end. -/
theorem linearValue_ends (hk : k = .fixedU128) (hlt : startX.inner < endX.inner)
    (hsy : startY.inner ≤ 2 ^ 127 - 1) (hey : endY.inner ≤ 2 ^ 127 - 1) :
    Segment.linearValue startX endX startY endY startX = startY ∧
      Segment.linearValue startX endX startY endY endX = endY := by
  have hD := k.repr.div_pos'
  constructor
  · refine FixedNumber.ext ?_
    rw [linearValue_of_u128 hk hlt (le_refl _) hlt.le hsy hey, linearRatio]
    simp
  · refine FixedNumber.ext ?_
    rw [linearValue_of_u128 hk hlt hlt.le (le_refl _) hsy hey, linearRatio,
      Int.mul_ediv_cancel_left _ (by omega : endX.inner - startX.inner ≠ 0), Int.mul_tdiv_cancel_left _ hD.ne']
    omega

theorem linearValue_mono (hk : k = .fixedU128) (hlt : startX.inner < endX.inner)
    (hsy : startY.inner ≤ 2 ^ 127 - 1) (hey : endY.inner ≤ 2 ^ 127 - 1)
    (hx : startX.inner ≤ x.inner) (hy : y.inner ≤ endX.inner) (h : x.inner ≤ y.inner) :
    (startY.inner ≤ endY.inner → (Segment.linearValue startX endX startY endY x).inner ≤
      (Segment.linearValue startX endX startY endY y).inner) ∧
      (endY.inner ≤ startY.inner → (Segment.linearValue startX endX startY endY y).inner ≤
        (Segment.linearValue startX endX startY endY x).inner) := by
  have hD := k.repr.div_pos'
  have hratio := linearRatio_mono hlt h
  rw [linearValue_of_u128 hk hlt hx (h.trans hy) hsy hey, linearValue_of_u128 hk hlt (hx.trans h) hy hsy hey]
  constructor
  · intro hup
    have hmul := Int.tdiv_le_tdiv hD (Int.mul_le_mul_of_nonneg_right hratio
      (by omega : 0 ≤ endY.inner - startY.inner))
    omega
  · intro hdown
    have hmul := Int.tdiv_le_tdiv hD (Int.mul_le_mul_of_nonpos_right hratio
      (by omega : endY.inner - startY.inner ≤ 0))
    omega

theorem SegmentAt.bounds {startX endX startY endY : t.fixedPoint.Number} {x : IntValue t}
    (h : SegmentAt context (.linear startX endX startY endY) x) :
    startX.inner ≤ x.toFixed.inner ∧ x.toFixed.inner ≤ endX.inner ∧
      piecewisePayout x context = fromFixed (Segment.linearValue startX endX startY endY x.toFixed) := by
  have hcontains := List.find?_some h
  rw [Segment.contains, Bool.and_eq_true, decide_eq_true_eq, decide_eq_true_eq] at hcontains
  refine ⟨hcontains.1, hcontains.2, ?_⟩
  unfold SegmentAt at h
  rw [piecewisePayout, h]
  rfl

theorem interpolatesExactly {startX endX startY endY : t.fixedPoint.Number} (ht : t.fixedPoint = .fixedU128)
    (hlt : startX.inner < endX.inner) (hsy : startY.inner ≤ 2 ^ 127 - 1) (hey : endY.inner ≤ 2 ^ 127 - 1) :
    InterpolatesExactly context startX endX startY endY := by
  obtain ⟨hstart, hend⟩ := linearValue_ends ht hlt hsy hey
  have hmono {a b : t.fixedPoint.Number} (ha : startX.inner ≤ a.inner) (hb : b.inner ≤ endX.inner)
      (h : a.inner ≤ b.inner) := linearValue_mono ht hlt hsy hey ha hb h
  constructor
  case start =>
    intro x hx heq
    rw [hx.bounds.2.2, heq, hstart]
  case finish =>
    intro x hx heq
    rw [hx.bounds.2.2, heq, hend]
  case rising =>
    intro hup x y hx hy hxy
    obtain ⟨hx1, hx2, hpayx⟩ := hx.bounds
    obtain ⟨hy1, hy2, hpayy⟩ := hy.bounds
    rw [hpayx, hpayy]
    have hlow := (hmono (le_refl _) hx2 hx1).1 hup
    have hmid := (hmono hx1 hy2 (toFixed_mono hxy)).1 hup
    have hhigh := (hmono hy1 (le_refl _) hy2).1 hup
    rw [hstart] at hlow
    rw [hend] at hhigh
    exact ⟨fromFixed_mono hlow, fromFixed_mono hmid, fromFixed_mono hhigh⟩
  case falling =>
    intro hdown x y hx hy hxy
    obtain ⟨hx1, hx2, hpayx⟩ := hx.bounds
    obtain ⟨hy1, hy2, hpayy⟩ := hy.bounds
    rw [hpayx, hpayy]
    have hhigh := (hmono (le_refl _) hx2 hx1).2 hdown
    have hmid := (hmono hx1 hy2 (toFixed_mono hxy)).2 hdown
    have hlow := (hmono hy1 (le_refl _) hy2).2 hdown
    rw [hstart] at hhigh
    rw [hend] at hlow
    exact ⟨fromFixed_mono hlow, fromFixed_mono hmid, fromFixed_mono hhigh⟩

end Segments

end Payouts

theorem numbers_nonneg {k : FixedKind} (hk : k = .fixedU128) (x : k.Number) : 0 ≤ x.inner := by
  subst hk
  exact x.min_le

/-- On assets with 18 decimal places and no sign, a logistic reward never exceeds its maximum and grows up to one
unit and `300 / 10 ^ 18` of the maximum, as long as its computed growth rate is not negative, as it is for all
levels that are a ten-thousandth apart; without a growth rate it is zero; and an interpolated segment is exact. -/
theorem growthCurves_bounded (t : IntType) (ht : t.fixedPoint = .fixedU128) :
    (∀ (context : SigmoidPayoutConfig t) (x : IntValue t),
      (sigmoidPayout x context).value ≤ context.maxReward.value) ∧
    (∀ (context : SigmoidPayoutConfig t) (x y : IntValue t), x.value ≤ y.value →
      (∀ rate x0, sigmoidShape context.growthStart context.growthEnd = some (rate, x0) → 0 ≤ rate.inner) →
        10 ^ 18 * (sigmoidPayout x context).value ≤
          10 ^ 18 * ((sigmoidPayout y context).value + 1) + 300 * context.maxReward.value) ∧
    (∀ (growthStart growthEnd : t.fixedPoint.Number) (rate x0 : t.fixedPoint.signed.Number),
      growthStart.inner + 10 ^ 14 ≤ growthEnd.inner → sigmoidShape growthStart growthEnd = some (rate, x0) →
        0 < rate.inner) ∧
    (∀ (params : CurveParams t.fixedPoint) (x y : t.fixedPoint.Number),
      (params.evaluate x).inner ≤ params.l.inner ∧ (x.inner ≤ y.inner →
        10 ^ 18 * (params.evaluate x).inner ≤ 10 ^ 18 * ((params.evaluate y).inner + 1) + 300 * params.l.inner)) ∧
    (∀ (context : PiecewiseConfig t.fixedPoint) (startX endX startY endY : t.fixedPoint.Number),
      startX.inner < endX.inner → startY.inner ≤ 2 ^ 127 - 1 → endY.inner ≤ 2 ^ 127 - 1 →
        InterpolatesExactly context startX endX startY endY) := by
  have hL (n : IntValue t) : 0 ≤ n.value := by
    have hmin := n.min_le
    have hzero : t.min = 0 := by cases t <;> first | rfl | cases ht
    omega
  have hscale : (t.fixedPoint.signed.repr.div : Int) = 10 ^ 18 := by
    rw [ht]
    rfl
  refine ⟨fun context x => sigmoidPayout_le (hL _), fun context x y hxy hrate => ?_,
    fun growthStart growthEnd rate x0 hrise => sigmoidShape_rate_pos ht hrise, fun params x y => ?_,
    fun context startX endX startY endY hlt hsy hey => interpolatesExactly ht hlt hsy hey⟩
  · cases hshape : sigmoidShape context.growthStart context.growthEnd with
    | none =>
      have hmax := hL context.maxReward
      have hzero (z : IntValue t) : (sigmoidPayout z context).value = 0 := by
        rw [sigmoidPayout, hshape]
        rfl
      rw [hzero, hzero]
      omega
    | some shape =>
      have hnear := sigmoidPayout_near (hL _) hshape (hrate _ _ hshape) hxy
      rw [hscale] at hnear
      exact hnear
  · have hl := numbers_nonneg ht params.l
    refine ⟨(evaluate_le hl).2, fun hxy => ?_⟩
    have hnear := evaluate_near hl (numbers_nonneg ht params.k) hxy
    rw [hscale] at hnear
    exact hnear

/-- A hundred at the most, from a tenth of it to nine tenths. -/
def tenthToNine : SigmoidPayoutConfig .u128 :=
  ⟨⟨100, by decide, by decide⟩, saturatingFromRational 1 10, saturatingFromRational 9 10⟩

def hundredAtOne : CurveParams .fixedU128 := ⟨saturatingFromInteger 100, one, one⟩

/-- From five at zero to twenty at ten. -/
def fiveToTwenty : PiecewiseConfig .fixedU128 :=
  ⟨[.linear FixedNumber.zero (saturatingFromInteger 10) (saturatingFromInteger 5) (saturatingFromInteger 20)]⟩

theorem growthCurves_bounded_u128 :
    ((sigmoidPayout ⟨3, by decide, by decide⟩ tenthToNine).value ≤ 100 ∧
      10 ^ 18 * (sigmoidPayout ⟨1, by decide, by decide⟩ tenthToNine).value ≤
        10 ^ 18 * ((sigmoidPayout ⟨3, by decide, by decide⟩ tenthToNine).value + 1) + 300 * 100) ∧
    10 ^ 18 * (hundredAtOne.evaluate one).inner ≤
      10 ^ 18 * ((hundredAtOne.evaluate (saturatingFromInteger 2)).inner + 1) + 300 * (100 * 10 ^ 18) ∧
    piecewisePayout (⟨10, by decide, by decide⟩ : IntValue .u128) fiveToTwenty =
      fromFixed (saturatingFromInteger 20) ∧
    (piecewisePayout (⟨2, by decide, by decide⟩ : IntValue .u128) fiveToTwenty).value ≤
      (piecewisePayout (⟨7, by decide, by decide⟩ : IntValue .u128) fiveToTwenty).value := by
  obtain ⟨hle, hnear, hrate, hcurve, hlinear⟩ := growthCurves_bounded .u128 rfl
  have hrising : ∀ rate x0, sigmoidShape tenthToNine.growthStart tenthToNine.growthEnd = some (rate, x0) →
      0 ≤ rate.inner := fun rate x0 hshape => (hrate _ _ rate x0 (by decide) hshape).le
  have hexact := hlinear fiveToTwenty FixedNumber.zero (saturatingFromInteger 10) (saturatingFromInteger 5)
    (saturatingFromInteger 20) (by decide) (by decide) (by decide)
  refine ⟨⟨hle _ _, hnear _ _ _ (by decide) hrising⟩, (hcurve _ one (saturatingFromInteger 2)).2 (by decide),
    hexact.finish _ rfl rfl, ?_⟩
  exact (hexact.rising (by decide) ⟨2, by decide, by decide⟩ ⟨7, by decide, by decide⟩ rfl rfl (by decide)).2.1

/-- A reward of 18 decimal places shows the rounding of the exponential function: two units further the curve is
lower. Two levels next to each other get a growth rate below zero. -/
theorem growthCurves_step_back :
    (CurveParams.evaluate (⟨saturatingFromInteger (10 ^ 19), ulp, FixedNumber.zero⟩ : CurveParams .fixedU128)
        (saturatingFromInteger 3000000000000000001)).inner / 10 ^ 18 <
      (CurveParams.evaluate (⟨saturatingFromInteger (10 ^ 19), ulp, FixedNumber.zero⟩ : CurveParams .fixedU128)
        (saturatingFromInteger 2999999999999999999)).inner / 10 ^ 18 ∧
    (sigmoidPayout (⟨10 ^ 18, by decide, by decide⟩ : IntValue .u128) ⟨⟨100, by decide, by decide⟩,
      saturatingFromRational 333333333333333333 (10 ^ 18), saturatingFromRational 333333333333333334 (10 ^ 18)⟩).value <
    (sigmoidPayout (⟨0, by decide, by decide⟩ : IntValue .u128) ⟨⟨100, by decide, by decide⟩,
      saturatingFromRational 333333333333333333 (10 ^ 18), saturatingFromRational 333333333333333334 (10 ^ 18)⟩).value := by
  decide +kernel

end FrameSuite
