import FrameSuite.GrowthCurves
import FrameSuite.LogPrecision

/-! The influence models, which turn a weight into an influence: the weight itself, its square root, its logarithm,
a threshold, a logistic curve through two given points, an exponential, a decision, and a cap. -/

namespace FrameSuite

open FixedNumber IntValue FixedKind

variable {t : IntType}

def linearModel (input : IntValue t) : IntValue t := input

def quadraticModel (input : IntValue t) : IntValue t :=
  match fixedSqrt input.toFixed with
  | some sqrt => fromFixed sqrt
  | none => IntValue.zero

def logarithmicModel (input : IntValue t) : IntValue t :=
  match fixedLn input.toFixed with
  | some ln => fromFixed ln
  | none => IntValue.zero

structure ThresholdModelConfig (t : IntType) where
  threshold : IntValue t

def thresholdModel (input : IntValue t) (context : ThresholdModelConfig t) : IntValue t :=
  if context.threshold.value ≤ input.value then input else IntValue.zero

structure SigmoidModelConfig (k : FixedKind) where
  maxOutput : k.Number
  startFrac : k.Number
  endFrac : k.Number
  startX : k.Number
  endX : k.Number

/-- The growth rate and the midpoint of the curve through the two points, unless they are out of range or not in
order. -/
def SigmoidModelConfig.shape {k : FixedKind} (context : SigmoidModelConfig k) :
    Option (k.signed.Number × k.signed.Number) :=
  if inUnit context.startFrac ∧ inUnit context.endFrac then
    let start := saturatedInto context.startX
    let w := (saturatedInto context.endX).saturatingSub start
    if w.inner ≤ 0 then none
    else
      (logit context.startFrac).bind fun logitAlpha =>
        (logit context.endFrac).bind fun logitBeta =>
          ((logitBeta.saturatingSub logitAlpha).checkedDiv w).bind fun rate =>
            if rate = FixedNumber.zero then none
            else (logitAlpha.checkedDiv rate).map fun q => (rate, start.saturatingSub q)
  else none

def sigmoidModel (input : IntValue t) (context : SigmoidModelConfig t.fixedPoint) : IntValue t :=
  match context.shape with
  | none => IntValue.zero
  | some (rate, x0) =>
    fromFixed (saturatedFrom (logistic (saturatedInto context.maxOutput) rate x0 (saturatedInto input.toFixed)))

structure ExponentialModelConfig (k : FixedKind) where
  growthRate : k.Number

def exponentialModel (input : IntValue t) (context : ExponentialModelConfig t.fixedPoint) : IntValue t :=
  fromFixed ((fixedExp (context.growthRate.saturatingMul input.toFixed)).getD maxValue)

structure BinaryModelConfig (t : IntType) where
  passThreshold : IntValue t
  passValue : IntValue t
  failValue : IntValue t

def binaryModel (input : IntValue t) (context : BinaryModelConfig t) : IntValue t :=
  if context.passThreshold.value ≤ input.value then context.passValue else context.failValue

structure CappedLinearModelConfig (t : IntType) where
  maxInfluence : IntValue t

def cappedLinearModel (input : IntValue t) (context : CappedLinearModelConfig t) : IntValue t :=
  if context.maxInfluence.value < input.value then context.maxInfluence else input

section Conversions

variable {f : t.fixedPoint.Number}

theorem fromFixed_floor (h : 0 ≤ f.inner) :
    (fromFixed f : IntValue t).value = min (f.inner / t.fixedPoint.repr.div) t.max := by
  have hnonneg : 0 ≤ f.inner / t.fixedPoint.repr.div := Int.ediv_nonneg h t.fixedPoint.repr.div_pos'.le
  have hmin := t.min_nonpos
  have hmax := t.max_pos
  rw [fromFixed, Int.tdiv_eq_ediv_of_nonneg h]
  unfold IntValue.clamp
  split <;> (try split) <;> dsimp only <;> omega

/-- The integer that a conversion stands for: the value, up to what the fixed-point type holds. -/
def held (n : IntValue t) : Int := min n.value (t.fixedPoint.repr.maxInner / t.fixedPoint.repr.div)

theorem toFixed_inner_of_nonneg {n : IntValue t} (h : 0 ≤ n.value) :
    n.toFixed.inner = min (n.value * t.fixedPoint.repr.div) t.fixedPoint.repr.maxInner :=
  FixedNumber.clamp_of_nonneg (Int.mul_nonneg h t.fixedPoint.repr.div_pos'.le)

theorem held_eq {n : IntValue t} (h : 0 ≤ n.value) : held n = n.toFixed.inner / t.fixedPoint.repr.div := by
  have hD := t.fixedPoint.repr.div_pos'
  rw [toFixed_inner_of_nonneg h, held]
  rcases le_total (n.value * t.fixedPoint.repr.div) t.fixedPoint.repr.maxInner with hle | hle
  · rw [min_eq_left hle, Int.mul_ediv_cancel _ hD.ne', min_eq_left ((Int.le_ediv_iff_mul_le hD).mpr hle)]
  · rw [min_eq_right hle, min_eq_right (Int.ediv_le_of_le_mul hD hle)]

end Conversions

section SquareRoot

/-- A root that is at most two units above the exact one has the whole part of the exact one, if that stays two
units below the next whole number. -/
theorem div_root {D v r : Nat} (hlow : Nat.sqrt (v * D) ≤ r) (hup : r ≤ Nat.sqrt (v * D) + 2)
    (hroom : v * D < ((Nat.sqrt (v / D) + 1) * D - 2) * ((Nat.sqrt (v / D) + 1) * D - 2)) :
    r / D = Nat.sqrt (v / D) := by
  have hsq := Nat.sqrt_le (v / D)
  generalize Nat.sqrt (v / D) = m at hsq hroom ⊢
  have hwhole : m * D ≤ Nat.sqrt (v * D) := by
    rw [Nat.le_sqrt]
    have hle : m * m * D ≤ v := (Nat.mul_le_mul_right D hsq).trans (Nat.div_mul_le_self v D)
    calc m * D * (m * D) = m * m * D * D := by ring
      _ ≤ v * D := Nat.mul_le_mul_right D hle
  have hnext : Nat.sqrt (v * D) < (m + 1) * D - 2 := Nat.sqrt_lt.mpr hroom
  exact Nat.div_eq_of_lt_le (by omega) (by omega)

theorem room_of_whole {D n : Nat} (hn : 0 < n) (hD : 64 * n ≤ D * D) :
    n * D * D < ((Nat.sqrt n + 1) * D - 2) * ((Nat.sqrt n + 1) * D - 2) := by
  have hlt := Nat.lt_succ_sqrt n
  have hsq := Nat.sqrt_le n
  have hpos : 0 < Nat.sqrt n := Nat.sqrt_pos.mpr hn
  generalize Nat.sqrt n = m at hlt hsq hpos ⊢
  have hm : 4 * (m + 1) ≤ D := by
    by_contra hgt
    nlinarith
  obtain ⟨c, hc⟩ := Nat.exists_eq_add_of_le (by nlinarith : 2 ≤ (m + 1) * D)
  have hnext : n + 1 ≤ (m + 1) * (m + 1) := hlt
  rw [hc, Nat.add_sub_cancel_left]
  have hprod : (m + 1) * (m + 1) * (D * D) = (2 + c) * (2 + c) := by
    rw [← hc]
    ring
  have hmul : (n + 1) * (D * D) ≤ (m + 1) * (m + 1) * (D * D) := Nat.mul_le_mul_right _ hnext
  have hcross : 4 * ((m + 1) * D) ≤ D * D := by nlinarith
  nlinarith

/-- The range of a format against its accuracy, as far as whole roots depend on it. -/
theorem FixedKind.sixtyFour_mul_max_le (k : FixedKind) :
    64 * (k.repr.maxInner / k.repr.div) ≤ (k.repr.div : Int) * k.repr.div := by
  cases k <;> decide

theorem fixedSqrt_inner {F : FixedRepr} {x : FixedNumber F} {v : Nat} (hS : SqrtBounds F) (hv : x.inner = v)
    (hpos : 0 < v) : ∃ r, fixedSqrt x = some r ∧ (Nat.sqrt (v * F.div) : Int) ≤ r.inner ∧
      r.inner ≤ Nat.sqrt (v * F.div) + 2 := by
  obtain ⟨r, hexit, hlow, hup⟩ := fixedSqrtExit_near hS hv hpos
  have hzero : x ≠ FixedNumber.zero := fun h => by
    rw [h, zero_inner] at hv
    omega
  refine ⟨r, ?_, hlow, hup⟩
  rw [fixedSqrt, if_neg (by omega), if_neg hzero]
  split
  · rename_i hone
    rw [fixedSqrtExit, if_neg (by omega), if_pos hone] at hexit
    exact congrArg some (NewtonExit.returned.inj hexit)
  · rw [fixedSqrtNewton, hexit, NewtonExit.value]

/-- Between the whole numbers, and at the end of the two formats that cut integers off, there is room for the two
units. -/
theorem toFixed_room {n : IntValue t} {v : Nat} (hn : 0 < n.value) (hv : n.toFixed.inner = v) :
    v * t.fixedPoint.repr.div <
      ((Nat.sqrt (v / t.fixedPoint.repr.div) + 1) * t.fixedPoint.repr.div - 2) *
        ((Nat.sqrt (v / t.fixedPoint.repr.div) + 1) * t.fixedPoint.repr.div - 2) := by
  have hD := t.fixedPoint.repr.div_pos
  have hfixed := toFixed_inner_of_nonneg hn.le
  rcases le_or_gt (n.value * t.fixedPoint.repr.div) t.fixedPoint.repr.maxInner with hin | hout
  · obtain ⟨m, hm⟩ := Int.eq_ofNat_of_zero_le hn.le
    rw [min_eq_left hin, hv, hm] at hfixed
    have hvm : v = m * t.fixedPoint.repr.div := by exact_mod_cast hfixed
    rw [hvm, Nat.mul_div_cancel _ hD]
    refine room_of_whole (by omega) ?_
    have hle := (Int.le_ediv_iff_mul_le t.fixedPoint.repr.div_pos').mpr hin
    have hroom := t.fixedPoint.sixtyFour_mul_max_le
    rw [hm] at hle
    have hint : (64 * m : Int) ≤ t.fixedPoint.repr.div * t.fixedPoint.repr.div := by omega
    exact_mod_cast hint
  · rw [min_eq_right hout.le, hv] at hfixed
    rcases inRange_or n with hrange | rfl | rfl
    · exact absurd hrange.2 (not_le.mpr hout)
    · obtain rfl : v = 2 ^ 128 - 1 := by
        have hmax : ((FixedKind.fixedU128).repr.maxInner : Int) = ((2 ^ 128 - 1 : Nat) : Int) := by decide
        exact_mod_cast hfixed.trans hmax
      have hroot : Nat.sqrt ((2 ^ 128 - 1) / 10 ^ 18) = 18446744073 := (Nat.eq_sqrt.mpr (by decide)).symm
      change (2 ^ 128 - 1) * 10 ^ 18 < _
      simp only [IntType.fixedPoint, FixedKind.repr, hroot]
      decide
    · obtain rfl : v = 2 ^ 127 - 1 := by
        have hmax : ((FixedKind.fixedI128).repr.maxInner : Int) = ((2 ^ 127 - 1 : Nat) : Int) := by decide
        exact_mod_cast hfixed.trans hmax
      have hroot : Nat.sqrt ((2 ^ 127 - 1) / 10 ^ 18) = 13043817825 := (Nat.eq_sqrt.mpr (by decide)).symm
      change (2 ^ 127 - 1) * 10 ^ 18 < _
      simp only [IntType.fixedPoint, FixedKind.repr, hroot]
      decide

end SquareRoot

/-- The square-root influence is the exact whole root of every integer of every type, zero below zero, and stays at
its largest value where the fixed-point type cuts the integer off. -/
theorem quadraticModel_value (n : IntValue t) : (quadraticModel n).value = Nat.sqrt (held n).toNat := by
  have hD := t.fixedPoint.repr.div_pos'
  rcases le_or_gt n.value 0 with hn | hn
  · have hle : n.toFixed.inner ≤ 0 :=
      clamp_le_of_le (Int.mul_nonpos_of_nonpos_of_nonneg hn hD.le) t.fixedPoint.repr.min_nonpos
    have hheld : (held n).toNat = 0 := Int.toNat_of_nonpos ((min_le_left _ _).trans hn)
    rw [hheld, Nat.sqrt_zero, quadraticModel]
    rcases hle.lt_or_eq with hneg | hzero
    · rw [fixedSqrt, if_pos hneg]
      rfl
    · rw [fixedSqrt, if_neg (by omega), if_pos (FixedNumber.ext hzero), fromFixed_floor (le_refl _), zero_inner,
        Int.zero_ediv]
      exact min_eq_left t.max_pos.le
  · have hfixed := toFixed_inner_of_nonneg hn.le
    have hvpos : 0 < n.toFixed.inner := by
      rw [hfixed]
      exact lt_min (Int.mul_pos hn hD) (by have := t.fixedPoint.repr.one_le_max; omega)
    obtain ⟨v, hv⟩ := Int.eq_ofNat_of_zero_le hvpos.le
    obtain ⟨r, hr, hlow, hup⟩ := fixedSqrt_inner t.fixedPoint.sqrtBounds hv (by omega)
    obtain ⟨rn, hrn⟩ := Int.eq_ofNat_of_zero_le ((Int.natCast_nonneg _).trans hlow)
    have hroot := div_root (r := rn) (by omega) (by omega) (toFixed_room hn hv)
    have hheld : held n = ((v / t.fixedPoint.repr.div : Nat) : Int) := by
      rw [held_eq hn.le, hv]
      exact (Int.natCast_div _ _).symm
    have hquot : r.inner / t.fixedPoint.repr.div = ((Nat.sqrt (v / t.fixedPoint.repr.div) : Nat) : Int) := by
      rw [hrn, ← hroot]
      exact (Int.natCast_div _ _).symm
    have hmax : ((Nat.sqrt (v / t.fixedPoint.repr.div) : Nat) : Int) ≤ t.max := by
      have hself : ((Nat.sqrt (v / t.fixedPoint.repr.div) : Nat) : Int) ≤ held n := by
        rw [hheld]
        exact_mod_cast Nat.sqrt_le_self _
      exact hself.trans ((min_le_left _ _).trans n.le_max)
    rw [quadraticModel, hr]
    change (fromFixed r : IntValue t).value = _
    rw [fromFixed_floor (by omega), hquot, min_eq_left hmax, hheld, Int.toNat_natCast]

section Logarithm

variable {n : IntValue t}

theorem toFixed_one_le (hn : 0 < n.value) : (t.fixedPoint.repr.div : Int) ≤ n.toFixed.inner := by
  have hmul : 1 * (t.fixedPoint.repr.div : Int) ≤ n.value * t.fixedPoint.repr.div :=
    Int.mul_le_mul_of_nonneg_right hn t.fixedPoint.repr.div_pos'.le
  rw [toFixed_inner_of_nonneg hn.le]
  exact le_min (by omega) t.fixedPoint.repr.div_le

theorem logarithmicModel_of_nonpos (hn : n.value ≤ 0) : (logarithmicModel n).value = 0 := by
  have hle : n.toFixed.inner ≤ 0 := clamp_le_of_le
    (Int.mul_nonpos_of_nonpos_of_nonneg hn t.fixedPoint.repr.div_pos'.le) t.fixedPoint.repr.min_nonpos
  rw [logarithmicModel, fixedLn, if_pos hle]
  rfl

theorem rootError_of_one_le {F : FixedRepr} {x : FixedNumber F} (hx : 1 ≤ x.toReal) : rootError x = F.unit := by
  rw [rootError, min_eq_right hx, Real.sqrt_one, div_one]

/-- From one on the error of the logarithm is far below a whole. -/
theorem fixedLn_of_one_le {F : FixedRepr} {x : FixedNumber F} (hF : F.Decimal) (hS : SqrtBounds F)
    (hone : (F.div : Int) ≤ x.inner) : ∃ l, fixedLn x = some l ∧ 0 ≤ l.inner ∧
      |l.toReal - Real.log x.toReal| ≤ 1 / 25000 := by
  have hpos : 0 < x.inner := F.div_pos'.trans_le hone
  have hdomain : ¬(isUnsigned F ∧ x.inner < (one : FixedNumber F).inner) := fun h => absurd h.2 (not_lt.mpr hone)
  obtain ⟨l, hl, hnear⟩ := fixedLn_near hF hS hpos hdomain
  obtain ⟨l', hl', hnonneg, -⟩ := fixedLn_eq_some hF hS hpos hdomain
  obtain rfl := Option.some.inj (hl'.symm.trans hl)
  have hu := hF.unit_le
  have hu0 := F.unit_pos
  have hlog := abs_log_le hF hpos
  refine ⟨l', hl, hnonneg hone, hnear.trans ?_⟩
  rw [rootError_of_one_le (one_le_toReal.mpr hone)]
  calc 110 * (1 + 6 * |Real.log x.toReal|) * F.unit
      ≤ 110 * (1 + 6 * 48) * (1 / 10 ^ 9) := by gcongr
    _ ≤ 1 / 25000 := by norm_num

theorem toReal_floor {F : FixedRepr} {l : FixedNumber F} :
    ((l.inner / F.div : Int) : ℝ) ≤ l.toReal ∧ l.toReal < ((l.inner / F.div : Int) : ℝ) + 1 := by
  have hD := F.div_pos_real
  constructor
  · rw [toReal, le_div_iff₀ hD]
    exact_mod_cast Int.ediv_mul_le l.inner F.div_pos'.ne'
  · rw [toReal, div_lt_iff₀ hD]
    exact_mod_cast Int.lt_ediv_add_one_mul_self l.inner F.div_pos'

theorem logarithmicModel_of_pos (hn : 0 < n.value) :
    ((logarithmicModel n).value : ℝ) ≤ Real.log n.toFixed.toReal + 1 / 25000 ∧
      Real.log n.toFixed.toReal < (logarithmicModel n).value + 1 + 1 / 25000 := by
  have hone := toFixed_one_le hn
  obtain ⟨l, hl, hnonneg, hnear⟩ := fixedLn_of_one_le t.fixedPoint.decimal t.fixedPoint.sqrtBounds hone
  obtain ⟨hlow, hup⟩ := abs_le.mp hnear
  obtain ⟨hfloor, hceil⟩ := toReal_floor (l := l)
  have hpos := toReal_pos (t.fixedPoint.repr.div_pos'.trans_le hone)
  have hsmall := Real.log_le_sub_one_of_pos hpos
  have hreal : n.toFixed.toReal ≤ n.value := by
    rw [toReal, div_le_iff₀ t.fixedPoint.repr.div_pos_real]
    exact_mod_cast (toFixed_of_nonneg hn.le).2
  have hle : l.inner / t.fixedPoint.repr.div ≤ t.max := by
    have hlt : ((l.inner / t.fixedPoint.repr.div : Int) : ℝ) < n.value := by linarith
    have hint : l.inner / t.fixedPoint.repr.div < n.value := by exact_mod_cast hlt
    exact hint.le.trans n.le_max
  have hvalue : (logarithmicModel n).value = l.inner / t.fixedPoint.repr.div := by
    rw [logarithmicModel, hl]
    change (fromFixed l : IntValue t).value = _
    rw [fromFixed_floor hnonneg, min_eq_left hle]
  rw [hvalue]
  exact ⟨by linarith, by linarith⟩

end Logarithm

/-- The logarithmic influence is zero up to zero, and above it the whole part of the exact logarithm, which may be
off by one only where that is closer than a part in 25000 to a whole number. -/
theorem logarithmicModel_near (n : IntValue t) :
    (n.value ≤ 0 → (logarithmicModel n).value = 0) ∧
      (0 < n.value → ((logarithmicModel n).value : ℝ) ≤ Real.log n.toFixed.toReal + 1 / 25000 ∧
        Real.log n.toFixed.toReal < (logarithmicModel n).value + 1 + 1 / 25000) :=
  ⟨logarithmicModel_of_nonpos, logarithmicModel_of_pos⟩

section Order

variable {x y : IntValue t}

/-- More weight never means less influence. -/
def Orders (model : IntValue t → IntValue t) : Prop :=
  ∀ x y, x.value ≤ y.value → (model x).value ≤ (model y).value

/-- How far each model keeps the order of the weights: exactly, under a condition on its parameters, or up to the
rounding. -/
structure InfluenceOrder (t : IntType) : Prop where
  quadratic : Orders (quadraticModel (t := t))
  cappedLinear : ∀ context, Orders (cappedLinearModel (t := t) · context)
  threshold : ∀ context : ThresholdModelConfig t, Orders (thresholdModel · context) ↔
    0 ≤ context.threshold.value ∨ context.threshold.value = t.min
  binary : ∀ context : BinaryModelConfig t, Orders (binaryModel · context) ↔
    context.failValue.value ≤ context.passValue.value ∨ context.passThreshold.value = t.min
  logarithmic : ∀ x y : IntValue t, x.value ≤ y.value →
    (logarithmicModel x).value ≤ (logarithmicModel y).value + 1
  sigmoid : ∀ (context : SigmoidModelConfig t.fixedPoint) (x y : IntValue t), 0 ≤ context.maxOutput.inner →
    (∀ rate x0, context.shape = some (rate, x0) → 0 ≤ rate.inner) → x.value ≤ y.value →
      t.fixedPoint.signed.repr.div * (t.fixedPoint.repr.div * (sigmoidModel x context).value) ≤
        t.fixedPoint.signed.repr.div * (t.fixedPoint.repr.div * ((sigmoidModel y context).value + 1)) +
          300 * context.maxOutput.inner
  exponential : ∀ (context : ExponentialModelConfig t.fixedPoint) (x y : IntValue t),
    0 ≤ context.growthRate.inner → x.value ≤ y.value →
      t.fixedPoint.repr.div * (exponentialModel x context).value ≤
        (t.fixedPoint.repr.div + 300) * ((exponentialModel y context).value + 1) + 120

theorem quadraticModel_orders : Orders (quadraticModel (t := t)) := by
  intro x y h
  rw [quadraticModel_value, quadraticModel_value]
  have hheld : held x ≤ held y := min_le_min_right _ h
  exact_mod_cast Nat.sqrt_le_sqrt (Int.toNat_le_toNat hheld)

theorem cappedLinearModel_orders (context : CappedLinearModelConfig t) : Orders (cappedLinearModel · context) := by
  intro x y h
  dsimp only [cappedLinearModel]
  split <;> split <;> omega

/-- The value before one that is not the least. -/
def pred (n : IntValue t) (h : t.min < n.value) : IntValue t :=
  ⟨n.value - 1, by omega, by have := n.le_max; omega⟩

theorem thresholdModel_orders_iff (context : ThresholdModelConfig t) :
    Orders (thresholdModel · context) ↔ 0 ≤ context.threshold.value ∨ context.threshold.value = t.min := by
  constructor
  · intro horder
    by_contra hfails
    rw [not_or] at hfails
    have hmin := context.threshold.min_le
    have hlt : t.min < context.threshold.value := by omega
    have hle := horder (pred context.threshold hlt) context.threshold (by dsimp only [pred]; omega)
    have hbelow : (thresholdModel (pred context.threshold hlt) context).value = 0 := by
      rw [thresholdModel, if_neg (by dsimp only [pred]; omega)]
      rfl
    have hat : (thresholdModel context.threshold context).value = context.threshold.value := by
      rw [thresholdModel, if_pos (le_refl _)]
    dsimp only at hle
    omega
  · intro hparam x y h
    have hzero : (IntValue.zero : IntValue t).value = 0 := rfl
    have hmin := x.min_le
    dsimp only [thresholdModel]
    split <;> split <;> omega

theorem binaryModel_orders_iff (context : BinaryModelConfig t) : Orders (binaryModel · context) ↔
    context.failValue.value ≤ context.passValue.value ∨ context.passThreshold.value = t.min := by
  constructor
  · intro horder
    by_contra hfails
    rw [not_or] at hfails
    have hmin := context.passThreshold.min_le
    have hlt : t.min < context.passThreshold.value := by omega
    have hle := horder (pred context.passThreshold hlt) context.passThreshold (by dsimp only [pred]; omega)
    have hbelow : binaryModel (pred context.passThreshold hlt) context = context.failValue :=
      if_neg (by dsimp only [pred]; omega)
    have hat : binaryModel context.passThreshold context = context.passValue := if_pos (le_refl _)
    dsimp only at hle
    rw [hbelow, hat] at hle
    omega
  · intro hparam x y h
    have hmin := x.min_le
    dsimp only [binaryModel]
    split <;> split <;> omega

theorem logarithmicModel_order (h : x.value ≤ y.value) :
    (logarithmicModel x).value ≤ (logarithmicModel y).value + 1 := by
  rcases le_or_gt x.value 0 with hx | hx
  · rw [logarithmicModel_of_nonpos hx]
    rcases le_or_gt y.value 0 with hy | hy
    · rw [logarithmicModel_of_nonpos hy]
      norm_num
    · have hup := (logarithmicModel_of_pos hy).2
      have hlog := Real.log_nonneg (one_le_toReal.mpr (toFixed_one_le hy))
      have hreal : (-2 : ℝ) < (logarithmicModel y).value := by linarith
      have hint : (-2 : Int) < (logarithmicModel y).value := by exact_mod_cast hreal
      omega
  · have hlow := (logarithmicModel_of_pos hx).1
    have hup := (logarithmicModel_of_pos (hx.trans_le h)).2
    have hxpos := toReal_pos (t.fixedPoint.repr.div_pos'.trans_le (toFixed_one_le hx))
    have hlog := Real.log_le_log hxpos (toReal_le_toReal.mpr (toFixed_mono h))
    have hreal : ((logarithmicModel x).value : ℝ) < (logarithmicModel y).value + 2 := by linarith
    have hint : (logarithmicModel x).value < (logarithmicModel y).value + 2 := by exact_mod_cast hreal
    omega

/-- A floor that the type may cut off keeps an inequality in units of the last place. -/
theorem floor_order {a b D M S c : Int} (hD : 0 < D) (hS : 0 ≤ S) (hc : 0 ≤ c) (h : S * a ≤ S * (b + 1) + c) :
    S * (D * min (a / D) M) ≤ S * (D * (min (b / D) M + 1)) + c := by
  rcases le_total (b / D) M with hle | hle
  · have hlow : D * min (a / D) M ≤ a := by
      have hmul := Int.mul_le_mul_of_nonneg_left (min_le_left (a / D) M) hD.le
      exact hmul.trans (Int.mul_ediv_self_le hD.ne')
    have hhigh : b + 1 ≤ D * (b / D + 1) := by
      have hlt := Int.lt_ediv_add_one_mul_self b hD
      rw [Int.mul_comm] at hlt
      exact hlt
    rw [min_eq_left hle]
    have hleft := Int.mul_le_mul_of_nonneg_left hlow hS
    have hright := Int.mul_le_mul_of_nonneg_left hhigh hS
    omega
  · rw [min_eq_right hle]
    have hmul : D * min (a / D) M ≤ D * (M + 1) :=
      Int.mul_le_mul_of_nonneg_left ((min_le_right _ _).trans (by omega)) hD.le
    have hleft := Int.mul_le_mul_of_nonneg_left hmul hS
    omega

theorem sigmoidModel_value {context : SigmoidModelConfig t.fixedPoint} {rate x0 : t.fixedPoint.signed.Number}
    (hL : 0 ≤ context.maxOutput.inner) (hshape : context.shape = some (rate, x0)) (x : IntValue t) :
    (sigmoidModel x context).value = min ((logistic (saturatedInto context.maxOutput) rate x0
      (saturatedInto x.toFixed)).inner / t.fixedPoint.repr.div) t.max := by
  obtain ⟨hl0, hle⟩ := saturatedInto_of_nonneg hL
  obtain ⟨hnonneg, hbound⟩ := logistic_bounds (k := rate) (x := saturatedInto x.toFixed)
    t.fixedPoint.signed.decimal hl0
  have hinner := saturatedFrom_inner hnonneg (hbound.trans hle)
  rw [sigmoidModel, hshape]
  dsimp only
  rw [fromFixed_floor (hinner.symm ▸ hnonneg), hinner]

theorem sigmoidModel_order (context : SigmoidModelConfig t.fixedPoint) (hL : 0 ≤ context.maxOutput.inner)
    (hrate : ∀ rate x0, context.shape = some (rate, x0) → 0 ≤ rate.inner) (h : x.value ≤ y.value) :
    t.fixedPoint.signed.repr.div * (t.fixedPoint.repr.div * (sigmoidModel x context).value) ≤
      t.fixedPoint.signed.repr.div * (t.fixedPoint.repr.div * ((sigmoidModel y context).value + 1)) +
        300 * context.maxOutput.inner := by
  have hD := t.fixedPoint.repr.div_pos'
  have hS := t.fixedPoint.signed.repr.div_pos'
  have hc : 0 ≤ 300 * context.maxOutput.inner := by omega
  cases hshape : context.shape with
  | none =>
    have hzero (z : IntValue t) : (sigmoidModel z context).value = 0 := by
      rw [sigmoidModel, hshape]
      rfl
    have hprod := Int.mul_nonneg hS.le (Int.mul_nonneg hD.le (by norm_num : (0 : Int) ≤ 0 + 1))
    rw [hzero, hzero, Int.mul_zero, Int.mul_zero]
    omega
  | some shape =>
    obtain ⟨rate, x0⟩ := shape
    obtain ⟨hl0, hle⟩ := saturatedInto_of_nonneg hL
    have hnear := logistic_near_inner x0 t.fixedPoint.signed.decimal hl0 (hrate rate x0 hshape)
      (saturatedInto_mono (toFixed_mono h))
    rw [sigmoidModel_value hL hshape, sigmoidModel_value hL hshape]
    exact floor_order hD hS.le hc (hnear.trans (by omega))

theorem exponential_floor {a b D M : Int} (hD : 0 < D) (h : D * a ≤ (D + 300) * b + 120 * D) (hM : 0 ≤ M) :
    D * min (a / D) M ≤ (D + 300) * (min (b / D) M + 1) + 120 := by
  rcases le_total (b / D) M with hle | hle
  · rw [min_eq_left hle]
    have hlow : D * min (a / D) M ≤ a :=
      (Int.mul_le_mul_of_nonneg_left (min_le_left (a / D) M) hD.le).trans (Int.mul_ediv_self_le hD.ne')
    have hhigh : b ≤ D * (b / D + 1) := by
      have hlt := Int.lt_ediv_add_one_mul_self b hD
      rw [Int.mul_comm] at hlt
      exact hlt.le
    refine le_of_mul_le_mul_left ?_ hD
    calc D * (D * min (a / D) M) ≤ D * a := Int.mul_le_mul_of_nonneg_left hlow hD.le
      _ ≤ (D + 300) * b + 120 * D := h
      _ ≤ (D + 300) * (D * (b / D + 1)) + 120 * D :=
          Int.add_le_add_right (Int.mul_le_mul_of_nonneg_left hhigh (by omega)) _
      _ = D * ((D + 300) * (b / D + 1) + 120) := by ring
  · rw [min_eq_right hle]
    have hleft : D * min (a / D) M ≤ D * M := Int.mul_le_mul_of_nonneg_left (min_le_right _ _) hD.le
    have hright : D * M ≤ (D + 300) * (M + 1) := by linarith
    omega

theorem exponentialModel_order (context : ExponentialModelConfig t.fixedPoint)
    (hrate : 0 ≤ context.growthRate.inner) (h : x.value ≤ y.value) :
    t.fixedPoint.repr.div * (exponentialModel x context).value ≤
      (t.fixedPoint.repr.div + 300) * ((exponentialModel y context).value + 1) + 120 := by
  have hF := t.fixedPoint.decimal
  have hD := t.fixedPoint.repr.div_pos'
  have hDr := t.fixedPoint.repr.div_pos_real
  have hvalue (z : IntValue t) : (exponentialModel z context).value =
      min ((expOrMax (context.growthRate.saturatingMul z.toFixed)).inner / t.fixedPoint.repr.div) t.max :=
    fromFixed_floor (toReal_nonneg.mp (expOrMax_nonneg hF _))
  have hnear := expOrMax_near hF (saturatingMul_mono hrate (toFixed_mono h))
  rw [hvalue, hvalue]
  generalize expOrMax (context.growthRate.saturatingMul x.toFixed) = a at hnear ⊢
  generalize expOrMax (context.growthRate.saturatingMul y.toFixed) = b at hnear ⊢
  have hinner : t.fixedPoint.repr.div * a.inner ≤
      (t.fixedPoint.repr.div + 300) * b.inner + 120 * t.fixedPoint.repr.div := by
    have hscaled := mul_le_mul_of_nonneg_left hnear (mul_nonneg hDr.le hDr.le)
    have hunit := t.fixedPoint.repr.div_mul_unit
    have ha : (t.fixedPoint.repr.div : ℝ) * t.fixedPoint.repr.div * a.toReal = t.fixedPoint.repr.div * a.inner := by
      rw [inner_eq, mul_assoc]
    have hb : (t.fixedPoint.repr.div : ℝ) * t.fixedPoint.repr.div *
        (b.toReal * (1 + 300 * t.fixedPoint.repr.unit) + 120 * t.fixedPoint.repr.unit) =
          (t.fixedPoint.repr.div + 300) * b.inner + 120 * t.fixedPoint.repr.div := by
      rw [inner_eq b]
      linear_combination (300 * t.fixedPoint.repr.div * b.toReal + 120 * t.fixedPoint.repr.div) * hunit
    rw [ha, hb] at hscaled
    exact_mod_cast hscaled
  exact exponential_floor hD hinner t.max_pos.le

end Order

/-- No model ranks weights the other way round, but for a threshold below zero, a decision for the lower value, and
what the rounding of a logarithm or an exponential moves. -/
theorem influence_order (t : IntType) : InfluenceOrder t where
  quadratic := quadraticModel_orders
  cappedLinear := cappedLinearModel_orders
  threshold := thresholdModel_orders_iff
  binary := binaryModel_orders_iff
  logarithmic _ _ := logarithmicModel_order
  sigmoid context _ _ := sigmoidModel_order context
  exponential context _ _ := exponentialModel_order context

end FrameSuite
