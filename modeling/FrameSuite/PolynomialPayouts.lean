import FrameSuite.InfluenceModels

/-! The payouts that are polynomials of their input. Every step saturates and none of them rounds, so that they pay
the whole part of the exact polynomial as long as the square of the input is there, and never more. -/

namespace FrameSuite

open FixedNumber IntValue

variable {F : FixedRepr} {t : IntType}

structure LinearPayoutConfig (F : FixedRepr) where
  slope : FixedNumber F
  baseReward : FixedNumber F

structure QuadraticPayoutConfig (F : FixedRepr) where
  quadraticCoeff : FixedNumber F
  linearCoeff : FixedNumber F
  constantTerm : FixedNumber F

def linearPayout (input : IntValue t) (context : LinearPayoutConfig t.fixedPoint.repr) : IntValue t :=
  fromFixed ((input.toFixed.saturatingMul context.slope).saturatingAdd context.baseReward)

def quadraticPayout (input : IntValue t) (context : QuadraticPayoutConfig t.fixedPoint.repr) : IntValue t :=
  let x := input.toFixed
  let xSq := x.saturatingMul x
  let termQuadratic := context.quadraticCoeff.saturatingMul xSq
  let termLinear := context.linearCoeff.saturatingMul x
  fromFixed ((termQuadratic.saturatingAdd termLinear).saturatingAdd context.constantTerm)

section Saturation

variable {x y : FixedNumber F}

theorem saturatingMul_of_nonneg (hx : 0 ≤ x.inner) (hy : 0 ≤ y.inner) :
    (x.saturatingMul y).inner = min (x.inner * y.inner / F.div) F.maxInner := by
  have hxy := Int.mul_nonneg hx hy
  rw [saturatingMul_inner, Int.tdiv_eq_ediv_of_nonneg hxy,
    FixedNumber.clamp_of_nonneg (Int.ediv_nonneg hxy F.div_pos'.le)]

theorem saturatingAdd_of_nonneg (hx : 0 ≤ x.inner) (hy : 0 ≤ y.inner) :
    (x.saturatingAdd y).inner = min (x.inner + y.inner) F.maxInner := by
  rw [saturatingAdd_inner, FixedNumber.clamp_of_nonneg (Int.add_nonneg hx hy)]

theorem saturatingAdd_nonneg (hx : 0 ≤ x.inner) (hy : 0 ≤ y.inner) : 0 ≤ (x.saturatingAdd y).inner := by
  have hmax := F.one_le_max
  rw [saturatingAdd_of_nonneg hx hy]
  omega

/-- The product with a number that stands for a whole one does not round. -/
theorem saturatingMul_whole {n : Int} (hx : 0 ≤ x.inner) (hy : 0 ≤ y.inner) (h : y.inner = n * F.div) :
    (x.saturatingMul y).inner = min (x.inner * n) F.maxInner := by
  rw [saturatingMul_of_nonneg hx hy, h, ← Int.mul_assoc, Int.mul_ediv_cancel _ F.div_pos'.ne']

theorem saturatingMul_le {n : Int} (hx : 0 ≤ x.inner) (hy : 0 ≤ y.inner) (h : y.inner ≤ n * F.div) :
    (x.saturatingMul y).inner ≤ x.inner * n := by
  have hle := Int.mul_le_mul_of_nonneg_left h hx
  rw [← Int.mul_assoc] at hle
  have hdiv := Int.ediv_le_ediv F.div_pos' hle
  rw [Int.mul_ediv_cancel _ F.div_pos'.ne'] at hdiv
  rw [saturatingMul_of_nonneg hx hy]
  omega

end Saturation

section Values

variable {n : IntValue t}

def LinearPayoutConfig.Nonneg (context : LinearPayoutConfig F) : Prop :=
  0 ≤ context.slope.inner ∧ 0 ≤ context.baseReward.inner

def QuadraticPayoutConfig.Nonneg (context : QuadraticPayoutConfig F) : Prop :=
  0 ≤ context.quadraticCoeff.inner ∧ 0 ≤ context.linearCoeff.inner ∧ 0 ≤ context.constantTerm.inner

/-- The polynomial in units of the format. -/
def QuadraticPayoutConfig.exact (context : QuadraticPayoutConfig F) (n : Int) : Int :=
  context.quadraticCoeff.inner * (n * n) + context.linearCoeff.inner * n + context.constantTerm.inner

def LinearPayoutConfig.exact (context : LinearPayoutConfig F) (n : Int) : Int :=
  context.slope.inner * n + context.baseReward.inner

/-- A payout of this amount in units: the whole part, as far as the format and the asset go. -/
def wholePart (t : IntType) (amount : Int) : Int :=
  min (min amount t.fixedPoint.repr.maxInner / t.fixedPoint.repr.div) t.max

theorem fromFixed_wholePart {f : t.fixedPoint.Number} {amount : Int} (hf : 0 ≤ f.inner)
    (h : f.inner = min amount t.fixedPoint.repr.maxInner) :
    (fromFixed f : IntValue t).value = wholePart t amount := by
  rw [fromFixed_floor hf, h, wholePart]

theorem fromFixed_le_wholePart {f : t.fixedPoint.Number} {amount : Int} (hf : 0 ≤ f.inner) (h : f.inner ≤ amount) :
    (fromFixed f : IntValue t).value ≤ wholePart t amount := by
  have hdiv := Int.ediv_le_ediv t.fixedPoint.repr.div_pos' (le_min h f.le_max)
  rw [fromFixed_floor hf, wholePart]
  omega

theorem clamp_value_toward (m : Int) : Toward ((IntValue.clamp m : IntValue t).value : ℝ) m := by
  have hmin := t.min_nonpos
  have hmax := t.max_pos
  unfold IntValue.clamp
  split
  · left
    exact ⟨by exact_mod_cast hmax.le, by exact_mod_cast (by omega : t.max ≤ m)⟩
  · split
    · right
      exact ⟨by exact_mod_cast (by omega : m ≤ t.min), by exact_mod_cast hmin⟩
    · exact Toward.refl _

/-- The integer is the whole part, cut off towards zero. -/
theorem fromFixed_toward (f : t.fixedPoint.Number) : Toward ((fromFixed f : IntValue t).value : ℝ) f.toReal :=
  (clamp_value_toward _).trans (tdiv_toward f.inner t.fixedPoint.repr.div_pos')

theorem toFixed_nonneg (hn : 0 ≤ n.value) : 0 ≤ n.toFixed.inner := by
  have hmul := Int.mul_nonneg hn t.fixedPoint.repr.div_pos'.le
  have hmax := t.fixedPoint.repr.one_le_max
  rw [toFixed_inner_of_nonneg hn]
  omega

theorem toFixed_le (hn : 0 ≤ n.value) : n.toFixed.inner ≤ n.value * t.fixedPoint.repr.div := by
  rw [toFixed_inner_of_nonneg hn]
  exact min_le_left _ _

theorem toFixed_whole (hn : 0 ≤ n.value)
    (h : n.value * n.value * t.fixedPoint.repr.div ≤ t.fixedPoint.repr.maxInner) :
    n.toFixed.inner = n.value * t.fixedPoint.repr.div := by
  have hself : n.value ≤ n.value * n.value := by
    rcases hn.eq_or_lt with h0 | hpos
    · rw [← h0, Int.mul_zero]
    · exact le_mul_of_one_le_left hn hpos
  rw [toFixed_inner_of_nonneg hn]
  exact min_eq_left ((Int.mul_le_mul_of_nonneg_right hself t.fixedPoint.repr.div_pos'.le).trans h)

theorem toFixed_toReal_of_inRange (h : InRange n) : n.toFixed.toReal = n.value := by
  rw [toReal, toFixed_inner_of_inRange h]
  push_cast
  exact mul_div_cancel_right₀ _ t.fixedPoint.repr.div_pos_real.ne'

theorem toFixed_toReal_le (hn : 0 ≤ n.value) : n.toFixed.toReal ≤ n.value := by
  rw [toReal, div_le_iff₀ t.fixedPoint.repr.div_pos_real]
  exact_mod_cast toFixed_le hn

theorem linearPayout_value {context : LinearPayoutConfig t.fixedPoint.repr} (hn : 0 ≤ n.value)
    (hcontext : context.Nonneg) :
    (linearPayout n context).value ≤ wholePart t (context.exact n.value) ∧
      (n.toFixed.inner = n.value * t.fixedPoint.repr.div →
        (linearPayout n context).value = wholePart t (context.exact n.value)) := by
  obtain ⟨hslope, hbase⟩ := hcontext
  have hx := toFixed_nonneg hn
  have hcomm : n.toFixed.saturatingMul context.slope = context.slope.saturatingMul n.toFixed := by
    rw [FixedNumber.saturatingMul, FixedNumber.saturatingMul, Int.mul_comm]
  have hterm := saturatingMul_nonneg hslope hx
  have htotal := saturatingAdd_nonneg hterm hbase
  unfold linearPayout LinearPayoutConfig.exact
  rw [hcomm]
  refine ⟨fromFixed_le_wholePart htotal ?_, fun hwhole => fromFixed_wholePart htotal ?_⟩
  · have hle := saturatingMul_le hslope hx (toFixed_le hn)
    rw [saturatingAdd_of_nonneg hterm hbase]
    omega
  · rw [saturatingAdd_of_nonneg hterm hbase, saturatingMul_whole hslope hx hwhole]
    omega

theorem quadraticPayout_value {context : QuadraticPayoutConfig t.fixedPoint.repr} (hn : 0 ≤ n.value)
    (hcontext : context.Nonneg) :
    (quadraticPayout n context).value ≤ wholePart t (context.exact n.value) ∧
      (n.value * n.value * t.fixedPoint.repr.div ≤ t.fixedPoint.repr.maxInner →
        (quadraticPayout n context).value = wholePart t (context.exact n.value)) := by
  obtain ⟨ha, hb, hc⟩ := hcontext
  have hx := toFixed_nonneg hn
  have hsq := saturatingMul_nonneg hx hx
  have hquad := saturatingMul_nonneg ha hsq
  have hlin := saturatingMul_nonneg hb hx
  have hsum := saturatingAdd_nonneg hquad hlin
  have htotal := saturatingAdd_nonneg hsum hc
  unfold quadraticPayout QuadraticPayoutConfig.exact
  refine ⟨fromFixed_le_wholePart htotal ?_, fun hfits => fromFixed_wholePart htotal ?_⟩
  · have hxle := toFixed_le hn
    have hsqle : (n.toFixed.saturatingMul n.toFixed).inner ≤ n.value * n.value * t.fixedPoint.repr.div := by
      calc (n.toFixed.saturatingMul n.toFixed).inner ≤ n.toFixed.inner * n.value := saturatingMul_le hx hx hxle
        _ ≤ n.value * t.fixedPoint.repr.div * n.value := Int.mul_le_mul_of_nonneg_right hxle hn
        _ = n.value * n.value * t.fixedPoint.repr.div := by ring
    have hquadle := saturatingMul_le ha hsq hsqle
    have hlinle := saturatingMul_le hb hx hxle
    rw [saturatingAdd_of_nonneg hsum hc, saturatingAdd_of_nonneg hquad hlin]
    omega
  · have hxeq := toFixed_whole hn hfits
    have hsqeq : (n.toFixed.saturatingMul n.toFixed).inner = n.value * n.value * t.fixedPoint.repr.div := by
      rw [saturatingMul_whole hx hx hxeq, hxeq]
      have hcomm : n.value * t.fixedPoint.repr.div * n.value = n.value * n.value * t.fixedPoint.repr.div := by ring
      rw [hcomm]
      exact min_eq_left hfits
    rw [saturatingAdd_of_nonneg hsum hc, saturatingAdd_of_nonneg hquad hlin, saturatingMul_whole ha hsq hsqeq,
      saturatingMul_whole hb hx hxeq]
    have hp := Int.mul_nonneg ha (Int.mul_nonneg hn hn)
    have hq := Int.mul_nonneg hb hn
    omega

/-- With coefficients that are not negative the linear and the quadratic payout never exceed the whole part of the
exact polynomial, as far as the format and the asset go. They are this whole part when the format holds the input,
or its square. -/
theorem polynomial_payouts_whole {linear : LinearPayoutConfig t.fixedPoint.repr}
    {quadratic : QuadraticPayoutConfig t.fixedPoint.repr} (hn : 0 ≤ n.value) (hlinear : linear.Nonneg)
    (hquadratic : quadratic.Nonneg) :
    ((linearPayout n linear).value ≤ wholePart t (linear.exact n.value) ∧
      (InRange n → (linearPayout n linear).value = wholePart t (linear.exact n.value))) ∧
    ((quadraticPayout n quadratic).value ≤ wholePart t (quadratic.exact n.value) ∧
      (n.value * n.value * t.fixedPoint.repr.div ≤ t.fixedPoint.repr.maxInner →
        (quadraticPayout n quadratic).value = wholePart t (quadratic.exact n.value))) := by
  obtain ⟨hle, hwhole⟩ := linearPayout_value hn hlinear
  exact ⟨⟨hle, fun hrange => hwhole (toFixed_inner_of_inRange hrange)⟩, quadraticPayout_value hn hquadratic⟩

def tenth : FixedU128 := ⟨10 ^ 17, by decide, by decide⟩

def hundredth : FixedU128 := ⟨10 ^ 16, by decide, by decide⟩

def tenthAndFive : LinearPayoutConfig FixedKind.fixedU128.repr := ⟨tenth, saturatingFromInteger 5⟩

def hundredthSquared : QuadraticPayoutConfig FixedKind.fixedU128.repr :=
  ⟨hundredth, saturatingFromInteger 2, saturatingFromInteger 10⟩

def hundredAssets : IntValue .u128 := IntValue.clamp 100

theorem polynomial_payouts_whole_hundred :
    (linearPayout hundredAssets tenthAndFive).value = 15 ∧
      (quadraticPayout hundredAssets hundredthSquared).value = 310 := by
  have hlinear : tenthAndFive.Nonneg := ⟨by decide, by decide⟩
  have hquadratic : hundredthSquared.Nonneg := ⟨by decide, by decide, by decide⟩
  have hn : 0 ≤ hundredAssets.value := by decide
  obtain ⟨⟨-, hl⟩, -, hq⟩ := polynomial_payouts_whole hn hlinear hquadratic
  exact ⟨(hl ⟨by decide, by decide⟩).trans (by decide), (hq (by decide)).trans (by decide)⟩

end Values

end FrameSuite
