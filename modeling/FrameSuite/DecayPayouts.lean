import FrameSuite.GrowthCurves

/-! Payouts that decay: halving is exact below the width of its type, exponential decay never exceeds its initial
reward and grows back by rounding only, and an inverse proportion falls wherever it is defined. -/

namespace FrameSuite

open FixedNumber IntValue FixedKind

variable {t : IntType}

section Halving

variable {overflowChecks : Bool} {m n : IntValue t} {context : HalvingPayoutConfig t}

theorem halvingPayout_value (hR : 0 ≤ context.initialReward.value) (hn : 0 ≤ n.value) (hn' : n.value < t.bits) :
    ∃ r, halvingPayout overflowChecks n context = some r ∧
      r.value = context.initialReward.value / 2 ^ n.value.toNat ∧ r.value ≤ context.initialReward.value := by
  have hpow : (0 : Int) < 2 ^ n.value.toNat := by positivity
  have hnonneg : 0 ≤ context.initialReward.value / 2 ^ n.value.toNat := Int.ediv_nonneg hR hpow.le
  have hle : context.initialReward.value / 2 ^ n.value.toNat ≤ context.initialReward.value := Int.ediv_le_self _ hR
  rw [halvingPayout]
  split
  · rename_i hz
    refine ⟨context.initialReward, rfl, ?_, le_refl _⟩
    rw [hz]
    simp [IntValue.zero]
  · rw [shiftRight, if_pos ⟨hn, hn'⟩]
    have hvalue := IntValue.clamp_of_mem (t := t) (t.min_nonpos.trans hnonneg)
      (hle.trans context.initialReward.le_max)
    exact ⟨_, rfl, hvalue, hvalue.trans_le hle⟩

theorem halving_antitone {R : Int} (hR : 0 ≤ R) {a b : Nat} (h : a ≤ b) : R / 2 ^ b ≤ R / 2 ^ a := by
  obtain ⟨c, rfl⟩ := Nat.exists_eq_add_of_le h
  rw [pow_add, ← Int.ediv_ediv_of_nonneg (by positivity)]
  exact Int.ediv_le_self _ (Int.ediv_nonneg hR (by positivity))

end Halving

section ExpDecay

variable {F : FixedRepr} {k : FixedKind}

theorem decayFactor_bounds {x a : FixedNumber F} (hF : F.Decimal) (ha : 0 ≤ a.inner) (hx : 0 ≤ x.inner) :
    0 ≤ (decayFactor x a).inner ∧ (decayFactor x a).inner ≤ F.div ∧
      |(decayFactor x a).toReal - Real.exp (FixedNumber.zero.saturatingSub (a.saturatingMul x)).toReal| ≤ 60 * F.unit := by
  have hz : (FixedNumber.zero.saturatingSub (a.saturatingMul x)).inner ≤ 0 := by
    have hax := saturatingMul_nonneg ha hx
    refine clamp_le_of_le ?_ F.min_nonpos
    rw [zero_inner]
    omega
  obtain ⟨w, hw, hzero, hone, hnear⟩ := fixedExp_of_nonpos hF hz
  rw [decayFactor, hw, Option.getD_some]
  refine ⟨toReal_nonneg.mp hzero, ?_, hnear⟩
  have hle : w.toReal ≤ (one : FixedNumber F).toReal := hone.trans_eq toReal_one.symm
  exact toReal_le_toReal.mp hle

theorem decayFactor_near {x y a : FixedNumber F} (hF : F.Decimal) (ha : 0 ≤ a.inner) (hx : 0 ≤ x.inner)
    (h : x.inner ≤ y.inner) : (decayFactor y a).inner ≤ (decayFactor x a).inner + 120 := by
  obtain ⟨-, -, hnearx⟩ := decayFactor_bounds hF ha hx
  obtain ⟨-, -, hneary⟩ := decayFactor_bounds hF ha (hx.trans h)
  have hexp : Real.exp (FixedNumber.zero.saturatingSub (a.saturatingMul y)).toReal ≤
      Real.exp (FixedNumber.zero.saturatingSub (a.saturatingMul x)).toReal :=
    Real.exp_le_exp.mpr (toReal_le_toReal.mpr (saturatingSub_mono (le_refl _) (saturatingMul_mono ha h)))
  have hdiff : (decayFactor y a).toReal ≤ (decayFactor x a).toReal + 120 * F.unit := by
    have hup := (abs_le.mp hneary).2
    have hdown := (abs_le.mp hnearx).1
    linarith
  have hD := F.div_pos_real
  have hmul := mul_le_mul_of_nonneg_left hdiff hD.le
  rw [mul_add, ← inner_eq, ← inner_eq, mul_left_comm, F.div_mul_unit, mul_one] at hmul
  exact_mod_cast hmul

variable {context : ExpDecayPayoutConfig t} {x y : IntValue t}

/-- What the payout takes of the initial reward, in units of the last place. -/
def decayed (x : IntValue t) (context : ExpDecayPayoutConfig t) : Int :=
  context.initialReward.toFixed.inner *
    (decayFactor (saturatedInto x.toFixed) (saturatedInto context.decayConstant)).inner / t.fixedPoint.repr.div

theorem expDecayPayout_value (hscale : t.fixedPoint.signed.repr.div = t.fixedPoint.repr.div)
    (hR : 0 ≤ context.initialReward.value) (ha : 0 ≤ context.decayConstant.inner) (hx : 0 ≤ x.value) :
    (expDecayPayout x context).value = decayed x context / t.fixedPoint.repr.div ∧
      (expDecayPayout x context).value ≤ context.initialReward.value := by
  have hD := t.fixedPoint.repr.div_pos'
  obtain ⟨hr0, hrle⟩ := toFixed_of_nonneg hR
  obtain ⟨hf0, hf1, -⟩ := decayFactor_bounds t.fixedPoint.signed.decimal (saturatedInto_of_nonneg ha).1
    (saturatedInto_of_nonneg (toFixed_of_nonneg hx).1).1
  have hfactor := saturatedFrom_inner (x := one) hf0 (by rw [hscale] at hf1; exact hf1)
  have hnum := Int.mul_nonneg hr0 hf0
  have hnonneg : 0 ≤ decayed x context := Int.ediv_nonneg hnum hD.le
  have hle : decayed x context ≤ context.initialReward.toFixed.inner := by
    rw [hscale] at hf1
    exact Int.ediv_le_of_le_mul hD (Int.mul_le_mul_of_nonneg_left hf1 hr0)
  have hprod : (context.initialReward.toFixed.saturatingMul (saturatedFrom
      (decayFactor (saturatedInto x.toFixed) (saturatedInto context.decayConstant)))).inner = decayed x context := by
    rw [saturatingMul_inner, hfactor, Int.tdiv_eq_ediv_of_nonneg hnum]
    exact FixedNumber.clamp_of_mem (t.fixedPoint.repr.min_nonpos.trans hnonneg)
      (hle.trans context.initialReward.toFixed.le_max)
  obtain ⟨hvalue, hmax⟩ := fromFixed_value (n := context.initialReward) (hprod.symm ▸ hnonneg)
    (hprod.trans_le (hle.trans hrle))
  rw [hprod] at hvalue hmax
  rw [expDecayPayout, hvalue]
  exact ⟨rfl, hmax⟩

theorem expDecayPayout_near (hscale : t.fixedPoint.signed.repr.div = t.fixedPoint.repr.div)
    (hR : 0 ≤ context.initialReward.value) (ha : 0 ≤ context.decayConstant.inner) (hx : 0 ≤ x.value)
    (h : x.value ≤ y.value) :
    t.fixedPoint.repr.div * (expDecayPayout y context).value ≤
      t.fixedPoint.repr.div * ((expDecayPayout x context).value + 1) + 120 * context.initialReward.value := by
  have hD := t.fixedPoint.repr.div_pos'
  obtain ⟨hr0, hrle⟩ := toFixed_of_nonneg hR
  have hnear := decayFactor_near t.fixedPoint.signed.decimal (saturatedInto_of_nonneg ha).1
    (saturatedInto_of_nonneg (toFixed_of_nonneg hx).1).1 (saturatedInto_mono (toFixed_mono h))
  rw [(expDecayPayout_value hscale hR ha hx).1, (expDecayPayout_value hscale hR ha (hx.trans h)).1]
  have hdecay : decayed y context ≤ decayed x context + 120 * context.initialReward.value := by
    have hmul := Int.mul_le_mul_of_nonneg_left hnear hr0
    rw [Int.mul_add] at hmul
    have hlow := Int.ediv_mul_le (context.initialReward.toFixed.inner *
      (decayFactor (saturatedInto y.toFixed) (saturatedInto context.decayConstant)).inner) hD.ne'
    have hhigh := Int.lt_ediv_add_one_mul_self (context.initialReward.toFixed.inner *
      (decayFactor (saturatedInto x.toFixed) (saturatedInto context.decayConstant)).inner) hD
    refine Int.lt_add_one_iff.mp (lt_of_mul_lt_mul_right (a := (t.fixedPoint.repr.div : Int)) ?_ hD.le)
    calc decayed y context * t.fixedPoint.repr.div ≤ _ := hlow
      _ ≤ _ := hmul
      _ < (decayed x context + 1) * t.fixedPoint.repr.div +
          120 * (context.initialReward.value * t.fixedPoint.repr.div) := by
          change _ < (decayed x context + 1) * _ at hhigh
          omega
      _ = (decayed x context + 120 * context.initialReward.value + 1) * t.fixedPoint.repr.div := by ring
  have hlow := Int.ediv_mul_le (decayed y context) hD.ne'
  have hhigh := Int.lt_ediv_add_one_mul_self (decayed x context) hD
  rw [Int.mul_comm _ (t.fixedPoint.repr.div : Int)] at hlow hhigh
  omega

end ExpDecay

section InverseProportional

variable {context : InverseProportionalConfig t.fixedPoint.repr} {x y : IntValue t}

def inverseDenom (input : IntValue t) (context : InverseProportionalConfig t.fixedPoint.repr) :
    t.fixedPoint.Number := input.toFixed.saturatingAdd context.epsilon

theorem inverseProportionalPayout_eq (hpos : 0 < (inverseDenom x context).inner) :
    inverseProportionalPayout x context =
      fromFixed ((context.k.checkedDiv (inverseDenom x context)).getD FixedNumber.zero) := by
  rw [inverseProportionalPayout]
  exact if_neg (not_le.mpr hpos)

/-- A denominator that is not positive, or a quotient that the type does not represent. -/
def InverseGuarded (x : IntValue t) (context : InverseProportionalConfig t.fixedPoint.repr) : Prop :=
  (inverseDenom x context).inner ≤ 0 ∨ context.k.checkedDiv (inverseDenom x context) = none

theorem InverseGuarded.value_eq_zero (h : InverseGuarded x context) :
    (inverseProportionalPayout x context).value = 0 := by
  have hzero : (fromFixed (FixedNumber.zero : t.fixedPoint.Number) : IntValue t).value = 0 := by
    rw [fromFixed, zero_inner, Int.zero_tdiv]
    exact IntValue.clamp_of_mem t.min_nonpos t.max_pos.le
  rcases Int.lt_or_le 0 (inverseDenom x context).inner with hpos | hle
  · have hnone := h.resolve_left (not_le.mpr hpos)
    rw [inverseProportionalPayout_eq hpos, hnone, Option.getD_none]
    exact hzero
  · rw [inverseProportionalPayout]
    exact (congrArg IntValue.value (if_pos hle)).trans hzero

/-- A larger denominator gives a smaller quotient, as long as the first one is represented. -/
theorem inverseProportionalPayout_antitone (hk : 0 ≤ context.k.inner) (hpos : 0 < (inverseDenom x context).inner)
    (hfits : (context.k.checkedDiv (inverseDenom x context)).isSome) (h : x.value ≤ y.value) :
    (inverseProportionalPayout y context).value ≤ (inverseProportionalPayout x context).value := by
  have hD := t.fixedPoint.repr.div_pos'
  have hmono : (inverseDenom x context).inner ≤ (inverseDenom y context).inner :=
    clamp_mono (Int.add_le_add_right (toFixed_mono h) _)
  have hnum : 0 ≤ context.k.inner * t.fixedPoint.repr.div := Int.mul_nonneg hk hD.le
  rw [inverseProportionalPayout_eq hpos, inverseProportionalPayout_eq (hpos.trans_le hmono)]
  obtain ⟨q, hq⟩ := Option.isSome_iff_exists.mp hfits
  have hquot := (checkedDiv_eq_some.mp hq).2
  have hle : (context.k.inner * t.fixedPoint.repr.div).tdiv (inverseDenom y context).inner ≤ q.inner := by
    rw [hquot, Int.tdiv_eq_ediv_of_nonneg hnum, Int.tdiv_eq_ediv_of_nonneg hnum]
    have hq0 := Int.ediv_nonneg hnum (hpos.trans_le hmono).le
    rw [Int.le_ediv_iff_mul_le hpos]
    exact (Int.mul_le_mul_of_nonneg_left hmono hq0).trans (Int.ediv_mul_le _ (hpos.trans_le hmono).ne')
  have hnonneg := Int.tdiv_nonneg hnum (hpos.trans_le hmono).le
  have hsome : context.k.checkedDiv (inverseDenom y context) =
      some ⟨_, t.fixedPoint.repr.min_nonpos.trans hnonneg, hle.trans q.le_max⟩ :=
    checkedDiv_eq_some.mpr ⟨(hpos.trans_le hmono).ne', rfl⟩
  rw [hq, hsome, Option.getD_some, Option.getD_some]
  exact fromFixed_mono hle

end InverseProportional

/-- Decaying rewards, for a reward, a decay constant and inputs that are not negative: halving is exact for every
number of halvings below the width of the type; exponential decay in a workspace of the same scale stays below the
initial reward and steps back by at most one unit and 120 last places of it; and the inverse proportion falls from
every input with a positive denominator whose quotient the type represents, and is zero at every other input. -/
theorem decayPayouts_fall (t : IntType) :
    (∀ (overflowChecks : Bool) (context : HalvingPayoutConfig t) (m n : IntValue t),
      0 ≤ context.initialReward.value → 0 ≤ m.value → m.value ≤ n.value → n.value < t.bits →
        ∃ r s, halvingPayout overflowChecks m context = some r ∧ halvingPayout overflowChecks n context = some s ∧
          r.value = context.initialReward.value / 2 ^ m.value.toNat ∧ s.value ≤ r.value ∧
            r.value ≤ context.initialReward.value) ∧
    (t.fixedPoint ≠ .fixedU64 →
      ∀ (context : ExpDecayPayoutConfig t) (x y : IntValue t), 0 ≤ context.initialReward.value →
        0 ≤ context.decayConstant.inner → 0 ≤ x.value → x.value ≤ y.value →
          (expDecayPayout x context).value ≤ context.initialReward.value ∧
            t.fixedPoint.repr.div * (expDecayPayout y context).value ≤
              t.fixedPoint.repr.div * ((expDecayPayout x context).value + 1) + 120 * context.initialReward.value) ∧
    (∀ (context : InverseProportionalConfig t.fixedPoint.repr) (x y : IntValue t), 0 ≤ context.k.inner →
      0 < (inverseDenom x context).inner → (context.k.checkedDiv (inverseDenom x context)).isSome →
        x.value ≤ y.value →
          (inverseProportionalPayout y context).value ≤ (inverseProportionalPayout x context).value) ∧
    (∀ (context : InverseProportionalConfig t.fixedPoint.repr) (x : IntValue t), InverseGuarded x context →
      (inverseProportionalPayout x context).value = 0) := by
  refine ⟨fun overflowChecks context m n hR hm hmn hn => ?_, fun ht context x y hR ha hx hxy => ?_,
    fun context x y hk hpos hfits hxy => inverseProportionalPayout_antitone hk hpos hfits hxy,
    fun context x hguard => hguard.value_eq_zero⟩
  · obtain ⟨r, hr, hrv, hrle⟩ := halvingPayout_value hR hm (hmn.trans_lt hn)
    obtain ⟨s, hs, hsv, -⟩ := halvingPayout_value hR (hm.trans hmn) hn
    refine ⟨r, s, hr, hs, hrv, ?_, hrle⟩
    rw [hrv, hsv]
    exact halving_antitone hR (Int.toNat_le_toNat hmn)
  · have hscale : t.fixedPoint.signed.repr.div = t.fixedPoint.repr.div := by
      cases hk : t.fixedPoint with
      | fixedU64 => exact absurd hk ht
      | fixedU128 => rfl
      | fixedI64 => rfl
      | fixedI128 => rfl
    exact ⟨(expDecayPayout_value hscale hR ha hx).2, expDecayPayout_near hscale hR ha hx hxy⟩

theorem decayPayouts_fall_u128 :
    (∃ r s : IntValue .u128, halvingPayout true ⟨1, by decide, by decide⟩ ⟨⟨1000, by decide, by decide⟩⟩ = some r ∧
      halvingPayout true ⟨3, by decide, by decide⟩ ⟨⟨1000, by decide, by decide⟩⟩ = some s ∧ s.value ≤ r.value) ∧
    ((10 : Int) ^ 18 * (expDecayPayout (⟨10, by decide, by decide⟩ : IntValue .u128)
        ⟨⟨1000, by decide, by decide⟩, saturatingFromRational 1 10⟩).value ≤
      10 ^ 18 * ((expDecayPayout (⟨5, by decide, by decide⟩ : IntValue .u128)
        ⟨⟨1000, by decide, by decide⟩, saturatingFromRational 1 10⟩).value + 1) + 120 * 1000) ∧
    (inverseProportionalPayout (⟨4, by decide, by decide⟩ : IntValue .u128) ⟨saturatingFromInteger 10, one⟩).value ≤
      (inverseProportionalPayout (⟨1, by decide, by decide⟩ : IntValue .u128) ⟨saturatingFromInteger 10, one⟩).value ∧
    (inverseProportionalPayout (⟨0, by decide, by decide⟩ : IntValue .u128)
      ⟨saturatingFromInteger 10, FixedNumber.zero⟩).value = 0 := by
  obtain ⟨hhalving, hdecay, hinverse, hguarded⟩ := decayPayouts_fall .u128
  refine ⟨?_, ?_, ?_, hguarded _ _ (Or.inl (by decide))⟩
  · obtain ⟨r, s, hr, hs, -, hle, -⟩ := hhalving true ⟨⟨1000, by decide, by decide⟩⟩ ⟨1, by decide, by decide⟩
      ⟨3, by decide, by decide⟩ (by decide) (by decide) (by decide) (by decide)
    exact ⟨r, s, hr, hs, hle⟩
  · exact (hdecay (by decide) ⟨⟨1000, by decide, by decide⟩, saturatingFromRational 1 10⟩ ⟨5, by decide, by decide⟩
      ⟨10, by decide, by decide⟩ (by decide) (by decide) (by decide) (by decide)).2
  · exact hinverse ⟨saturatingFromInteger 10, one⟩ ⟨1, by decide, by decide⟩ ⟨4, by decide, by decide⟩
      (by decide) (by decide) (by decide) (by decide)

/-- Before its origin the decay pays more than the initial reward, and an inverse proportion pays nothing at a
denominator of zero. -/
theorem decayPayouts_rise :
    (expDecayPayout (⟨-10, by decide, by decide⟩ : IntValue .i128)
      ⟨⟨1000, by decide, by decide⟩, saturatingFromRational 1 10⟩).value = 2718 ∧
    (inverseProportionalPayout (⟨0, by decide, by decide⟩ : IntValue .u128) ⟨one, FixedNumber.zero⟩).value <
      (inverseProportionalPayout (⟨1, by decide, by decide⟩ : IntValue .u128) ⟨one, FixedNumber.zero⟩).value ∧
    (expDecayPayout (⟨2999999999999999999, by decide, by decide⟩ : IntValue .u128)
      ⟨⟨10 ^ 18, by decide, by decide⟩, ulp⟩).value <
      (expDecayPayout (⟨3000000000000000001, by decide, by decide⟩ : IntValue .u128)
        ⟨⟨10 ^ 18, by decide, by decide⟩, ulp⟩).value := by
  decide +kernel

end FrameSuite
