import FrameSuite.DecayPayouts

/-! The signed workspace takes over inner values as they are. Between types of one accuracy this keeps the value;
from the type with 9 decimal places it divides the value by `10 ^ 9`. The same configuration with 18 decimal places
shows what a payout on the narrow type should have been; here that of the exponential decay. -/

namespace FrameSuite

open FixedNumber IntValue FixedKind

section Casts

variable {k : FixedKind}

/-- The cast to the workspace keeps the value up to the last place of the type. Both sides are multiplied by the
two accuracies. -/
def IntoPreserves (x : k.Number) : Prop :=
  |(saturatedInto x).inner * k.repr.div - x.inner * k.signed.repr.div| ≤ k.signed.repr.div

/-- The cast back keeps the value up to the last place of the type. -/
def FromPreserves (k : FixedKind) (y : k.signed.Number) : Prop :=
  |(saturatedFrom y : k.Number).inner * k.signed.repr.div - y.inner * k.repr.div| ≤ k.signed.repr.div

theorem intoPreserves_u64_iff (x : FixedKind.fixedU64.Number) : IntoPreserves x ↔ x.inner ≤ 1 := by
  have hmin : 0 ≤ x.inner := x.min_le
  have hmax : x.inner ≤ 2 ^ 64 - 1 := x.le_max
  have hinner : (saturatedInto x).inner = x.inner :=
    FixedNumber.clamp_of_mem (le_trans (by decide) hmin) (hmax.trans (by decide))
  unfold IntoPreserves
  rw [hinner, abs_le]
  change (-((10 ^ 18 : Nat) : Int) ≤ x.inner * ((10 ^ 9 : Nat) : Int) - x.inner * ((10 ^ 18 : Nat) : Int) ∧
    x.inner * ((10 ^ 9 : Nat) : Int) - x.inner * ((10 ^ 18 : Nat) : Int) ≤ ((10 ^ 18 : Nat) : Int)) ↔ _
  omega

theorem fromPreserves_u64_iff (y : FixedKind.fixedU64.signed.Number) (hmin : 0 ≤ y.inner)
    (hmax : y.inner ≤ (2 ^ 64 - 1) * 10 ^ 9) :
    FromPreserves .fixedU64 y ↔ y.inner ≤ 1 ∨ (2 ^ 64 - 2) * 10 ^ 9 ≤ y.inner := by
  have hinner : (saturatedFrom y : FixedKind.fixedU64.Number).inner = max 0 (min y.inner (2 ^ 64 - 1)) := rfl
  unfold FromPreserves
  rw [hinner, abs_le]
  change (-((10 ^ 18 : Nat) : Int) ≤
      max 0 (min y.inner (2 ^ 64 - 1)) * ((10 ^ 18 : Nat) : Int) - y.inner * ((10 ^ 9 : Nat) : Int) ∧
    max 0 (min y.inner (2 ^ 64 - 1)) * ((10 ^ 18 : Nat) : Int) - y.inner * ((10 ^ 9 : Nat) : Int) ≤
      ((10 ^ 18 : Nat) : Int)) ↔ _
  omega

theorem preserves_u128 (x : FixedKind.fixedU128.Number) (y : FixedKind.fixedU128.signed.Number)
    (hx : x.inner ≤ 2 ^ 127 - 1) (hy : 0 ≤ y.inner) :
    (saturatedInto x).inner = x.inner ∧ (saturatedFrom y : FixedKind.fixedU128.Number).inner = y.inner := by
  have hmin : 0 ≤ x.inner := x.min_le
  exact ⟨FixedNumber.clamp_of_mem (le_trans (by decide) hmin) hx,
    FixedNumber.clamp_of_mem hy (y.le_max.trans (by decide))⟩

end Casts

section Rescaled

/-- The same value with 18 decimal places. -/
def rescale (x : FixedKind.fixedU64.Number) : FixedKind.fixedU128.Number where
  inner := x.inner * 10 ^ 9
  min_le := Int.mul_nonneg x.min_le (by decide)
  le_max := (Int.mul_le_mul_of_nonneg_right x.le_max (by decide)).trans (by decide)

/-- The same integer in 128 bits. -/
def widen (n : IntValue .u32) : IntValue .u128 := ⟨n.value, n.min_le, n.le_max.trans (by decide)⟩

@[simp] theorem rescale_inner (x : FixedKind.fixedU64.Number) : (rescale x).inner = x.inner * 10 ^ 9 := rfl

@[simp] theorem widen_value (n : IntValue .u32) : (widen n).value = n.value := rfl

theorem toFixed_u32 (n : IntValue .u32) : n.toFixed.inner = n.value * 10 ^ 9 := by
  have hmin : 0 ≤ n.value := n.min_le
  have hmax : n.value ≤ 2 ^ 32 - 1 := n.le_max
  exact FixedNumber.clamp_of_mem (Int.mul_nonneg hmin (by decide))
    (by change n.value * ((10 ^ 9 : Nat) : Int) ≤ 2 ^ 64 - 1; omega)

theorem toFixed_widen (n : IntValue .u32) : (widen n).toFixed = rescale n.toFixed := by
  have hmin : 0 ≤ n.value := n.min_le
  have hmax : n.value ≤ 2 ^ 32 - 1 := n.le_max
  have hwide : (widen n).toFixed.inner = n.value * ((10 ^ 18 : Nat) : Int) :=
    FixedNumber.clamp_of_mem (Int.mul_nonneg hmin (by decide))
      (by change n.value * ((10 ^ 18 : Nat) : Int) ≤ 2 ^ 128 - 1; omega)
  refine FixedNumber.ext (hwide.trans ?_)
  change _ = n.toFixed.inner * 10 ^ 9
  rw [toFixed_u32]
  omega

/-- What the workspace takes over from the narrow type. -/
def takenU64 (x : FixedKind.fixedU64.Number) : FixedI128 := saturatedInto x

/-- What the workspace takes over of the same value from the wide type. -/
def takenU128 (x : FixedKind.fixedU64.Number) : FixedI128 := saturatedInto (rescale x)

theorem takenU64_inner (x : FixedKind.fixedU64.Number) : (takenU64 x).inner = x.inner :=
  FixedNumber.clamp_of_mem (le_trans (by decide) x.min_le) (x.le_max.trans (by decide))

theorem takenU128_inner (x : FixedKind.fixedU64.Number) : (takenU128 x).inner = x.inner * 10 ^ 9 :=
  FixedNumber.clamp_of_mem (le_trans (by decide) (rescale x).min_le)
    ((Int.mul_le_mul_of_nonneg_right x.le_max (by decide)).trans (by decide))

theorem fromFixed_u32 (f : FixedKind.fixedU64.Number) :
    (fromFixed f : IntValue .u32).value = min (2 ^ 32 - 1) (f.inner / 10 ^ 9) := by
  have hmin : 0 ≤ f.inner := f.min_le
  change (IntValue.clamp (f.inner.tdiv ((10 ^ 9 : Nat) : Int)) : IntValue .u32).value = _
  rw [Int.tdiv_eq_ediv_of_nonneg hmin]
  unfold IntValue.clamp
  change (if h : (2 ^ 32 - 1 : Int) < f.inner / ((10 ^ 9 : Nat) : Int) then _ else _ : IntValue .u32).value = _
  split
  · change (2 ^ 32 - 1 : Int) = _
    omega
  · split
    · rename_i hneg
      change f.inner / ((10 ^ 9 : Nat) : Int) < 0 at hneg
      omega
    · change f.inner / ((10 ^ 9 : Nat) : Int) = _
      omega

theorem fromFixed_u128 (f : FixedKind.fixedU128.Number) :
    (fromFixed f : IntValue .u128).value = f.inner / 10 ^ 18 := by
  have hmin : 0 ≤ f.inner := f.min_le
  have hmax : f.inner ≤ 2 ^ 128 - 1 := f.le_max
  have hvalue : (fromFixed f : IntValue .u128).value = f.inner.tdiv ((10 ^ 18 : Nat) : Int) := by
    refine IntValue.clamp_of_mem (Int.tdiv_nonneg hmin (by decide)) ?_
    rw [Int.tdiv_eq_ediv_of_nonneg hmin]
    change f.inner / ((10 ^ 18 : Nat) : Int) ≤ 2 ^ 128 - 1
    omega
  rw [hvalue, Int.tdiv_eq_ediv_of_nonneg hmin]
  rfl

/-- The payouts of the two assets differ by one unit at most. -/
def PayoutsAgree (m : IntValue .u32) (n : IntValue .u128) : Prop := |m.value - n.value| ≤ 1

end Rescaled

section Decay

theorem decayFactor_of_mul_eq_zero {F : FixedRepr} {a x : FixedNumber F} (h : a.inner * x.inner = 0) :
    decayFactor x a = one := by
  have hzero : FixedNumber.zero.saturatingSub (a.saturatingMul x) = (FixedNumber.zero : FixedNumber F) := by
    refine FixedNumber.ext ?_
    have hmin := F.min_nonpos
    have hmax := F.one_le_max
    rw [saturatingSub_inner, saturatingMul_inner, h, Int.zero_tdiv, FixedNumber.clamp_of_mem hmin (by omega),
      zero_inner, sub_zero, FixedNumber.clamp_of_mem hmin (by omega)]
  rw [decayFactor, hzero, fixedExp, if_pos rfl, Option.getD_some]

theorem le_exp_large {t : ℝ} (ht : 45 ≤ t) : 2.1 * 10 ^ 19 ≤ Real.exp t := by
  have hpow : (2.7 : ℝ) ^ 45 ≤ Real.exp 45 := by
    rw [show (45 : ℝ) = (45 : Nat) * 1 by norm_num, Real.exp_nat_mul]
    exact pow_le_pow_left₀ (by norm_num) (le_trans (by norm_num) Real.exp_one_gt_d9.le) _
  exact (le_trans (by norm_num) hpow).trans (Real.exp_le_exp.mpr ht)

theorem exp_le_of_le_neg {t : ℝ} (ht : t ≤ -45) : Real.exp t ≤ 1 / 10 ^ 18 := by
  have hlarge := le_exp_large (t := -t) (by linarith)
  rw [Real.exp_neg, le_inv_comm₀ (by norm_num) (Real.exp_pos _)] at hlarge
  exact hlarge.trans (by norm_num)

/-- From an exponent of -45 on nothing but the rounding of the exponential function is left. -/
theorem decayFactor_faded {a x : FixedI128} (ha : 0 ≤ a.inner) (hx : 0 ≤ x.inner)
    (h : 45 * 10 ^ 36 ≤ a.inner * x.inner) : (decayFactor x a).inner ≤ 61 := by
  obtain ⟨-, -, hnear⟩ := decayFactor_bounds FixedKind.fixedI128.decimal ha hx
  have hprod : 45 * 10 ^ 18 ≤ (a.saturatingMul x).inner := by
    refine le_clamp_of_le ?_ (by decide)
    rw [Int.tdiv_eq_ediv_of_nonneg (Int.mul_nonneg ha hx)]
    change 45 * 10 ^ 18 ≤ a.inner * x.inner / ((10 ^ 18 : Nat) : Int)
    omega
  have hz : (FixedNumber.zero.saturatingSub (a.saturatingMul x)).inner ≤ -45 * FixedKind.fixedI128.repr.div := by
    refine clamp_le_of_le ?_ (by decide)
    rw [zero_inner]
    change _ ≤ -45 * ((10 ^ 18 : Nat) : Int)
    omega
  have hreal : (FixedNumber.zero.saturatingSub (a.saturatingMul x)).toReal ≤ -45 := by
    rw [toReal, div_le_iff₀ FixedKind.fixedI128.repr.div_pos_real]
    exact_mod_cast hz
  have hunit : FixedKind.fixedI128.repr.unit = 1 / 10 ^ 18 := by
    change 1 / ((10 ^ 18 : Nat) : ℝ) = _
    norm_num
  have hfactor : (decayFactor x a).toReal ≤ 61 / 10 ^ 18 := by
    have hup := (abs_le.mp hnear).2
    have hexp := exp_le_of_le_neg hreal
    rw [hunit] at hup
    linarith
  rw [toReal, div_le_iff₀ FixedKind.fixedI128.repr.div_pos_real] at hfactor
  change _ ≤ 61 / 10 ^ 18 * ((10 ^ 18 : Nat) : ℝ) at hfactor
  norm_num at hfactor
  exact_mod_cast hfactor

theorem le_exp_neg_ten {t : ℝ} (ht : -10 ≤ t) : 4.1 * 10 ^ (-5 : Int) ≤ Real.exp t := by
  have hpow : Real.exp 10 ≤ (2.7183 : ℝ) ^ 10 := by
    rw [show (10 : ℝ) = (10 : Nat) * 1 by norm_num, Real.exp_nat_mul]
    exact pow_le_pow_left₀ (Real.exp_pos 1).le (Real.exp_one_lt_d9.le.trans (by norm_num)) _
  have hneg : 4.1 * 10 ^ (-5 : Int) ≤ Real.exp (-10) := by
    rw [Real.exp_neg, le_inv_comm₀ (by norm_num) (Real.exp_pos _)]
    exact hpow.trans (by norm_num)
  exact hneg.trans (Real.exp_le_exp.mpr ht)

/-- Up to an exponent of -10 the factor is far above the last place of the narrow type. -/
theorem decayFactor_kept {a x : FixedI128} (ha : 0 ≤ a.inner) (hx : 0 ≤ x.inner)
    (h : a.inner * x.inner ≤ 10 * 10 ^ 36) : 4 * 10 ^ 13 ≤ (decayFactor x a).inner := by
  obtain ⟨-, -, hnear⟩ := decayFactor_bounds FixedKind.fixedI128.decimal ha hx
  have hprod : (a.saturatingMul x).inner ≤ 10 * 10 ^ 18 := by
    refine clamp_le_of_le ?_ (by decide)
    rw [Int.tdiv_eq_ediv_of_nonneg (Int.mul_nonneg ha hx)]
    change a.inner * x.inner / ((10 ^ 18 : Nat) : Int) ≤ _
    omega
  have hz : -10 * FixedKind.fixedI128.repr.div ≤ (FixedNumber.zero.saturatingSub (a.saturatingMul x)).inner := by
    refine le_clamp_of_le ?_ (by decide)
    rw [zero_inner]
    change -10 * ((10 ^ 18 : Nat) : Int) ≤ _
    omega
  have hreal : -10 ≤ (FixedNumber.zero.saturatingSub (a.saturatingMul x)).toReal := by
    rw [toReal, le_div_iff₀ FixedKind.fixedI128.repr.div_pos_real]
    exact_mod_cast hz
  have hunit : FixedKind.fixedI128.repr.unit = 1 / 10 ^ 18 := by
    change 1 / ((10 ^ 18 : Nat) : ℝ) = _
    norm_num
  have hfactor : (4 * 10 ^ (-5 : Int) : ℝ) ≤ (decayFactor x a).toReal := by
    have hdown := (abs_le.mp hnear).1
    have hexp := le_exp_neg_ten hreal
    rw [hunit] at hdown
    norm_num at hdown hexp ⊢
    linarith
  rw [toReal, le_div_iff₀ FixedKind.fixedI128.repr.div_pos_real] at hfactor
  change 4 * 10 ^ (-5 : Int) * ((10 ^ 18 : Nat) : ℝ) ≤ _ at hfactor
  norm_num at hfactor
  exact_mod_cast hfactor

/-- The configuration of a 32-bit asset for a 128-bit one. -/
def ExpDecayPayoutConfig.rescale (context : ExpDecayPayoutConfig .u32) : ExpDecayPayoutConfig .u128 :=
  ⟨widen context.initialReward, FrameSuite.rescale context.decayConstant⟩

variable {context : ExpDecayPayoutConfig .u32} {n : IntValue .u32}

/-- The factor of the decay as the workspace has it for the 32-bit asset. -/
def factorU32 (context : ExpDecayPayoutConfig .u32) (n : IntValue .u32) : FixedI128 :=
  decayFactor (takenU64 n.toFixed) (takenU64 context.decayConstant)

/-- The factor of the decay as the workspace has it for the 128-bit asset. -/
def factorU128 (context : ExpDecayPayoutConfig .u32) (n : IntValue .u32) : FixedI128 :=
  decayFactor (takenU128 n.toFixed) (takenU128 context.decayConstant)

theorem factorU32_bounds (context : ExpDecayPayoutConfig .u32) (n : IntValue .u32) :
    0 ≤ (factorU32 context n).inner ∧ (factorU32 context n).inner ≤ 10 ^ 18 := by
  obtain ⟨hf0, hf1, -⟩ := decayFactor_bounds FixedKind.fixedI128.decimal
    (saturatedInto_of_nonneg (k := .fixedU64) context.decayConstant.min_le).1
    (saturatedInto_of_nonneg (k := .fixedU64) n.toFixed.min_le).1
  exact ⟨hf0, hf1⟩

theorem factorU128_bounds (context : ExpDecayPayoutConfig .u32) (n : IntValue .u32) :
    0 ≤ (factorU128 context n).inner ∧ (factorU128 context n).inner ≤ 10 ^ 18 := by
  obtain ⟨hf0, hf1, -⟩ := decayFactor_bounds FixedKind.fixedI128.decimal
    (saturatedInto_of_nonneg (rescale context.decayConstant).min_le).1
    (saturatedInto_of_nonneg (rescale n.toFixed).min_le).1
  exact ⟨hf0, hf1⟩

/-- The factor comes back `10 ^ 9` times too large. -/
theorem expDecayPayout_u32 (context : ExpDecayPayoutConfig .u32) (n : IntValue .u32) :
    (expDecayPayout n context).value =
      min (2 ^ 32 - 1) (context.initialReward.value * (factorU32 context n).inner / 10 ^ 9) := by
  obtain ⟨hf0, hf1⟩ := factorU32_bounds context n
  have hr0 : 0 ≤ context.initialReward.value := context.initialReward.min_le
  have hback : (saturatedFrom (k := .fixedU64) (factorU32 context n)).inner = (factorU32 context n).inner :=
    FixedNumber.clamp_of_mem hf0 (hf1.trans (by decide))
  have hnum := Int.mul_nonneg hr0 hf0
  have hmul : (context.initialReward.toFixed.saturatingMul
      (saturatedFrom (k := .fixedU64) (factorU32 context n))).inner =
        min (context.initialReward.value * (factorU32 context n).inner) (2 ^ 64 - 1) := by
    have hprod : (context.initialReward.toFixed.inner *
        (saturatedFrom (k := .fixedU64) (factorU32 context n)).inner).tdiv ((10 ^ 9 : Nat) : Int) =
          context.initialReward.value * (factorU32 context n).inner := by
      rw [hback, toFixed_u32, Int.mul_right_comm]
      exact Int.mul_tdiv_cancel _ (by decide)
    refine (congrArg (fun i : Int => (FixedNumber.clamp i : FixedU64).inner) hprod).trans ?_
    exact FixedNumber.clamp_of_nonneg hnum
  have hpay := fromFixed_u32
    (context.initialReward.toFixed.saturatingMul (saturatedFrom (k := .fixedU64) (factorU32 context n)))
  rw [hmul] at hpay
  refine hpay.trans ?_
  generalize context.initialReward.value * (factorU32 context n).inner = p at hnum
  omega

theorem expDecayPayout_rescale (context : ExpDecayPayoutConfig .u32) (n : IntValue .u32) :
    (expDecayPayout (widen n) context.rescale).value =
      context.initialReward.value * (factorU128 context n).inner / 10 ^ 18 := by
  have hreward0 : 0 ≤ context.rescale.initialReward.value := context.initialReward.min_le
  have hvalue : (expDecayPayout (widen n) context.rescale).value = decayed (widen n) context.rescale / 10 ^ 18 :=
    (expDecayPayout_value (t := .u128) rfl hreward0 (rescale context.decayConstant).min_le (widen n).min_le).1
  have hfactor : decayFactor (saturatedInto (widen n).toFixed) (saturatedInto context.rescale.decayConstant) =
      factorU128 context n := by
    rw [toFixed_widen]
    rfl
  have hreward : context.rescale.initialReward.toFixed.inner = context.initialReward.value * 10 ^ 18 := by
    change (widen context.initialReward).toFixed.inner = _
    rw [toFixed_widen]
    change context.initialReward.toFixed.inner * 10 ^ 9 = _
    rw [toFixed_u32]
    omega
  rw [hvalue, decayed, hfactor, hreward]
  change context.initialReward.value * 10 ^ 18 * _ / (10 ^ 18) / (10 ^ 18) = _
  rw [Int.mul_right_comm, Int.mul_ediv_cancel _ (by decide)]

theorem factorU32_exponent (context : ExpDecayPayoutConfig .u32) (n : IntValue .u32) :
    (takenU64 context.decayConstant).inner * (takenU64 n.toFixed).inner =
      context.decayConstant.inner * n.value * 10 ^ 9 := by
  have ha := takenU64_inner context.decayConstant
  have hx := (takenU64_inner n.toFixed).trans (toFixed_u32 n)
  exact (congrArg₂ (fun a x : Int => a * x) ha hx).trans (Int.mul_assoc ..).symm

theorem factorU128_exponent (context : ExpDecayPayoutConfig .u32) (n : IntValue .u32) :
    (takenU128 context.decayConstant).inner * (takenU128 n.toFixed).inner =
      context.decayConstant.inner * n.value * 10 ^ 27 := by
  have ha := takenU128_inner context.decayConstant
  have hx := (takenU128_inner n.toFixed).trans (congrArg (fun x : Int => x * 10 ^ 9) (toFixed_u32 n))
  refine (congrArg₂ (fun a x : Int => a * x) ha hx).trans ?_
  ring

/-- There is no reward, or it does not decay and is all that the narrow type can pay, or even the exponent of the
narrow type leaves nothing of it. -/
def ExpDecayPayoutConfig.WidthSafe (context : ExpDecayPayoutConfig .u32) (n : IntValue .u32) : Prop :=
  context.initialReward.value = 0 ∨
    2 ^ 32 - 2 ≤ context.initialReward.value ∧ context.decayConstant.inner * n.value = 0 ∨
    61 * context.initialReward.value < 2 * 10 ^ 9 ∧ 45 * 10 ^ 27 ≤ context.decayConstant.inner * n.value

theorem expDecayPayout_faded (h : 45 * 10 ^ 27 ≤ context.decayConstant.inner * n.value) :
    10 ^ 9 * |(expDecayPayout n context).value - (expDecayPayout (widen n) context.rescale).value| ≤
      61 * context.initialReward.value := by
  have hr0 : 0 ≤ context.initialReward.value := context.initialReward.min_le
  have hr1 : context.initialReward.value ≤ 2 ^ 32 - 1 := context.initialReward.le_max
  have ha := (saturatedInto_of_nonneg (k := .fixedU64) context.decayConstant.min_le).1
  have hx := (saturatedInto_of_nonneg (k := .fixedU64) n.toFixed.min_le).1
  have ha' := (saturatedInto_of_nonneg (rescale context.decayConstant).min_le).1
  have hx' := (saturatedInto_of_nonneg (rescale n.toFixed).min_le).1
  have hnarrow := factorU32_exponent context n
  have hwide := factorU128_exponent context n
  have hf : (factorU32 context n).inner ≤ 61 := decayFactor_faded ha hx (by omega)
  have hg : (factorU128 context n).inner ≤ 61 := decayFactor_faded ha' hx' (by omega)
  have hpay := Int.mul_le_mul_of_nonneg_left hf hr0
  have hpay' := Int.mul_le_mul_of_nonneg_left hg hr0
  have hnum := Int.mul_nonneg hr0 (factorU32_bounds context n).1
  have hnum' := Int.mul_nonneg hr0 (factorU128_bounds context n).1
  rw [expDecayPayout_u32, expDecayPayout_rescale]
  generalize context.initialReward.value * (factorU32 context n).inner = p at *
  generalize context.initialReward.value * (factorU128 context n).inner = q at *
  have hq : q / 10 ^ 18 = 0 := by omega
  rw [hq, sub_zero, abs_of_nonneg (by omega)]
  omega

theorem expDecayPayout_agree (h : context.WidthSafe n) :
    PayoutsAgree (expDecayPayout n context) (expDecayPayout (widen n) context.rescale) := by
  have hr1 : context.initialReward.value ≤ 2 ^ 32 - 1 := context.initialReward.le_max
  have hnarrow := factorU32_exponent context n
  have hwide := factorU128_exponent context n
  rcases h with hzero | ⟨hlarge, hconst⟩ | ⟨hsmall, hfaded⟩
  · rw [PayoutsAgree, expDecayPayout_u32, expDecayPayout_rescale, hzero, Int.zero_mul, Int.zero_mul]
    decide
  · rw [hconst, Int.zero_mul] at hnarrow hwide
    have hone : (factorU32 context n).inner = 10 ^ 18 :=
      congrArg FixedNumber.inner (decayFactor_of_mul_eq_zero hnarrow)
    have hone' : (factorU128 context n).inner = 10 ^ 18 :=
      congrArg FixedNumber.inner (decayFactor_of_mul_eq_zero hwide)
    rw [PayoutsAgree, expDecayPayout_u32, expDecayPayout_rescale, hone, hone', abs_le]
    omega
  · have hnear := expDecayPayout_faded hfaded
    rw [PayoutsAgree]
    omega

/-- The reward is paid many times, or as often as the narrow type can. -/
theorem expDecayPayout_differ (hpos : 0 < context.initialReward.value)
    (hbelow : context.initialReward.value ≤ 2 ^ 32 - 100)
    (h : context.decayConstant.inner * n.value ≤ 10 * 10 ^ 27) :
    (expDecayPayout (widen n) context.rescale).value + 10 < (expDecayPayout n context).value := by
  have hr0 : 0 ≤ context.initialReward.value := context.initialReward.min_le
  have ha := (saturatedInto_of_nonneg (k := .fixedU64) context.decayConstant.min_le).1
  have hx := (saturatedInto_of_nonneg (k := .fixedU64) n.toFixed.min_le).1
  have hnarrow := factorU32_exponent context n
  have hf : 4 * 10 ^ 13 ≤ (factorU32 context n).inner := decayFactor_kept ha hx (by omega)
  have hpay := Int.mul_le_mul_of_nonneg_left hf hr0
  have hpay' := Int.mul_le_mul_of_nonneg_left (factorU128_bounds context n).2 hr0
  rw [expDecayPayout_u32, expDecayPayout_rescale]
  generalize context.initialReward.value * (factorU32 context n).inner = p at *
  generalize context.initialReward.value * (factorU128 context n).inner = q at *
  omega

/-- Where the decay is safe the payouts agree; a reward below the bound of the narrow type that does not fade there
is paid many times. -/
structure DecayWidth (context : ExpDecayPayoutConfig .u32) (n : IntValue .u32) : Prop where
  agree : context.WidthSafe n → PayoutsAgree (expDecayPayout n context) (expDecayPayout (widen n) context.rescale)
  differ : 0 < context.initialReward.value → context.initialReward.value ≤ 2 ^ 32 - 100 →
    context.decayConstant.inner * n.value ≤ 10 * 10 ^ 27 →
      (expDecayPayout (widen n) context.rescale).value + 10 < (expDecayPayout n context).value

theorem decayWidth (context : ExpDecayPayoutConfig .u32) (n : IntValue .u32) : DecayWidth context n :=
  ⟨expDecayPayout_agree, expDecayPayout_differ⟩

end Decay

end FrameSuite
