import FrameSuite.CurveWidth
import FrameSuite.GrowthRate

/-! The logistic curve through two of its levels, for a 32-bit asset and for a 128-bit one. The odds of the levels
are taken over as they are, so the logarithm of the narrow type is lower by that of `10 ^ 9`. -/

namespace FrameSuite

open FixedNumber IntValue FixedKind

section Odds

theorem abs_tdiv_mul_sub_lt (a : Int) {b : Int} (hb : b ≠ 0) : |a.tdiv b * b - a| < |b| := by
  have hmod : a.tdiv b * b - a = -a.tmod b := by
    have hsplit := Int.mul_tdiv_add_tmod a b
    rw [Int.mul_comm] at hsplit
    omega
  have hlt : (a.tmod b).natAbs < b.natAbs := by
    rw [Int.natAbs_tmod]
    exact Nat.mod_lt _ (Int.natAbs_pos.mpr hb)
  rw [hmod, abs_neg, Int.abs_eq_natAbs, Int.abs_eq_natAbs]
  exact_mod_cast hlt

variable {p : FixedKind.fixedU64.Number}

theorem inUnit_iff (p : FixedKind.fixedU64.Number) : inUnit p ↔ 0 < p.inner ∧ p.inner < 10 ^ 9 := Iff.rfl

theorem inUnit_rescale (p : FixedKind.fixedU64.Number) : inUnit (rescale p) ↔ inUnit p := by
  rw [inUnit_iff]
  change 0 < p.inner * 10 ^ 9 ∧ p.inner * 10 ^ 9 < ((10 ^ 18 : Nat) : Int) ↔ _
  omega

theorem odds_u64_pos {a : Int} (hpos : 0 < a) (hlt : a < 10 ^ 9) : 0 < a * 10 ^ 9 / (10 ^ 9 - a) := by
  have hle := Int.le_ediv_of_mul_le (a := 1) (by omega : 0 < 10 ^ 9 - a) (by omega : 1 * (10 ^ 9 - a) ≤ a * 10 ^ 9)
  omega

/-- The logarithm that the narrow type computes, of odds below one by a factor of `10 ^ 9`. -/
theorem logit_u64 (hp : inUnit p) : ∃ odds l : FixedI128, odds.inner = p.inner * 10 ^ 9 / (10 ^ 9 - p.inner) ∧
    0 < odds.inner ∧ logit p = some l ∧ |l.inner| ≤ 50 * 10 ^ 18 ∧ |l.toReal - Real.log odds.toReal| ≤ 1 / 25000 := by
  obtain ⟨ratio, hratio, hinner⟩ := checkedDiv_odds hp (by decide)
  have hbounds := (inUnit_iff p).mp hp
  have htaken : (takenU64 ratio).inner = p.inner * 10 ^ 9 / (10 ^ 9 - p.inner) := (takenU64_inner ratio).trans hinner
  have hpos : 0 < (takenU64 ratio).inner := htaken.symm ▸ odds_u64_pos hbounds.1 hbounds.2
  obtain ⟨l, hl, hsize, hnear⟩ := fixedLn_workspace hpos
  refine ⟨takenU64 ratio, l, htaken, hpos, ?_, hsize, hnear⟩
  rw [logit, hratio]
  exact hl

theorem logit_rescale (hp : inUnit p) : ∃ odds l : FixedI128, odds.inner = p.inner * 10 ^ 18 / (10 ^ 9 - p.inner) ∧
    0 < odds.inner ∧ logit (rescale p) = some l ∧ |l.inner| ≤ 50 * 10 ^ 18 ∧
      |l.toReal - Real.log odds.toReal| ≤ 1 / 25000 := by
  have hin := (inUnit_rescale p).mpr hp
  obtain ⟨odds, l, hodds, hle, hl, hsize, hnear⟩ := logit_u128 hin
  refine ⟨odds, l, hodds.trans ?_, hin.1.trans_le hle, hl, hsize, hnear⟩
  change p.inner * 10 ^ 9 * 10 ^ 18 / (10 ^ 18 - p.inner * 10 ^ 9) = _
  rw [show (10 ^ 18 - p.inner * 10 ^ 9 : Int) = 10 ^ 9 * (10 ^ 9 - p.inner) by ring,
    show (p.inner * 10 ^ 9 * 10 ^ 18 : Int) = 10 ^ 9 * (p.inner * 10 ^ 18) by ring,
    Int.mul_ediv_mul_of_pos _ _ (by decide)]

/-- Up to even odds the narrow type counts at most twice the level. -/
theorem odds_u64_le {a : Int} (hpos : 0 < a) (hhalf : 2 * a ≤ 10 ^ 9) : a * 10 ^ 9 / (10 ^ 9 - a) ≤ 2 * a := by
  refine Int.ediv_le_of_le_mul (by omega) ?_
  have hmul := Int.mul_le_mul_of_nonneg_left (by omega : 10 ^ 9 ≤ 2 * (10 ^ 9 - a)) hpos.le
  linarith

theorem odds_rescale_bounds {a : Int} (hpos : 0 < a) (hhalf : 2 * a ≤ 10 ^ 9) :
    a * 10 ^ 9 ≤ a * 10 ^ 18 / (10 ^ 9 - a) ∧ a * 10 ^ 18 / (10 ^ 9 - a) ≤ 10 ^ 18 := by
  refine ⟨Int.le_ediv_of_mul_le (by omega) ?_, Int.ediv_le_of_le_mul (by omega) (by omega)⟩
  have hmul := Int.mul_le_mul_of_nonneg_left (by omega : 10 ^ 9 - a ≤ 10 ^ 9) (by omega : 0 ≤ a * 10 ^ 9)
  linarith

end Odds

section Midpoint

variable {k logitA x0 x l odds : FixedI128}

theorem abs_tdiv_le_abs (a b : Int) : |a.tdiv b| ≤ |a| := by
  rw [Int.abs_eq_natAbs, Int.abs_eq_natAbs, Int.natAbs_tdiv]
  exact_mod_cast Nat.div_le_self _ _

/-- The rounded midpoint times the growth rate is the negated logarithm, up to the growth rate. -/
theorem midpoint_bounds (hx0 : (FixedNumber.zero.saturatingSub logitA).checkedDiv k = some x0)
    (hlogit : |logitA.inner| ≤ 50 * 10 ^ 18) :
    |x0.inner * k.inner + logitA.inner * 10 ^ 18| < |k.inner| ∧ |x0.inner| ≤ 50 * 10 ^ 36 := by
  have hneg : (FixedNumber.zero.saturatingSub logitA).inner = -logitA.inner := by
    rw [saturatingSub_inner, zero_inner, zero_sub]
    exact clamp_workspace ((abs_neg _).trans_le (hlogit.trans (by decide)))
  obtain ⟨hne, hvalue⟩ := checkedDiv_eq_some.mp hx0
  rw [hneg] at hvalue
  change x0.inner = (-logitA.inner * 10 ^ 18).tdiv k.inner at hvalue
  have hmid := abs_tdiv_mul_sub_lt (-logitA.inner * 10 ^ 18) hne
  have hsize := abs_tdiv_le_abs (-logitA.inner * 10 ^ 18) k.inner
  rw [← hvalue] at hmid hsize
  rw [Int.neg_mul] at hmid hsize
  rw [sub_neg_eq_add] at hmid
  refine ⟨hmid, hsize.trans ?_⟩
  rw [abs_le] at hlogit ⊢
  omega

/-- The midpoint is chosen so that the curve starts at its first level: the argument of the exponential function is
the negated logarithm of the odds there, less the growth up to the input. -/
theorem curveArg_midpoint (hx0 : (FixedNumber.zero.saturatingSub logitA).checkedDiv k = some x0)
    (hk : |k.inner| ≤ 100 * 10 ^ 18) (hlogit : |logitA.inner| ≤ 50 * 10 ^ 18) (hx : 0 ≤ x.inner)
    (hx' : x.inner ≤ 2 ^ 92) :
    |(curveArg k x0 x).inner * 10 ^ 18 + k.inner * x.inner + logitA.inner * 10 ^ 18| ≤ 101 * 10 ^ 18 := by
  obtain ⟨hmid, hmidSize⟩ := midpoint_bounds hx0 hlogit
  have hgrown : |k.inner * x.inner| ≤ 100 * 10 ^ 18 * 2 ^ 92 := by
    rw [abs_mul]
    exact Int.mul_le_mul hk (by rwa [abs_of_nonneg hx]) (abs_nonneg _) (by decide)
  have hproduct : k.inner * (x.inner - x0.inner) = k.inner * x.inner - x0.inner * k.inner := by ring
  have hquot := abs_tdiv_mul_sub_lt (k.inner * (x.inner - x0.inner)) (by decide : (10 ^ 18 : Int) ≠ 0)
  rw [abs_of_nonneg (by decide : (0 : Int) ≤ 10 ^ 18)] at hquot
  rw [abs_lt] at hmid hquot
  rw [abs_le] at hmidSize hgrown hlogit
  have hdelta : (x.saturatingSub x0).inner = x.inner - x0.inner := by
    refine clamp_workspace ?_
    rw [abs_le]
    omega
  have harg := curveArg_inner hdelta (k := k) (by rw [abs_le]; omega)
  rw [harg, abs_le]
  generalize (k.inner * (x.inner - x0.inner)).tdiv (10 ^ 18) = q at *
  omega

section Exponent

variable {z l o a : ℝ}

/-- For odds that are counted in the wrong unit the exponential function is large, also one below their negated
logarithm. -/
theorem le_exp_of_odds_le (ha : 0 < a) (ho : 0 < o) (ho' : o ≤ 2 * a / 10 ^ 18)
    (hnear : |l - Real.log o| ≤ 1 / 25000) (hz : -l - 1 - 101 / 10 ^ 18 ≤ z) : 18 * 10 ^ 16 / a ≤ Real.exp z := by
  have hup := (abs_le.mp hnear).2
  have hsplit : Real.exp (-Real.log o) * Real.exp (-(1 + 1 / 10 ^ 4)) ≤ Real.exp z := by
    rw [← Real.exp_add]
    refine Real.exp_le_exp.mpr ?_
    norm_num at hz hup ⊢
    linarith
  have hshift : (0.36 : ℝ) ≤ Real.exp (-(1 + 1 / 10 ^ 4)) := by
    rw [neg_add, Real.exp_add]
    have hone : (0.3675 : ℝ) ≤ Real.exp (-1) := by
      rw [Real.exp_neg, le_inv_comm₀ (by norm_num) (Real.exp_pos 1)]
      exact Real.exp_one_lt_d9.le.trans (by norm_num)
    have htiny := Real.add_one_le_exp (-(1 / 10 ^ 4) : ℝ)
    have hmul := mul_le_mul hone htiny (by norm_num) (Real.exp_pos _).le
    exact le_trans (by norm_num) hmul
  have hinv : 10 ^ 18 / (2 * a) ≤ Real.exp (-Real.log o) := by
    rw [Real.exp_neg, Real.exp_log ho, le_inv_comm₀ (by positivity) ho, inv_div]
    exact ho'
  refine le_trans ?_ ((mul_le_mul hinv hshift (by norm_num) (Real.exp_pos _).le).trans hsplit)
  rw [div_mul_eq_mul_div, div_le_div_iff₀ ha (by positivity)]
  norm_num
  linarith

theorem exp_le_of_le_odds (ha : 0 < a) (ho : a / 10 ^ 9 ≤ o) (hnear : |l - Real.log o| ≤ 1 / 25000)
    (hz : z ≤ -l + 101 / 10 ^ 18) : Real.exp z ≤ 10001 * 10 ^ 5 / a := by
  have ho0 : 0 < o := lt_of_lt_of_le (by positivity) ho
  have hdown := (abs_le.mp hnear).1
  have hsplit : Real.exp z ≤ Real.exp (-Real.log o) * Real.exp (1 / 20000) := by
    rw [← Real.exp_add]
    refine Real.exp_le_exp.mpr ?_
    norm_num at hz hdown ⊢
    linarith
  have hshift : Real.exp (1 / 20000) ≤ 1.0001 := by
    have htiny := Real.add_one_le_exp (-(1 / 20000) : ℝ)
    rw [← neg_neg (1 / 20000 : ℝ), Real.exp_neg, inv_le_comm₀ (Real.exp_pos _) (by norm_num)]
    exact le_trans (by norm_num) htiny
  have hinv : Real.exp (-Real.log o) ≤ 10 ^ 9 / a := by
    rw [Real.exp_neg, Real.exp_log ho0, inv_le_comm₀ ho0 (by positivity), inv_div]
    exact ho
  refine (hsplit.trans (mul_le_mul hinv hshift (Real.exp_pos _).le (by positivity))).trans ?_
  rw [div_mul_eq_mul_div]
  exact div_le_div_of_nonneg_right (by norm_num) ha.le

end Exponent

/-- With the odds that the narrow type has at a level of at most a half nearly nothing is left of the curve. -/
theorem logistic_midpoint_le {a : Int} (hx0 : (FixedNumber.zero.saturatingSub logitA).checkedDiv k = some x0)
    (hk : |k.inner| ≤ 100 * 10 ^ 18) (hlogit : |logitA.inner| ≤ 50 * 10 ^ 18) (hx : 0 ≤ x.inner)
    (hx' : x.inner ≤ 10 ^ 16) (hl : 0 ≤ l.inner) (ha : 0 < a) (hhalf : 2 * a ≤ 10 ^ 9) (hpos : 0 < odds.inner)
    (hodds : odds.inner ≤ 2 * a) (hnear : |logitA.toReal - Real.log odds.toReal| ≤ 1 / 25000) :
    (logistic l k x0 x).inner * (17 * 10 ^ 16) ≤ l.inner * a := by
  have hmid := (abs_le.mp (curveArg_midpoint hx0 hk hlogit hx (by omega))).1
  have hgrown : |k.inner * x.inner| ≤ 100 * 10 ^ 18 * 10 ^ 16 := by
    rw [abs_mul]
    exact Int.mul_le_mul hk (by rwa [abs_of_nonneg hx]) (abs_nonneg _) (by decide)
  rw [abs_le] at hgrown
  have harg : -logitA.toReal - 1 - 101 / 10 ^ 18 ≤ (curveArg k x0 x).toReal := by
    have hinner : -logitA.inner - 10 ^ 18 - 101 ≤ (curveArg k x0 x).inner := by omega
    have hcast : ((-logitA.inner - 10 ^ 18 - 101 : Int) : ℝ) ≤ (curveArg k x0 x).inner := by exact_mod_cast hinner
    push_cast at hcast
    rw [← toReal_workspace, ← toReal_workspace (curveArg k x0 x)] at hcast
    norm_num at hcast ⊢
    linarith
  have ha0 : (0 : ℝ) < a := by exact_mod_cast ha
  have hoddsReal : odds.toReal ≤ 2 * a / 10 ^ 18 := by
    have hcast : (odds.inner : ℝ) ≤ ((2 * a : Int) : ℝ) := by exact_mod_cast hodds
    rw [← toReal_workspace] at hcast
    push_cast at hcast
    rw [le_div_iff₀ (by norm_num)]
    exact hcast
  have hexp := le_exp_of_odds_le ha0 (toReal_pos hpos) hoddsReal hnear harg
  have hz : 0 ≤ (curveArg k x0 x).inner := by
    have hone : 1 ≤ 18 * 10 ^ 16 / (a : ℝ) := by
      have hcast : ((2 * a : Int) : ℝ) ≤ ((10 ^ 9 : Int) : ℝ) := by exact_mod_cast hhalf
      push_cast at hcast
      rw [one_le_div ha0]
      linarith
    rw [← toReal_nonneg, ← Real.one_le_exp_iff]
    exact hone.trans hexp
  have hbound : (17 * 10 ^ 16 / a : ℝ) ≤ 10 ^ 20 := by
    have ha1 : (1 : ℝ) ≤ a := by exact_mod_cast ha
    rw [div_le_iff₀ ha0]
    linarith
  have hvalue : 17 * 10 ^ 16 / a ≤ (expOrMax (curveArg k x0 x)).toReal := by
    refine le_expOrMax hz hbound (le_trans ?_ (mul_le_mul_of_nonneg_right hexp (by norm_num)))
    rw [div_mul_eq_mul_div]
    exact div_le_div_of_nonneg_right (by norm_num) ha0.le
  have hdenom : 17 * 10 ^ 16 / a ≤ (logisticDenom (curveArg k x0 x)).toReal := le_logisticDenom hbound (by linarith)
  have hle := logistic_mul_le hl (by positivity) hdenom
  rw [mul_div_assoc', div_le_iff₀ ha0] at hle
  exact_mod_cast hle

/-- With the odds of the wide type the curve starts above two thirds of a level of at most a half. -/
theorem le_logistic_midpoint {a : Int} (hx0 : (FixedNumber.zero.saturatingSub logitA).checkedDiv k = some x0)
    (hk : |k.inner| ≤ 100 * 10 ^ 18) (hlogit : |logitA.inner| ≤ 50 * 10 ^ 18) (hx : x.inner = 0) (hl : 0 ≤ l.inner)
    (ha : 0 < a) (hhalf : 2 * a ≤ 10 ^ 9) (hodds : a * 10 ^ 9 ≤ odds.inner)
    (hnear : |logitA.toReal - Real.log odds.toReal| ≤ 1 / 25000) :
    l.inner * a ≤ ((logistic l k x0 x).inner + 1) * (151 * 10 ^ 7) := by
  have hmid := (abs_le.mp (curveArg_midpoint hx0 hk hlogit hx.ge (hx.trans_le (by decide)))).2
  rw [hx, Int.mul_zero] at hmid
  have harg : (curveArg k x0 x).toReal ≤ -logitA.toReal + 101 / 10 ^ 18 := by
    have hinner : (curveArg k x0 x).inner ≤ -logitA.inner + 101 := by omega
    have hcast : ((curveArg k x0 x).inner : ℝ) ≤ ((-logitA.inner + 101 : Int) : ℝ) := by exact_mod_cast hinner
    push_cast at hcast
    rw [← toReal_workspace, ← toReal_workspace logitA] at hcast
    norm_num at hcast ⊢
    linarith
  have ha0 : (0 : ℝ) < a := by exact_mod_cast ha
  have hoddsReal : (a : ℝ) / 10 ^ 9 ≤ odds.toReal := by
    have hcast : ((a * 10 ^ 9 : Int) : ℝ) ≤ odds.inner := by exact_mod_cast hodds
    rw [← toReal_workspace] at hcast
    push_cast at hcast
    rw [div_le_iff₀ (by norm_num)]
    norm_num at hcast ⊢
    linarith
  have hexp := exp_le_of_le_odds ha0 hoddsReal hnear harg
  have hvalue : (expOrMax (curveArg k x0 x)).toReal ≤ 10001 * 10 ^ 5 / a + 60 / 10 ^ 18 := by
    rcases le_total 0 (curveArg k x0 x).inner with hz | hz
    · obtain ⟨-, hle, -⟩ := expOrMax_of_nonneg FixedKind.fixedI128.decimal hz
      norm_num
      linarith
    · have hle := (abs_le.mp (expOrMax_of_nonpos hz)).2
      linarith
  have hdenom : (logisticDenom (curveArg k x0 x)).toReal ≤ 151 * 10 ^ 7 / a := by
    have hcast : ((2 * a : Int) : ℝ) ≤ ((10 ^ 9 : Int) : ℝ) := by exact_mod_cast hhalf
    push_cast at hcast
    refine (logisticDenom_le _).trans ((add_le_add_right hvalue 1).trans ?_)
    rw [le_div_iff₀ ha0, add_mul, add_mul, div_mul_cancel₀ _ ha0.ne']
    norm_num at hcast ⊢
    linarith
  have hle := le_logistic_mul hl hdenom
  rw [mul_div_assoc', le_div_iff₀ ha0] at hle
  exact_mod_cast hle

end Midpoint

section Sigmoid

variable {context : SigmoidPayoutConfig .u32} {n : IntValue .u32}

/-- The configuration of a 32-bit asset for a 128-bit one. -/
def SigmoidPayoutConfig.rescale (context : SigmoidPayoutConfig .u32) : SigmoidPayoutConfig .u128 where
  maxReward := widen context.maxReward
  growthStart := FrameSuite.rescale context.growthStart
  growthEnd := FrameSuite.rescale context.growthEnd

/-- The levels are out of range or equal, so that there is no curve, or there is at most one unit to pay. -/
def SigmoidPayoutConfig.WidthSafe (context : SigmoidPayoutConfig .u32) : Prop :=
  ¬(inUnit context.growthStart ∧ inUnit context.growthEnd) ∨ context.growthStart = context.growthEnd ∨
    context.maxReward.value ≤ 1

/-- A curve that rises from at most a half, by a thousandth at least. -/
structure SigmoidPayoutConfig.Rises (context : SigmoidPayoutConfig .u32) : Prop where
  start : 0 < context.growthStart.inner
  half : 2 * context.growthStart.inner ≤ 10 ^ 9
  rise : context.growthStart.inner + 10 ^ 6 ≤ context.growthEnd.inner
  below : context.growthEnd.inner < 10 ^ 9

theorem sigmoidShape_self {k : FixedKind} (a : k.Number) : sigmoidShape a a = none := by
  unfold sigmoidShape
  split
  · cases logit a with
    | none => rfl
    | some l =>
      have hzero : l.saturatingSub l = FixedNumber.zero := by
        refine FixedNumber.ext ?_
        have hmax := k.signed.repr.one_le_max
        rw [saturatingSub_inner, sub_self, FixedNumber.clamp_of_mem k.signed.repr.min_nonpos (by omega), zero_inner]
      exact if_pos hzero
  · rfl

theorem sigmoidPayout_none {t : IntType} {context : SigmoidPayoutConfig t} {x : IntValue t}
    (h : sigmoidShape context.growthStart context.growthEnd = none) : (sigmoidPayout x context).value = 0 := by
  rw [sigmoidPayout, h]
  rfl

theorem sigmoidShape_of_logits {k : FixedKind} {a b : k.Number} {logitA logitB x0 : k.signed.Number}
    (hin : inUnit a ∧ inUnit b) (hA : logit a = some logitA) (hB : logit b = some logitB)
    (hne : logitB.saturatingSub logitA ≠ FixedNumber.zero)
    (hx0 : (FixedNumber.zero.saturatingSub logitA).checkedDiv (logitB.saturatingSub logitA) = some x0) :
    sigmoidShape a b = some (logitB.saturatingSub logitA, x0) := by
  rw [sigmoidShape, if_pos hin, hA, hB, Option.bind_some, Option.bind_some]
  dsimp only
  rw [if_neg hne, hx0]
  rfl

theorem sigmoidPayout_agree (h : context.WidthSafe) :
    PayoutsAgree (sigmoidPayout n context) (sigmoidPayout (widen n) context.rescale) := by
  have hreward : 0 ≤ context.maxReward.value := context.maxReward.min_le
  rcases h with hrange | hequal | hunit
  · have hnone : sigmoidShape context.growthStart context.growthEnd = none := if_neg hrange
    have hnone' : sigmoidShape context.rescale.growthStart context.rescale.growthEnd = none :=
      if_neg fun hin => hrange ⟨(inUnit_rescale _).mp hin.1, (inUnit_rescale _).mp hin.2⟩
    rw [PayoutsAgree, sigmoidPayout_none hnone, sigmoidPayout_none hnone']
    decide
  · have hnone : sigmoidShape context.growthStart context.growthEnd = none := by
      rw [hequal]
      exact sigmoidShape_self _
    have hnone' : sigmoidShape context.rescale.growthStart context.rescale.growthEnd = none := by
      have heq : context.rescale.growthStart = context.rescale.growthEnd := congrArg FrameSuite.rescale hequal
      rw [heq]
      exact sigmoidShape_self _
    rw [PayoutsAgree, sigmoidPayout_none hnone, sigmoidPayout_none hnone']
    decide
  · have hn0 : 0 ≤ (sigmoidPayout n context).value := (sigmoidPayout n context).min_le
    have hw0 : 0 ≤ (sigmoidPayout (widen n) context.rescale).value := (sigmoidPayout (widen n) context.rescale).min_le
    have hn1 : (sigmoidPayout n context).value ≤ context.maxReward.value := sigmoidPayout_le hreward
    have hw1 : (sigmoidPayout (widen n) context.rescale).value ≤ context.maxReward.value :=
      sigmoidPayout_le (t := .u128) hreward
    rw [PayoutsAgree, abs_le]
    omega

theorem SigmoidPayoutConfig.Rises.inUnit_start (h : context.Rises) : inUnit context.growthStart := by
  obtain ⟨hstart, hhalf, -, -⟩ := h
  exact (inUnit_iff context.growthStart).mpr (by omega)

theorem SigmoidPayoutConfig.Rises.inUnit_end (h : context.Rises) : inUnit context.growthEnd := by
  obtain ⟨hstart, -, hrise, hbelow⟩ := h
  exact (inUnit_iff context.growthEnd).mpr (by omega)

theorem rate_inner {logitA logitB : FixedI128} (hA : |logitA.inner| ≤ 50 * 10 ^ 18)
    (hB : |logitB.inner| ≤ 50 * 10 ^ 18) :
    (logitB.saturatingSub logitA).inner = logitB.inner - logitA.inner ∧
      |(logitB.saturatingSub logitA).inner| ≤ 100 * 10 ^ 18 := by
  rw [abs_le] at hA hB
  have hinner : (logitB.saturatingSub logitA).inner = logitB.inner - logitA.inner := by
    refine clamp_workspace ?_
    rw [abs_le]
    omega
  rw [hinner, abs_le]
  omega

theorem sigmoidPayout_u32_le (h : context.Rises) (hn : n.value ≤ 10 ^ 7) :
    (sigmoidPayout n context).value * (17 * 10 ^ 16) ≤ context.maxReward.value * context.growthStart.inner := by
  have hL : 0 ≤ context.maxReward.value := context.maxReward.min_le
  have hn0 : 0 ≤ n.value := n.min_le
  have ha := h.start
  cases hshape : sigmoidShape context.growthStart context.growthEnd with
  | none =>
    rw [sigmoidPayout_none hshape, Int.zero_mul]
    exact Int.mul_nonneg hL ha.le
  | some shape =>
    obtain ⟨rate, x0⟩ := shape
    obtain ⟨oddsA, logitA, hodds, hpos, hlogit, hsize, hnear⟩ := logit_u64 h.inUnit_start
    obtain ⟨-, logitB, -, -, hlogitB, hsizeB, -⟩ := logit_u64 h.inUnit_end
    obtain ⟨-, logitA', logitB', hA, hB, hrate, hx0⟩ := sigmoidShape_some hshape
    cases hlogit.symm.trans hA
    cases hlogitB.symm.trans hB
    have hreward : (takenU64 context.maxReward.toFixed).inner = context.maxReward.value * 10 ^ 9 :=
      (takenU64_inner _).trans (toFixed_u32 _)
    have hinput : (takenU64 n.toFixed).inner = n.value * 10 ^ 9 := (takenU64_inner _).trans (toFixed_u32 _)
    have hcurve := logistic_midpoint_le (l := takenU64 context.maxReward.toFixed) (x := takenU64 n.toFixed) hx0
      (hrate ▸ (rate_inner hsize hsizeB).2) hsize (by omega) (by omega) (by omega) ha h.half hpos
      (hodds.trans_le (odds_u64_le ha h.half)) hnear
    rw [hreward, Int.mul_right_comm] at hcurve
    have hvalue : (sigmoidPayout n context).value =
        (logistic (takenU64 context.maxReward.toFixed) rate x0 (takenU64 n.toFixed)).inner / 10 ^ 9 :=
      (sigmoidPayout_value hL hshape).1
    rw [hvalue]
    generalize context.maxReward.value * context.growthStart.inner = product at *
    omega

/-- The shape exists for the wide type, with a growth rate above zero. -/
theorem sigmoidShape_rescale (h : context.Rises) : ∃ (odds logitA rate x0 : FixedI128),
    sigmoidShape context.rescale.growthStart context.rescale.growthEnd = some (rate, x0) ∧ 0 < rate.inner ∧
      |rate.inner| ≤ 100 * 10 ^ 18 ∧ |logitA.inner| ≤ 50 * 10 ^ 18 ∧
        (FixedNumber.zero.saturatingSub logitA).checkedDiv rate = some x0 ∧
          context.growthStart.inner * 10 ^ 9 ≤ odds.inner ∧
            |logitA.toReal - Real.log odds.toReal| ≤ 1 / 25000 := by
  obtain ⟨oddsA, logitA, hodds, hpos, hlogit, hsize, hnear⟩ := logit_rescale h.inUnit_start
  obtain ⟨-, logitB, -, -, hlogitB, hsizeB, -⟩ := logit_rescale h.inUnit_end
  obtain ⟨hrate, hrateSize⟩ := rate_inner hsize hsizeB
  have hrise : context.growthStart.inner * 10 ^ 9 + 10 ^ 14 ≤ context.growthEnd.inner * 10 ^ 9 := by
    have hstep := h.rise
    omega
  have hlt := logit_lt ((inUnit_rescale _).mpr h.inUnit_start) ((inUnit_rescale _).mpr h.inUnit_end) hrise hlogit
    hlogitB
  have hne : logitB.saturatingSub logitA ≠ FixedNumber.zero := by
    intro heq
    rw [heq, zero_inner] at hrate
    omega
  have hneg : |(FixedNumber.zero.saturatingSub logitA).inner * ((10 ^ 18 : Nat) : Int)| ≤ 50 * 10 ^ 36 := by
    have hinner := (rate_inner hsize (by decide : |(FixedNumber.zero : FixedI128).inner| ≤ 50 * 10 ^ 18)).1
    rw [hinner, zero_inner, zero_sub, abs_le]
    have hbounds := abs_le.mp hsize
    omega
  obtain ⟨hmin, hmax⟩ := abs_le.mp ((abs_tdiv_le_abs _ (logitB.saturatingSub logitA).inner).trans hneg)
  have hmid : ∃ x0, (FixedNumber.zero.saturatingSub logitA).checkedDiv (logitB.saturatingSub logitA) = some x0 :=
    ⟨⟨_, le_trans (by decide) hmin, hmax.trans (by decide)⟩, checkedDiv_eq_some.mpr ⟨by omega, rfl⟩⟩
  obtain ⟨x0, hx0⟩ := hmid
  refine ⟨oddsA, logitA, logitB.saturatingSub logitA, x0, ?_, by omega, hrateSize, hsize, hx0,
    hodds.symm ▸ (odds_rescale_bounds h.start h.half).1, hnear⟩
  exact sigmoidShape_of_logits (k := .fixedU128) ⟨(inUnit_rescale context.growthStart).mpr h.inUnit_start,
    (inUnit_rescale context.growthEnd).mpr h.inUnit_end⟩ hlogit hlogitB hne hx0

theorem le_sigmoidPayout_rescale (h : context.Rises) (n : IntValue .u32) :
    context.maxReward.value * context.growthStart.inner ≤
      ((sigmoidPayout (widen n) context.rescale).value + 2) * (151 * 10 ^ 7) := by
  have hL : 0 ≤ context.rescale.maxReward.value := context.maxReward.min_le
  have hL1 : context.maxReward.value ≤ 2 ^ 32 - 1 := context.maxReward.le_max
  obtain ⟨odds, logitA, rate, x0, hshape, hrate, hrateSize, hsize, hx0, hodds, hnear⟩ := sigmoidShape_rescale h
  have hstart : (sigmoidPayout IntValue.zero context.rescale).value ≤
      (sigmoidPayout (widen n) context.rescale).value + 1 := by
    have hmono := sigmoidPayout_near (x := IntValue.zero) (y := widen n) hL hshape hrate.le n.min_le
    change 10 ^ 18 * _ ≤ 10 ^ 18 * _ + 300 * context.maxReward.value at hmono
    omega
  have hreward : (takenU128 context.maxReward.toFixed).inner = context.maxReward.value * 10 ^ 18 := by
    have hfixed := toFixed_u32 context.maxReward
    exact (takenU128_inner context.maxReward.toFixed).trans (by omega)
  have hcurve := le_logistic_midpoint (l := takenU128 context.maxReward.toFixed)
    (x := FixedNumber.zero) hx0 hrateSize hsize rfl (by
      have hL0 : 0 ≤ context.maxReward.value := context.maxReward.min_le
      omega) h.start h.half hodds hnear
  rw [hreward, Int.mul_right_comm] at hcurve
  have hvalue : (sigmoidPayout IntValue.zero context.rescale).value =
      (logistic (takenU128 context.maxReward.toFixed) rate x0 FixedNumber.zero).inner / 10 ^ 18 := by
    have hpay := (sigmoidPayout_value (x := IntValue.zero) hL hshape).1
    have hfixed : context.rescale.maxReward.toFixed = FrameSuite.rescale context.maxReward.toFixed :=
      toFixed_widen context.maxReward
    rw [hfixed] at hpay
    exact hpay
  rw [hvalue] at hstart
  generalize context.maxReward.value * context.growthStart.inner = product at *
  omega

/-- Where the curve is safe the payouts agree; a curve that rises from a level of at least twenty units pays nearly
nothing of them on the narrow type. -/
structure SigmoidWidth (context : SigmoidPayoutConfig .u32) (n : IntValue .u32) : Prop where
  agree : context.WidthSafe → PayoutsAgree (sigmoidPayout n context) (sigmoidPayout (widen n) context.rescale)
  differ : context.Rises → 2 * 10 ^ 10 ≤ context.maxReward.value * context.growthStart.inner → n.value ≤ 10 ^ 7 →
    (sigmoidPayout n context).value + 10 < (sigmoidPayout (widen n) context.rescale).value

theorem sigmoidPayout_differ (h : context.Rises)
    (hlevel : 2 * 10 ^ 10 ≤ context.maxReward.value * context.growthStart.inner) (hn : n.value ≤ 10 ^ 7) :
    (sigmoidPayout n context).value + 10 < (sigmoidPayout (widen n) context.rescale).value := by
  have hnarrow := sigmoidPayout_u32_le h hn
  have hwide := le_sigmoidPayout_rescale h n
  generalize context.maxReward.value * context.growthStart.inner = product at *
  omega

theorem sigmoidWidth (context : SigmoidPayoutConfig .u32) (n : IntValue .u32) : SigmoidWidth context n :=
  ⟨sigmoidPayout_agree, sigmoidPayout_differ⟩

end Sigmoid

end FrameSuite
