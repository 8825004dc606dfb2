import FrameSuite.LogPrecision
import FrameSuite.PayoutModels

/-! The growth rate of the logistic curve through two of its levels. Levels of 18 decimal places that are a
ten-thousandth apart have logarithms that are further apart than both of them are from the exact ones. -/

namespace FrameSuite

open FixedNumber FixedKind

theorem checkedDiv_odds {F : FixedRepr} {p : FixedNumber F} (hp : inUnit p)
    (hsq : (F.div : Int) * F.div ≤ F.maxInner) : ∃ ratio : FixedNumber F,
      p.checkedDiv (one.saturatingSub p) = some ratio ∧ ratio.inner = p.inner * F.div / (F.div - p.inner) := by
  obtain ⟨hpos, hlt⟩ := hp
  rw [one_inner] at hlt
  have hmin := F.min_nonpos
  have hmax := F.div_le
  have hD := F.div_pos'
  have hdenom : ((one : FixedNumber F).saturatingSub p).inner = F.div - p.inner := by
    rw [saturatingSub_inner, one_inner, FixedNumber.clamp_of_mem] <;> omega
  have hnum : 0 ≤ p.inner * F.div := Int.mul_nonneg hpos.le hD.le
  have hnonneg : 0 ≤ p.inner * F.div / (F.div - p.inner) := Int.ediv_nonneg hnum (by omega)
  have hle : p.inner * F.div / (F.div - p.inner) ≤ F.maxInner :=
    (Int.ediv_le_self _ hnum).trans ((Int.mul_le_mul_of_nonneg_right hlt.le hD.le).trans hsq)
  refine ⟨⟨_, hmin.trans hnonneg, hle⟩, checkedDiv_eq_some.mpr ⟨by omega, ?_⟩, rfl⟩
  rw [hdenom, Int.tdiv_eq_ediv_of_nonneg hnum]

theorem toReal_workspace (y : FixedI128) : y.toReal * 10 ^ 18 = y.inner := by
  rw [toReal]
  change (y.inner : ℝ) / ((10 ^ 18 : Nat) : ℝ) * 10 ^ 18 = _
  rw [Nat.cast_pow, Nat.cast_ofNat]
  exact div_mul_cancel₀ _ (by norm_num)

/-- The logarithm in the workspace, for every positive number. -/
theorem fixedLn_workspace {y : FixedI128} (hy : 0 < y.inner) :
    ∃ l, fixedLn y = some l ∧ |l.inner| ≤ 50 * 10 ^ 18 ∧ |l.toReal - Real.log y.toReal| ≤ 1 / 25000 := by
  have hF := FixedKind.fixedI128.decimal
  obtain ⟨l, hl, hnear⟩ := fixedLn_near hF FixedKind.fixedI128.sqrtBounds hy (fun h => absurd h.1 (by decide))
  have hlog := abs_log_le hF hy
  have hunit : FixedKind.fixedI128.repr.unit = 1 / 10 ^ 18 := by
    change 1 / ((10 ^ 18 : Nat) : ℝ) = _
    norm_num
  have hroot : rootError y ≤ 1 / 10 ^ 9 := by
    have hle : (1 / 10 ^ 9) ^ 2 ≤ min y.toReal 1 := by
      refine le_min ((le_trans (by norm_num) hunit.ge).trans (unit_le_toReal hy)) (by norm_num)
    rw [rootError, hunit, div_le_iff₀ (Real.sqrt_pos.mpr (lt_of_lt_of_le (by norm_num) hle))]
    have hsqrt := Real.le_sqrt_of_sq_le hle
    norm_num at hsqrt ⊢
    linarith
  have hroot0 : 0 ≤ rootError y := FixedKind.fixedI128.repr.unit_pos.le.trans (rootError_bounds hF hy).1
  have herr : |l.toReal - Real.log y.toReal| ≤ 1 / 25000 := by
    refine hnear.trans ?_
    calc 110 * (1 + 6 * |Real.log y.toReal|) * rootError y ≤ 110 * (1 + 6 * 48) * (1 / 10 ^ 9) := by gcongr
      _ ≤ 1 / 25000 := by norm_num
  refine ⟨l, hl, ?_, herr⟩
  have hsize : |l.toReal| ≤ 50 := by
    have htri := abs_sub_le l.toReal (Real.log y.toReal) 0
    rw [sub_zero, sub_zero] at htri
    linarith
  have hinner := abs_inner_le hsize
  change |(l.inner : ℝ)| ≤ ((10 ^ 18 : Nat) : ℝ) * 50 at hinner
  push_cast at hinner
  have hcast : ((|l.inner| : Int) : ℝ) ≤ ((50 * 10 ^ 18 : Int) : ℝ) := by
    push_cast
    linarith
  exact_mod_cast hcast

/-- The odds of a level of the wide type fit the workspace. -/
theorem logit_u128 {p : FixedKind.fixedU128.Number} (hp : inUnit p) : ∃ odds l : FixedI128,
    odds.inner = p.inner * 10 ^ 18 / (10 ^ 18 - p.inner) ∧ p.inner ≤ odds.inner ∧ logit p = some l ∧
      |l.inner| ≤ 50 * 10 ^ 18 ∧ |l.toReal - Real.log odds.toReal| ≤ 1 / 25000 := by
  obtain ⟨ratio, hratio, hodds⟩ := checkedDiv_odds hp (by decide)
  have hpos : 0 < p.inner := hp.1
  have hlt : p.inner < 10 ^ 18 := hp.2
  change ratio.inner = p.inner * 10 ^ 18 / (10 ^ 18 - p.inner) at hodds
  have hlarge : ratio.inner ≤ 2 ^ 127 - 1 := by
    rw [hodds]
    refine (Int.ediv_le_self _ (by omega)).trans ?_
    omega
  have hle : p.inner ≤ ratio.inner := by
    rw [hodds]
    exact Int.le_ediv_of_mul_le (by omega) (Int.mul_le_mul_of_nonneg_left (by omega) hpos.le)
  have htaken : (saturatedInto ratio : FixedI128).inner = ratio.inner :=
    FixedNumber.clamp_of_mem (le_trans (by decide) ratio.min_le) hlarge
  have hle' : p.inner ≤ (saturatedInto ratio : FixedI128).inner := hle.trans_eq htaken.symm
  obtain ⟨l, hl, hsize, hnear⟩ := fixedLn_workspace (hpos.trans_le hle')
  refine ⟨saturatedInto ratio, l, htaken.trans hodds, hle', ?_, hsize, hnear⟩
  rw [logit, hratio]
  exact hl

/-- The rounded odds rise with the level, by its distance at least. -/
theorem odds_rise {a b : Int} (ha : 0 < a) (hrise : a + 10 ^ 14 ≤ b) (hb : b < 10 ^ 18) :
    10 ^ 5 * (a * 10 ^ 18 / (10 ^ 18 - a)) ≤ (10 ^ 5 - 9) * (b * 10 ^ 18 / (10 ^ 18 - b)) := by
  have hlow := Int.ediv_mul_le (a * 10 ^ 18) (by omega : (10 ^ 18 - a : Int) ≠ 0)
  have hhigh := Int.lt_ediv_add_one_mul_self (b * 10 ^ 18) (by omega : (0 : Int) < 10 ^ 18 - b)
  have hlarge : b ≤ b * 10 ^ 18 / (10 ^ 18 - b) :=
    Int.le_ediv_of_mul_le (by omega) (Int.mul_le_mul_of_nonneg_left (by omega) (by omega))
  generalize a * 10 ^ 18 / (10 ^ 18 - a) = oddsA at *
  generalize b * 10 ^ 18 / (10 ^ 18 - b) = oddsB at *
  have hcross : 10 ^ 4 * (a * (10 ^ 18 - b)) ≤ (10 ^ 4 - 1) * (b * (10 ^ 18 - a)) := by
    have hsmall : b * (10 ^ 18 - a) ≤ 10 ^ 18 * 10 ^ 18 :=
      Int.mul_le_mul hb.le (by omega) (by omega) (by decide)
    linarith
  have hscaled : 10 ^ 5 * oddsA * (10 ^ 18 - b) ≤ (10 ^ 5 - 10) * (b * 10 ^ 18) := by
    refine le_of_mul_le_mul_right ?_ (by omega : 0 < 10 ^ 18 - a)
    calc 10 ^ 5 * oddsA * (10 ^ 18 - b) * (10 ^ 18 - a) = 10 ^ 5 * (10 ^ 18 - b) * (oddsA * (10 ^ 18 - a)) := by ring
      _ ≤ 10 ^ 5 * (10 ^ 18 - b) * (a * 10 ^ 18) := Int.mul_le_mul_of_nonneg_left hlow (by omega)
      _ ≤ (10 ^ 5 - 10) * (b * 10 ^ 18) * (10 ^ 18 - a) := by linarith
  have hunits : 10 ^ 5 * oddsA ≤ (10 ^ 5 - 10) * (oddsB + 1) := by
    refine le_of_mul_le_mul_right ?_ (by omega : 0 < 10 ^ 18 - b)
    linarith
  omega

theorem log_rise {a b : ℝ} (ha : 0 < a) (hb : 0 < b) (h : 10 ^ 5 * a ≤ (10 ^ 5 - 9) * b) :
    9 / 10 ^ 5 ≤ Real.log b - Real.log a := by
  have hquot : a / b ≤ 1 - 9 / 10 ^ 5 := by
    rw [div_le_iff₀ hb]
    linarith
  have hlog := Real.one_sub_inv_le_log_of_pos (div_pos hb ha)
  rw [Real.log_div hb.ne' ha.ne', inv_div] at hlog
  linarith

/-- Each of the logarithms is off by less than half of what the levels are apart. -/
theorem logit_lt {a b : FixedKind.fixedU128.Number} {logitA logitB : FixedI128} (ha : inUnit a) (hb : inUnit b)
    (hrise : a.inner + 10 ^ 14 ≤ b.inner) (hA : logit a = some logitA) (hB : logit b = some logitB) :
    logitA.inner < logitB.inner := by
  obtain ⟨oddsA, l, hoddsA, hleA, hl, -, hnearA⟩ := logit_u128 ha
  obtain ⟨oddsB, m, hoddsB, hleB, hm, -, hnearB⟩ := logit_u128 hb
  cases hl.symm.trans hA
  cases hm.symm.trans hB
  have hodds : 10 ^ 5 * oddsA.inner ≤ (10 ^ 5 - 9) * oddsB.inner := by
    rw [hoddsA, hoddsB]
    exact odds_rise ha.1 hrise hb.2
  have hreal : 10 ^ 5 * oddsA.toReal ≤ (10 ^ 5 - 9) * oddsB.toReal := by
    have hcast : ((10 ^ 5 * oddsA.inner : Int) : ℝ) ≤ (((10 ^ 5 - 9) * oddsB.inner : Int) : ℝ) := by
      exact_mod_cast hodds
    push_cast at hcast
    rw [← toReal_workspace, ← toReal_workspace oddsB] at hcast
    linarith
  have hlog := log_rise (toReal_pos (ha.1.trans_le hleA)) (toReal_pos (hb.1.trans_le hleB)) hreal
  have hup := (abs_le.mp hnearA).2
  have hdown := (abs_le.mp hnearB).1
  refine toReal_lt_toReal.mp ?_
  norm_num at hlog hup hdown
  linarith

/-- The parts of the growth rate and the midpoint. -/
theorem sigmoidShape_some {k : FixedKind} {a b : k.Number} {rate x0 : k.signed.Number}
    (h : sigmoidShape a b = some (rate, x0)) : (inUnit a ∧ inUnit b) ∧ ∃ logitA logitB, logit a = some logitA ∧
      logit b = some logitB ∧ rate = logitB.saturatingSub logitA ∧
        (FixedNumber.zero.saturatingSub logitA).checkedDiv rate = some x0 := by
  unfold sigmoidShape at h
  split at h
  · rename_i hin
    refine ⟨hin, ?_⟩
    cases ha : logit a with
    | none =>
      rw [ha] at h
      cases h
    | some logitA =>
      cases hb : logit b with
      | none =>
        rw [ha, hb] at h
        cases h
      | some logitB =>
        rw [ha, hb, Option.bind_some, Option.bind_some] at h
        dsimp only at h
        split at h
        · cases h
        · obtain ⟨q, hq, heq⟩ := Option.map_eq_some_iff.mp h
          cases heq
          exact ⟨logitA, logitB, rfl, rfl, rfl, hq⟩
  · cases h

/-- Levels that are a ten-thousandth apart have a growth rate above zero. -/
theorem sigmoidShape_rate_pos {k : FixedKind} (hk : k = .fixedU128) {a b : k.Number} {rate x0 : k.signed.Number}
    (hrise : a.inner + 10 ^ 14 ≤ b.inner) (h : sigmoidShape a b = some (rate, x0)) : 0 < rate.inner := by
  subst hk
  obtain ⟨⟨ha, hb⟩, logitA, logitB, hA, hB, hrate, -⟩ := sigmoidShape_some h
  have hlt := logit_lt ha hb hrise hA hB
  rw [hrate]
  exact le_clamp_of_le (by omega : 1 ≤ logitB.inner - logitA.inner) (by decide)

end FrameSuite
