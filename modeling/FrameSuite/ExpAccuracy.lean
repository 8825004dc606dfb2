import FrameSuite.FixedExp

/-! How close the exponential function of a fixed-point number is to the exact one: within some units in the
last place below zero, and within as many units relative to its value above. -/

namespace FrameSuite

open FixedNumber

variable {F : FixedRepr} {z : FixedNumber F}

theorem abs_clampI32_of_lt {n : Int} (hn : |n| ≤ 2 ^ 31 - 1) : clampI32 n = n := by
  have habs := abs_le.mp hn
  unfold clampI32
  omega

theorem max_lt_exp (hF : F.Decimal) {t : ℝ} (ht : 48 ≤ t) :
    (maxValue : FixedNumber F).toReal ≤ 4 * 10 ^ 20 ∧ 6 * 10 ^ 20 < Real.exp t := by
  constructor
  · rw [toReal, div_le_iff₀ F.div_pos_real]
    have hmax : (F.maxInner : ℝ) ≤ F.div * 4 * 10 ^ 20 := by exact_mod_cast hF.max_le
    change (F.maxInner : ℝ) ≤ _
    linarith
  · have hpow : (2.7182818283 : ℝ) ^ 48 ≤ Real.exp 1 ^ 48 :=
      pow_le_pow_left₀ (by norm_num) Real.exp_one_gt_d9.le 48
    have hexp : Real.exp 1 ^ 48 = Real.exp 48 := by
      rw [← Real.exp_nat_mul]
      norm_num
    have hmono : Real.exp 48 ≤ Real.exp t := Real.exp_le_exp.mpr ht
    have hnum : (6 * 10 ^ 20 : ℝ) < 2.7182818283 ^ 48 := by norm_num
    linarith

theorem eulerPower_saturates (hF : F.Decimal) {n : Nat} (hn : 48 ≤ n) (hn' : n < 2 ^ 128) :
    fixedPowiPositive (eulerNumber : FixedNumber F) n = maxValue := by
  obtain ⟨-, -, hmax | hlow⟩ := eulerPower hF hn'
  · exact hmax
  · exfalso
    have hu := hF.unit_le
    have hu0 := F.unit_pos
    have he := Real.exp_one_gt_d9
    have hbase : (2.718281 : ℝ) ≤ Real.exp 1 * (1 - F.unit) ^ 2 := by
      have hsq : (1 - 2 * F.unit) ≤ (1 - F.unit) ^ 2 := by nlinarith
      nlinarith
    have hpow : (2.718281 : ℝ) ^ 48 ≤ (Real.exp 1 * (1 - F.unit) ^ 2) ^ n := by
      calc (2.718281 : ℝ) ^ 48 ≤ (Real.exp 1 * (1 - F.unit) ^ 2) ^ 48 := pow_le_pow_left₀ (by norm_num) hbase 48
        _ ≤ _ := pow_le_pow_right₀ (by linarith) hn
    have hmax := (max_lt_exp hF (le_refl (48 : ℝ))).1
    have hle := toReal_le_max (fixedPowiPositive (eulerNumber : FixedNumber F) n)
    have hnum : (4 * 10 ^ 20 : ℝ) < 2.718281 ^ 48 := by norm_num
    linarith

/-- The result of the exponential function for an argument that is not negative. -/
def ExpAbove (z : FixedNumber F) (result : Option (FixedNumber F)) : Prop :=
  (∃ w, result = some w ∧ 1 ≤ w.toReal ∧ w.toReal ≤ Real.exp z.toReal ∧
    Real.exp z.toReal * (1 - 150 * F.unit) ≤ w.toReal) ∨
    (result = none ∧ (maxValue : FixedNumber F).toReal ≤ Real.exp z.toReal)

section Above

variable {m : Nat}

theorem wholePart_of_nonneg (hz : 0 ≤ z.inner) :
    z.inner.tdiv F.div = ((z.inner / F.div).toNat : Int) ∧
      (((z.inner / F.div).toNat : Int) * F.div ≤ z.inner ∧ z.inner < ((z.inner / F.div).toNat : Int) * F.div + F.div) := by
  have hD := F.div_pos'
  have hnonneg : 0 ≤ z.inner / F.div := Int.ediv_nonneg hz hD.le
  have hmod := Int.ediv_mul_add_emod z.inner F.div
  have hlow := Int.emod_nonneg z.inner hD.ne'
  have hhigh := Int.emod_lt_of_pos z.inner hD
  rw [Int.toNat_of_nonneg hnonneg, Int.tdiv_eq_ediv_of_nonneg hz]
  omega

theorem seriesArg_of_nonneg (hF : F.Decimal) (hm : (m : Int) * F.div ≤ z.inner)
    (hm' : z.inner < (m : Int) * F.div + F.div) (hle : m ≤ 10 ^ 9) :
    SeriesArg (z.saturatingSub (saturatingFromInteger m)) ∧
      0 ≤ (z.saturatingSub (saturatingFromInteger m)).inner ∧
        (z.saturatingSub (saturatingFromInteger m)).toReal + m = z.toReal := by
  have hD := F.div_pos'
  have hmax := F.div_le
  have hmin := F.min_nonpos
  have hwhole := hF.saturatingFromInteger_inner (n := (m : Int)) (by omega) (by exact_mod_cast hle)
  have hinner : (z.saturatingSub (saturatingFromInteger m)).inner = z.inner - m * F.div := by
    rw [saturatingSub_inner, hwhole, clamp_of_mem] <;> omega
  refine ⟨⟨hF, ?_⟩, by omega, ?_⟩
  · rw [hinner, abs_of_nonneg (by omega)]
    omega
  · have hne := F.div_pos_real.ne'
    rw [toReal, hinner, toReal]
    push_cast
    field_simp
    ring

theorem expAbove_mul (hF : F.Decimal) {r : FixedNumber F} (harg : SeriesArg r) (hr : 0 ≤ r.inner) (hlt : m < 48)
    (hsplit : r.toReal + m = z.toReal) (hsat : fixedPowiPositive (eulerNumber : FixedNumber F) m ≠ maxValue) :
    ExpAbove z ((taylorExp r).checkedMul (fixedPowiPositive eulerNumber m)) := by
  have hu0 := F.unit_pos
  have hu := hF.unit_le
  obtain ⟨hsum1, hsumle⟩ := harg.taylorExp_of_nonneg hr
  obtain ⟨hP1, hPle, -⟩ := eulerPower hF (n := m) (hlt.trans (by norm_num))
  have hnear := (abs_le.mp harg.taylorExp_near).1
  have hexpr : 1 ≤ Real.exp r.toReal := Real.one_le_exp (toReal_nonneg.mpr hr)
  have hsumge : Real.exp r.toReal * (1 - 46 * F.unit) ≤ (taylorExp r).toReal := by nlinarith
  have hprod : Real.exp z.toReal = Real.exp r.toReal * Real.exp m := by rw [← Real.exp_add, hsplit]
  have hPlow : Real.exp m * (1 - 94 * F.unit) ≤ (fixedPowiPositive (eulerNumber : FixedNumber F) m).toReal := by
    have hm47 : (m : ℝ) ≤ 47 := by exact_mod_cast Nat.le_of_lt_succ hlt
    have hmu : 2 * m * F.unit ≤ 94 * F.unit := mul_le_mul_of_nonneg_right (by linarith) hu0.le
    exact (mul_le_mul_of_nonneg_left (by linarith) (Real.exp_pos _).le).trans
      (le_eulerPower hF (hlt.trans (by norm_num)) hsat)
  rcases checkedMul_real hsum1 hP1 with ⟨w, hw, hw1, hwle, hwge⟩ | ⟨hnone, hmax⟩
  · left
    refine ⟨w, hw, hw1, ?_, ?_⟩
    · rw [hprod]
      exact hwle.trans (mul_le_mul hsumle hPle (by linarith) (by linarith))
    · have hmul := mul_le_mul hsumge hPlow (mul_nonneg (Real.exp_pos _).le (by linarith)) (by linarith)
      have hone : 1 ≤ Real.exp z.toReal := by
        rw [hprod]
        exact one_le_mul_of_one_le_of_one_le hexpr (Real.one_le_exp (Nat.cast_nonneg m))
      have hcross : Real.exp z.toReal * (1 - 140 * F.unit) ≤
          Real.exp r.toReal * (1 - 46 * F.unit) * (Real.exp m * (1 - 94 * F.unit)) := by
        rw [hprod]
        nlinarith [mul_nonneg (mul_nonneg (Real.exp_pos r.toReal).le (Real.exp_pos (m : ℝ)).le)
          (mul_nonneg hu0.le hu0.le)]
      nlinarith
  · right
    refine ⟨hnone, hmax.trans ?_⟩
    rw [hprod]
    exact mul_le_mul hsumle hPle (by linarith) (by linarith)

theorem powi_of_pos (hm : 0 < m) :
    fixedPowi (eulerNumber : FixedNumber F) (m : Int) = some (fixedPowiPositive eulerNumber m) := by
  rw [fixedPowi, if_neg (by omega), if_neg (by omega), Int.toNat_natCast]

theorem threshold_nonpos : (saturatingFromInteger (-(F.decimals * 10)) : FixedNumber F).inner ≤ 0 := by
  refine clamp_le_of_le ?_ F.min_nonpos
  have hnonneg : 0 ≤ (F.decimals : Int) * 10 * F.div := by positivity
  rw [Int.neg_mul]
  omega

/-- Above zero the function is exact up to a part of its value, and gives up only above the type. -/
theorem fixedExp_of_nonneg (hF : F.Decimal) (hz : 0 ≤ z.inner) : ExpAbove z (fixedExp z) := by
  have hD := F.div_pos'
  have hu0 := F.unit_pos
  have hu := hF.unit_le
  have hexp1 : 1 ≤ Real.exp z.toReal := Real.one_le_exp (toReal_nonneg.mpr hz)
  obtain ⟨htdiv, hm, hm'⟩ := wholePart_of_nonneg hz
  generalize (z.inner / F.div).toNat = m at htdiv hm hm'
  have hwhole : (m : ℝ) ≤ z.toReal := by
    rw [toReal, le_div_iff₀ F.div_pos_real]
    exact_mod_cast hm
  have hlarge : 48 ≤ m → (maxValue : FixedNumber F).toReal ≤ Real.exp z.toReal := fun h => by
    have hreal : (48 : ℝ) ≤ z.toReal := le_trans (by exact_mod_cast h) hwhole
    have hmax := max_lt_exp hF hreal
    linarith [hmax.1, hmax.2]
  unfold fixedExp
  split
  · rename_i h
    left
    refine ⟨one, rfl, by rw [toReal_one], by rw [toReal_one]; exact hexp1, ?_⟩
    rw [h, toReal_zero, Real.exp_zero, toReal_one]
    linarith
  rw [if_neg (not_lt.mpr (threshold_nonpos.trans hz))]
  unfold innerI128?
  split
  · rw [Option.bind_some]
    dsimp only
    rw [htdiv]
    rcases Nat.lt_or_ge m 48 with hlt | hge
    · have hclamp : clampI32 (m : Int) = m := abs_clampI32_of_lt (by rw [Nat.abs_cast]; omega)
      obtain ⟨harg, hr, hsplit⟩ := seriesArg_of_nonneg hF hm hm' (by omega)
      rw [hclamp]
      split
      · rename_i hzero
        obtain rfl : m = 0 := by omega
        have hsame : (z.saturatingSub (saturatingFromInteger (0 : Nat))).toReal = z.toReal := by simpa using hsplit
        obtain ⟨hsum1, hsumle⟩ := harg.taylorExp_of_nonneg hr
        have hnear := (abs_le.mp harg.taylorExp_near).1
        rw [hsame] at hsumle hnear
        exact Or.inl ⟨_, rfl, hsum1, hsumle, by nlinarith⟩
      · rename_i hpos
        obtain ⟨-, hPle, -⟩ := eulerPower hF (n := m) (hlt.trans (by norm_num))
        have hexpm : Real.exp m ≤ Real.exp z.toReal := Real.exp_le_exp.mpr hwhole
        rw [powi_of_pos (by omega), Option.bind_some]
        split
        · rename_i hsat
          exact Or.inr ⟨rfl, (toReal_le_toReal.mpr hsat).trans (hPle.trans hexpm)⟩
        · rename_i hsat
          exact expAbove_mul hF harg hr hlt hsplit fun h => hsat (by rw [h])
    · have hsat : clampI32 (m : Int) = ((min m (2 ^ 31 - 1) : Nat) : Int) := by
        unfold clampI32
        omega
      have hne0 : clampI32 (m : Int) ≠ 0 := by omega
      rw [if_neg hne0, hsat, powi_of_pos (by omega), eulerPower_saturates hF (by omega) (by omega),
        Option.bind_some, if_pos (le_refl _)]
      exact Or.inr ⟨rfl, hlarge hge⟩
  · rename_i hbig
    refine Or.inr ⟨rfl, hlarge ?_⟩
    have hDle : (F.div : Int) ≤ 10 ^ 18 := by exact_mod_cast hF.div_le
    by_contra hlt
    have hprod : (m : Int) * F.div ≤ 47 * 10 ^ 18 := Int.mul_le_mul (by omega) hDle hD.le (by norm_num)
    omega

end Above

section Below

variable {m : Nat}

theorem FixedRepr.Decimal.decimals_le (hF : F.Decimal) : F.decimals ≤ 18 := by
  have hle := hF.div_le
  rw [hF.decimals_eq] at hle
  exact (Nat.pow_le_pow_iff_right (by norm_num)).mp hle

theorem FixedRepr.Decimal.minInner_le (hF : F.Decimal) (hz : z.inner < 0) {n : Int} (hn : n ≤ 10 ^ 9) :
    F.minInner ≤ -(n * F.div) := by
  have hmin := z.min_le
  rcases hF.signed with h | h
  · omega
  · have hD : (10 ^ 9 : Int) ≤ F.div := by exact_mod_cast hF.le_div
    have hle : n * F.div ≤ F.div * F.div := Int.mul_le_mul_of_nonneg_right (hn.trans hD) F.div_pos'.le
    omega

theorem saturatingFromInteger_neg (hF : F.Decimal) (hz : z.inner < 0) (hm : m ≤ 10 ^ 9) :
    (saturatingFromInteger (-m) : FixedNumber F).inner = -(m * F.div) := by
  have hmin := hF.minInner_le hz (n := m) (by exact_mod_cast hm)
  have hmax := F.one_le_max
  have hpos : (0 : Int) ≤ m * F.div := by positivity
  rw [saturatingFromInteger, Int.neg_mul, clamp_of_mem hmin (by omega)]

theorem seriesArg_of_neg (hF : F.Decimal) (hz : z.inner < 0) (hm : (m : Int) * F.div ≤ -z.inner)
    (hm' : -z.inner < (m : Int) * F.div + F.div) (hle : m ≤ 10 ^ 9) :
    SeriesArg (z.saturatingSub (saturatingFromInteger (-m))) ∧
      (z.saturatingSub (saturatingFromInteger (-m))).inner ≤ 0 ∧
        (z.saturatingSub (saturatingFromInteger (-m))).toReal = z.toReal + m := by
  have hD := F.div_pos'
  have hmin := hF.minInner_le hz (n := 1) (by norm_num)
  have hmax := F.one_le_max
  have hwhole := saturatingFromInteger_neg hF hz hle
  have hinner : (z.saturatingSub (saturatingFromInteger (-m))).inner = z.inner + m * F.div := by
    rw [saturatingSub_inner, hwhole, clamp_of_mem] <;> omega
  refine ⟨⟨hF, ?_⟩, by omega, ?_⟩
  · rw [hinner, abs_of_nonpos (by omega)]
    omega
  · have hne := F.div_pos_real.ne'
    rw [toReal, hinner, toReal]
    push_cast
    field_simp

/-- A relative error of the power becomes an absolute one of its inverse. -/
theorem one_div_le_exp_neg {m u P : ℝ} (hu : 0 ≤ u) (hmu : 2 * m * u ≤ 1 / 2)
    (h : Real.exp m * (1 - 2 * m * u) ≤ P) : 1 / P ≤ Real.exp (-m) + 4 * u := by
  have hexp := Real.exp_pos m
  have hP : 0 < P := lt_of_lt_of_le (mul_pos hexp (by linarith)) h
  have hmexp : m ≤ Real.exp m := (by linarith : m ≤ m + 1).trans (Real.add_one_le_exp m)
  have hum : u * m ≤ u * Real.exp m := mul_le_mul_of_nonneg_left hmexp hu
  have hsq : 4 * (u * Real.exp m) * (2 * m * u) ≤ 4 * (u * Real.exp m) * (1 / 2) :=
    mul_le_mul_of_nonneg_left hmu (by positivity)
  have hexpand : (Real.exp (-m) + 4 * u) * (Real.exp m * (1 - 2 * m * u)) =
      1 + 4 * (u * Real.exp m) - 2 * (u * m) - 4 * (u * Real.exp m) * (2 * m * u) := by
    have hinv : Real.exp (-m) * Real.exp m = 1 := by rw [← Real.exp_add, neg_add_cancel, Real.exp_zero]
    calc _ = Real.exp (-m) * Real.exp m * (1 - 2 * m * u) + 4 * u * (Real.exp m * (1 - 2 * m * u)) := by ring
      _ = _ := by rw [hinv]; ring
  rw [div_le_iff₀ hP]
  calc (1 : ℝ) ≤ (Real.exp (-m) + 4 * u) * (Real.exp m * (1 - 2 * m * u)) := by rw [hexpand]; linarith
    _ ≤ (Real.exp (-m) + 4 * u) * P := mul_le_mul_of_nonneg_left h (by positivity)

theorem eulerInverse (hF : F.Decimal) (hm : m ≤ 10 ^ 3) :
    ∃ q, (one : FixedNumber F).checkedDiv (fixedPowiPositive eulerNumber m) = some q ∧ 0 ≤ q.toReal ∧
      q.toReal ≤ 1 ∧ |q.toReal - Real.exp (-m)| ≤ 4 * F.unit := by
  have hu0 := F.unit_pos
  have hu := hF.unit_le
  obtain ⟨hP1, hPle, -⟩ := eulerPower hF (n := m) (by omega)
  obtain ⟨q, hq, hq0, hqle, hqge⟩ := checkedDiv_one_real hP1
  have hP0 : 0 < (fixedPowiPositive (eulerNumber : FixedNumber F) m).toReal := by linarith
  have hlow : Real.exp (-m) ≤ 1 / (fixedPowiPositive (eulerNumber : FixedNumber F) m).toReal := by
    rw [Real.exp_neg, ← one_div]
    exact one_div_le_one_div_of_le hP0 hPle
  have hup : 1 / (fixedPowiPositive (eulerNumber : FixedNumber F) m).toReal ≤ Real.exp (-m) + 4 * F.unit := by
    by_cases hmax : fixedPowiPositive (eulerNumber : FixedNumber F) m = maxValue
    · -- A saturated power leaves at most one unit of its inverse.
      have hlarge : (F.div : ℝ) ≤ (maxValue : FixedNumber F).toReal := by
        rw [toReal, le_div_iff₀ F.div_pos_real]
        exact_mod_cast hF.sq_le_max
      have hsmall : 1 / (maxValue : FixedNumber F).toReal ≤ F.unit :=
        one_div_le_one_div_of_le F.div_pos_real hlarge
      rw [hmax]
      linarith [Real.exp_pos (-(m : ℝ))]
    · have hmr : (m : ℝ) ≤ 10 ^ 3 := by exact_mod_cast hm
      have hmu : 2 * m * F.unit ≤ 2 * 10 ^ 3 * (1 / 10 ^ 9) :=
        mul_le_mul (by linarith) hu hu0.le (by norm_num)
      exact one_div_le_exp_neg hu0.le (hmu.trans (by norm_num))
        (le_eulerPower hF (by omega) hmax)
  refine ⟨q, hq, hq0, hqle.trans ((div_le_one hP0).mpr hP1), ?_⟩
  exact abs_le.mpr ⟨by linarith, by linarith⟩

theorem powi_of_neg (hF : F.Decimal) (hm : 0 < m) :
    fixedPowi (eulerNumber : FixedNumber F) (-m) = (one : FixedNumber F).checkedDiv (fixedPowiPositive eulerNumber m) := by
  have hne : (eulerNumber : FixedNumber F) ≠ zero := by
    intro h
    have hone := one_le_eulerNumber hF
    rw [h, toReal_zero] at hone
    norm_num at hone
  rw [fixedPowi, if_neg (by omega), if_pos (by omega), if_neg hne, Int.natAbs_neg, Int.natAbs_natCast]

theorem exp_le_unit (hF : F.Decimal) {t : ℝ} (ht : t ≤ -(F.decimals * 10 : ℝ)) : Real.exp t ≤ F.unit := by
  have hten : (10 : ℝ) ≤ Real.exp 10 := (by norm_num : (10 : ℝ) ≤ 10 + 1).trans (Real.add_one_le_exp 10)
  have hdiv : (F.div : ℝ) = 10 ^ F.decimals := by exact_mod_cast hF.decimals_eq
  have hpow : (F.div : ℝ) ≤ Real.exp (F.decimals * 10) := by
    rw [hdiv, Real.exp_nat_mul]
    exact pow_le_pow_left₀ (by norm_num) hten _
  calc Real.exp t ≤ Real.exp (-(F.decimals * 10)) := Real.exp_le_exp.mpr ht
    _ = 1 / Real.exp (F.decimals * 10) := by rw [Real.exp_neg, one_div]
    _ ≤ F.unit := one_div_le_one_div_of_le F.div_pos_real hpow

/-- The result of the exponential function for an argument that is not positive. -/
def ExpBelow (z : FixedNumber F) (result : Option (FixedNumber F)) : Prop :=
  ∃ w, result = some w ∧ 0 ≤ w.toReal ∧ w.toReal ≤ 1 ∧ |w.toReal - Real.exp z.toReal| ≤ 60 * F.unit

theorem wholePart_of_neg (hz : z.inner < 0) :
    ∃ m : Nat, z.inner.tdiv F.div = -m ∧ (m : Int) * F.div ≤ -z.inner ∧ -z.inner < (m : Int) * F.div + F.div := by
  have hD := F.div_pos'
  have hnegz : 0 ≤ -z.inner := by omega
  have hmod := Int.ediv_mul_add_emod (-z.inner) F.div
  have hlow := Int.emod_nonneg (-z.inner) hD.ne'
  have hup := Int.emod_lt_of_pos (-z.inner) hD
  obtain ⟨m, hm⟩ := Int.eq_ofNat_of_zero_le (Int.ediv_nonneg hnegz hD.le)
  refine ⟨m, ?_, ?_, ?_⟩
  · rw [← hm, ← Int.tdiv_eq_ediv_of_nonneg hnegz, Int.neg_tdiv, Int.neg_neg]
  all_goals
    rw [hm] at hmod
    omega

/-- The result for an argument below the threshold. -/
theorem expBelow_zero (hF : F.Decimal) (h : z.toReal ≤ -(F.decimals * 10 : ℝ)) : ExpBelow z (some zero) := by
  have hu0 := F.unit_pos
  have hsmall := exp_le_unit hF h
  refine ⟨zero, rfl, ?_⟩
  rw [toReal_zero, zero_sub, abs_neg, abs_of_pos (Real.exp_pos _)]
  exact ⟨le_refl _, zero_le_one, by linarith⟩

/-- The errors of both factors count once, as no factor exceeds one. -/
theorem abs_mul_sub_mul_le {s q e f a b : ℝ} (hq : 0 ≤ q) (hq' : q ≤ 1) (he : 0 ≤ e) (he' : e ≤ 1)
    (hs : |s - e| ≤ a) (hf : |q - f| ≤ b) : |s * q - e * f| ≤ a + b := by
  have hsplit : s * q - e * f = (s - e) * q + e * (q - f) := by ring
  have h1 : |s - e| * q ≤ a * 1 := mul_le_mul hs hq' hq ((abs_nonneg _).trans hs)
  have h2 : e * |q - f| ≤ 1 * b := mul_le_mul he' hf (abs_nonneg _) zero_le_one
  rw [hsplit]
  refine (abs_add_le _ _).trans ?_
  rw [abs_mul, abs_mul, abs_of_nonneg hq, abs_of_nonneg he]
  linarith

theorem expBelow_mul {r q : FixedNumber F} (harg : SeriesArg r) (hr : r.inner ≤ 0)
    (hreal : r.toReal = z.toReal + m) (hq0 : 0 ≤ q.toReal) (hq1 : q.toReal ≤ 1)
    (hqnear : |q.toReal - Real.exp (-m)| ≤ 4 * F.unit) : ExpBelow z ((taylorExp r).checkedMul q) := by
  have hu0 := F.unit_pos
  obtain ⟨hsum0, hsum1⟩ := harg.taylorExp_of_nonpos hr
  obtain ⟨w, hw, hw0, hw1, hwnear⟩ := checkedMul_of_le_one hsum0 hsum1 hq0 hq1
  have hr1 : Real.exp r.toReal ≤ 1 := by
    rw [Real.exp_le_one_iff, ← toReal_zero (F := F), toReal_le_toReal]
    exact hr
  have hprod : Real.exp z.toReal = Real.exp r.toReal * Real.exp (-m) := by
    rw [← Real.exp_add, hreal, add_neg_cancel_right]
  have herr := abs_mul_sub_mul_le hq0 hq1 (Real.exp_pos r.toReal).le hr1 harg.taylorExp_near hqnear
  have htri := abs_sub_le w.toReal ((taylorExp r).toReal * q.toReal) (Real.exp r.toReal * Real.exp (-m))
  refine ⟨w, hw, hw0, hw1, ?_⟩
  rw [hprod]
  linarith

/-- Up to zero the function always has a result, within some units. -/
theorem fixedExp_of_nonpos (hF : F.Decimal) (hz : z.inner ≤ 0) : ExpBelow z (fixedExp z) := by
  have hD := F.div_pos'
  have hu0 := F.unit_pos
  unfold fixedExp
  split
  · rename_i h
    refine ⟨one, rfl, ?_⟩
    rw [h, toReal_one, toReal_zero, Real.exp_zero, sub_self, abs_zero]
    exact ⟨zero_le_one, le_refl _, by linarith⟩
  rename_i hne
  have hneg : z.inner < 0 := lt_of_le_of_ne hz fun h => hne (FixedNumber.ext h)
  have hdec := hF.decimals_le
  have hthr : (saturatingFromInteger (-(F.decimals * 10)) : FixedNumber F).inner = -((F.decimals * 10 : Nat) * F.div) := by
    have hneg' := saturatingFromInteger_neg (m := F.decimals * 10) hF hneg (by omega)
    push_cast at hneg' ⊢
    exact hneg'
  rw [hthr]
  split
  · rename_i hlow
    refine expBelow_zero hF ?_
    rw [toReal, div_le_iff₀ F.div_pos_real]
    have hlow' : (z.inner : ℝ) ≤ -(((F.decimals * 10 : Nat) : ℝ) * F.div) := by exact_mod_cast hlow.le
    push_cast at hlow'
    linarith
  rename_i hhigh
  obtain ⟨m, htdiv, hm, hm'⟩ := wholePart_of_neg hneg
  have hm180 : m ≤ 180 := by
    by_contra hgt
    have hmul : (F.decimals * 10 + 1 : Int) * F.div ≤ m * F.div :=
      Int.mul_le_mul_of_nonneg_right (by omega) hD.le
    rw [Int.add_mul] at hmul
    push_cast at hhigh
    omega
  obtain ⟨harg, hr, hreal⟩ := seriesArg_of_neg hF hneg hm hm' (by omega)
  have hfits : innerI128? z = some z.inner := if_pos (by omega)
  have hclamp : clampI32 (-m : Int) = -m := abs_clampI32_of_lt (by rw [abs_neg, Nat.abs_cast]; omega)
  rw [hfits, Option.bind_some]
  dsimp only
  rw [htdiv, hclamp]
  split
  · rename_i hzero
    obtain rfl : m = 0 := by omega
    obtain ⟨hsum0, hsum1⟩ := harg.taylorExp_of_nonpos hr
    have hsame : (z.saturatingSub (saturatingFromInteger (-(0 : Nat)))).toReal = z.toReal := by simpa using hreal
    have hnear := harg.taylorExp_near
    rw [hsame] at hnear
    exact ⟨_, rfl, hsum0, hsum1, hnear.trans (by linarith)⟩
  · obtain ⟨q, hq, hq0, hq1, hqnear⟩ := eulerInverse hF (m := m) (by omega)
    have hqmax : ¬(maxValue : FixedNumber F).inner ≤ q.inner := by
      have hqle := toReal_le_one.mp hq1
      have htwo := F.two_div_le
      rw [maxValue_inner]
      omega
    rw [powi_of_neg hF (by omega), hq, Option.bind_some, if_neg hqmax]
    exact expBelow_mul harg hr hreal hq0 hq1 hqnear

end Below

end FrameSuite
