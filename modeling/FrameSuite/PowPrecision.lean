import FrameSuite.LogPrecision
import FrameSuite.PowDomain

/-! How exact the exponential function and the powers of fixed-point numbers are. A power with a whole exponent
loses a unit for each factor; any other one carries the error of the logarithm into its exponent. -/

namespace FrameSuite

open FixedNumber

variable {F : FixedRepr}

section Exponential

variable {z w : FixedNumber F}

theorem fixedExp_near (hF : F.Decimal) (h : fixedExp z = some w) :
    |w.toReal - Real.exp z.toReal| ≤ 150 * F.unit * max 1 (Real.exp z.toReal) := by
  have hu := F.unit_pos
  have hle := mul_le_mul_of_nonneg_left (le_max_left 1 (Real.exp z.toReal)) (by positivity : 0 ≤ 150 * F.unit)
  have hge := mul_le_mul_of_nonneg_left (le_max_right 1 (Real.exp z.toReal)) (by positivity : 0 ≤ 150 * F.unit)
  rcases le_total 0 z.inner with hz | hz
  · rcases fixedExp_of_nonneg hF hz with ⟨r, hr, -, hup, hlow⟩ | ⟨hnone, -⟩
    · obtain rfl := Option.some.inj (hr.symm.trans h)
      exact abs_le.mpr ⟨by linarith, by linarith⟩
    · rw [hnone] at h
      cases h
  · obtain ⟨r, hr, -, -, hnear⟩ := fixedExp_of_nonpos hF hz
    obtain rfl := Option.some.inj (hr.symm.trans h)
    linarith

theorem fixedExp_none (hF : F.Decimal) (h : fixedExp z = none) :
    (maxValue : FixedNumber F).toReal ≤ Real.exp z.toReal := by
  rcases le_total 0 z.inner with hz | hz
  · rcases fixedExp_of_nonneg hF hz with ⟨r, hr, -⟩ | ⟨-, hmax⟩
    · rw [hr] at h
      cases h
    · exact hmax
  · obtain ⟨r, hr, -⟩ := fixedExp_of_nonpos hF hz
    rw [hr] at h
    cases h

end Exponential

/-- In each of the four formats the exponential function gives up only where the exact value reaches the largest
number, and is otherwise within 150 units in the last place, relative to the value above one. -/
theorem fixedExp_accurate (k : FixedKind) (z : FixedNumber k.repr) :
    (fixedExp z = none → (maxValue : FixedNumber k.repr).toReal ≤ Real.exp z.toReal) ∧
      ∀ w, fixedExp z = some w →
        |w.toReal - Real.exp z.toReal| ≤ 150 * k.repr.unit * max 1 (Real.exp z.toReal) :=
  ⟨fixedExp_none k.decimal, fun _ => fixedExp_near k.decimal⟩

section WholePower

variable {x y result base : FixedNumber F} {bits n a c : Nat} {M R B α β : ℝ}

/-- A format without a sign, or with as many values below zero as above. -/
def EvenRange (F : FixedRepr) : Prop := F.minInner = 0 ∨ F.minInner ≤ -F.maxInner

theorem FixedKind.evenRange (k : FixedKind) : EvenRange k.repr := by
  cases k
  · exact .inl rfl
  · exact .inl rfl
  · exact .inr (by decide)
  · exact .inr (by decide)

theorem tdiv_product_nonneg (h : F.minInner = 0) (x y : FixedNumber F) : 0 ≤ (x.inner * y.inner).tdiv F.div := by
  have hx := x.min_le
  have hy := y.min_le
  rw [h] at hx hy
  exact Int.tdiv_nonneg (Int.mul_nonneg hx hy) F.div_pos'.le

theorem saturatingMul_near (hB : EvenRange F) (h : |x.toReal * y.toReal| ≤ (maxValue : FixedNumber F).toReal) :
    |(x.saturatingMul y).toReal - x.toReal * y.toReal| ≤ F.unit := by
  have hD := F.div_pos_real
  have hcut := tdiv_toward (x.inner * y.inner) F.div_pos'
  have hnear := abs_tdiv_sub_le (x.inner * y.inner) F.div_pos'
  rw [product_real] at hcut hnear
  have habs : |(x.inner * y.inner).tdiv F.div| ≤ F.maxInner := by
    have hle := hcut.abs_le
    rw [abs_mul, abs_of_pos hD] at hle
    have hmax : (F.div : ℝ) * (maxValue : FixedNumber F).toReal = F.maxInner := (inner_eq _).symm
    have hreal : |(((x.inner * y.inner).tdiv F.div : Int) : ℝ)| ≤ F.maxInner :=
      hle.trans (hmax ▸ mul_le_mul_of_nonneg_left h hD.le)
    exact_mod_cast hreal
  have hmin : F.minInner ≤ (x.inner * y.inner).tdiv F.div := by
    rcases hB with h0 | h0
    · exact h0 ▸ tdiv_product_nonneg h0 x y
    · exact h0.trans (neg_le_of_abs_le habs)
  have hinner : (x.saturatingMul y).inner = (x.inner * y.inner).tdiv F.div := clamp_of_mem hmin (le_of_abs_le habs)
  refine toReal_near ?_
  rw [hinner]
  exact hnear

/-- The errors of two factors, each relative to a bound of its factor, add up in the product. -/
theorem product_near (hB : EvenRange F) (hM : 1 ≤ M) (hr : |result.toReal| ≤ M ^ a)
    (hrn : |result.toReal - R| ≤ α * F.unit * M ^ a) (hb : |base.toReal| ≤ M ^ c)
    (hbn : |base.toReal - B| ≤ β * F.unit * M ^ c) (hBM : |B| ≤ M ^ c)
    (hmax : M ^ (a + c) ≤ (maxValue : FixedNumber F).toReal) :
    |(result.saturatingMul base).toReal| ≤ M ^ (a + c) ∧
      |(result.saturatingMul base).toReal - R * B| ≤ (α + β + 1) * F.unit * M ^ (a + c) := by
  have hu := F.unit_pos
  have hpow : (1 : ℝ) ≤ M ^ (a + c) := one_le_pow₀ hM
  have habs : |result.toReal * base.toReal| ≤ M ^ (a + c) := by
    rw [abs_mul, pow_add]
    exact mul_le_mul hr hb (abs_nonneg _) ((abs_nonneg _).trans hr)
  have hcut := saturatingMul_near hB (habs.trans hmax)
  have hsplit : result.toReal * base.toReal - R * B =
      result.toReal * (base.toReal - B) + (result.toReal - R) * B := by ring
  have hfirst : |result.toReal * (base.toReal - B)| ≤ M ^ a * (β * F.unit * M ^ c) := by
    rw [abs_mul]
    exact mul_le_mul hr hbn (abs_nonneg _) ((abs_nonneg _).trans hr)
  have hsecond : |(result.toReal - R) * B| ≤ α * F.unit * M ^ a * M ^ c := by
    rw [abs_mul]
    exact mul_le_mul hrn hBM (abs_nonneg _) ((abs_nonneg _).trans hrn)
  have hprod : |result.toReal * base.toReal - R * B| ≤ (α + β) * F.unit * M ^ (a + c) := by
    rw [hsplit, pow_add]
    exact ((abs_add_le _ _).trans (add_le_add hfirst hsecond)).trans (le_of_eq (by ring))
  have hunit : F.unit ≤ F.unit * M ^ (a + c) := le_mul_of_one_le_right hu.le hpow
  refine ⟨(saturatingMul_toward _ _).abs_le.trans habs, ?_⟩
  have htri := abs_sub_le (result.saturatingMul base).toReal (result.toReal * base.toReal) (R * B)
  linarith

/-- The loss of a factor counts as often as its power is taken. -/
theorem powiLoop_near (hB : EvenRange F) (hM : 1 ≤ M) (hr : |result.toReal| ≤ M ^ a)
    (hrn : |result.toReal - R| ≤ α * F.unit * M ^ a) (hb : |base.toReal| ≤ M ^ c)
    (hbn : |base.toReal - B| ≤ β * F.unit * M ^ c) (hBM : |B| ≤ M ^ c) (hn : n < 2 ^ bits)
    (hmax : M ^ (a + c * n) ≤ (maxValue : FixedNumber F).toReal) :
    |(powiLoop bits result base n).toReal - R * B ^ n| ≤ (α + n * (β + 1)) * F.unit * M ^ (a + c * n) := by
  induction bits generalizing n result base a c R B α β with
  | zero =>
    obtain rfl : n = 0 := by omega
    rw [powiLoop_zero_exponent]
    simpa using hrn
  | succ bits ih =>
    rcases Nat.eq_zero_or_pos n with rfl | hpos
    · rw [powiLoop_zero_exponent]
      simpa using hrn
    rw [powiLoop_succ hpos.ne']
    have hmaxle (m : Nat) (hm : m ≤ a + c * n) : M ^ m ≤ (maxValue : FixedNumber F).toReal :=
      (pow_le_pow_right₀ hM hm).trans hmax
    have hstep : |(if n % 2 = 1 then result.saturatingMul base else result).toReal| ≤ M ^ (a + c * (n % 2)) ∧
        |(if n % 2 = 1 then result.saturatingMul base else result).toReal - R * B ^ (n % 2)| ≤
          (α + (n % 2 : Nat) * (β + 1)) * F.unit * M ^ (a + c * (n % 2)) := by
      rcases Nat.mod_two_eq_zero_or_one n with h | h
      · rw [h, if_neg (by decide)]
        simpa using ⟨hr, hrn⟩
      · have hc : a + c ≤ a + c * n := Nat.add_le_add_left (Nat.le_mul_of_pos_right c hpos) a
        obtain ⟨hle, hnear⟩ := product_near hB hM hr hrn hb hbn hBM (hmaxle _ hc)
        rw [h, if_pos rfl, Nat.mul_one, pow_one, Nat.cast_one, one_mul, ← add_assoc]
        exact ⟨hle, hnear⟩
    obtain ⟨hr', hrn'⟩ := hstep
    rcases Nat.eq_zero_or_pos (n / 2) with hz | hhalf
    · have hmod : n % 2 = n := by omega
      rw [hz, powiLoop_zero_exponent]
      rw [hmod] at hrn' ⊢
      exact hrn'
    · have hsq : c + c ≤ a + c * n := by
        have hmul : c * 2 ≤ c * n := Nat.mul_le_mul_left c (by omega)
        omega
      obtain ⟨hb', hbn'⟩ := product_near hB hM hb hbn hb hbn hBM (hmaxle _ hsq)
      have hBM' : |B * B| ≤ M ^ (c + c) := by
        rw [abs_mul, pow_add]
        exact mul_le_mul hBM hBM (abs_nonneg _) ((abs_nonneg _).trans hBM)
      have hexp : a + c * (n % 2) + (c + c) * (n / 2) = a + c * n := by
        have hsplit := Nat.mod_add_div n 2
        calc a + c * (n % 2) + (c + c) * (n / 2) = a + c * (n % 2 + 2 * (n / 2)) := by ring
          _ = a + c * n := by rw [hsplit]
      have hrest := ih hr' hrn' hb' hbn' hBM' (by omega : n / 2 < 2 ^ bits) (by rw [hexp]; exact hmax)
      have hcast : ((n % 2 : Nat) : ℝ) + 2 * ((n / 2 : Nat) : ℝ) = n := by exact_mod_cast Nat.mod_add_div n 2
      have hexact : R * B ^ (n % 2) * (B * B) ^ (n / 2) = R * B ^ n := by
        rw [← sq, mul_assoc, pow_mod_mul_pow_div]
      have hloss : α + (n % 2 : Nat) * (β + 1) + (n / 2 : Nat) * (β + β + 1 + 1) = α + n * (β + 1) := by
        rw [← hcast]
        ring
      rw [if_pos hhalf]
      rw [hexact, hexp, hloss] at hrest
      exact hrest

theorem fixedPowiPositive_near (hB : EvenRange F) (hn : n < 2 ^ 128)
    (hfits : |x.toReal| ^ n ≤ (maxValue : FixedNumber F).toReal) :
    |(fixedPowiPositive x n).toReal - x.toReal ^ n| ≤ n * F.unit * max 1 |x.toReal| ^ n := by
  have hmax : max 1 |x.toReal| ^ (0 + 1 * n) ≤ (maxValue : FixedNumber F).toReal := by
    rw [Nat.one_mul, Nat.zero_add]
    rcases le_total 1 |x.toReal| with h | h
    · rw [max_eq_right h]
      exact hfits
    · rw [max_eq_left h, one_pow]
      exact one_le_max_real
  have hpow : |x.toReal| ≤ max 1 |x.toReal| ^ 1 := by
    rw [pow_one]
    exact le_max_right _ _
  have hone : |(one : FixedNumber F).toReal - 1| ≤ 0 * F.unit * max 1 |x.toReal| ^ 0 := by simp
  have hself : |x.toReal - x.toReal| ≤ 0 * F.unit * max 1 |x.toReal| ^ 1 := by simp
  have hnear := powiLoop_near hB (le_max_left 1 |x.toReal|) (by simp) hone hpow hself hpow hn hmax
  simpa [fixedPowiPositive] using hnear

end WholePower

/-- In each of the four formats a power with a whole exponent loses at most a unit for each factor, relative to the
power from one on, as long as the power fits. -/
theorem fixedPowi_accurate (k : FixedKind) (x : FixedNumber k.repr) (n : Nat) (hn : n < 2 ^ 127)
    (hfits : |x.toReal| ^ n ≤ (maxValue : FixedNumber k.repr).toReal) :
    ∃ w, fixedPowi x n = some w ∧ |w.toReal - x.toReal ^ n| ≤ n * k.repr.unit * max 1 |x.toReal| ^ n := by
  have hnear := fixedPowiPositive_near k.evenRange (hn.trans (by norm_num)) hfits
  refine ⟨fixedPowiPositive x n, ?_, hnear⟩
  rcases Nat.eq_zero_or_pos n with rfl | hpos
  · rw [fixedPowi, if_pos Nat.cast_zero, fixedPowiPositive, powiLoop_zero_exponent]
  · rw [fixedPowi, if_neg (by omega), if_neg (by omega), Int.toNat_natCast]

/-- The third power of one half. -/
theorem fixedPowi_accurate_half : ∃ w, fixedPowi halfI64 3 = some w ∧
    |w.toReal - halfI64.toReal ^ 3| ≤ 3 * FixedKind.fixedI64.repr.unit * max 1 |halfI64.toReal| ^ 3 := by
  have habs : |halfI64.toReal| ≤ 1 := by
    rw [abs_of_nonneg (toReal_nonneg.mpr (by decide))]
    exact toReal_le_one.mpr (by decide)
  have hfits : |halfI64.toReal| ^ 3 ≤ (maxValue : FixedI64).toReal :=
    (pow_le_one₀ (abs_nonneg _) habs).trans one_le_max_real
  exact_mod_cast fixedPowi_accurate .fixedI64 halfI64 3 (by norm_num) hfits

section FractionalPower

variable {x y p w : FixedNumber F}

/-- How far the exponent of the exponential function is from the exact one. -/
noncomputable def powError (x p : FixedNumber F) : ℝ :=
  |p.toReal| * (110 * (1 + 6 * |Real.log x.toReal|) * rootError x) + F.unit

theorem powError_nonneg (hF : F.Decimal) (hx : 0 < x.inner) : 0 ≤ powError x p := by
  have hu := F.unit_pos
  have herr := (rootError_bounds hF hx).1
  have hroot : 0 ≤ rootError x := hu.le.trans herr
  unfold powError
  positivity

/-- A product is cut off once, or is beyond the range. -/
theorem saturatingMul_cases (x y : FixedNumber F) :
    |(x.saturatingMul y).toReal - x.toReal * y.toReal| ≤ F.unit ∨
      (x.saturatingMul y = maxValue ∧ 0 ≤ x.toReal * y.toReal) ∨
        ((x.saturatingMul y).inner = F.minInner ∧ F.minInner < 0) := by
  have hnear := abs_tdiv_sub_le (x.inner * y.inner) F.div_pos'
  have hcut := tdiv_toward (x.inner * y.inner) F.div_pos'
  rw [product_real] at hnear hcut
  have hinner := saturatingMul_inner x y
  rcases lt_or_ge ((x.inner * y.inner).tdiv F.div) F.minInner with hlow | hlow
  · refine .inr (.inr ⟨?_, ?_⟩)
    · rw [hinner, clamp_inner]
      exact max_eq_left ((min_le_left _ _).trans hlow.le)
    · by_contra hmin
      have hzero : F.minInner = 0 := le_antisymm F.min_nonpos (not_lt.mp hmin)
      have hnonneg := tdiv_product_nonneg hzero x y
      omega
  rcases lt_or_ge F.maxInner ((x.inner * y.inner).tdiv F.div) with hhigh | hhigh
  · refine .inr (.inl ⟨FixedNumber.ext ?_, ?_⟩)
    · rw [hinner, clamp_inner, maxValue_inner, min_eq_right hhigh.le]
      exact max_eq_right (F.min_nonpos.trans (zero_le_one.trans F.one_le_max))
    · by_contra hneg
      have hle := (hcut.of_nonpos (mul_nonpos_of_nonneg_of_nonpos F.div_pos_real.le (not_le.mp hneg).le)).2
      have hmax := F.one_le_max
      have hpos : (0 : ℝ) < (((x.inner * y.inner).tdiv F.div : Int) : ℝ) := by
        exact_mod_cast (by omega : 0 < (x.inner * y.inner).tdiv F.div)
      linarith
  · left
    refine toReal_near ?_
    rw [hinner, clamp_of_mem hlow hhigh]
    exact hnear

theorem exp_min_le (hF : F.Decimal) {z : FixedNumber F} (hz : z.inner = F.minInner) (hmin : F.minInner < 0) :
    Real.exp z.toReal ≤ F.unit := by
  have hdec : (F.decimals : ℝ) ≤ 18 := by exact_mod_cast hF.decimals_le
  have hD : ((10 : ℝ) ^ 9) ≤ F.div := by exact_mod_cast hF.le_div
  have hlow : F.minInner ≤ -(F.div * F.div : Int) := hF.signed.resolve_left hmin.ne
  refine exp_le_unit hF ?_
  have hreal : (z.inner : ℝ) ≤ -(F.div * F.div) := by exact_mod_cast hz.trans_le hlow
  rw [toReal, div_le_iff₀ F.div_pos_real]
  nlinarith [F.div_pos_real]

theorem fortyEight_le_max (hF : F.Decimal) : (48 : ℝ) ≤ (maxValue : FixedNumber F).toReal := by
  have hle := hF.mul_le_max (n := 48) (by norm_num)
  rw [toReal, le_div_iff₀ F.div_pos_real]
  exact_mod_cast hle

/-- Beyond the largest number the exponential function has no result. -/
theorem fixedExp_max (hF : F.Decimal) (h : fixedExp (maxValue : FixedNumber F) = some w) : False := by
  have hu := hF.unit_le
  have hmax := fortyEight_le_max hF
  obtain ⟨hrange, hexp⟩ := max_lt_exp hF hmax
  have hw := toReal_le_max w
  rcases fixedExp_of_nonneg hF (z := maxValue) (by rw [maxValue_inner]; linarith [F.one_le_max]) with
    ⟨r, hr, -, -, hlow⟩ | ⟨hnone, -⟩
  · obtain rfl := Option.some.inj (hr.symm.trans h)
    nlinarith
  · rw [hnone] at h
    cases h

theorem powExpLn_near (hF : F.Decimal) (hS : SqrtBounds F) (hx : 0 < x.inner) (h : powExpLn x p = some w) :
    x.toReal ^ p.toReal * Real.exp (-powError x p) * (1 - 150 * F.unit) - 60 * F.unit ≤ w.toReal ∧
      w.toReal ≤ x.toReal ^ p.toReal * Real.exp (powError x p) + 61 * F.unit := by
  have hu := F.unit_pos
  have hu' := hF.unit_le
  obtain ⟨l, hl, hexp⟩ := Option.bind_eq_some_iff.mp h
  obtain ⟨l', hl', hnear⟩ := fixedLn_near hF hS hx (not_isUnsigned_of_fixedLn hl)
  obtain rfl := Option.some.inj (hl'.symm.trans hl)
  have hpow : x.toReal ^ p.toReal = Real.exp (p.toReal * Real.log x.toReal) := by
    rw [Real.rpow_def_of_pos (toReal_pos hx), mul_comm]
  have hexact : |p.toReal * l'.toReal - p.toReal * Real.log x.toReal| ≤ powError x p - F.unit := by
    rw [← mul_sub, abs_mul, powError, add_sub_cancel_right]
    exact mul_le_mul_of_nonneg_left hnear (abs_nonneg _)
  obtain ⟨hexact1, hexact2⟩ := abs_le.mp hexact
  have hcut := saturatingMul_toward p l'
  have hcases := saturatingMul_cases p l'
  rw [hpow, ← Real.exp_add, ← Real.exp_add]
  generalize p.saturatingMul l' = z at hexp hcut hcases
  rcases le_or_gt 0 z.inner with hz | hz
  · rcases fixedExp_of_nonneg hF hz with ⟨r, hr, -, hup, hlow⟩ | ⟨hnone, -⟩
    · obtain rfl := Option.some.inj (hr.symm.trans hexp)
      rcases hcases with hcut1 | ⟨rfl, -⟩ | ⟨hmin, hneg⟩
      · obtain ⟨hcut1, hcut2⟩ := abs_le.mp hcut1
        have hbelow := Real.exp_le_exp.mpr (by linarith : p.toReal * Real.log x.toReal + -powError x p ≤ z.toReal)
        have habove := Real.exp_le_exp.mpr (by linarith : z.toReal ≤ p.toReal * Real.log x.toReal + powError x p)
        have hscaled := mul_le_mul_of_nonneg_right hbelow (by linarith : 0 ≤ 1 - 150 * F.unit)
        exact ⟨by linarith, by linarith⟩
      · exact (fixedExp_max hF hexp).elim
      · omega
    · rw [hnone] at hexp
      cases hexp
  · obtain ⟨r, hr, hr0, -, hrnear⟩ := fixedExp_of_nonpos hF hz.le
    obtain rfl := Option.some.inj (hr.symm.trans hexp)
    obtain ⟨hlow, hup⟩ := abs_le.mp hrnear
    have hz0 : z.toReal < 0 := by
      rw [← toReal_zero (F := F), toReal_lt_toReal]
      exact hz
    have hge : p.toReal * l'.toReal ≤ z.toReal := by
      rcases hcut with ⟨hpos, -⟩ | ⟨hle, -⟩
      · linarith
      · exact hle
    have hbelow := Real.exp_le_exp.mpr (by linarith : p.toReal * Real.log x.toReal + -powError x p ≤ z.toReal)
    have hpositive := Real.exp_pos (p.toReal * Real.log x.toReal + -powError x p)
    have hshrink := mul_le_of_le_one_right hpositive.le (by linarith : 1 - 150 * F.unit ≤ 1)
    refine ⟨by linarith, ?_⟩
    rcases hcases with hcut1 | ⟨rfl, -⟩ | ⟨hmin, hneg⟩
    · obtain ⟨hcut1, hcut2⟩ := abs_le.mp hcut1
      have habove := Real.exp_le_exp.mpr (by linarith : z.toReal ≤ p.toReal * Real.log x.toReal + powError x p)
      linarith
    · have hmax := F.one_le_max
      rw [maxValue_inner] at hz
      omega
    · have hsmall := exp_min_le hF hmin hneg
      have hpositive' := Real.exp_pos (p.toReal * Real.log x.toReal + powError x p)
      linarith

end FractionalPower

/-- In each of the four formats a power of a positive number with an exponent that is not whole is the exact one, up
to the error of the logarithm in its exponent and that of the exponential function. -/
theorem fixedPow_accurate (k : FixedKind) (x p w : FixedNumber k.repr) (hx : 0 < x.inner)
    (hp : fixedToI128? p = none) (h : fixedPow x p = some w) :
    x.toReal ^ p.toReal * Real.exp (-powError x p) * (1 - 150 * k.repr.unit) - 60 * k.repr.unit ≤ w.toReal ∧
      w.toReal ≤ x.toReal ^ p.toReal * Real.exp (powError x p) + 61 * k.repr.unit := by
  have hcase := fixedPow_case x p
  rw [h] at hcase
  generalize hr : some w = r at hcase
  cases hcase with
  | zeroBase h0 => cases hr
  | zero h0 => rw [h0] at hx; exact absurd hx (lt_irrefl _)
  | notReal h0 => omega
  | one h0 hone =>
    obtain rfl := Option.some.inj hr
    rcases hone with rfl | rfl
    · rw [fixedToI128?_eq_some.mpr ⟨by rw [zero_inner]; norm_num, by rw [zero_inner, zero_mul]⟩] at hp
      cases hp
    · have hu := k.repr.unit_pos
      have herr := powError_nonneg (p := p) k.decimal hx
      have hbelow := Real.exp_le_one_iff.mpr (neg_nonpos.mpr herr)
      have habove := Real.one_le_exp herr
      have hpositive := Real.exp_pos (-powError (FixedNumber.one : FixedNumber k.repr) p)
      have hshrink := mul_le_of_le_one_right hpositive.le (by linarith : 1 - 150 * k.repr.unit ≤ 1)
      rw [toReal_one, Real.one_rpow, one_mul, one_mul]
      exact ⟨by linarith, by linarith⟩
  | whole h0 hn => rw [hp] at hn; cases hn
  | fractional => exact powExpLn_near k.decimal k.sqrtBounds hx hr.symm

def rootTwoI64 : FixedI64 := ⟨1414213554, by decide, by decide⟩

/-- The square root of two as a power. -/
theorem fixedPow_accurate_two : ∃ w, fixedPow twoI64 halfI64 = some w ∧
    twoI64.toReal ^ halfI64.toReal * Real.exp (-powError twoI64 halfI64) * (1 - 150 * FixedKind.fixedI64.repr.unit) -
        60 * FixedKind.fixedI64.repr.unit ≤ w.toReal ∧
      w.toReal ≤ twoI64.toReal ^ halfI64.toReal * Real.exp (powError twoI64 halfI64) +
        61 * FixedKind.fixedI64.repr.unit := by
  have hpow : fixedPow twoI64 halfI64 = some rootTwoI64 := by decide +kernel
  exact ⟨_, hpow, fixedPow_accurate .fixedI64 twoI64 halfI64 _ (by decide) (by decide) hpow⟩

end FrameSuite
