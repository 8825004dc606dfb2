import FrameSuite.LogAccuracy
import Mathlib.Analysis.SpecialFunctions.Pow.Real

/-! The inputs for which the power of a fixed-point number has no result, compared with those where the exact power
is undefined or exceeds the type, and the side of one on which a result lies. -/

namespace FrameSuite

open FixedNumber

variable {F : FixedRepr}

section Magnitude

variable {bits n : Nat} {x y result base : FixedNumber F}

theorem min_le_product (hF : F.Decimal) (x y : FixedNumber F)
    (h : -(F.div : Int) ≤ (x.inner * y.inner).tdiv F.div) : F.minInner ≤ (x.inner * y.inner).tdiv F.div := by
  rcases hF.signed with hmin | hmin
  · rw [hmin]
    exact Int.tdiv_nonneg (Int.mul_nonneg (hmin ▸ x.min_le) (hmin ▸ y.min_le)) F.div_pos'.le
  · have hD := F.div_pos'
    have hsq : (F.div : Int) * 1 ≤ F.div * F.div := Int.mul_le_mul_of_nonneg_left (by omega) hD.le
    omega

theorem lt_abs_saturatingMul (hF : F.Decimal) (hx : |x.toReal| ≤ 1) (hy : |y.toReal| ≤ 1) :
    |x.toReal| * |y.toReal| - F.unit < |(x.saturatingMul y).toReal| := by
  have hD := F.div_pos_real
  have hcut := abs_div_lt_abs_tdiv_add_one (x.inner * y.inner) F.div_pos'
  have hle := abs_tdiv_le (x.inner * y.inner) F.div_pos'
  have hquot : |((x.inner * y.inner : Int) : ℝ)| / ((F.div : Int) : ℝ) = F.div * (|x.toReal| * |y.toReal|) := by
    have hprod := congrArg abs (product_real x y)
    rwa [abs_div, abs_mul (F.div : ℝ), abs_mul x.toReal, abs_of_pos (by exact_mod_cast hD : (0 : ℝ) < (F.div : Int)),
      abs_of_pos hD] at hprod
  rw [hquot] at hcut hle
  have hsmall : |(x.inner * y.inner).tdiv F.div| ≤ F.div := by
    have hreal := hle.trans (mul_le_of_le_one_right hD.le (mul_le_one₀ hx (abs_nonneg _) hy))
    exact_mod_cast hreal
  obtain ⟨hlow, hhigh⟩ := abs_le.mp hsmall
  have hinner : (x.saturatingMul y).inner = (x.inner * y.inner).tdiv F.div :=
    FixedNumber.clamp_of_mem (min_le_product hF x y hlow) (hhigh.trans F.div_le)
  have hvalue : |(x.saturatingMul y).toReal| = |(((x.inner * y.inner).tdiv F.div : Int) : ℝ)| / F.div := by
    rw [toReal, hinner, abs_div, abs_of_pos hD]
  rw [hvalue, lt_div_iff₀ hD, sub_mul, mul_comm F.unit, F.div_mul_unit]
  linarith

theorem abs_saturatingMul_le_one (hx : |x.toReal| ≤ 1) (hy : |y.toReal| ≤ 1) : |(x.saturatingMul y).toReal| ≤ 1 := by
  have hle := (saturatingMul_toward x y).abs_le
  rw [abs_mul] at hle
  exact hle.trans (mul_le_one₀ hx (abs_nonneg _) hy)

theorem pow_le_pow_add {a b u : ℝ} (ha : 0 ≤ a) (ha' : a ≤ 1) (hb : 0 ≤ b) (hb' : b ≤ 1) (h : |a - b| ≤ u) (n : Nat) :
    a ^ n ≤ b ^ n + n * u := by
  have hdiff := abs_pow_sub_pow_le (a := a) (b := b) (n := n)
  have hmax : max |a| |b| ^ (n - 1) ≤ 1 := by
    refine pow_le_one₀ (le_max_of_le_left (abs_nonneg a)) ?_
    rw [abs_of_nonneg ha, abs_of_nonneg hb]
    exact max_le ha' hb'
  have hbound : |a - b| * n * max |a| |b| ^ (n - 1) ≤ n * u := by
    have hfirst : |a - b| * n ≤ n * u := by
      rw [mul_comm]
      exact mul_le_mul_of_nonneg_left h (Nat.cast_nonneg n)
    exact (mul_le_of_le_one_right (by positivity) hmax).trans hfirst
  linarith [le_abs_self (a ^ n - b ^ n)]

/-- What a step of the loop loses: a unit for the bit of the exponent and two for each factor that is left. -/
theorem step_loss {r b r' b' u : ℝ} {e m : Nat} (hr : 0 ≤ r) (hr' : r ≤ 1) (hb : 0 ≤ b) (hb' : b ≤ 1) (hu : 0 ≤ u)
    (hresult : r * b ^ e - e * u ≤ r') (hsq0 : 0 ≤ b') (hsq1 : b' ≤ 1) (hsq : |b * b - b'| ≤ u) :
    r * (b ^ e * (b * b) ^ m) ≤ r' * b' ^ m + e * u + m * u := by
  have hpow := pow_le_pow_add (mul_nonneg hb hb) (mul_le_one₀ hb' hb hb') hsq0 hsq1 hsq m
  have hhead : r * b ^ e ≤ 1 := mul_le_one₀ hr' (by positivity) (pow_le_one₀ hb hb')
  have hsquare : b' ^ m ≤ 1 := pow_le_one₀ hsq0 hsq1
  have hmul := mul_le_mul_of_nonneg_right hresult (by positivity : 0 ≤ b' ^ m)
  have hextra : e * u * b' ^ m ≤ e * u := mul_le_of_le_one_right (by positivity) hsquare
  calc r * (b ^ e * (b * b) ^ m) = r * b ^ e * (b * b) ^ m := (mul_assoc _ _ _).symm
    _ ≤ r * b ^ e * (b' ^ m + m * u) := mul_le_mul_of_nonneg_left hpow (by positivity)
    _ ≤ r * b ^ e * b' ^ m + m * u := by
        rw [mul_add]
        exact add_le_add_right (mul_le_of_le_one_left (by positivity) hhead) _
    _ ≤ _ := add_le_add_left (by linarith) _

/-- Up to one a power loses less than a unit for each factor. -/
theorem lt_abs_powiLoop (hF : F.Decimal) (hr : |result.toReal| ≤ 1) (hb : |base.toReal| ≤ 1) (hn : n < 2 ^ bits)
    (hpos : 0 < n) :
    |result.toReal| * |base.toReal| ^ n - n * F.unit < |(powiLoop bits result base n).toReal| := by
  induction bits generalizing n result base with
  | zero => omega
  | succ bits ih =>
    have hu := F.unit_pos
    rw [powiLoop_succ hpos.ne']
    have hr' : |result.toReal| * |base.toReal| ^ (n % 2) - (n % 2 : Nat) * F.unit ≤
          |(if n % 2 = 1 then result.saturatingMul base else result).toReal| ∧
        |(if n % 2 = 1 then result.saturatingMul base else result).toReal| ≤ 1 := by
      rcases Nat.mod_two_eq_zero_or_one n with h | h
      · rw [h, if_neg (by decide), pow_zero, mul_one, Nat.cast_zero, zero_mul, sub_zero]
        exact ⟨le_refl _, hr⟩
      · rw [h, if_pos rfl, pow_one, Nat.cast_one, one_mul]
        exact ⟨(lt_abs_saturatingMul hF hr hb).le, abs_saturatingMul_le_one hr hb⟩
    rcases Nat.eq_zero_or_pos (n / 2) with hz | hhalf
    · obtain rfl : n = 1 := by omega
      rw [hz, powiLoop_zero_exponent, if_pos rfl, pow_one, Nat.cast_one, one_mul]
      exact lt_abs_saturatingMul hF hr hb
    · rw [if_pos hhalf]
      have hsq1 := abs_saturatingMul_le_one hb hb
      have hsqlow := lt_abs_saturatingMul hF hb hb
      have hsqhigh := (saturatingMul_toward base base).abs_le
      rw [abs_mul] at hsqhigh
      have hloop := ih hr'.2 hsq1 (n := n / 2) (by omega) hhalf
      have hloss := step_loss (m := n / 2) (abs_nonneg _) hr (abs_nonneg _) hb hu.le hr'.1 (abs_nonneg _) hsq1
        (abs_le.mpr ⟨by linarith, by linarith⟩)
      rw [← sq, pow_mod_mul_pow_div] at hloss
      have hcount : (n : ℝ) = (n % 2 : Nat) + 2 * (n / 2 : Nat) := by exact_mod_cast (Nat.mod_add_div n 2).symm
      rw [hcount]
      linarith

theorem one_le_abs_saturatingMul (hF : F.Decimal) (hx : 1 ≤ |x.toReal|) (hy : 1 ≤ |y.toReal|) :
    1 ≤ |(x.saturatingMul y).toReal| := by
  have hD := F.div_pos'
  have hDr := F.div_pos_real
  have hinner (z : FixedNumber F) : 1 ≤ |z.toReal| ↔ (F.div : Int) ≤ |z.inner| := by
    rw [toReal, abs_div, abs_of_pos hDr, one_le_div hDr]
    exact_mod_cast Iff.rfl
  rw [hinner] at hx hy ⊢
  have hprod : (F.div : Int) * F.div ≤ |x.inner * y.inner| := by
    rw [abs_mul]
    exact Int.mul_le_mul hx hy hD.le (abs_nonneg _)
  have hquot : (F.div : Int) ≤ |x.inner * y.inner|.tdiv F.div := Int.le_tdiv_of_mul_le hD hprod
  rcases Int.le_total 0 (x.inner * y.inner) with h | h
  · rw [abs_of_nonneg h] at hquot
    exact (le_clamp_of_le hquot F.div_le).trans (le_abs_self _)
  · rw [abs_of_nonpos h, Int.neg_tdiv] at hquot
    have hmin : F.minInner ≤ -F.div := by
      rcases hF.signed with hmin | hmin
      · have hnonneg : 0 ≤ (x.inner * y.inner).tdiv F.div :=
          Int.tdiv_nonneg (Int.mul_nonneg (hmin ▸ x.min_le) (hmin ▸ y.min_le)) hD.le
        omega
      · have hsq : (F.div : Int) * 1 ≤ F.div * F.div := Int.mul_le_mul_of_nonneg_left (by omega) hD.le
        omega
    have hle : (x.saturatingMul y).inner ≤ -F.div := clamp_le_of_le (by omega) hmin
    exact (by omega : (F.div : Int) ≤ -(x.saturatingMul y).inner).trans (neg_le_abs _)

theorem one_le_abs_powiLoop (hF : F.Decimal) (hr : 1 ≤ |result.toReal|) (hb : 1 ≤ |base.toReal|) :
    1 ≤ |(powiLoop bits result base n).toReal| := by
  induction bits generalizing n result base with
  | zero => exact hr
  | succ bits ih =>
    rw [powiLoop]
    split
    · exact hr
    · refine ih ?_ ?_
      · split
        · exact one_le_abs_saturatingMul hF hr hb
        · exact hr
      · split
        · exact one_le_abs_saturatingMul hF hb hb
        · exact hb

end Magnitude

section WholeExponent

variable {x y p r : FixedNumber F}

theorem checkedDiv_one_eq_none (hF : F.Decimal) : (one : FixedNumber F).checkedDiv y = none ↔ y = zero := by
  have hD := F.div_pos'
  constructor
  · intro h
    by_contra hne
    have hy : y.inner ≠ 0 := fun h0 => hne (FixedNumber.ext h0)
    rw [FixedNumber.checkedDiv, if_neg hy, one_inner, ofInner?_eq_none] at h
    have habs : |((F.div : Int) * F.div).tdiv y.inner| ≤ F.div * F.div := by
      have hnat := Int.natAbs_tdiv_le_natAbs ((F.div : Int) * F.div) y.inner
      have hsq : 0 ≤ (F.div : Int) * F.div := Int.mul_nonneg hD.le hD.le
      rw [Int.abs_eq_natAbs]
      omega
    obtain ⟨hlow, hhigh⟩ := abs_le.mp habs
    have hmax := hF.sq_le_max
    rcases hF.signed with hmin | hmin
    · have hnonneg : 0 ≤ ((F.div : Int) * F.div).tdiv y.inner :=
        Int.tdiv_nonneg (Int.mul_nonneg hD.le hD.le) (hmin ▸ y.min_le)
      omega
    · omega
  · rintro rfl
    exact if_pos rfl

theorem fixedPowi_eq_none (hF : F.Decimal) {n : Int} :
    fixedPowi x n = none ↔ n < 0 ∧ (x = zero ∨ fixedPowiPositive x n.natAbs = zero) := by
  unfold fixedPowi
  rcases Int.lt_trichotomy n 0 with h | rfl | h
  · rw [if_neg h.ne, if_pos h]
    split
    · rename_i hx
      simp [h, hx]
    · rename_i hx
      rw [checkedDiv_one_eq_none hF]
      simp [h, hx]
  · simp
  · rw [if_neg h.ne', if_neg (by omega)]
    simp [h.not_gt]

theorem fixedPowiPositive_eq_zero {n : Nat} (hn : n < 2 ^ 128) (h : F.div * |x.toReal| ^ n < 1) :
    fixedPowiPositive x n = zero := by
  have hD := F.div_pos_real
  have hle : |(powiLoop 128 one x n).toReal| ≤ |(one : FixedNumber F).toReal * x.toReal ^ n| :=
    (powiLoop_toward hn).abs_le
  rw [toReal_one, one_mul, abs_pow, ← fixedPowiPositive, toReal, abs_div, abs_of_pos hD, div_le_iff₀ hD,
    mul_comm] at hle
  have hlt : |(fixedPowiPositive x n).inner| < 1 := by exact_mod_cast hle.trans_lt h
  exact FixedNumber.ext (Int.abs_lt_one_iff.mp hlt)

theorem fixedPowiPositive_ne_zero (hF : F.Decimal) {n : Nat} (hn : n < 2 ^ 128) (hpos : 0 < n)
    (h : 1 ≤ |x.toReal| ∨ (n : ℝ) ≤ F.div * |x.toReal| ^ n) : fixedPowiPositive x n ≠ zero := by
  have hD := F.div_pos_real
  intro hzero
  rcases le_or_gt 1 |x.toReal| with hone | hlt
  · have hge : 1 ≤ |(fixedPowiPositive x n).toReal| := one_le_abs_powiLoop hF (by rw [toReal_one, abs_one]) hone
    rw [hzero, toReal_zero, abs_zero] at hge
    linarith
  · have hfits := h.resolve_left hlt.not_ge
    have hgt : |(one : FixedNumber F).toReal| * |x.toReal| ^ n - n * F.unit < |(fixedPowiPositive x n).toReal| :=
      lt_abs_powiLoop hF (by rw [toReal_one, abs_one]) hlt.le hn hpos
    rw [hzero, toReal_zero, toReal_one, abs_zero, abs_one, one_mul, sub_neg] at hgt
    have hmul := mul_lt_mul_of_pos_left hgt hD
    rw [mul_left_comm, F.div_mul_unit, mul_one] at hmul
    linarith

end WholeExponent

section Domain

variable {k : FixedKind} {x p r : FixedNumber F}

/-- The exact power is not a real number. -/
def PowUndefined (x p : FixedNumber F) : Prop :=
  (x = zero ∧ p.inner ≤ 0) ∨ (x.inner < 0 ∧ ¬(F.div : Int) ∣ p.inner)

/-- The exact power is outside the range of the format. -/
def PowExceeds (x p : FixedNumber F) : Prop :=
  x.toReal ^ p.toReal < (F.minInner : ℝ) / F.div ∨ (F.maxInner : ℝ) / F.div < x.toReal ^ p.toReal

/-- There is a result wherever the exact power exists and fits. -/
def PowDefined (x p : FixedNumber F) : Prop := fixedPow x p = none → PowUndefined x p ∨ PowExceeds x p

/-- A format without a sign has no logarithm for a base below one. -/
def LogMissing (x p : FixedNumber F) : Prop :=
  isUnsigned F ∧ 0 < x.inner ∧ x.inner < F.div ∧ fixedToI128? p = none

/-- The logarithm is there if it is needed, a power that is inverted is more than the errors of its factors, and an
exponential stays in the range although the logarithm is off by its error. -/
structure PowFits (x p : FixedNumber F) : Prop where
  log : ¬LogMissing x p
  inverse : ∀ n : Nat, 0 < n → p.inner = -(n * F.div) → x ≠ zero → 1 ≤ |x.toReal| ∨ (n : ℝ) ≤ F.div * |x.toReal| ^ n
  exponential : fixedToI128? p = none → 0 < x.inner → 0 < p.toReal * Real.log x.toReal →
    |p.toReal| * (|Real.log x.toReal| + 508 * rootError x) < Real.log (maxValue : FixedNumber F).toReal

/-- A power that is inverted is at least a unit. -/
structure PowNeeds (x p : FixedNumber F) : Prop where
  log : ¬LogMissing x p
  inverse : ∀ n : Nat, 0 < n → p.inner = -(n * F.div) → x ≠ zero → PowExceeds x p ∨ 1 ≤ F.div * |x.toReal| ^ n

/-- The result and the base are on the same side of one. -/
structure SameSide (x r : FixedNumber F) : Prop where
  below : x.inner ≤ F.div → 0 ≤ r.inner ∧ r.inner ≤ F.div
  above : (F.div : Int) ≤ x.inner → (F.div : Int) ≤ r.inner

def powExpLn (x p : FixedNumber F) : Option (FixedNumber F) :=
  (fixedLn x).bind fun lnX => fixedExp (p.saturatingMul lnX)

/-- Both ways to compute a power keep to the side of the base. -/
structure PowSides (x p : FixedNumber F) : Prop where
  whole : ∀ n : Int, 0 ≤ n → n < 2 ^ 127 → ∀ r, fixedPowi x n = some r → SameSide x r
  fractional : ∀ r, powExpLn x p = some r → SameSide x r
  result : ∀ r, fixedPow x p = some r → SameSide x r

theorem SameSide.one (x : FixedNumber F) : SameSide x one :=
  ⟨fun _ => ⟨F.div_pos'.le, le_refl _⟩, fun _ => le_refl _⟩

theorem fixedPowi_sameSide (hF : F.Decimal) (hx : 0 < x.inner) {n : Int} (hn : 0 ≤ n) (hn' : n < 2 ^ 127)
    (h : fixedPowi x n = some r) : SameSide x r := by
  rw [fixedPowi] at h
  split at h
  · cases h
    exact SameSide.one x
  rw [if_neg (by omega)] at h
  cases h
  have hbits : n.toNat < 2 ^ 128 := by omega
  refine ⟨fun hle => ?_, fun hge => ?_⟩
  · obtain ⟨hnonneg, hpow⟩ := powiLoop_le one_inner_nonneg hx.le hbits
    rw [toReal_one, one_mul] at hpow
    exact ⟨hnonneg, toReal_le_one.mp (hpow.trans (pow_le_one₀ (toReal_pos hx).le (toReal_le_one.mpr hle)))⟩
  · have hu := hF.unit_le
    exact one_le_toReal.mp (le_powiLoop toReal_one.ge (one_le_toReal.mpr hge) (hu.trans (by norm_num)) hbits).1

/-- The logarithm exists unless the format has no sign and the base is below one. -/
theorem not_isUnsigned_of_fixedLn {l : FixedNumber F} (h : fixedLn x = some l) :
    ¬(isUnsigned F ∧ x.inner < (FixedNumber.one : FixedNumber F).inner) := by
  intro hmissing
  have hne : x ≠ FixedNumber.one := by
    rintro rfl
    exact absurd hmissing.2 (lt_irrefl _)
  have hnone : fixedLn x = none := by
    rw [fixedLn, if_neg hne, if_pos hmissing]
    exact ite_self none
  rw [hnone] at h
  cases h

theorem powExpLn_sameSide (hF : F.Decimal) (hS : SqrtBounds F) (hx : 0 < x.inner) (hp : 0 ≤ p.inner)
    (h : powExpLn x p = some r) : SameSide x r := by
  obtain ⟨l, hl, hexp⟩ := Option.bind_eq_some_iff.mp h
  obtain ⟨l', hl', habove, hbelow, -⟩ := fixedLn_eq_some hF hS hx (not_isUnsigned_of_fixedLn hl)
  obtain rfl : l' = l := Option.some.inj (hl'.symm.trans hl)
  have hp0 := toReal_nonneg.mpr hp
  have hprod := saturatingMul_toward p l'
  refine ⟨fun hle => ?_, fun hge => ?_⟩
  · have hl0 : l'.toReal ≤ 0 := by
      rw [← toReal_zero (F := F), toReal_le_toReal]
      exact hbelow hle
    have hz := (hprod.of_nonpos (mul_nonpos_of_nonneg_of_nonpos hp0 hl0)).2
    rw [← toReal_zero (F := F), toReal_le_toReal] at hz
    obtain ⟨w, hw, hw0, hw1, -⟩ := fixedExp_of_nonpos hF hz
    obtain rfl : w = r := Option.some.inj (hw.symm.trans hexp)
    exact ⟨toReal_nonneg.mp hw0, toReal_le_one.mp hw1⟩
  · have hz := toReal_nonneg.mp (hprod.of_nonneg (mul_nonneg hp0 (toReal_nonneg.mpr (habove hge)))).1
    rcases fixedExp_of_nonneg hF hz with ⟨w, hw, hw1, -⟩ | ⟨hnone, -⟩
    · obtain rfl : w = r := Option.some.inj (hw.symm.trans hexp)
      exact one_le_toReal.mp hw1
    · rw [hnone] at hexp
      cases hexp

theorem fixedToI128?_eq_some {n : Int} :
    fixedToI128? p = some n ↔ p.inner ≤ 2 ^ 127 - 1 ∧ p.inner = n * F.div := by
  have hD := F.div_pos'
  rw [fixedToI128?, innerI128?]
  constructor
  · intro h
    split at h
    · rename_i hle
      rw [Option.bind_some] at h
      split at h
      · rename_i hmod
        have hsplit := Int.tmod_add_mul_tdiv p.inner F.div
        rw [hmod, Int.zero_add, Option.some.inj h, Int.mul_comm] at hsplit
        exact ⟨hle, hsplit.symm⟩
      · cases h
    · cases h
  · rintro ⟨hle, heq⟩
    rw [if_pos hle, Option.bind_some, heq, Int.mul_tmod_left, if_pos rfl, Int.mul_tdiv_cancel _ hD.ne']

/-- The cases of a power, with what is known of the inputs in each. -/
inductive PowCase (x p : FixedNumber F) : Option (FixedNumber F) → Prop
  | zeroBase (hx : x = zero) (hp : p.inner ≤ 0) : PowCase x p none
  | zero (hx : x = zero) (hp : 0 < p.inner) : PowCase x p (some zero)
  | notReal (hx : x.inner < 0) (hp : fixedToI128? p = none) : PowCase x p none
  | one (hx : x ≠ zero) (h : p = zero ∨ x = FixedNumber.one) : PowCase x p (some FixedNumber.one)
  | whole {n : Int} (hx : x ≠ zero) (hn : fixedToI128? p = some n) : PowCase x p (fixedPowi x n)
  | fractional (hx : 0 < x.inner) (hp : fixedToI128? p = none) : PowCase x p (powExpLn x p)

theorem fixedPow_case (x p : FixedNumber F) : PowCase x p (fixedPow x p) := by
  rw [fixedPow]
  by_cases hx : x = zero
  · rcases Int.lt_or_le 0 p.inner with hp | hp
    · rw [if_neg (by omega), if_pos hx]
      exact .zero hx hp
    · rw [if_pos ⟨hx, hp⟩]
      exact .zeroBase hx hp
  have hx0 : x.inner ≠ 0 := fun h => hx (FixedNumber.ext h)
  rw [if_neg (fun h => hx h.1), if_neg hx]
  dsimp only
  by_cases hreal : x.inner < 0 ∧ (fixedToI128? p).isNone
  · rw [if_pos hreal]
    exact .notReal hreal.1 (Option.isNone_iff_eq_none.mp hreal.2)
  rw [if_neg hreal]
  by_cases hp : p = FixedNumber.zero
  · rw [if_pos hp]
    exact .one hx (Or.inl hp)
  rw [if_neg hp]
  by_cases hone : x = FixedNumber.one
  · rw [if_pos hone]
    exact .one hx (Or.inr hone)
  rw [if_neg hone]
  cases hn : fixedToI128? p with
  | some n => exact .whole hx hn
  | none =>
    rw [hn] at hreal
    exact .fractional (by simp at hreal; omega) hn

/-- The range of the inner values against the exponents of 128 bits with a sign. -/
structure InnerRange (F : FixedRepr) : Prop where
  le_min : -2 ^ 127 ≤ F.minInner
  max_le : F.minInner < 0 → F.maxInner ≤ 2 ^ 127 - 1

theorem FixedKind.innerRange (k : FixedKind) : InnerRange k.repr := by
  cases k <;> exact ⟨by decide, by decide⟩

theorem toReal_of_whole {n : Nat} (h : p.inner = -(n * F.div)) : p.toReal = -n := by
  rw [toReal, h]
  push_cast
  rw [neg_div, mul_div_cancel_right₀ _ F.div_pos_real.ne']

theorem natAbs_lt_of_whole (hR : InnerRange F) {n : Int} (hn : p.inner = n * F.div) (hle : p.inner ≤ 2 ^ 127 - 1) :
    n.natAbs < 2 ^ 128 := by
  have hmin := hR.le_min.trans p.min_le
  have hnat : n.natAbs ≤ p.inner.natAbs := by
    rw [hn, Int.natAbs_mul, Int.natAbs_natCast]
    exact Nat.le_mul_of_pos_right _ F.div_pos
  omega

theorem powExpLn_ne_none (hF : F.Decimal) (hS : SqrtBounds F) (hx : 0 < x.inner) (hp : fixedToI128? p = none)
    (h : PowFits x p) : powExpLn x p ≠ none := by
  intro hnone
  have hdomain : ¬(isUnsigned F ∧ x.inner < (FixedNumber.one : FixedNumber F).inner) :=
    fun hm => h.log ⟨hm.1, hx, hm.2, hp⟩
  obtain ⟨l, hl, habove, hbelow, hnear⟩ := fixedLn_eq_some hF hS hx hdomain
  rw [powExpLn, hl, Option.bind_some] at hnone
  rcases le_or_gt (p.saturatingMul l).inner 0 with hz | hz
  · obtain ⟨w, hw, -⟩ := fixedExp_of_nonpos hF hz
    rw [hw] at hnone
    cases hnone
  have hmax : (maxValue : FixedNumber F).toReal ≤ Real.exp (p.saturatingMul l).toReal := by
    rcases fixedExp_of_nonneg hF hz.le with ⟨w, hw, -⟩ | ⟨-, hmax⟩
    · rw [hw] at hnone
      cases hnone
    · exact hmax
  have hz0 := toReal_pos hz
  have hprod := saturatingMul_toward p l
  have hpos : 0 < p.toReal * l.toReal := by
    by_contra hle
    linarith [(hprod.of_nonpos (not_lt.mp hle)).2]
  have hexact : 0 < p.toReal * Real.log x.toReal := by
    rcases pos_and_pos_or_neg_and_neg_of_mul_pos hpos with ⟨hp0, hl0⟩ | ⟨hp0, hl0⟩
    · have hlinner : 0 < l.inner := by
        rw [← toReal_zero (F := F), toReal_lt_toReal] at hl0
        exact hl0
      have hxD : (F.div : Int) < x.inner := not_le.mp fun hle => (hbelow hle).not_gt hlinner
      refine mul_pos hp0 (Real.log_pos ?_)
      rw [← toReal_one (F := F), toReal_lt_toReal]
      exact hxD
    · have hlinner : l.inner < 0 := by
        rw [← toReal_zero (F := F), toReal_lt_toReal] at hl0
        exact hl0
      have hxD : x.inner < F.div := not_le.mp fun hle => (habove hle).not_gt hlinner
      refine mul_pos_of_neg_of_neg hp0 (Real.log_neg (toReal_pos hx) ?_)
      rw [← toReal_one (F := F), toReal_lt_toReal]
      exact hxD
  have hbound := h.exponential hp hx hexact
  have hle : (p.saturatingMul l).toReal ≤ |p.toReal| * (|Real.log x.toReal| + 508 * rootError x) := by
    refine (le_abs_self _).trans (hprod.abs_le.trans ?_)
    rw [abs_mul]
    exact mul_le_mul_of_nonneg_left hnear (abs_nonneg _)
  have hlog := Real.log_le_log (lt_of_lt_of_le one_pos one_le_max_real) hmax
  rw [Real.log_exp] at hlog
  linarith

theorem powDefined_of_powFits (hF : F.Decimal) (hS : SqrtBounds F) (hR : InnerRange F) (h : PowFits x p) :
    PowDefined x p := by
  intro hnone
  have hcase := fixedPow_case x p
  rw [hnone] at hcase
  generalize hres : (none : Option (FixedNumber F)) = result at hcase
  cases hcase with
  | zeroBase hx hp => exact Or.inl (Or.inl ⟨hx, hp⟩)
  | zero => cases hres
  | one => cases hres
  | notReal hx hp =>
    refine Or.inl (Or.inr ⟨hx, ?_⟩)
    rintro ⟨n, hn⟩
    have hmax := p.le_max.trans (hR.max_le (lt_of_le_of_lt x.min_le hx))
    rw [fixedToI128?_eq_some.mpr ⟨hmax, hn.trans (Int.mul_comm _ _)⟩] at hp
    cases hp
  | @whole n hx hn =>
    obtain ⟨hle, heq⟩ := fixedToI128?_eq_some.mp hn
    obtain ⟨hneg, hzero⟩ := (fixedPowi_eq_none hF).mp hres.symm
    have hinner : p.inner = -((n.natAbs : Int) * F.div) := by
      rw [heq, Int.ofNat_natAbs_of_nonpos hneg.le, Int.neg_mul, Int.neg_neg]
    exact absurd (hzero.resolve_left hx)
      (fixedPowiPositive_ne_zero hF (natAbs_lt_of_whole hR heq hle) (by omega) (h.inverse _ (by omega) hinner hx))
  | fractional hx hp => exact absurd hres.symm (powExpLn_ne_none hF hS hx hp h)

theorem LogMissing.fixedPow_eq_none (h : LogMissing x p) : fixedPow x p = none := by
  obtain ⟨hsign, hx0, hx1, hp⟩ := h
  have hcase := fixedPow_case x p
  generalize fixedPow x p = result at hcase ⊢
  cases hcase with
  | zeroBase => rfl
  | notReal => rfl
  | zero hx =>
    rw [hx] at hx0
    exact absurd hx0 (lt_irrefl _)
  | one hx hone =>
    rcases hone with rfl | rfl
    · rw [fixedToI128?_eq_some.mpr ⟨by rw [zero_inner]; norm_num, (Int.zero_mul _).symm⟩] at hp
      cases hp
    · exact absurd hx1 (lt_irrefl _)
  | whole hx hn =>
    rw [hn] at hp
    cases hp
  | fractional =>
    have hln : fixedLn x = none := by
      by_contra hne
      obtain ⟨l, hl⟩ := Option.ne_none_iff_exists'.mp hne
      exact not_isUnsigned_of_fixedLn hl ⟨hsign, hx1⟩
    rw [powExpLn, hln, Option.bind_none]

theorem minInner_of_isUnsigned (h : isUnsigned F) : F.minInner = 0 := by
  have hinner := congrArg FixedNumber.inner h
  have hD := F.div_pos'
  have hmin := F.min_nonpos
  rw [saturatingSub_inner, clamp_inner, zero_inner, one_inner] at hinner
  omega

theorem not_powExceeds (hx : 0 < x.inner) (hx' : x.inner ≤ F.div) (hp : 0 ≤ p.inner) : ¬PowExceeds x p := by
  have hD := F.div_pos_real
  have hx0 := (toReal_pos hx).le
  have hpow0 := Real.rpow_nonneg hx0 p.toReal
  have hpow1 := Real.rpow_le_one hx0 (toReal_le_one.mpr hx') (toReal_nonneg.mpr hp)
  have hmax : 1 ≤ (F.maxInner : ℝ) / F.div := one_le_max_real (F := F)
  have hmin : (F.minInner : ℝ) / F.div ≤ 0 :=
    div_nonpos_of_nonpos_of_nonneg (by exact_mod_cast F.min_nonpos) hD.le
  rintro (h | h) <;> linarith

theorem not_powUndefined (hx : 0 < x.inner) : ¬PowUndefined x p := by
  rintro (⟨rfl, -⟩ | ⟨hneg, -⟩)
  · exact lt_irrefl _ hx
  · omega

theorem PowDefined.powNeeds (hR : InnerRange F) (hF : F.Decimal) (h : PowDefined x p) : PowNeeds x p := by
  refine ⟨fun hmissing => ?_, fun n hn hp hx => ?_⟩
  · have hp : 0 ≤ p.inner := minInner_of_isUnsigned hmissing.1 ▸ p.min_le
    rcases h hmissing.fixedPow_eq_none with hundef | hexceeds
    · exact not_powUndefined hmissing.2.1 hundef
    · exact not_powExceeds hmissing.2.1 hmissing.2.2.1.le hp hexceeds
  · by_contra hnot
    obtain ⟨hfits, hsmall⟩ := not_or.mp hnot
    rw [not_le] at hsmall
    have hD := F.div_pos'
    have hnD : 0 < (n : Int) * F.div := Int.mul_pos (by omega) hD
    have hwhole : fixedToI128? p = some (-(n : Int)) := fixedToI128?_eq_some.mpr ⟨by omega, by rw [hp, Int.neg_mul]⟩
    have hbits : n < 2 ^ 128 := by
      have hlt := natAbs_lt_of_whole hR (n := -n) (by rw [hp, Int.neg_mul]) (by omega)
      rwa [Int.natAbs_neg, Int.natAbs_natCast] at hlt
    have hnone : fixedPow x p = none := by
      have hcase := fixedPow_case x p
      generalize fixedPow x p = result at hcase ⊢
      cases hcase with
      | zeroBase => rfl
      | notReal => rfl
      | zero hx0 => exact absurd hx0 hx
      | one _ hone =>
        rcases hone with rfl | rfl
        · rw [zero_inner] at hp
          omega
        · rw [toReal_one, abs_one, one_pow, mul_one] at hsmall
          have hD1 : (F.div : ℝ) < 1 := hsmall
          exact absurd (by exact_mod_cast hD1 : F.div < 1) (by omega)
      | whole _ hn' =>
        rw [hwhole] at hn'
        cases hn'
        refine (fixedPowi_eq_none hF).mpr ⟨by omega, Or.inr ?_⟩
        rw [Int.natAbs_neg, Int.natAbs_natCast]
        exact fixedPowiPositive_eq_zero hbits hsmall
      | fractional _ hp' =>
        rw [hwhole] at hp'
        cases hp'
    rcases h hnone with (⟨hx0, -⟩ | ⟨-, hdvd⟩) | hexceeds
    · exact hx hx0
    · exact hdvd ⟨-n, by rw [hp, Int.mul_neg, Int.mul_comm]⟩
    · exact hfits hexceeds

theorem fixedPow_eq_none_iff (hF : F.Decimal) (hS : SqrtBounds F) (hR : InnerRange F) (hx : 0 < x.inner)
    (hx' : x.inner < F.div) (hp : 0 < p.inner) : fixedPow x p = none ↔ LogMissing x p := by
  refine ⟨fun hnone => ?_, LogMissing.fixedPow_eq_none⟩
  by_contra hlog
  have hp0 : 0 ≤ p.toReal := toReal_nonneg.mpr hp.le
  have hln : Real.log x.toReal ≤ 0 := Real.log_nonpos (toReal_pos hx).le (toReal_le_one.mpr hx'.le)
  have hfits : PowFits x p := by
    refine ⟨hlog, fun n _ hn _ => ?_, fun _ _ hpos => ?_⟩
    · have hnD : 0 ≤ (n : Int) * F.div := Int.mul_nonneg (by omega) F.div_pos'.le
      omega
    · exact absurd hpos (not_lt.mpr (mul_nonpos_of_nonneg_of_nonpos hp0 hln))
  rcases powDefined_of_powFits hF hS hR hfits hnone with hundef | hexceeds
  · exact not_powUndefined hx hundef
  · exact not_powExceeds hx hx'.le hp.le hexceeds

theorem powSides (hF : F.Decimal) (hS : SqrtBounds F) (hx : 0 < x.inner) (hp : 0 ≤ p.inner) : PowSides x p := by
  refine ⟨fun n hn hn' r h => fixedPowi_sameSide hF hx hn hn' h, fun r h => powExpLn_sameSide hF hS hx hp h,
    fun r h => ?_⟩
  have hcase := fixedPow_case x p
  rw [h] at hcase
  generalize hres : some r = result at hcase
  cases hcase with
  | zeroBase => cases hres
  | notReal => cases hres
  | zero hx0 =>
    rw [hx0] at hx
    exact absurd hx (lt_irrefl _)
  | one =>
    cases hres
    exact SameSide.one x
  | @whole n _ hn =>
    obtain ⟨hle, heq⟩ := fixedToI128?_eq_some.mp hn
    have hD := F.div_pos'
    have hn0 : 0 ≤ n := by
      by_contra hneg
      have hmul : n * F.div < 0 := Int.mul_neg_of_neg_of_pos (by omega) hD
      omega
    have hnle : n * 1 ≤ n * F.div := Int.mul_le_mul_of_nonneg_left (by omega) hn0
    exact fixedPowi_sameSide hF hx hn0 (by omega) hres.symm
  | fractional => exact powExpLn_sameSide hF hS hx hp hres.symm

/-- A power has a result wherever the exact one exists and fits if no logarithm is missing and the errors leave room;
it has none where a logarithm is missing or the power to invert is less than a unit. -/
theorem fixedPow_domain (k : FixedKind) (x p : k.Number) :
    (PowFits x p → PowDefined x p) ∧ (PowDefined x p → PowNeeds x p) ∧
      (0 < x.inner → x.inner < k.repr.div → 0 < p.inner → (fixedPow x p = none ↔ LogMissing x p)) ∧
        (0 < x.inner → 0 ≤ p.inner → PowSides x p) :=
  ⟨powDefined_of_powFits k.decimal k.sqrtBounds k.innerRange, PowDefined.powNeeds k.innerRange k.decimal,
    fixedPow_eq_none_iff k.decimal k.sqrtBounds k.innerRange, powSides k.decimal k.sqrtBounds⟩

end Domain

section Half

def twoI64 : FixedI64 := ⟨2000000000, by decide, by decide⟩

def halfU64 : FixedU64 := ⟨500000000, by decide, by decide⟩

def halfI64 : FixedI64 := ⟨500000000, by decide, by decide⟩

def minusThirty : FixedI64 := ⟨-30000000000, by decide, by decide⟩

def threeHalves : FixedI64 := ⟨1500000000, by decide, by decide⟩

/-- The exponential for a power of two with an exponent of three halves is far below the largest value. -/
theorem threeHalves_fits : |threeHalves.toReal| * (|Real.log twoI64.toReal| + 508 * rootError twoI64) <
    Real.log (maxValue : FixedI64).toReal := by
  have hbase : twoI64.toReal = 2 := by
    change (((2000000000 : Int) : ℝ)) / ((10 ^ 9 : Nat) : ℝ) = 2
    norm_num
  have hexponent : threeHalves.toReal = 3 / 2 := by
    change (((1500000000 : Int) : ℝ)) / ((10 ^ 9 : Nat) : ℝ) = 3 / 2
    norm_num
  have hroot : rootError twoI64 = 1 / 10 ^ 9 := by
    rw [rootError, hbase, min_eq_right (by norm_num), Real.sqrt_one, div_one]
    change 1 / ((10 ^ 9 : Nat) : ℝ) = _
    norm_num
  have hmax : 2 * Real.log 2 ≤ Real.log (maxValue : FixedI64).toReal := by
    have hle : (2 : ℝ) ^ 2 ≤ (maxValue : FixedI64).toReal := by
      change _ ≤ ((2 ^ 63 - 1 : Int) : ℝ) / ((10 ^ 9 : Nat) : ℝ)
      norm_num
    have hlog := Real.log_le_log (by norm_num) hle
    rwa [Real.log_pow] at hlog
  have hlog2 := Real.log_two_gt_d9
  rw [hbase, hexponent, hroot, abs_of_pos (by norm_num : (0 : ℝ) < 3 / 2), abs_of_pos (by linarith)]
  linarith

theorem fixedPow_domain_two : PowDefined twoI64 threeHalves ∧ PowDefined twoI64 minusThirty ∧
    fixedPow halfI64 halfI64 ≠ none ∧ ∀ r, fixedPow halfI64 halfI64 = some r → SameSide halfI64 r := by
  have hsigned : ¬isUnsigned FixedKind.fixedI64.repr := by decide
  have habove (n : Nat) : 1 ≤ |twoI64.toReal| ∨ (n : ℝ) ≤ FixedKind.fixedI64.repr.div * |twoI64.toReal| ^ n :=
    Or.inl ((one_le_toReal.mpr (by decide)).trans (le_abs_self _))
  refine ⟨?_, ?_, ?_, ?_⟩
  · exact (fixedPow_domain .fixedI64 twoI64 threeHalves).1
      ⟨fun h => hsigned h.1, fun n _ _ _ => habove n, fun _ _ _ => threeHalves_fits⟩
  · exact (fixedPow_domain .fixedI64 twoI64 minusThirty).1
      ⟨fun h => hsigned h.1, fun n _ _ _ => habove n, fun h => absurd h (by decide)⟩
  · have hiff := (fixedPow_domain .fixedI64 halfI64 halfI64).2.2.1 (by decide) (by decide) (by decide)
    exact fun hnone => hsigned (hiff.mp hnone).1
  · exact ((fixedPow_domain .fixedI64 halfI64 halfI64).2.2.2 (by decide) (by decide)).result

theorem halfI64_pow_minusThirty : halfI64.toReal ^ minusThirty.toReal = 2 ^ 30 := by
  have hbase : halfI64.toReal = 1 / 2 := by
    change (((500000000 : Int) : ℝ)) / ((10 ^ 9 : Nat) : ℝ) = 1 / 2
    norm_num
  have hexp : minusThirty.toReal = -((30 : Nat) : ℝ) := toReal_of_whole (n := 30) (by decide)
  rw [hbase, hexp, Real.rpow_neg_natCast]
  norm_num

/-- Without a sign one half has no square root, and its thirtieth power is rounded to zero before it is inverted. -/
theorem half_not_powDefined : ¬PowDefined halfU64 halfU64 ∧ ¬PowDefined halfI64 minusThirty := by
  refine ⟨fun h => ?_, fun h => ?_⟩
  · rcases h (by decide +kernel) with hundef | hexceeds
    · exact not_powUndefined (by decide) hundef
    · exact not_powExceeds (by decide) (by decide) (by decide) hexceeds
  · rcases h (by decide +kernel) with hundef | hexceeds
    · exact not_powUndefined (by decide) hundef
    · rw [PowExceeds, halfI64_pow_minusThirty] at hexceeds
      change (((-2 ^ 63 : Int) : ℝ)) / ((10 ^ 9 : Nat) : ℝ) > _ ∨ ((2 ^ 63 - 1 : Int) : ℝ) / ((10 ^ 9 : Nat) : ℝ) < _ at hexceeds
      norm_num at hexceeds

end Half

end FrameSuite
