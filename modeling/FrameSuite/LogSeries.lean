import FrameSuite.LogAccuracy
import FrameSuite.LogTails

/-! The series of the logarithm near one, on both sides of the exact value. Its terms fall below the last place
long before the iterations are used up, and each of them is cut off twice. -/

namespace FrameSuite

open FixedNumber

variable {F : FixedRepr}

section Operations

variable {x y : FixedNumber F}

theorem toReal_near {q : ℝ} (h : |(x.inner : ℝ) - F.div * q| ≤ 1) : |x.toReal - q| ≤ F.unit := by
  have hD := F.div_pos_real
  have hsplit : x.toReal - q = ((x.inner : ℝ) - F.div * q) / F.div := by
    rw [sub_div, mul_div_cancel_left₀ _ hD.ne']
    rfl
  rw [hsplit, abs_div, abs_of_pos hD]
  exact div_le_div_of_nonneg_right h hD.le

/-- A value within one of zero fits, on the side that the format has. -/
theorem ofInner?_near (hF : F.Decimal) {n : Int} {q : ℝ} (hside : F.minInner = 0 → 0 ≤ n) (hq : |q| ≤ 1)
    (htoward : Toward (n : ℝ) (F.div * q)) (hnear : |(n : ℝ) - F.div * q| ≤ 1) :
    |((ofInner? n).getD zero : FixedNumber F).toReal - q| ≤ F.unit := by
  have hD := F.div_pos_real
  have habs : |n| ≤ F.div := by
    have hle := htoward.abs_le
    rw [abs_mul, abs_of_pos hD] at hle
    have hle' : |(n : ℝ)| ≤ F.div := hle.trans (mul_le_of_le_one_right hD.le hq)
    exact_mod_cast hle'
  have hmax := F.div_le
  have hmin : F.minInner ≤ n := by
    rcases hF.signed with h | h
    · exact h ▸ hside h
    · have hD' : (10 ^ 9 : Int) ≤ F.div := by exact_mod_cast hF.le_div
      have hsq : (1 * F.div : Int) ≤ F.div * F.div := Int.mul_le_mul_of_nonneg_right (by omega) F.div_pos'.le
      have hlow := neg_le_of_abs_le habs
      omega
  have hfits : (ofInner? n : Option (FixedNumber F)) = some ⟨n, hmin, (le_of_abs_le habs).trans hmax⟩ :=
    ofInner?_eq_some.mpr rfl
  rw [hfits, Option.getD_some]
  exact toReal_near hnear

theorem checkedMul_near (hF : F.Decimal) (hx : |x.toReal| ≤ 1) (hy : |y.toReal| ≤ 1) :
    |((x.checkedMul y).getD zero).toReal - x.toReal * y.toReal| ≤ F.unit := by
  have hcut := tdiv_toward (x.inner * y.inner) F.div_pos'
  have hnear := abs_tdiv_sub_le (x.inner * y.inner) F.div_pos'
  rw [product_real] at hcut hnear
  refine ofInner?_near hF (fun h => ?_) ?_ hcut hnear
  · have hx0 := x.min_le
    have hy0 := y.min_le
    rw [h] at hx0 hy0
    exact Int.tdiv_nonneg (Int.mul_nonneg hx0 hy0) F.div_pos'.le
  · rw [abs_mul]
    exact mul_le_one₀ hx (abs_nonneg _) hy

theorem checkedDiv_near (hF : F.Decimal) (hy : 0 < y.inner) (hq : |x.toReal / y.toReal| ≤ 1) :
    |((x.checkedDiv y).getD zero).toReal - x.toReal / y.toReal| ≤ F.unit := by
  have hcut := tdiv_toward (x.inner * F.div) hy
  have hnear := abs_tdiv_sub_le (x.inner * F.div) hy
  rw [quotient_real] at hcut hnear
  have hdiv : x.checkedDiv y = ofInner? ((x.inner * F.div).tdiv y.inner) := if_neg hy.ne'
  rw [hdiv]
  refine ofInner?_near hF (fun h => ?_) hq hcut hnear
  have hx0 := x.min_le
  rw [h] at hx0
  exact Int.tdiv_nonneg (Int.mul_nonneg hx0 F.div_pos'.le) hy.le

/-- A sum or a multiple that is clamped at neither end is exact. -/
theorem clamp_exact (hF : F.Decimal) {n : Int} (hside : F.minInner = 0 → 0 ≤ n) (h : |n| ≤ F.div * 10 ^ 9) :
    (clamp n : FixedNumber F).inner = n := by
  have hmax := hF.mul_le_max (le_refl (10 ^ 9))
  rw [mul_comm] at hmax
  refine clamp_of_mem ?_ ((le_of_abs_le h).trans hmax)
  rcases hF.signed with hmin | hmin
  · exact hmin ▸ hside hmin
  · have hD' : (10 ^ 9 : Int) ≤ F.div := by exact_mod_cast hF.le_div
    have hsq : (F.div * 10 ^ 9 : Int) ≤ F.div * F.div := Int.mul_le_mul_of_nonneg_left hD' F.div_pos'.le
    have hlow := neg_le_of_abs_le h
    omega

theorem abs_inner_le {c : ℝ} (h : |x.toReal| ≤ c) : |(x.inner : ℝ)| ≤ F.div * c := by
  rw [inner_eq, abs_mul, abs_of_pos F.div_pos_real]
  exact mul_le_mul_of_nonneg_left h F.div_pos_real.le

theorem saturatingAdd_exact (hF : F.Decimal) (h : |x.toReal + y.toReal| ≤ 1) :
    (x.saturatingAdd y).toReal = x.toReal + y.toReal := by
  have hD := F.div_pos_real
  have hsum : |x.inner + y.inner| ≤ F.div * 10 ^ 9 := by
    have hreal : |(x.inner : ℝ) + y.inner| ≤ F.div * 10 ^ 9 := by
      rw [inner_eq, inner_eq, ← mul_add, abs_mul, abs_of_pos hD]
      exact mul_le_mul_of_nonneg_left (h.trans (by norm_num)) hD.le
    exact_mod_cast hreal
  have hinner : (x.saturatingAdd y).inner = x.inner + y.inner := by
    refine clamp_exact hF (fun h => ?_) hsum
    have hx := x.min_le
    have hy := y.min_le
    omega
  rw [toReal, hinner, toReal, toReal]
  push_cast
  exact add_div _ _ _

theorem saturatingMul_exact (hF : F.Decimal) {n : Nat} (hn : n ≤ 2 ^ 8) (h : |x.toReal| ≤ 10 ^ 6) :
    (x.saturatingMul (saturatingFromInteger (n : Int))).toReal = x.toReal * n := by
  have hD := F.div_pos_real
  have hwhole := hF.saturatingFromInteger_inner (n := (n : Int)) (by omega) (by omega)
  have hcut : (x.inner * (n * F.div)).tdiv F.div = x.inner * n := by
    rw [← mul_assoc]
    exact Int.mul_tdiv_cancel _ F.div_pos'.ne'
  have hle : |x.inner * n| ≤ F.div * 10 ^ 9 := by
    have hnr : (n : ℝ) ≤ 2 ^ 8 := by exact_mod_cast hn
    have hreal : |(x.inner : ℝ) * n| ≤ F.div * 10 ^ 9 := by
      rw [abs_mul, Nat.abs_cast]
      calc |(x.inner : ℝ)| * n ≤ F.div * 10 ^ 6 * 2 ^ 8 :=
            mul_le_mul (abs_inner_le h) hnr (Nat.cast_nonneg n) (by positivity)
        _ ≤ F.div * 10 ^ 9 := by nlinarith
    exact_mod_cast hreal
  have hinner : (x.saturatingMul (saturatingFromInteger (n : Int))).inner = x.inner * n := by
    rw [saturatingMul_inner, hwhole, hcut]
    refine clamp_exact hF (fun h => ?_) hle
    have hx := x.min_le
    rw [h] at hx
    exact Int.mul_nonneg hx (Int.natCast_nonneg n)
  rw [toReal, hinner, toReal]
  push_cast
  ring

end Operations

section Series

variable {t : ℝ} {i : Nat} {tSq sum power term : FixedNumber F}

/-- The sum and the power of the series before a term, and what they have lost. -/
structure AtanhState (t : ℝ) (i : Nat) (sum power : FixedNumber F) : Prop where
  sum_toward : Toward sum.toReal (atanhSum t i)
  sum_near : |sum.toReal - atanhSum t i| ≤ 5 / 2 * i * F.unit
  power_toward : Toward power.toReal (t ^ (2 * i + 1))
  power_near : |power.toReal - t ^ (2 * i + 1)| ≤ 3 / 2 * F.unit

theorem abs_odd_pow_le (ht : |t| ≤ 1 / 3) (i : Nat) : |t ^ (2 * i + 1)| ≤ 1 / 3 := by
  rw [abs_pow, pow_succ]
  calc |t| ^ (2 * i) * |t| ≤ 1 * (1 / 3) :=
        mul_le_mul (pow_le_one₀ (abs_nonneg t) (ht.trans (by norm_num))) ht (abs_nonneg t) zero_le_one
    _ = 1 / 3 := one_mul _

theorem sq_le_ninth (ht : |t| ≤ 1 / 3) : t ^ 2 ≤ 1 / 9 := by
  rw [← sq_abs]
  calc |t| ^ 2 ≤ (1 / 3) ^ 2 := pow_le_pow_left₀ (abs_nonneg t) ht 2
    _ = 1 / 9 := by norm_num

theorem abs_atanhSum_le (ht : |t| ≤ 1 / 3) (n : Nat) : |atanhSum t n| ≤ 3 / 8 := by
  have hsq := sq_le_ninth ht
  have hterm (i : Nat) : |t ^ (2 * i + 1) / (2 * i + 1)| ≤ 1 / 3 * (1 / 9) ^ i := by
    have hle := abs_odd_term_add_le t 0 i
    simp only [Nat.add_zero, pow_one, Nat.cast_zero, mul_zero, zero_add, div_one] at hle
    exact hle.trans (mul_le_mul ht (pow_le_pow_left₀ (sq_nonneg t) hsq i) (by positivity) (by norm_num))
  have hgeometric : ∑ i ∈ Finset.range n, (1 / 3 : ℝ) * (1 / 9) ^ i ≤ 3 / 8 := by
    have hsum := (hasSum_geometric_of_lt_one (by norm_num : (0 : ℝ) ≤ 1 / 9) (by norm_num)).mul_left (1 / 3)
    have hle := sum_le_hasSum (Finset.range n) (fun i _ => by positivity) hsum
    exact hle.trans (by norm_num)
  exact (Finset.abs_sum_le_sum_abs _ _).trans ((Finset.sum_le_sum fun i _ => hterm i).trans hgeometric)

theorem AtanhState.start {x : FixedNumber F} (hx : x.toReal = t) : AtanhState t 0 zero x := by
  have hu := F.unit_pos
  refine ⟨?_, ?_, ?_, ?_⟩
  · rw [toReal_zero]
    exact Toward.zero _
  · simp [atanhSum]
  · simp [hx, Toward.refl]
  · simp [hx, hu.le]

/-- A term is cut off once as a power and once as a quotient. -/
theorem AtanhState.term_near (hF : F.Decimal) (ht : |t| ≤ 1 / 3) (h : AtanhState t i sum power) (hi : i ≤ 19) :
    Toward ((power.checkedDiv (saturatingFromInteger (2 * i + 1))).getD zero).toReal
        (t ^ (2 * i + 1) / (2 * i + 1)) ∧
      |((power.checkedDiv (saturatingFromInteger (2 * i + 1))).getD zero).toReal - t ^ (2 * i + 1) / (2 * i + 1)| ≤
        5 / 2 * F.unit := by
  have hu := F.unit_pos
  have hindex : (2 * (i : Int) + 1) = ((2 * i + 1 : Nat) : Int) := by push_cast; rfl
  have hwhole := hF.saturatingFromInteger_inner (n := ((2 * i + 1 : Nat) : Int)) (by omega) (by omega)
  have hpos : 0 < (saturatingFromInteger ((2 * i + 1 : Nat) : Int) : FixedNumber F).inner := by
    rw [hwhole]
    exact Int.mul_pos (by omega) F.div_pos'
  have hreal := saturatingFromInteger_real hF (n := 2 * i + 1) (by omega)
  have hden : (1 : ℝ) ≤ 2 * i + 1 := by linarith [(Nat.cast_nonneg i : (0 : ℝ) ≤ i)]
  rw [hindex]
  have htoward := checkedDiv_toward (x := power) hpos
  have hquot : |power.toReal / (saturatingFromInteger ((2 * i + 1 : Nat) : Int) : FixedNumber F).toReal| ≤ 1 := by
    rw [hreal, abs_div, Nat.abs_cast]
    push_cast
    rw [div_le_one (by linarith)]
    exact (h.power_toward.abs_le.trans (abs_odd_pow_le ht i)).trans (by linarith)
  have hnear := checkedDiv_near hF hpos hquot
  rw [hreal] at htoward hnear
  push_cast at htoward hnear ⊢
  refine ⟨htoward.trans (h.power_toward.div (by linarith)), ?_⟩
  have hpower : |power.toReal / (2 * i + 1) - t ^ (2 * i + 1) / (2 * i + 1)| ≤ 3 / 2 * F.unit := by
    rw [← sub_div, abs_div, abs_of_pos (by linarith : (0 : ℝ) < 2 * i + 1)]
    exact (div_le_self (abs_nonneg _) hden).trans h.power_near
  have htri := abs_sub_le ((power.checkedDiv (saturatingFromInteger (2 * (i : Int) + 1))).getD zero).toReal
    (power.toReal / (2 * i + 1)) (t ^ (2 * i + 1) / (2 * i + 1))
  linarith

theorem AtanhState.next (hF : F.Decimal) (ht : |t| ≤ 1 / 3) (h : AtanhState t i sum power)
    (hsq : 0 ≤ tSq.toReal ∧ tSq.toReal ≤ t ^ 2) (hsqnear : |tSq.toReal - t ^ 2| ≤ F.unit)
    (hterm : Toward term.toReal (t ^ (2 * i + 1) / (2 * i + 1)))
    (hnear : |term.toReal - t ^ (2 * i + 1) / (2 * i + 1)| ≤ 5 / 2 * F.unit) :
    (sum.saturatingAdd term).toReal = sum.toReal + term.toReal ∧
      AtanhState t (i + 1) (sum.saturatingAdd term) ((power.checkedMul tSq).getD zero) := by
  have hu := F.unit_pos
  have hninth := sq_le_ninth ht
  have hadd := h.sum_toward.add hterm (atanhSum_mul_nonneg t i)
  rw [← atanhSum_succ] at hadd
  have hexact : (sum.saturatingAdd term).toReal = sum.toReal + term.toReal :=
    saturatingAdd_exact hF (hadd.abs_le.trans ((abs_atanhSum_le ht _).trans (by norm_num)))
  have hpower : |power.toReal| ≤ 1 / 3 := h.power_toward.abs_le.trans (abs_odd_pow_le ht i)
  have hmul := checkedMul_near hF (x := power) (y := tSq) (hpower.trans (by norm_num)) (by
    rw [abs_of_nonneg hsq.1]
    linarith)
  have hpow : t ^ (2 * (i + 1) + 1) = t ^ (2 * i + 1) * t ^ 2 := by ring
  refine ⟨hexact, hexact ▸ hadd, ?_, ?_, ?_⟩
  · rw [hexact, atanhSum_succ]
    have hsplit : sum.toReal + term.toReal - (atanhSum t i + t ^ (2 * i + 1) / (2 * i + 1)) =
        (sum.toReal - atanhSum t i) + (term.toReal - t ^ (2 * i + 1) / (2 * i + 1)) := by ring
    rw [hsplit]
    have hsum := (abs_add_le _ _).trans (add_le_add h.sum_near hnear)
    push_cast
    linarith
  · rw [hpow]
    exact (checkedMul_toward _ _).trans (h.power_toward.mul hsq.1 hsq.2)
  · have hsplit : power.toReal * tSq.toReal - t ^ (2 * i + 1) * t ^ 2 =
        (power.toReal - t ^ (2 * i + 1)) * t ^ 2 + power.toReal * (tSq.toReal - t ^ 2) := by ring
    have hfirst : |(power.toReal - t ^ (2 * i + 1)) * t ^ 2| ≤ 3 / 2 * F.unit * (1 / 9) := by
      rw [abs_mul, abs_of_nonneg (sq_nonneg t)]
      exact mul_le_mul h.power_near hninth (sq_nonneg t) (by positivity)
    have hsecond : |power.toReal * (tSq.toReal - t ^ 2)| ≤ 1 / 3 * F.unit := by
      rw [abs_mul]
      exact mul_le_mul hpower hsqnear (abs_nonneg _) (by norm_num)
    have hprod : |power.toReal * tSq.toReal - t ^ (2 * i + 1) * t ^ 2| ≤
        3 / 2 * F.unit * (1 / 9) + 1 / 3 * F.unit := by
      rw [hsplit]
      exact (abs_add_le _ _).trans (add_le_add hfirst hsecond)
    have htri := abs_sub_le ((power.checkedMul tSq).getD zero).toReal (power.toReal * tSq.toReal)
      (t ^ (2 * i + 1) * t ^ 2)
    rw [hpow]
    linarith

theorem saturatingAbs_le_ulp (x : FixedNumber F) :
    x.saturatingAbs.inner ≤ (ulp : FixedNumber F).inner ↔ |x.toReal| ≤ F.unit := by
  have hmax := F.two_div_le
  have hD := F.div_pos'
  have habs : |x.toReal| ≤ F.unit ↔ |x.inner| ≤ 1 := by
    rw [toReal, FixedRepr.unit, abs_div, abs_of_pos F.div_pos_real, div_le_div_iff_of_pos_right F.div_pos_real]
    exact_mod_cast Iff.rfl
  rw [habs, saturatingAbs, clamp_of_nonneg (abs_nonneg _), ulp_inner]
  omega

/-- The twentieth term is below the last place. -/
theorem last_term_le (hF : F.Decimal) (ht : |t| ≤ 1 / 3) : |t ^ (2 * 19 + 1) / (2 * (19 : Nat) + 1)| ≤ F.unit := by
  have hpow : |t| ^ 39 ≤ (1 / 3) ^ 39 := pow_le_pow_left₀ (abs_nonneg t) ht 39
  have hdiv : (F.div : ℝ) ≤ 10 ^ 18 := by exact_mod_cast hF.div_le
  have hunit : 1 / 10 ^ 18 ≤ F.unit := one_div_le_one_div_of_le F.div_pos_real hdiv
  rw [abs_odd_term]
  refine (div_le_self (by positivity) (by norm_num)).trans (hpow.trans (le_trans ?_ hunit))
  norm_num

theorem AtanhState.stop (ht : |t| ≤ 1 / 3) (h : AtanhState t i sum power) (hi : i ≤ 19)
    (hterm : |term.toReal| ≤ F.unit) (hnear : |term.toReal - t ^ (2 * i + 1) / (2 * i + 1)| ≤ 5 / 2 * F.unit) :
    |2 * sum.toReal - (Real.log (1 + t) - Real.log (1 - t))| ≤ 103 * F.unit := by
  have hu := F.unit_pos
  have hninth := sq_le_ninth ht
  have hsmall : |t ^ (2 * i + 1) / (2 * i + 1)| ≤ 7 / 2 * F.unit := by
    have htri := abs_sub_le (t ^ (2 * i + 1) / (2 * (i : ℝ) + 1)) term.toReal 0
    rw [sub_zero, sub_zero, abs_sub_comm] at htri
    linarith
  have htail := atanhSum_tail (ht.trans_lt (by norm_num)) i
  rw [← abs_odd_term] at htail
  have hrest : 2 * |t ^ (2 * i + 1) / (2 * i + 1)| / (1 - t ^ 2) ≤ 8 * F.unit := by
    rw [div_le_iff₀ (by linarith)]
    nlinarith
  have hi' : (i : ℝ) ≤ 19 := by exact_mod_cast hi
  have hloss : 5 / 2 * i * F.unit ≤ 95 / 2 * F.unit := mul_le_mul_of_nonneg_right (by linarith) hu.le
  have hsum := h.sum_near.trans hloss
  have hsplit : 2 * sum.toReal - (Real.log (1 + t) - Real.log (1 - t)) =
      2 * (sum.toReal - atanhSum t i) - (Real.log (1 + t) - Real.log (1 - t) - 2 * atanhSum t i) := by ring
  have hdouble : |2 * (sum.toReal - atanhSum t i)| ≤ 95 * F.unit := by
    rw [abs_mul, abs_of_pos (two_pos : (0 : ℝ) < 2)]
    linarith
  rw [hsplit]
  exact (abs_sub _ _).trans (by linarith)

theorem AtanhState.loop (hF : F.Decimal) (ht : |t| ≤ 1 / 3) (hsq : 0 ≤ tSq.toReal ∧ tSq.toReal ≤ t ^ 2)
    (hsqnear : |tSq.toReal - t ^ 2| ≤ F.unit) {fuel : Nat} (h : AtanhState t i sum power) (hi : i ≤ 19)
    (hfuel : 20 ≤ i + fuel) :
    |2 * (atanhLoop fuel i tSq sum power).toReal - (Real.log (1 + t) - Real.log (1 - t))| ≤ 103 * F.unit := by
  induction fuel generalizing i sum power with
  | zero => omega
  | succ fuel ih =>
    obtain ⟨htoward, hnear⟩ := h.term_near hF ht hi
    rw [atanhLoop]
    dsimp only
    generalize (power.checkedDiv (saturatingFromInteger (2 * i + 1))).getD zero = term at htoward hnear ⊢
    by_cases hlast : |term.toReal| ≤ F.unit
    · rw [if_pos ((saturatingAbs_le_ulp term).mpr hlast)]
      exact h.stop ht hi hlast hnear
    · obtain ⟨hexact, hnext⟩ := h.next hF ht hsq hsqnear htoward hnear
      have hi19 : i ≠ 19 := by
        rintro rfl
        exact hlast (htoward.abs_le.trans (last_term_le hF ht))
      have hmoved : sum.saturatingAdd term ≠ sum := by
        intro heq
        rw [heq] at hexact
        have hzero : term.toReal = 0 := by linarith
        rw [hzero, abs_zero] at hlast
        exact hlast F.unit_pos.le
      rw [if_neg (fun hle => hlast ((saturatingAbs_le_ulp term).mp hle)), if_neg hmoved]
      exact ih hnext (by omega) (by omega)

end Series

section NearOne

variable {y : FixedNumber F}

theorem two_eq_saturatingFromInteger (hF : F.Decimal) :
    (one.saturatingAdd one : FixedNumber F) = saturatingFromInteger ((2 : Nat) : Int) := by
  refine FixedNumber.ext ?_
  rw [two_inner, hF.saturatingFromInteger_inner (by norm_num) (by norm_num)]
  rfl

theorem toReal_of_near (h : 2 * |y.inner - F.div| ≤ F.div) : |y.toReal - 1| ≤ 1 / 2 := by
  have hD := F.div_pos_real
  have hreal : 2 * |(y.inner : ℝ) - F.div| ≤ F.div := by exact_mod_cast h
  have hsplit : y.toReal - 1 = ((y.inner : ℝ) - F.div) / F.div := by
    rw [sub_div, div_self hD.ne']
    rfl
  rw [hsplit, abs_div, abs_of_pos hD, div_le_iff₀ hD]
  linarith

/-- The argument of the series, cut off once. -/
theorem logArgument_near (hF : F.Decimal) (hy : 2 * |y.inner - F.div| ≤ F.div)
    (hside : F.minInner = 0 → (F.div : Int) ≤ y.inner) :
    |(((y.saturatingSub one).checkedDiv (y.saturatingAdd one)).getD zero).toReal -
          (y.toReal - 1) / (y.toReal + 1)| ≤ F.unit ∧
      Toward (((y.saturatingSub one).checkedDiv (y.saturatingAdd one)).getD zero).toReal
          ((y.toReal - 1) / (y.toReal + 1)) ∧
        |(y.toReal - 1) / (y.toReal + 1)| ≤ 1 / 3 := by
  have hD := F.div_pos'
  have hmin := F.min_nonpos
  have hmax := hF.mul_le_max (n := 3) (by norm_num)
  obtain ⟨hlow, hup⟩ := abs_le.mp (toReal_of_near hy)
  have habs := abs_le.mp (le_refl |y.inner - F.div|)
  have hden : (y.saturatingAdd one).inner = y.inner + F.div := by
    rw [saturatingAdd_inner, one_inner, FixedNumber.clamp_of_mem] <;> omega
  have hdenr : (y.saturatingAdd one).toReal = y.toReal + 1 := by
    rw [toReal, hden, toReal]
    push_cast
    rw [add_div, div_self F.div_pos_real.ne']
  have hnum : (y.saturatingSub one).inner = y.inner - F.div := by
    rw [saturatingSub_inner, one_inner]
    refine clamp_exact hF (fun h => ?_) ?_
    · have hge := hside h
      omega
    · have hle : (F.div : Int) ≤ F.div * 10 ^ 9 := by omega
      omega
  have hnumr : (y.saturatingSub one).toReal = y.toReal - 1 := by
    rw [toReal, hnum, toReal]
    push_cast
    rw [sub_div, div_self F.div_pos_real.ne']
  have hthird : |(y.toReal - 1) / (y.toReal + 1)| ≤ 1 / 3 := by
    rw [abs_div, abs_of_pos (by linarith : 0 < y.toReal + 1), div_le_iff₀ (by linarith)]
    exact abs_le.mpr ⟨by linarith, by linarith⟩
  have hpos : 0 < (y.saturatingAdd one).inner := by omega
  have hquot := checkedDiv_near (x := y.saturatingSub one) hF hpos (by
    rw [hnumr, hdenr]
    exact hthird.trans (by norm_num))
  have htoward := checkedDiv_toward (x := y.saturatingSub one) hpos
  rw [hnumr, hdenr] at hquot htoward
  exact ⟨hquot, htoward, hthird⟩

theorem abs_logRatio_sub_le {s t e : ℝ} (hs : |s| ≤ 1 / 3) (ht : |t| ≤ 1 / 3) (h : |s - t| ≤ e) :
    |Real.log (1 + s) - Real.log (1 - s) - (Real.log (1 + t) - Real.log (1 - t))| ≤ 3 * e := by
  obtain ⟨hs1, hs2⟩ := abs_le.mp hs
  obtain ⟨ht1, ht2⟩ := abs_le.mp ht
  have hc : (0 : ℝ) < 2 / 3 := by norm_num
  have hup := abs_log_sub_le hc (by linarith : 2 / 3 ≤ 1 + s) (by linarith : 2 / 3 ≤ 1 + t)
  have hdown := abs_log_sub_le hc (by linarith : 2 / 3 ≤ 1 - s) (by linarith : 2 / 3 ≤ 1 - t)
  have hsame : 1 + s - (1 + t) = s - t := by ring
  have hopposite : 1 - s - (1 - t) = -(s - t) := by ring
  rw [hsame] at hup
  rw [hopposite, abs_neg] at hdown
  have hquot : |s - t| / (2 / 3) ≤ 3 / 2 * e := by
    rw [div_le_iff₀ hc]
    linarith
  have hsplit : Real.log (1 + s) - Real.log (1 - s) - (Real.log (1 + t) - Real.log (1 - t)) =
      (Real.log (1 + s) - Real.log (1 + t)) - (Real.log (1 - s) - Real.log (1 - t)) := by ring
  rw [hsplit]
  exact (abs_sub _ _).trans (by linarith)

theorem lnNearOne_near (hF : F.Decimal) (hy : 2 * |y.inner - F.div| ≤ F.div)
    (hside : F.minInner = 0 → (F.div : Int) ≤ y.inner) :
    |(lnNearOne y).toReal - Real.log y.toReal| ≤ 106 * F.unit := by
  have hy0 : 0 < y.toReal := by
    have hlow := (abs_le.mp (toReal_of_near hy)).1
    linarith
  obtain ⟨hquot, htoward, hthird⟩ := logArgument_near hF hy hside
  obtain ⟨-, hlog⟩ := logArgument hy0
  unfold lnNearOne
  dsimp only
  generalize ((y.saturatingSub one).checkedDiv (y.saturatingAdd one)).getD zero = t at hquot htoward ⊢
  have ht : |t.toReal| ≤ 1 / 3 := htoward.abs_le.trans hthird
  have ht1 : |t.toReal| ≤ 1 := ht.trans (by norm_num)
  have hsq := (checkedMul_toward t t).of_nonneg (mul_self_nonneg _)
  have hsqnear := checkedMul_near hF ht1 ht1
  rw [← sq] at hsq hsqnear
  have hloop : |2 * (atanhLoop maxIterations 0 ((t.checkedMul t).getD zero) zero t).toReal -
      (Real.log (1 + t.toReal) - Real.log (1 - t.toReal))| ≤ 103 * F.unit :=
    AtanhState.loop hF ht hsq hsqnear (AtanhState.start rfl) (Nat.zero_le _) (by decide)
  obtain ⟨n, hsum⟩ : ∃ n, Toward (atanhLoop maxIterations 0 ((t.checkedMul t).getD zero) zero t).toReal
      (atanhSum t.toReal n) := by
    refine atanhLoop_toward hF hsq (by decide) ?_ ?_
    · rw [toReal_zero]
      exact Toward.zero _
    · rw [Nat.mul_zero, Nat.zero_add, pow_one]
      exact Toward.refl _
  have hsmall := hsum.abs_le.trans (abs_atanhSum_le ht n)
  have hdouble := saturatingMul_exact hF (n := 2) (by norm_num)
    (x := atanhLoop maxIterations 0 ((t.checkedMul t).getD zero) zero t) (hsmall.trans (by norm_num))
  have hshift := abs_logRatio_sub_le ht hthird hquot
  rw [hlog] at hshift
  rw [two_eq_saturatingFromInteger hF, hdouble]
  push_cast
  rw [mul_comm]
  have htri := abs_sub_le (2 * (atanhLoop maxIterations 0 ((t.checkedMul t).getD zero) zero t).toReal)
    (Real.log (1 + t.toReal) - Real.log (1 - t.toReal)) (Real.log y.toReal)
  linarith

end NearOne

end FrameSuite
