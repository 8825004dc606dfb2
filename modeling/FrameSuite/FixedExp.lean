import FrameSuite.FixedReal
import FrameSuite.FixedSqrt
import Mathlib.Analysis.Complex.ExponentialBounds

/-! The exponential function of a fixed-point number. The whole part of the argument is a power of the constant
`e`, by repeated squaring, and the rest a Taylor series that ends at the last place. -/

namespace FrameSuite

open FixedNumber

variable {F : FixedRepr}

/-- The squares that remain, the result so far, the current square and the exponent that is left. -/
def powiLoop : Nat → FixedNumber F → FixedNumber F → Nat → FixedNumber F
  | 0, result, _, _ => result
  | bits + 1, result, base, n =>
    if n = 0 then result
    else
      powiLoop bits (if n % 2 = 1 then result.saturatingMul base else result)
        (if 0 < n / 2 then base.saturatingMul base else base) (n / 2)

/-- The exponents have 128 bits. -/
def fixedPowiPositive (x : FixedNumber F) (n : Nat) : FixedNumber F := powiLoop 128 one x n

def fixedPowi (x : FixedNumber F) (n : Int) : Option (FixedNumber F) :=
  if n = 0 then some one
  else if n < 0 then
    if x = zero then none else one.checkedDiv (fixedPowiPositive x n.natAbs)
  else some (fixedPowiPositive x n.toNat)

/-- The iterations that remain, the index of the next term, the argument, the sum and the last term. -/
def taylorLoop : Nat → Nat → FixedNumber F → FixedNumber F → FixedNumber F → FixedNumber F
  | 0, _, _, sum, _ => sum
  | n + 1, i, r, sum, term =>
    let nextTerm := (((term.checkedMul r).getD zero).checkedDiv (saturatingFromInteger i)).getD zero
    if nextTerm.saturatingAbs.inner ≤ (ulp : FixedNumber F).inner then sum
    else
      let newSum := sum.saturatingAdd nextTerm
      if newSum = sum then sum else taylorLoop n (i + 1) r newSum nextTerm

def taylorExp (r : FixedNumber F) : FixedNumber F := taylorLoop maxIterations 1 r one one

/-- The inner value, if it fits in 128 bits with a sign. -/
def innerI128? (x : FixedNumber F) : Option Int := if x.inner ≤ 2 ^ 127 - 1 then some x.inner else none

def clampI32 (n : Int) : Int := max (-2 ^ 31) (min n (2 ^ 31 - 1))

def eulerNumber : FixedNumber F := saturatingFromRational 2718281828459045235 (10 ^ 18)

def fixedExp (x : FixedNumber F) : Option (FixedNumber F) :=
  if x = zero then some one
  else if x.inner < (saturatingFromInteger (-(F.decimals * 10)) : FixedNumber F).inner then some zero
  else
    (innerI128? x).bind fun inner =>
      let n := clampI32 (inner.tdiv F.div)
      let sum := taylorExp (x.saturatingSub (saturatingFromInteger n))
      if n = 0 then some sum
      else
        (fixedPowi eulerNumber n).bind fun expN =>
          if (maxValue : FixedNumber F).inner ≤ expN.inner then none else sum.checkedMul expN

section Power

variable {bits n : Nat} {result base : FixedNumber F}

theorem pow_mod_mul_pow_div (b : ℝ) (n : Nat) : b ^ (n % 2) * (b ^ 2) ^ (n / 2) = b ^ n := by
  rw [← pow_mul, ← pow_add, Nat.mod_add_div]

theorem powiLoop_succ (hn : n ≠ 0) :
    powiLoop (bits + 1) result base n =
      powiLoop bits (if n % 2 = 1 then result.saturatingMul base else result)
        (if 0 < n / 2 then base.saturatingMul base else base) (n / 2) := by
  rw [powiLoop, if_neg hn]

theorem powiLoop_zero_exponent : powiLoop bits result base 0 = result := by
  cases bits with
  | zero => rfl
  | succ bits => exact if_pos rfl

theorem powiLoop_toward (hn : n < 2 ^ bits) :
    Toward (powiLoop bits result base n).toReal (result.toReal * base.toReal ^ n) := by
  induction bits generalizing n result base with
  | zero =>
    obtain rfl : n = 0 := by omega
    rw [powiLoop_zero_exponent, pow_zero, mul_one]
    exact Toward.refl _
  | succ bits ih =>
    rcases Nat.eq_zero_or_pos n with rfl | hpos
    · rw [powiLoop_zero_exponent, pow_zero, mul_one]
      exact Toward.refl _
    rw [powiLoop_succ hpos.ne']
    have hr : Toward (if n % 2 = 1 then result.saturatingMul base else result).toReal
        (result.toReal * base.toReal ^ (n % 2)) := by
      rcases Nat.mod_two_eq_zero_or_one n with h | h
      · rw [h, if_neg (by decide), pow_zero, mul_one]
        exact Toward.refl _
      · rw [h, if_pos rfl, pow_one]
        exact saturatingMul_toward _ _
    rcases Nat.eq_zero_or_pos (n / 2) with hz | hhalf
    · rw [hz, powiLoop_zero_exponent]
      have hmod : n % 2 = n := by omega
      rw [hmod] at hr ⊢
      exact hr
    · have hsq := (saturatingMul_toward base base).of_nonneg (mul_self_nonneg _)
      rw [← sq] at hsq
      rw [if_pos hhalf, ← pow_mod_mul_pow_div, ← mul_assoc]
      exact (ih (by omega)).trans (hr.mul (pow_nonneg hsq.1 _) (pow_le_pow_left₀ hsq.1 hsq.2 _))

theorem powiLoop_le (hr : 0 ≤ result.inner) (hb : 0 ≤ base.inner) (hn : n < 2 ^ bits) :
    0 ≤ (powiLoop bits result base n).inner ∧
      (powiLoop bits result base n).toReal ≤ result.toReal * base.toReal ^ n := by
  have hpow := pow_nonneg (toReal_nonneg.mpr hb) n
  rw [← toReal_nonneg]
  exact (powiLoop_toward hn).of_nonneg (mul_nonneg (toReal_nonneg.mpr hr) hpow)

theorem saturatingMul_max {x : FixedNumber F} (hx : 1 ≤ x.toReal) :
    maxValue.saturatingMul x = maxValue ∧ x.saturatingMul maxValue = maxValue := by
  have hx1 : (F.div : Int) ≤ x.inner :=
    toReal_le_toReal.mp (by rw [toReal_one]; exact hx : (one : FixedNumber F).toReal ≤ _)
  have hmin := F.min_nonpos
  have hM := F.one_le_max
  have hge : F.maxInner ≤ (F.maxInner * x.inner).tdiv F.div :=
    Int.le_tdiv_of_mul_le F.div_pos' (Int.mul_le_mul_of_nonneg_left hx1 (by omega))
  have hmax : maxValue.saturatingMul x = maxValue := by
    refine FixedNumber.ext ?_
    rw [saturatingMul_inner, clamp_inner, maxValue_inner]
    omega
  refine ⟨hmax, ?_⟩
  rw [FixedNumber.saturatingMul, Int.mul_comm]
  exact hmax

theorem one_le_max_real : 1 ≤ (maxValue : FixedNumber F).toReal := by
  rw [← toReal_one (F := F)]
  exact toReal_le_max one

/-- Once the result or a square that is still needed has reached the largest value, it stays there. -/
theorem powiLoop_max (hr : 1 ≤ result.toReal) (hb : 1 ≤ base.toReal) (hn : n < 2 ^ bits)
    (hmax : result = maxValue ∨ (base = maxValue ∧ 0 < n)) : powiLoop bits result base n = maxValue := by
  induction bits generalizing n result base with
  | zero =>
    obtain rfl : n = 0 := by omega
    rcases hmax with rfl | ⟨-, hpos⟩
    · rfl
    · exact absurd hpos (Nat.lt_irrefl 0)
  | succ bits ih =>
    rcases Nat.eq_zero_or_pos n with rfl | hpos
    · rcases hmax with rfl | ⟨-, hpos⟩
      · exact powiLoop_zero_exponent
      · exact absurd hpos (Nat.lt_irrefl 0)
    rw [powiLoop_succ hpos.ne']
    have hr' : 1 ≤ (if n % 2 = 1 then result.saturatingMul base else result).toReal := by
      split
      · exact (le_saturatingMul hr hb).1
      · exact hr
    have hb' : 1 ≤ (if 0 < n / 2 then base.saturatingMul base else base).toReal := by
      split
      · exact (le_saturatingMul hb hb).1
      · exact hb
    refine ih hr' hb' (by omega) ?_
    rcases hmax with rfl | ⟨rfl, -⟩
    · left
      split
      · exact (saturatingMul_max hb).1
      · rfl
    · rcases Nat.mod_two_eq_zero_or_one n with h | h
      · right
        have hhalf : 0 < n / 2 := by omega
        rw [if_pos hhalf]
        exact ⟨(saturatingMul_max one_le_max_real).1, hhalf⟩
      · left
        rw [if_pos h]
        exact (saturatingMul_max hr).2

/-- From one on each factor counts with at most one lost unit, unless the power exceeds the type. -/
theorem le_powiLoop (hr : 1 ≤ result.toReal) (hb : 1 ≤ base.toReal) (hu : F.unit ≤ 1) (hn : n < 2 ^ bits) :
    1 ≤ (powiLoop bits result base n).toReal ∧
      (powiLoop bits result base n = maxValue ∨
        result.toReal * (base.toReal * (1 - F.unit)) ^ n ≤ (powiLoop bits result base n).toReal) := by
  induction bits generalizing n result base with
  | zero =>
    obtain rfl : n = 0 := by omega
    rw [powiLoop_zero_exponent, pow_zero, mul_one]
    exact ⟨hr, Or.inr (le_refl _)⟩
  | succ bits ih =>
    rcases Nat.eq_zero_or_pos n with rfl | hpos
    · rw [powiLoop_zero_exponent, pow_zero, mul_one]
      exact ⟨hr, Or.inr (le_refl _)⟩
    rw [powiLoop_succ hpos.ne']
    have hu0 : 0 ≤ 1 - F.unit := by linarith
    have hbu : 0 ≤ base.toReal * (1 - F.unit) := mul_nonneg (by linarith) hu0
    have hr' : 1 ≤ (if n % 2 = 1 then result.saturatingMul base else result).toReal ∧
        ((if n % 2 = 1 then result.saturatingMul base else result) = maxValue ∨
          result.toReal * (base.toReal * (1 - F.unit)) ^ (n % 2) ≤
            (if n % 2 = 1 then result.saturatingMul base else result).toReal) := by
      rcases Nat.mod_two_eq_zero_or_one n with h | h
      · rw [h, if_neg (by decide), pow_zero, mul_one]
        exact ⟨hr, Or.inr (le_refl _)⟩
      · rw [h, if_pos rfl, pow_one, ← mul_assoc]
        exact le_saturatingMul hr hb
    rcases Nat.eq_zero_or_pos (n / 2) with hz | hhalf
    · rw [hz, powiLoop_zero_exponent]
      have hmod : n % 2 = n := by omega
      rw [hmod] at hr' ⊢
      exact hr'
    · rw [if_pos hhalf]
      obtain ⟨hb1, hsq⟩ := le_saturatingMul hb hb
      have hlt : n / 2 < 2 ^ bits := by omega
      obtain ⟨hone, hlow⟩ := ih hr'.1 hb1 hlt
      refine ⟨hone, ?_⟩
      rcases hr'.2 with hm | hrl
      · exact Or.inl (powiLoop_max hr'.1 hb1 hlt (Or.inl hm))
      rcases hsq with hm | hbl
      · exact Or.inl (powiLoop_max hr'.1 hb1 hlt (Or.inr ⟨hm, hhalf⟩))
      refine hlow.imp_right fun hle => le_trans ?_ hle
      have hsq' : (base.toReal * (1 - F.unit)) ^ 2 ≤ (base.saturatingMul base).toReal * (1 - F.unit) := by
        have hmul := mul_le_mul_of_nonneg_right hbl hu0
        calc (base.toReal * (1 - F.unit)) ^ 2 = base.toReal * base.toReal * (1 - F.unit) * (1 - F.unit) := by ring
          _ ≤ _ := hmul
      calc result.toReal * (base.toReal * (1 - F.unit)) ^ n =
            result.toReal * (base.toReal * (1 - F.unit)) ^ (n % 2) *
              ((base.toReal * (1 - F.unit)) ^ 2) ^ (n / 2) := by rw [mul_assoc, pow_mod_mul_pow_div]
        _ ≤ _ := mul_le_mul hrl (pow_le_pow_left₀ (sq_nonneg _) hsq' _) (by positivity) (by linarith)

end Power

section Series

variable {r : FixedNumber F}

theorem tdiv_tdiv (a : Int) {b c : Int} (hb : 0 ≤ b) : (a.tdiv b).tdiv c = a.tdiv (b * c) := by
  rcases Int.le_total 0 a with ha | ha
  · rw [Int.tdiv_eq_ediv_of_nonneg ha, Int.tdiv_eq_ediv_of_nonneg (Int.ediv_nonneg ha hb),
      Int.tdiv_eq_ediv_of_nonneg ha, Int.ediv_ediv_of_nonneg hb]
  · obtain ⟨m, rfl⟩ : ∃ m, a = -m := ⟨-a, by omega⟩
    have hm : 0 ≤ m := by omega
    rw [Int.neg_tdiv, Int.neg_tdiv, Int.neg_tdiv, Int.tdiv_eq_ediv_of_nonneg hm,
      Int.tdiv_eq_ediv_of_nonneg (Int.ediv_nonneg hm hb), Int.tdiv_eq_ediv_of_nonneg hm,
      Int.ediv_ediv_of_nonneg hb]

/-- The argument of the series is within one of zero, on the side that the format has. -/
structure SeriesArg (r : FixedNumber F) : Prop where
  decimal : F.Decimal
  abs_inner_le : |r.inner| ≤ F.div

theorem SeriesArg.abs_real_le (h : SeriesArg r) : |(r.inner : ℝ) / F.div| ≤ 1 := by
  rw [abs_div, abs_of_pos F.div_pos_real, div_le_one F.div_pos_real]
  exact_mod_cast h.abs_inner_le

theorem SeriesArg.abs_term_le (h : SeriesArg r) (i : Nat) : |taylorTerm F.div r.inner i| ≤ F.div := by
  have hle := abs_taylorTerm_le F.div_pos r.inner i
  have hone : |(r.inner : ℝ) / F.div| ^ i / i.factorial ≤ 1 := by
    rw [div_le_one (by exact_mod_cast i.factorial_pos)]
    exact (pow_le_one₀ (abs_nonneg _) h.abs_real_le).trans (by exact_mod_cast i.factorial_pos)
  have hD : |(taylorTerm F.div r.inner i : ℝ)| ≤ F.div := hle.trans (mul_le_of_le_one_right F.div_pos_real.le hone)
  exact_mod_cast hD

theorem SeriesArg.abs_sum_le (h : SeriesArg r) (n : Nat) : |taylorSum F.div r.inner n| ≤ 3 * F.div := by
  have hsum : |(taylorSum F.div r.inner n : ℝ)| ≤ F.div * Real.exp |(r.inner : ℝ) / F.div| := by
    rw [taylorSum, Int.cast_sum]
    calc _ ≤ ∑ i ∈ Finset.range n, |(taylorTerm F.div r.inner i : ℝ)| := Finset.abs_sum_le_sum_abs _ _
      _ ≤ ∑ i ∈ Finset.range n, (F.div : ℝ) * (|(r.inner : ℝ) / F.div| ^ i / i.factorial) :=
          Finset.sum_le_sum fun i _ => abs_taylorTerm_le F.div_pos r.inner i
      _ = F.div * ∑ i ∈ Finset.range n, |(r.inner : ℝ) / F.div| ^ i / i.factorial := (Finset.mul_sum _ _ _).symm
      _ ≤ _ := mul_le_mul_of_nonneg_left (Real.sum_le_exp_of_nonneg (abs_nonneg _) n) F.div_pos_real.le
  have hexp : Real.exp |(r.inner : ℝ) / F.div| ≤ 3 :=
    (Real.exp_le_exp.mpr h.abs_real_le).trans (Real.exp_one_lt_d9.le.trans (by norm_num))
  have hle : |(taylorSum F.div r.inner n : ℝ)| ≤ 3 * F.div := by
    have hmul := mul_le_mul_of_nonneg_left hexp F.div_pos_real.le
    linarith
  exact_mod_cast hle

theorem SeriesArg.min_le (h : SeriesArg r) (n : Nat) :
    F.minInner ≤ taylorTerm F.div r.inner n ∧ F.minInner ≤ taylorSum F.div r.inner n := by
  rcases h.decimal.signed with hmin | hmin
  · have hr : 0 ≤ r.inner := hmin ▸ r.min_le
    rw [hmin]
    exact ⟨taylorTerm_nonneg _ hr n, Finset.sum_nonneg fun i _ => taylorTerm_nonneg _ hr i⟩
  · have hterm := neg_le_of_abs_le (h.abs_term_le n)
    have hsum := neg_le_of_abs_le (h.abs_sum_le n)
    have hD : (3 * F.div : Int) ≤ F.div * F.div := by
      have hle : (10 ^ 9 : Int) ≤ F.div := by exact_mod_cast h.decimal.le_div
      exact Int.mul_le_mul_of_nonneg_right (by omega) F.div_pos'.le
    have hpos := F.div_pos'
    constructor <;> omega

theorem FixedRepr.Decimal.saturatingFromInteger_inner (h : F.Decimal) {n : Int} (hn : 0 ≤ n) (hn' : n ≤ 10 ^ 9) :
    (saturatingFromInteger n : FixedNumber F).inner = n * F.div :=
  clamp_of_mem (F.min_nonpos.trans (Int.mul_nonneg hn F.div_pos'.le)) (h.mul_le_max hn')

theorem saturatingFromInteger_real (hF : F.Decimal) {n : Nat} (hn : n ≤ 10 ^ 9) :
    (saturatingFromInteger (n : Int) : FixedNumber F).toReal = n := by
  rw [toReal, hF.saturatingFromInteger_inner (Int.natCast_nonneg n) (by exact_mod_cast hn)]
  push_cast
  exact mul_div_cancel_right₀ _ F.div_pos_real.ne'

theorem SeriesArg.nextTerm (h : SeriesArg r) {i : Nat} {term : FixedNumber F} (hi : i < 10 ^ 9)
    (hterm : term.inner = taylorTerm F.div r.inner i) :
    ((((term.checkedMul r).getD zero).checkedDiv (saturatingFromInteger ((i + 1 : Nat) : Int))).getD zero).inner =
      taylorTerm F.div r.inner (i + 1) := by
  have hD := F.div_pos'
  have hmax := h.decimal.mul_le_max (n := 1) (by norm_num)
  rw [Int.one_mul] at hmax
  have hnext := h.min_le (i + 1)
  have hnext' := le_of_abs_le (h.abs_term_le (i + 1))
  have hprod : F.minInner ≤ (taylorTerm F.div r.inner i * r.inner).tdiv F.div ∧
      (taylorTerm F.div r.inner i * r.inner).tdiv F.div ≤ F.maxInner := by
    have hle : |(taylorTerm F.div r.inner i * r.inner).tdiv F.div| ≤ F.div := by
      have hreal := abs_tdiv_le (taylorTerm F.div r.inner i * r.inner) hD
      have habs : |((taylorTerm F.div r.inner i * r.inner : Int) : ℝ)| ≤ (F.div : ℝ) * F.div := by
        have hmul := Int.mul_le_mul (h.abs_term_le i) h.abs_inner_le (abs_nonneg _) hD.le
        rw [← abs_mul] at hmul
        exact_mod_cast hmul
      have hquot : |((taylorTerm F.div r.inner i * r.inner : Int) : ℝ)| / ((F.div : Int) : ℝ) ≤ F.div := by
        rw [Int.cast_natCast, div_le_iff₀ F.div_pos_real]
        exact habs
      exact_mod_cast hreal.trans hquot
    refine ⟨?_, (le_of_abs_le hle).trans hmax⟩
    rcases h.decimal.signed with hmin | hmin
    · have hr : 0 ≤ r.inner := hmin ▸ r.min_le
      rw [hmin]
      exact Int.tdiv_nonneg (Int.mul_nonneg (taylorTerm_nonneg _ hr i) hr) hD.le
    · have hsq : (F.div : Int) ≤ F.div * F.div := le_mul_of_one_le_right hD.le (by omega)
      have hlow := neg_le_of_abs_le hle
      omega
  have hi' := h.decimal.saturatingFromInteger_inner (n := ((i + 1 : Nat) : Int)) (by omega) (by omega)
  have hmul : term.checkedMul r = some ⟨(taylorTerm F.div r.inner i * r.inner).tdiv F.div, hprod.1, hprod.2⟩ := by
    rw [checkedMul_eq_some, hterm]
  have hdiv : (⟨(taylorTerm F.div r.inner i * r.inner).tdiv F.div, hprod.1, hprod.2⟩ : FixedNumber F).checkedDiv
      (saturatingFromInteger ((i + 1 : Nat) : Int)) =
        some ⟨taylorTerm F.div r.inner (i + 1), hnext.1, hnext'.trans hmax⟩ := by
    have hpos : (0 : Int) < ((i + 1 : Nat) : Int) * F.div := Int.mul_pos (by omega) hD
    rw [checkedDiv_eq_some, hi', mul_div_tdiv_mul]
    refine ⟨hpos.ne', ?_⟩
    change (taylorTerm F.div r.inner i * r.inner).tdiv (F.div * (i + 1)) = _
    rw [tdiv_tdiv _ hD.le]
    rfl
  rw [hmul, Option.getD_some, hdiv, Option.getD_some]

theorem SeriesArg.taylorLoop_eq (h : SeriesArg r) {fuel i N : Nat} {sum term : FixedNumber F}
    (hsum : sum.inner = taylorSum F.div r.inner (i + 1)) (hterm : term.inner = taylorTerm F.div r.inner i)
    (hiN : i < N) (hN : N ≤ i + fuel) (hbound : N ≤ 10 ^ 9) (hlast : |taylorTerm F.div r.inner N| ≤ 1) :
    ∃ n, 0 < n ∧ n ≤ N ∧ |taylorTerm F.div r.inner n| ≤ 1 ∧
      (taylorLoop fuel (i + 1) r sum term).inner = taylorSum F.div r.inner n := by
  induction fuel generalizing i sum term with
  | zero => omega
  | succ fuel ih =>
    have hnext := h.nextTerm (by omega) hterm
    have hmax := h.decimal.mul_le_max (n := 3) (by norm_num)
    have hmax1 := h.decimal.mul_le_max (n := 1) (by norm_num)
    have habs : (((((term.checkedMul r).getD zero).checkedDiv (saturatingFromInteger ((i + 1 : Nat) : Int))).getD
        zero).saturatingAbs).inner = |taylorTerm F.div r.inner (i + 1)| := by
      have hle := h.abs_term_le (i + 1)
      have hmin := F.min_nonpos
      have hnonneg := abs_nonneg (taylorTerm F.div r.inner (i + 1))
      rw [FixedNumber.saturatingAbs, hnext, clamp_of_mem] <;> omega
    have hnew : (sum.saturatingAdd ((((term.checkedMul r).getD zero).checkedDiv
        (saturatingFromInteger ((i + 1 : Nat) : Int))).getD zero)).inner = taylorSum F.div r.inner (i + 1 + 1) := by
      have hle := le_of_abs_le (h.abs_sum_le (i + 1 + 1))
      have hmin := (h.min_le (i + 1 + 1)).2
      rw [saturatingAdd_inner, hsum, hnext, ← taylorSum_succ, clamp_of_mem] <;> omega
    rw [taylorLoop]
    split
    · rename_i hsmall
      rw [habs, ulp_inner] at hsmall
      exact ⟨i + 1, Nat.succ_pos i, hiN, hsmall, hsum⟩
    · rename_i hlarge
      rw [habs, ulp_inner] at hlarge
      have hne : taylorTerm F.div r.inner (i + 1) ≠ 0 := fun hz => hlarge (by rw [hz]; decide)
      have hchange : sum.saturatingAdd ((((term.checkedMul r).getD zero).checkedDiv
          (saturatingFromInteger ((i + 1 : Nat) : Int))).getD zero) ≠ sum := by
        intro heq
        have hinner := congrArg FixedNumber.inner heq
        rw [hnew, hsum, taylorSum_succ] at hinner
        omega
      have hlt : i + 1 < N := by
        rcases Nat.lt_or_ge (i + 1) N with hlt | hge
        · exact hlt
        · obtain rfl : N = i + 1 := by omega
          exact absurd hlast hlarge
      dsimp only
      rw [if_neg hchange]
      exact ih hnew hnext hlt (by omega)

theorem SeriesArg.last_term (h : SeriesArg r) : |taylorTerm F.div r.inner 20| ≤ 1 := by
  have hle := abs_taylorTerm_le F.div_pos r.inner 20
  have hpow : |(r.inner : ℝ) / F.div| ^ 20 ≤ 1 := pow_le_one₀ (abs_nonneg _) h.abs_real_le
  have hD : (F.div : ℝ) ≤ 10 ^ 18 := by exact_mod_cast h.decimal.div_le
  have hfact : ((20 : Nat).factorial : ℝ) = 2432902008176640000 := by norm_num [Nat.factorial]
  have hone : (F.div : ℝ) * (|(r.inner : ℝ) / F.div| ^ 20 / (20 : Nat).factorial) ≤ 1 := by
    rw [hfact, mul_div_assoc', div_le_one (by norm_num)]
    calc (F.div : ℝ) * |(r.inner : ℝ) / F.div| ^ 20 ≤ F.div * 1 := mul_le_mul_of_nonneg_left hpow F.div_pos_real.le
      _ ≤ _ := by linarith
  exact_mod_cast hle.trans hone

theorem SeriesArg.taylorExp_eq (h : SeriesArg r) :
    ∃ n, 0 < n ∧ n ≤ 20 ∧ |taylorTerm F.div r.inner n| ≤ 1 ∧
      (taylorExp r).inner = taylorSum F.div r.inner n := by
  refine h.taylorLoop_eq (i := 0) ?_ rfl (by decide) (by decide) (by norm_num) h.last_term
  simp [taylorSum, taylorTerm]

theorem SeriesArg.taylorExp_near (h : SeriesArg r) : |(taylorExp r).toReal - Real.exp r.toReal| ≤ 46 * F.unit := by
  obtain ⟨n, hpos, hle, hlast, hsum⟩ := h.taylorExp_eq
  have hD := F.div_pos_real
  have hnear := abs_taylorSum_sub_le F.div_pos h.abs_real_le hpos hlast
  have hn : (n : ℝ) ≤ 20 := by exact_mod_cast hle
  rw [toReal, hsum, FixedRepr.unit, mul_one_div, le_div_iff₀ hD, ← abs_of_pos hD, ← abs_mul, abs_of_pos hD, sub_mul,
    div_mul_cancel₀ _ hD.ne', mul_comm (Real.exp _)]
  exact hnear.trans (by linarith)

theorem SeriesArg.taylorExp_of_nonneg (h : SeriesArg r) (hr : 0 ≤ r.inner) :
    1 ≤ (taylorExp r).toReal ∧ (taylorExp r).toReal ≤ Real.exp r.toReal := by
  obtain ⟨n, hpos, -, -, hsum⟩ := h.taylorExp_eq
  obtain ⟨n, rfl⟩ := Nat.exists_eq_succ_of_ne_zero hpos.ne'
  constructor
  · rw [← toReal_one (F := F), toReal_le_toReal, hsum]
    exact le_taylorSum _ hr n
  · rw [toReal, hsum, div_le_iff₀ F.div_pos_real, mul_comm]
    exact taylorSum_le F.div_pos hr _

theorem SeriesArg.taylorExp_of_nonpos (h : SeriesArg r) (hr : r.inner ≤ 0) :
    0 ≤ (taylorExp r).toReal ∧ (taylorExp r).toReal ≤ 1 := by
  have hu := h.decimal.unit_le
  have hnear := (abs_le.mp h.taylorExp_near).1
  obtain ⟨n, -, -, -, hsum⟩ := h.taylorExp_eq
  constructor
  · have hlow : -1 ≤ r.toReal := (abs_le.mp h.abs_real_le).1
    have hexp := Real.add_one_le_exp (-1)
    have hsmall : Real.exp (-1) ≤ Real.exp r.toReal := Real.exp_le_exp.mpr hlow
    have hhalf : (1 : ℝ) / 3 ≤ Real.exp (-1) := by
      rw [Real.exp_neg, one_div]
      exact inv_anti₀ (Real.exp_pos 1) (Real.exp_one_lt_d9.le.trans (by norm_num))
    have hu' : 46 * F.unit ≤ 46 * (1 / 10 ^ 9) := mul_le_mul_of_nonneg_left hu (by norm_num)
    norm_num at hu'
    linarith
  · rw [← toReal_one (F := F), toReal_le_toReal, hsum]
    exact (taylorSum_le_of_nonpos F.div_pos hr (neg_le_of_abs_le h.abs_inner_le) n).1

end Series

section Euler

variable {n : Nat}

theorem eulerNumber_real (hF : F.Decimal) :
    Real.exp 1 * (1 - F.unit) ≤ (eulerNumber : FixedNumber F).toReal ∧
      (eulerNumber : FixedNumber F).toReal ≤ Real.exp 1 := by
  have hD := F.div_pos_real
  have hD' := F.div_pos'
  have hnum : 0 ≤ 2718281828459045235 * (F.div : Int) := by positivity
  have hle := tdiv_le_div hnum (b := 10 ^ 18) (by norm_num)
  have hlt := div_lt_tdiv_add_one (2718281828459045235 * (F.div : Int)) (b := 10 ^ 18) (by norm_num)
  have hmax := hF.mul_le_max (n := 3) (by norm_num)
  have hinner : (eulerNumber : FixedNumber F).inner = (2718281828459045235 * (F.div : Int)).tdiv (10 ^ 18) := by
    have hnonneg := Int.tdiv_nonneg hnum (b := 10 ^ 18) (by norm_num)
    have hthree : (2718281828459045235 * (F.div : Int)).tdiv (10 ^ 18) ≤ 3 * F.div := by
      rw [Int.tdiv_eq_ediv_of_nonneg hnum]
      omega
    exact clamp_of_mem (F.min_nonpos.trans hnonneg) (hthree.trans hmax)
  have he := abs_le.mp Real.exp_one_near_20
  have hgt : 2.718281828459045235 ≤ Real.exp 1 := by
    have hnear := he.1
    norm_num at hnear ⊢
    linarith
  have hup : Real.exp 1 ≤ 2.718281828459045236 := by
    have hnear := he.2
    norm_num at hnear ⊢
    linarith
  rw [toReal, hinner]
  push_cast at hle hlt
  constructor
  · rw [le_div_iff₀ hD]
    have hDle : (F.div : ℝ) ≤ 10 ^ 18 := by exact_mod_cast hF.div_le
    have hscale : Real.exp 1 * (1 - F.unit) * F.div = Real.exp 1 * F.div - Real.exp 1 := by
      rw [mul_assoc, sub_mul, one_mul, mul_comm F.unit, F.div_mul_unit, mul_sub, mul_one]
    have hgap : Real.exp 1 * F.div ≤ 2.718281828459045235 * F.div + 1 := by
      have hmul := mul_le_mul_of_nonneg_right hup hD.le
      norm_num at hmul ⊢
      norm_num only at hDle
      linarith
    rw [hscale]
    norm_num at hlt hgap ⊢
    linarith
  · rw [div_le_iff₀ hD]
    have hmul := mul_le_mul_of_nonneg_right hgt hD.le
    norm_num at hle hmul ⊢
    linarith

theorem one_le_eulerNumber (hF : F.Decimal) : 1 ≤ (eulerNumber : FixedNumber F).toReal := by
  have hlow := (eulerNumber_real hF).1
  have hu := hF.unit_le
  have he := Real.exp_one_gt_d9
  nlinarith

/-- The powers of the constant are at most those of the exact one, and lose two units for each factor. -/
theorem eulerPower (hF : F.Decimal) (hn : n < 2 ^ 128) :
    1 ≤ (fixedPowiPositive (eulerNumber : FixedNumber F) n).toReal ∧
      (fixedPowiPositive (eulerNumber : FixedNumber F) n).toReal ≤ Real.exp n ∧
        (fixedPowiPositive (eulerNumber : FixedNumber F) n = maxValue ∨
          (Real.exp 1 * (1 - F.unit) ^ 2) ^ n ≤ (fixedPowiPositive (eulerNumber : FixedNumber F) n).toReal) := by
  obtain ⟨hlow, hup⟩ := eulerNumber_real hF
  have hone := one_le_eulerNumber hF
  have hu := hF.unit_le
  have hu0 := F.unit_pos
  have hu1 : F.unit ≤ 1 := hu.trans (by norm_num)
  have hexp : Real.exp n = Real.exp 1 ^ n := by rw [← Real.exp_nat_mul, mul_one]
  have hpos : 0 ≤ (eulerNumber : FixedNumber F).inner := toReal_nonneg.mp (by linarith)
  have hle := (powiLoop_le one_inner_nonneg hpos hn).2
  obtain ⟨hge, hmax⟩ := le_powiLoop toReal_one.ge hone hu1 hn
  refine ⟨hge, ?_, hmax.imp_right fun h => le_trans ?_ h⟩
  · rw [toReal_one, one_mul] at hle
    rw [hexp]
    exact hle.trans (pow_le_pow_left₀ (by linarith) hup n)
  · rw [toReal_one, one_mul]
    refine pow_le_pow_left₀ (by positivity) ?_ n
    calc Real.exp 1 * (1 - F.unit) ^ 2 = Real.exp 1 * (1 - F.unit) * (1 - F.unit) := by ring
      _ ≤ _ := mul_le_mul_of_nonneg_right hlow (by linarith)

theorem one_sub_unit_pow (hF : F.Decimal) (n : Nat) : 1 - n * F.unit ≤ (1 - F.unit) ^ n := by
  have hu := hF.unit_le
  have hpow := one_add_mul_le_pow (a := -F.unit) (by linarith) n
  calc 1 - n * F.unit = 1 + n * -F.unit := by ring
    _ ≤ (1 + -F.unit) ^ n := hpow
    _ = _ := by ring

theorem le_eulerPower (hF : F.Decimal) (hn : n < 2 ^ 128)
    (h : fixedPowiPositive (eulerNumber : FixedNumber F) n ≠ maxValue) :
    Real.exp n * (1 - 2 * n * F.unit) ≤ (fixedPowiPositive (eulerNumber : FixedNumber F) n).toReal := by
  obtain ⟨-, -, hlow⟩ := eulerPower hF hn
  have hbern := one_sub_unit_pow hF (2 * n)
  push_cast at hbern
  calc Real.exp n * (1 - 2 * n * F.unit) ≤ Real.exp n * (1 - F.unit) ^ (2 * n) :=
        mul_le_mul_of_nonneg_left hbern (Real.exp_pos _).le
    _ = (Real.exp 1 * (1 - F.unit) ^ 2) ^ n := by rw [mul_pow, ← pow_mul, ← Real.exp_nat_mul, mul_one]
    _ ≤ _ := hlow.resolve_left h

end Euler

end FrameSuite
