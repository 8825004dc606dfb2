import FrameSuite.TowardZero
import Mathlib.Analysis.Complex.Exponential

/-! The Taylor series of the exponential function in units of `1 / D`, whose terms are cut off toward zero one after
another. -/

namespace FrameSuite

/-- The terms of the series at `r / D`, each cut off before the next one is computed. -/
def taylorTerm (D : Nat) (r : Int) : Nat → Int
  | 0 => D
  | i + 1 => (taylorTerm D r i * r).tdiv (D * (i + 1))

def taylorSum (D : Nat) (r : Int) (n : Nat) : Int := ∑ i ∈ Finset.range n, taylorTerm D r i

section Series

variable {D n : Nat} {r : Int}

theorem taylorSum_succ (D : Nat) (r : Int) (n : Nat) :
    taylorSum D r (n + 1) = taylorSum D r n + taylorTerm D r n := Finset.sum_range_succ _ _

theorem abs_taylorTerm_le (hD : 0 < D) (r : Int) (i : Nat) :
    |(taylorTerm D r i : ℝ)| ≤ D * (|(r : ℝ) / D| ^ i / i.factorial) := by
  have hDr : (0 : ℝ) < D := by exact_mod_cast hD
  induction i with
  | zero => simp [taylorTerm]
  | succ i ih =>
    have hpos : (0 : Int) < D * (i + 1) := by positivity
    have hpow : (0 : ℝ) ≤ |(r : ℝ) / D| / (i + 1) := by positivity
    calc |(taylorTerm D r (i + 1) : ℝ)| ≤ |((taylorTerm D r i * r : Int) : ℝ)| / ((D * (i + 1) : Int) : ℝ) :=
          abs_tdiv_le _ hpos
      _ = |(taylorTerm D r i : ℝ)| * (|(r : ℝ) / D| / (i + 1)) := by
          push_cast
          rw [abs_mul, abs_div, abs_of_pos hDr]
          field_simp
      _ ≤ D * (|(r : ℝ) / D| ^ i / i.factorial) * (|(r : ℝ) / D| / (i + 1)) := mul_le_mul_of_nonneg_right ih hpow
      _ = D * (|(r : ℝ) / D| ^ (i + 1) / (i + 1).factorial) := by
          rw [Nat.factorial_succ, pow_succ]
          push_cast
          field_simp

/-- The errors of the terms do not add up: each is divided by the index of the next term. -/
theorem abs_taylorTerm_sub_le (hD : 0 < D) (hr : |(r : ℝ) / D| ≤ 1) (i : Nat) :
    |(taylorTerm D r i : ℝ) - D * (((r : ℝ) / D) ^ i / i.factorial)| ≤ if i = 0 then 0 else 2 := by
  have hDr : (0 : ℝ) < D := by exact_mod_cast hD
  induction i with
  | zero => simp [taylorTerm]
  | succ i ih =>
    have hpos : (0 : Int) < D * (i + 1) := by positivity
    have hcut := abs_tdiv_sub_le (taylorTerm D r i * r) hpos
    have hquot : ((taylorTerm D r i * r : Int) : ℝ) / ((D * (i + 1) : Int) : ℝ) =
        (taylorTerm D r i : ℝ) * ((r : ℝ) / D) / (i + 1) := by
      push_cast
      field_simp
    have hexact : (D : ℝ) * (((r : ℝ) / D) ^ (i + 1) / (i + 1).factorial) =
        D * (((r : ℝ) / D) ^ i / i.factorial) * ((r : ℝ) / D) / (i + 1) := by
      rw [Nat.factorial_succ, pow_succ]
      push_cast
      field_simp
    have hstep : |(taylorTerm D r i : ℝ) * ((r : ℝ) / D) / (i + 1) -
        D * (((r : ℝ) / D) ^ i / i.factorial) * ((r : ℝ) / D) / (i + 1)| ≤ 1 := by
      have hi : (0 : ℝ) < i + 1 := by positivity
      rw [← sub_div, ← sub_mul, abs_div, abs_mul, abs_of_pos hi, div_le_one hi]
      have hmul := mul_le_mul ih hr (abs_nonneg _) (by split <;> norm_num)
      rw [mul_one] at hmul
      refine hmul.trans ?_
      split
      · positivity
      · rename_i hne
        have hone : (1 : ℝ) ≤ i := by exact_mod_cast Nat.one_le_iff_ne_zero.mpr hne
        linarith
    rw [if_neg (Nat.succ_ne_zero i), hexact]
    change |(((taylorTerm D r i * r).tdiv (D * (i + 1)) : Int) : ℝ) - _| ≤ 2
    rw [hquot] at hcut
    calc _ ≤ _ := abs_sub_le _ ((taylorTerm D r i : ℝ) * ((r : ℝ) / D) / (i + 1)) _
      _ ≤ 1 + 1 := add_le_add hcut hstep
      _ = 2 := by norm_num

/-- A sum up to a term that is no more than a unit is off by the errors of its terms and a few units. -/
theorem abs_taylorSum_sub_le (hD : 0 < D) (hr : |(r : ℝ) / D| ≤ 1) (hn : 0 < n)
    (hlast : |taylorTerm D r n| ≤ 1) :
    |(taylorSum D r n : ℝ) - D * Real.exp ((r : ℝ) / D)| ≤ 2 * n + 6 := by
  have hDr : (0 : ℝ) < D := by exact_mod_cast hD
  have hterms : |(taylorSum D r n : ℝ) - D * ∑ i ∈ Finset.range n, ((r : ℝ) / D) ^ i / i.factorial| ≤ 2 * n := by
    rw [taylorSum, Int.cast_sum, Finset.mul_sum, ← Finset.sum_sub_distrib]
    refine (Finset.abs_sum_le_sum_abs _ _).trans ?_
    refine (Finset.sum_le_card_nsmul _ _ 2 fun i _ => (abs_taylorTerm_sub_le hD hr i).trans ?_).trans ?_
    · split <;> norm_num
    · rw [Finset.card_range, nsmul_eq_mul, mul_comm]
  have hnr : (1 : ℝ) ≤ n := by exact_mod_cast hn
  have hexact : (D : ℝ) * (|(r : ℝ) / D| ^ n / n.factorial) ≤ 3 := by
    have hsub := abs_taylorTerm_sub_le hD hr n
    rw [if_neg hn.ne'] at hsub
    have hlast' : |(taylorTerm D r n : ℝ)| ≤ 1 := by exact_mod_cast hlast
    have habs : |(D : ℝ) * (((r : ℝ) / D) ^ n / n.factorial)| = D * (|(r : ℝ) / D| ^ n / n.factorial) := by
      rw [abs_mul, abs_of_pos hDr, abs_div, abs_pow, Nat.abs_cast]
    have htri := abs_sub_abs_le_abs_sub ((D : ℝ) * (((r : ℝ) / D) ^ n / n.factorial)) (taylorTerm D r n)
    rw [abs_sub_comm, habs] at htri
    linarith
  have htail : |(D : ℝ) * (∑ i ∈ Finset.range n, ((r : ℝ) / D) ^ i / i.factorial) - D * Real.exp ((r : ℝ) / D)| ≤ 6 := by
    rw [← mul_sub, abs_mul, abs_of_pos hDr, abs_sub_comm]
    have hbound := mul_le_mul_of_nonneg_left (Real.exp_bound hr hn) hDr.le
    refine hbound.trans ?_
    have hfact : (0 : ℝ) < n.factorial := by exact_mod_cast n.factorial_pos
    have hsplit : (D : ℝ) * (|(r : ℝ) / D| ^ n * (n.succ / (n.factorial * n))) =
        D * (|(r : ℝ) / D| ^ n / n.factorial) * ((n + 1) / n) := by
      push_cast
      field_simp
    have hratio : ((n : ℝ) + 1) / n ≤ 2 := by
      rw [div_le_iff₀ (by linarith)]
      linarith
    have hratio0 : (0 : ℝ) ≤ ((n : ℝ) + 1) / n := by positivity
    rw [hsplit]
    calc _ ≤ (3 : ℝ) * 2 := mul_le_mul hexact hratio hratio0 (by norm_num)
      _ = 6 := by norm_num
  have htotal := abs_sub_le (taylorSum D r n : ℝ) (D * ∑ i ∈ Finset.range n, ((r : ℝ) / D) ^ i / i.factorial)
    (D * Real.exp ((r : ℝ) / D))
  linarith

theorem taylorTerm_nonneg (D : Nat) (hr : 0 ≤ r) (i : Nat) : 0 ≤ taylorTerm D r i := by
  induction i with
  | zero => exact Int.natCast_nonneg D
  | succ i ih => exact Int.tdiv_nonneg (Int.mul_nonneg ih hr) (by positivity)

theorem taylorSum_le (hD : 0 < D) (hr : 0 ≤ r) (n : Nat) :
    (taylorSum D r n : ℝ) ≤ D * Real.exp ((r : ℝ) / D) := by
  have hDr : (0 : ℝ) < D := by exact_mod_cast hD
  have hρ : (0 : ℝ) ≤ (r : ℝ) / D := div_nonneg (by exact_mod_cast hr) hDr.le
  rw [taylorSum, Int.cast_sum]
  calc ∑ i ∈ Finset.range n, (taylorTerm D r i : ℝ) ≤
        ∑ i ∈ Finset.range n, (D : ℝ) * (((r : ℝ) / D) ^ i / i.factorial) := by
        refine Finset.sum_le_sum fun i _ => (le_abs_self _).trans ?_
        have hle := abs_taylorTerm_le hD r i
        rwa [abs_of_nonneg hρ] at hle
    _ = D * ∑ i ∈ Finset.range n, ((r : ℝ) / D) ^ i / i.factorial := (Finset.mul_sum _ _ _).symm
    _ ≤ D * Real.exp ((r : ℝ) / D) := mul_le_mul_of_nonneg_left (Real.sum_le_exp_of_nonneg hρ n) hDr.le

theorem le_taylorSum (D : Nat) (hr : 0 ≤ r) (n : Nat) : (D : Int) ≤ taylorSum D r (n + 1) := by
  induction n with
  | zero => simp [taylorSum, taylorTerm]
  | succ n ih =>
    have hterm := taylorTerm_nonneg D hr (n + 1)
    rw [taylorSum_succ]
    omega

/-- At an argument that is not positive each term has the other sign than the one before and is not larger. -/
theorem taylorTerm_alternates (hD : 0 < D) (hr : r ≤ 0) (hr' : -(D : Int) ≤ r) (i : Nat) :
    (0 ≤ taylorTerm D r i → taylorTerm D r (i + 1) ≤ 0) ∧
      (taylorTerm D r i ≤ 0 → 0 ≤ taylorTerm D r (i + 1)) ∧
        (taylorTerm D r (i + 1)).natAbs ≤ (taylorTerm D r i).natAbs := by
  have hpos : (0 : Int) < D * (i + 1) := by positivity
  refine ⟨fun h => ?_, fun h => ?_, ?_⟩
  · have hneg := Int.tdiv_nonneg (a := -(taylorTerm D r i * r))
      (by rw [← Int.mul_neg]; exact Int.mul_nonneg h (by omega)) hpos.le
    rw [Int.neg_tdiv] at hneg
    exact Int.nonpos_of_neg_nonneg hneg
  · exact Int.tdiv_nonneg (Int.mul_nonneg_of_nonpos_of_nonpos h hr) hpos.le
  · change ((taylorTerm D r i * r).tdiv (D * (i + 1))).natAbs ≤ _
    have hDi : ((D : Int) * (i + 1)).natAbs = D * (i + 1) := by
      rw [Int.natAbs_mul, Int.natAbs_natCast]
      rfl
    rw [Int.natAbs_tdiv, Int.natAbs_mul, hDi]
    refine Nat.div_le_of_le_mul ?_
    rw [Nat.mul_comm]
    have hrD : r.natAbs ≤ D * (i + 1) := by
      have hD1 : D ≤ D * (i + 1) := Nat.le_mul_of_pos_right _ (Nat.succ_pos i)
      omega
    exact Nat.mul_le_mul_right _ hrD

theorem taylorSum_le_of_nonpos (hD : 0 < D) (hr : r ≤ 0) (hr' : -(D : Int) ≤ r) (n : Nat) :
    taylorSum D r n ≤ D ∧ taylorSum D r (n + 1) ≤ D := by
  induction n with
  | zero => simp [taylorSum, taylorTerm]
  | succ n ih =>
    refine ⟨ih.2, ?_⟩
    obtain ⟨hdown, hup, habs⟩ := taylorTerm_alternates hD hr hr' n
    have hsum := ih.1
    have hsum' := ih.2
    rw [taylorSum_succ] at hsum'
    rw [taylorSum_succ, taylorSum_succ]
    rcases Int.le_total 0 (taylorTerm D r n) with h | h
    · have hnext := hdown h
      omega
    · have hnext := hup h
      omega

end Series

end FrameSuite
