import FrameSuite.TowardZero

/-! The rest of the series of the logarithm after its partial sums, and how much a logarithm moves with its
argument, for a number near another one and for one near a square root. -/

namespace FrameSuite

section Tail

variable {t : ℝ}

theorem abs_odd_term (t : ℝ) (n : Nat) : |t ^ (2 * n + 1) / (2 * n + 1)| = |t| ^ (2 * n + 1) / (2 * n + 1) := by
  rw [abs_div, abs_pow, abs_of_pos (by positivity : (0 : ℝ) < 2 * n + 1)]

/-- The terms fall at least as fast as the powers of the square. -/
theorem abs_odd_term_add_le (t : ℝ) (n i : Nat) :
    |t ^ (2 * (i + n) + 1) / (2 * ((i + n : Nat) : ℝ) + 1)| ≤ |t| ^ (2 * n + 1) / (2 * n + 1) * (t ^ 2) ^ i := by
  rw [abs_odd_term]
  have hpow : |t| ^ (2 * (i + n) + 1) = |t| ^ (2 * n + 1) * (t ^ 2) ^ i := by
    rw [← sq_abs t, ← pow_mul, ← pow_add]
    congr 1
    ring
  have hle : (2 * n + 1 : ℝ) ≤ 2 * ((i + n : Nat) : ℝ) + 1 := by
    push_cast
    linarith [(Nat.cast_nonneg i : (0 : ℝ) ≤ i)]
  rw [hpow, div_mul_eq_mul_div]
  exact div_le_div_of_nonneg_left (by positivity) (by positivity) hle

theorem atanhSum_tail (ht : |t| < 1) (n : Nat) :
    |Real.log (1 + t) - Real.log (1 - t) - 2 * atanhSum t n| ≤
      2 * (|t| ^ (2 * n + 1) / (2 * n + 1)) / (1 - t ^ 2) := by
  have hsq : t ^ 2 < 1 := (sq_lt_one_iff_abs_lt_one t).mpr ht
  have hsum : HasSum (fun i : Nat => 2 * (t ^ (2 * i + 1) / (2 * i + 1))) (Real.log (1 + t) - Real.log (1 - t)) := by
    refine (Real.hasSum_log_sub_log_of_abs_lt_one ht).congr_fun ?_
    intro i
    ring
  have htail := (hasSum_nat_add_iff' n).mpr hsum
  rw [← Finset.mul_sum] at htail
  have hgeometric := (hasSum_geometric_of_lt_one (sq_nonneg t) hsq).mul_left (2 * (|t| ^ (2 * n + 1) / (2 * n + 1)))
  have hle := htail.norm_le_of_bounded hgeometric fun i => ?_
  · rw [Real.norm_eq_abs, ← div_eq_mul_inv] at hle
    exact hle
  · rw [Real.norm_eq_abs, abs_mul, abs_of_pos (two_pos : (0 : ℝ) < 2), mul_assoc]
    exact mul_le_mul_of_nonneg_left (abs_odd_term_add_le t n i) zero_le_two

end Tail

section Shift

variable {a b c r u : ℝ}

theorem abs_log_sub_le (hc : 0 < c) (ha : c ≤ a) (hb : c ≤ b) : |Real.log a - Real.log b| ≤ |a - b| / c := by
  have hone (x y : ℝ) (hx : c ≤ x) (hy : c ≤ y) : Real.log x - Real.log y ≤ |x - y| / c := by
    have hx0 := hc.trans_le hx
    have hy0 := hc.trans_le hy
    have hle := Real.log_le_sub_one_of_pos (div_pos hx0 hy0)
    rw [Real.log_div hx0.ne' hy0.ne'] at hle
    calc Real.log x - Real.log y ≤ x / y - 1 := hle
      _ = (x - y) / y := by field_simp
      _ ≤ |x - y| / y := div_le_div_of_nonneg_right (le_abs_self _) hy0.le
      _ ≤ |x - y| / c := div_le_div_of_nonneg_left (abs_nonneg _) hc hy
  rw [abs_le]
  have hback := hone b a hb ha
  rw [abs_sub_comm] at hback
  exact ⟨by linarith, hone a b ha hb⟩

/-- Halving the logarithm by a root that is near the exact one. -/
theorem abs_log_root_sub_le (ha : 0 < a) (hlow : √a - u ≤ r) (hup : r ≤ √a + 2 * u) (hu : 0 ≤ u)
    (hsmall : 2 * u ≤ √a) : |Real.log r - Real.log a / 2| ≤ 2 * (u / √a) := by
  have hroot : 0 < √a := Real.sqrt_pos.mpr ha
  have hfrac : u / √a ≤ 1 / 2 := by
    rw [div_le_iff₀ hroot]
    linarith
  have hfrac0 : 0 ≤ u / √a := by positivity
  have hbelow : √a - u = √a * (1 - u / √a) := by field_simp
  have habove : √a + 2 * u = √a * (1 + 2 * (u / √a)) := by field_simp
  have hpos : 0 < √a - u := by linarith
  have hloglow := Real.log_le_log hpos hlow
  have hlogup := Real.log_le_log (hpos.trans_le hlow) hup
  rw [hbelow, Real.log_mul hroot.ne' (by linarith), Real.log_sqrt ha.le] at hloglow
  rw [habove, Real.log_mul hroot.ne' (by linarith), Real.log_sqrt ha.le] at hlogup
  have hone := Real.log_le_sub_one_of_pos (by linarith : 0 < 1 + 2 * (u / √a))
  have hinv := Real.one_sub_inv_le_log_of_pos (by linarith : 0 < 1 - u / √a)
  have hbound : -(2 * (u / √a)) ≤ 1 - (1 - u / √a)⁻¹ := by
    have hpos' : 0 < 1 - u / √a := by linarith
    rw [neg_le_sub_iff_le_add, inv_le_iff_one_le_mul₀ hpos']
    nlinarith
  exact abs_le.mpr ⟨by linarith, by linarith⟩

end Shift

end FrameSuite
