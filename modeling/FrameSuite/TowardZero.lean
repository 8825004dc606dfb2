import Mathlib.Analysis.SpecialFunctions.Log.Deriv
import Mathlib.Tactic.FieldSimp
import Mathlib.Tactic.Linarith
import Mathlib.Tactic.Positivity
import Mathlib.Tactic.Ring

/-! Quotients that are cut off toward zero, numbers that are moved toward zero, as truncation and saturation do, and
the series of the logarithm whose partial sums are such numbers. -/

namespace FrameSuite

section CutOff

variable {a b : Int}

theorem tdiv_le_div (ha : 0 ≤ a) (hb : 0 < b) : ((a.tdiv b : Int) : ℝ) ≤ a / b := by
  have hbr : (0 : ℝ) < b := by exact_mod_cast hb
  rw [le_div_iff₀ hbr]
  have hle := Int.mul_tdiv_self_le (k := b) ha
  rw [Int.mul_comm] at hle
  exact_mod_cast hle

theorem div_lt_tdiv_add_one (a : Int) (hb : 0 < b) : (a : ℝ) / b < (a.tdiv b : Int) + 1 := by
  have hbr : (0 : ℝ) < b := by exact_mod_cast hb
  rw [div_lt_iff₀ hbr]
  exact_mod_cast Int.lt_tdiv_add_one_mul_self a hb

theorem abs_tdiv_sub_le (a : Int) (hb : 0 < b) : |((a.tdiv b : Int) : ℝ) - a / b| ≤ 1 := by
  rcases Int.le_total 0 a with ha | ha
  · have hle := tdiv_le_div ha hb
    have hlt := div_lt_tdiv_add_one a hb
    exact abs_le.mpr ⟨by linarith, by linarith⟩
  · have hle := tdiv_le_div (Int.neg_nonneg_of_nonpos ha) hb
    have hlt := div_lt_tdiv_add_one (-a) hb
    rw [Int.neg_tdiv] at hle hlt
    push_cast at hle hlt
    rw [neg_div] at hle hlt
    exact abs_le.mpr ⟨by linarith, by linarith⟩

end CutOff

/-- The first number is the second one, moved toward zero. -/
def Toward (m n : ℝ) : Prop := (0 ≤ m ∧ m ≤ n) ∨ (n ≤ m ∧ m ≤ 0)

namespace Toward

variable {a b c d m n : ℝ}

theorem refl (n : ℝ) : Toward n n := (le_total 0 n).imp (fun h => ⟨h, le_refl n⟩) fun h => ⟨le_refl n, h⟩

theorem zero (n : ℝ) : Toward 0 n := (le_total 0 n).imp (fun h => ⟨le_refl 0, h⟩) fun h => ⟨h, le_refl 0⟩

theorem trans (h : Toward a b) (h' : Toward b c) : Toward a c := by
  rcases h with ⟨h1, h2⟩ | ⟨h1, h2⟩ <;> rcases h' with ⟨h3, h4⟩ | ⟨h3, h4⟩
  · exact Or.inl ⟨h1, h2.trans h4⟩
  · exact Or.inr ⟨h3.trans (h4.trans h1), h2.trans h4⟩
  · exact Or.inl ⟨h3.trans h1, h2.trans (h3.trans h4)⟩
  · exact Or.inr ⟨h3.trans h1, h2⟩

theorem of_nonneg (h : Toward m n) (hn : 0 ≤ n) : 0 ≤ m ∧ m ≤ n := by
  rcases h with h | h
  · exact h
  · exact ⟨hn.trans h.1, h.2.trans hn⟩

theorem of_nonpos (h : Toward m n) (hn : n ≤ 0) : n ≤ m ∧ m ≤ 0 := by
  rcases h with h | h
  · exact ⟨hn.trans h.1, h.2.trans hn⟩
  · exact h

theorem abs_le (h : Toward m n) : |m| ≤ |n| := by
  rcases h with h | h
  · exact abs_le_abs_of_nonneg h.1 h.2
  · exact abs_le_abs_of_nonpos h.2 h.1

theorem mul (h : Toward m n) (ha : 0 ≤ a) (hab : a ≤ b) : Toward (m * a) (n * b) := by
  rcases h with ⟨h1, h2⟩ | ⟨h1, h2⟩
  · exact Or.inl ⟨mul_nonneg h1 ha, mul_le_mul h2 hab ha (h1.trans h2)⟩
  · refine Or.inr ⟨?_, mul_nonpos_of_nonpos_of_nonneg h2 ha⟩
    calc n * b ≤ n * a := mul_le_mul_of_nonpos_left hab (h1.trans h2)
      _ ≤ m * a := mul_le_mul_of_nonneg_right h1 ha

theorem div (h : Toward m n) (ha : 0 ≤ a) : Toward (m / a) (n / a) := by
  rw [div_eq_mul_inv, div_eq_mul_inv]
  exact h.mul (inv_nonneg.mpr ha) (le_refl _)

theorem add (h : Toward a b) (h' : Toward c d) (hside : 0 ≤ b * d) : Toward (a + c) (b + d) := by
  rcases lt_trichotomy b 0 with hb | rfl | hb
  · have hd : d ≤ 0 := nonpos_of_mul_nonneg_right hside hb
    have h1 := h.of_nonpos hb.le
    have h2 := h'.of_nonpos hd
    exact Or.inr ⟨add_le_add h1.1 h2.1, add_nonpos h1.2 h2.2⟩
  · have ha := h.of_nonneg (le_refl 0)
    rw [le_antisymm ha.2 ha.1, zero_add, zero_add]
    exact h'
  · have hd : 0 ≤ d := nonneg_of_mul_nonneg_right hside hb
    have h1 := h.of_nonneg hb.le
    have h2 := h'.of_nonneg hd
    exact Or.inl ⟨add_nonneg h1.1 h2.1, add_le_add h1.2 h2.2⟩

end Toward

theorem tdiv_toward (a : Int) {b : Int} (hb : 0 < b) : Toward ((a.tdiv b : Int) : ℝ) (a / b) := by
  rcases Int.le_total 0 a with ha | ha
  · exact Or.inl ⟨by exact_mod_cast Int.tdiv_nonneg ha hb.le, tdiv_le_div ha hb⟩
  · have hneg := Int.neg_nonneg_of_nonpos ha
    have hle := tdiv_le_div hneg hb
    have hnonneg := Int.tdiv_nonneg hneg hb.le
    rw [Int.neg_tdiv] at hle hnonneg
    push_cast at hle
    rw [neg_div] at hle
    exact Or.inr ⟨neg_le_neg_iff.mp hle, by exact_mod_cast Int.nonpos_of_neg_nonneg hnonneg⟩

theorem abs_tdiv_le (a : Int) {b : Int} (hb : 0 < b) : |((a.tdiv b : Int) : ℝ)| ≤ |(a : ℝ)| / b := by
  have hle := (tdiv_toward a hb).abs_le
  rwa [abs_div, abs_of_pos (by exact_mod_cast hb : (0 : ℝ) < b)] at hle

theorem abs_div_lt_abs_tdiv_add_one (a : Int) {b : Int} (hb : 0 < b) :
    |(a : ℝ)| / b < |((a.tdiv b : Int) : ℝ)| + 1 := by
  rcases Int.le_total 0 a with ha | ha
  · rw [abs_of_nonneg (by exact_mod_cast ha)]
    exact (div_lt_tdiv_add_one a hb).trans_le (by linarith [le_abs_self ((a.tdiv b : Int) : ℝ)])
  · have hlt := div_lt_tdiv_add_one (-a) hb
    rw [Int.neg_tdiv] at hlt
    push_cast at hlt
    rw [abs_of_nonpos (by exact_mod_cast ha)]
    exact hlt.trans_le (by linarith [neg_le_abs ((a.tdiv b : Int) : ℝ)])

/-- The partial sums of the series of the inverse hyperbolic tangent. -/
noncomputable def atanhSum (t : ℝ) (n : Nat) : ℝ := ∑ i ∈ Finset.range n, t ^ (2 * i + 1) / (2 * i + 1)

section Logarithm

variable {t t' y : ℝ} {n : Nat}

theorem atanhSum_succ (t : ℝ) (n : Nat) : atanhSum t (n + 1) = atanhSum t n + t ^ (2 * n + 1) / (2 * n + 1) :=
  Finset.sum_range_succ _ _

theorem odd_pow_neg (t : ℝ) (i : Nat) : (-t) ^ (2 * i + 1) = -t ^ (2 * i + 1) := Odd.neg_pow ⟨i, rfl⟩ t

theorem atanhSum_neg (t : ℝ) (n : Nat) : atanhSum (-t) n = -atanhSum t n := by
  rw [atanhSum, atanhSum, ← Finset.sum_neg_distrib]
  refine Finset.sum_congr rfl fun i _ => ?_
  rw [odd_pow_neg, neg_div]

theorem atanhSum_nonneg (ht : 0 ≤ t) (n : Nat) : 0 ≤ atanhSum t n :=
  Finset.sum_nonneg fun i _ => by positivity

theorem atanhSum_mul_nonneg (t : ℝ) (n : Nat) : 0 ≤ atanhSum t n * (t ^ (2 * n + 1) / (2 * n + 1)) := by
  rcases le_total 0 t with ht | ht
  · exact mul_nonneg (atanhSum_nonneg ht n) (by positivity)
  · have hneg := mul_nonneg (atanhSum_nonneg (neg_nonneg.mpr ht) n)
      (div_nonneg (pow_nonneg (neg_nonneg.mpr ht) (2 * n + 1)) (by positivity : (0 : ℝ) ≤ 2 * n + 1))
    rw [atanhSum_neg, odd_pow_neg, neg_div, neg_mul_neg] at hneg
    exact hneg

theorem two_mul_atanhSum_toward (ht : |t| < 1) (n : Nat) :
    Toward (2 * atanhSum t n) (Real.log (1 + t) - Real.log (1 - t)) := by
  have hpos (s : ℝ) (hs : |s| < 1) (hs0 : 0 ≤ s) : 2 * atanhSum s n ≤ Real.log (1 + s) - Real.log (1 - s) := by
    have hsum := Real.hasSum_log_sub_log_of_abs_lt_one hs
    have hle := sum_le_hasSum (Finset.range n) (fun i _ => by positivity) hsum
    refine le_trans (le_of_eq ?_) hle
    rw [atanhSum, Finset.mul_sum]
    refine Finset.sum_congr rfl fun i _ => ?_
    ring
  rcases le_total 0 t with h | h
  · exact Or.inl ⟨mul_nonneg zero_le_two (atanhSum_nonneg h n), hpos t ht h⟩
  · have hneg := hpos (-t) (by rwa [abs_neg]) (neg_nonneg.mpr h)
    have hnonneg := mul_nonneg zero_le_two (atanhSum_nonneg (neg_nonneg.mpr h) n)
    rw [atanhSum_neg] at hneg hnonneg
    rw [← sub_eq_add_neg, sub_neg_eq_add] at hneg
    exact Or.inr ⟨by linarith, by linarith⟩

theorem logRatio_toward (h : Toward t t') (ht : |t'| < 1) :
    Toward (Real.log (1 + t) - Real.log (1 - t)) (Real.log (1 + t') - Real.log (1 - t')) := by
  have hbounds := abs_lt.mp ht
  rcases h with ⟨h1, h2⟩ | ⟨h1, h2⟩
  · left
    have hup := Real.log_le_log (by linarith) (by linarith : 1 + t ≤ 1 + t')
    have hdown := Real.log_le_log (by linarith) (by linarith : 1 - t' ≤ 1 - t)
    have hside := Real.log_le_log (by linarith) (by linarith : 1 - t ≤ 1 + t)
    exact ⟨by linarith, by linarith⟩
  · right
    have hup := Real.log_le_log (by linarith) (by linarith : 1 + t' ≤ 1 + t)
    have hdown := Real.log_le_log (by linarith) (by linarith : 1 - t ≤ 1 - t')
    have hside := Real.log_le_log (by linarith) (by linarith : 1 + t ≤ 1 - t)
    exact ⟨by linarith, by linarith⟩

theorem logArgument (hy : 0 < y) : |(y - 1) / (y + 1)| < 1 ∧
    Real.log (1 + (y - 1) / (y + 1)) - Real.log (1 - (y - 1) / (y + 1)) = Real.log y := by
  have hden : 0 < y + 1 := by linarith
  have hlt : |(y - 1) / (y + 1)| < 1 := by
    rw [abs_lt]
    exact ⟨by rw [lt_div_iff₀ hden]; linarith, by rw [div_lt_iff₀ hden]; linarith⟩
  have hbounds := abs_lt.mp hlt
  refine ⟨hlt, ?_⟩
  rw [← Real.log_div (by linarith : 1 + (y - 1) / (y + 1) ≠ 0) (by linarith : 1 - (y - 1) / (y + 1) ≠ 0)]
  congr 1
  field_simp
  ring

end Logarithm

end FrameSuite
