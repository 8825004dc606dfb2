import FrameSuite.LogSeries

/-! The logarithm of a fixed-point number is near the exact one on both sides. What is near one after some roots is
doubled as often, so that the result is as far away as the exact logarithm is large. -/

namespace FrameSuite

open FixedNumber

variable {F : FixedRepr}

section Roots

variable {x y : FixedNumber F} {k : Nat}

/-- The invariant of the reduction on both sides, with the number of roots taken so far. -/
structure RootsTaken (x y : FixedNumber F) (k : Nat) : Prop where
  reduced : Reduced x y k
  near : |2 ^ k * Real.log y.toReal - Real.log x.toReal| ≤ 4 * (2 ^ k - 1) * rootError x
  count : 2 ^ k ≤ 1 + 6 * |Real.log x.toReal|

theorem RootsTaken.start (hx : 0 < x.inner) : RootsTaken x x 0 :=
  ⟨.start hx, by simp, by simp⟩

theorem two_fifths_le_log : 2 / 5 ≤ Real.log (3 / 2) := by
  have hexp : Real.exp 2 ≤ (3 / 2 : ℝ) ^ 5 := by
    have hpow : Real.exp 2 = Real.exp 1 ^ 2 := by
      rw [← Real.exp_nat_mul]
      norm_num
    have hle : Real.exp 1 ^ 2 ≤ (2.72 : ℝ) ^ 2 :=
      pow_le_pow_left₀ (Real.exp_pos 1).le (by linarith [Real.exp_one_lt_d9]) 2
    rw [hpow]
    exact hle.trans (by norm_num)
  have hle := (Real.le_log_iff_exp_le (by norm_num)).mpr hexp
  rw [Real.log_pow] at hle
  push_cast at hle
  linarith

/-- The logarithm of a value that still needs a root is not small. -/
theorem two_fifths_le_abs_log (hy : 0 < y.inner) (hfar : (F.div : Int) < 2 * |y.inner - F.div|) :
    2 / 5 ≤ |Real.log y.toReal| := by
  have hD := F.div_pos_real
  have hy0 := toReal_pos hy
  rcases le_total (F.div : Int) y.inner with h | h
  · rw [abs_of_nonneg (by omega)] at hfar
    have hreal : (3 : ℝ) * F.div ≤ 2 * y.inner := by exact_mod_cast (by omega : (3 * F.div : Int) ≤ 2 * y.inner)
    have hge : 3 / 2 ≤ y.toReal := by
      rw [toReal, le_div_iff₀ hD]
      linarith
    exact two_fifths_le_log.trans ((Real.log_le_log (by norm_num) hge).trans (le_abs_self _))
  · rw [abs_of_nonpos (by omega)] at hfar
    have hreal : 2 * (y.inner : ℝ) ≤ F.div := by exact_mod_cast (by omega : (2 * y.inner : Int) ≤ F.div)
    have hle : y.toReal ≤ (3 / 2)⁻¹ := by
      rw [toReal, div_le_iff₀ hD]
      linarith
    have hlog := Real.log_le_log hy0 hle
    rw [Real.log_inv] at hlog
    exact two_fifths_le_log.trans ((by linarith : Real.log (3 / 2) ≤ -Real.log y.toReal).trans (neg_le_abs _))

/-- A root is as exact as the first one that was taken. -/
theorem Reduced.rootError_le (h : Reduced x y k) (hx : 0 < x.inner) : F.unit / √y.toReal ≤ rootError x := by
  have hu := F.unit_pos
  have hx0 := toReal_pos hx
  have hle : √(min x.toReal 1) ≤ √y.toReal := by
    refine Real.sqrt_le_sqrt ?_
    rcases le_total (F.div : Int) x.inner with hge | hle
    · exact (min_le_right _ _).trans (one_le_toReal.mpr (h.above hge))
    · exact (min_le_left _ _).trans (toReal_le_toReal.mpr (h.below hle).1)
  exact div_le_div_of_nonneg_left hu.le (Real.sqrt_pos.mpr (lt_min hx0 one_pos)) hle

theorem RootsTaken.step (hF : F.Decimal) (hS : SqrtBounds F) (h : RootsTaken x y k) (hx : 0 < x.inner)
    (hfar : (F.div : Int) < 2 * |y.inner - F.div|) : RootsTaken x (fixedSqrtNewton y) (k + 1) := by
  have hu := F.unit_pos
  have hpos := h.reduced.pos
  have hy0 := toReal_pos hpos
  obtain ⟨v, hv⟩ := Int.eq_ofNat_of_zero_le hpos.le
  obtain ⟨herr, herr'⟩ := rootError_bounds hF hx
  obtain ⟨-, -, hlow, hup⟩ := fixedSqrtNewton_real hS hv (by omega)
  have hrel := h.reduced.rootError_le hx
  have hroot : 0 < √y.toReal := Real.sqrt_pos.mpr hy0
  have hsmall : 2 * F.unit ≤ √y.toReal := by
    have hle := hrel.trans herr'
    rw [div_le_iff₀ hroot] at hle
    linarith
  have hhalf := abs_log_root_sub_le hy0 hlow hup hu.le hsmall
  have hpow : (1 : ℝ) ≤ 2 ^ k := one_le_pow₀ one_le_two
  refine ⟨(h.reduced.step hF hS hx hfar).1, ?_, ?_⟩
  · have hsplit : 2 ^ (k + 1) * Real.log (fixedSqrtNewton y).toReal - Real.log x.toReal =
        2 ^ (k + 1) * (Real.log (fixedSqrtNewton y).toReal - Real.log y.toReal / 2) +
          (2 ^ k * Real.log y.toReal - Real.log x.toReal) := by
      rw [pow_succ]
      ring
    have hlast : |2 ^ (k + 1) * (Real.log (fixedSqrtNewton y).toReal - Real.log y.toReal / 2)| ≤
        2 ^ (k + 1) * (2 * rootError x) := by
      rw [abs_mul, abs_of_pos (by positivity : (0 : ℝ) < 2 ^ (k + 1))]
      exact mul_le_mul_of_nonneg_left (hhalf.trans (by linarith)) (by positivity)
    rw [hsplit]
    refine ((abs_add_le _ _).trans (add_le_add hlast h.near)).trans (le_of_eq ?_)
    rw [pow_succ]
    ring
  · have hlarge := two_fifths_le_abs_log hpos hfar
    have hlog := h.reduced.log
    have hmul : 2 ^ k * (2 / 5) ≤ 2 ^ k * |Real.log y.toReal| := mul_le_mul_of_nonneg_left hlarge (by positivity)
    have hloss : 4 * ((2 : ℝ) ^ k - 1) * rootError x ≤ 2 ^ k * (4 / 10 ^ 4) := by nlinarith
    rw [pow_succ]
    linarith

theorem rangeReduceLoop_taken (hF : F.Decimal) (hS : SqrtBounds F) {fuel : Nat} (h : RootsTaken x y k)
    (hx : 0 < x.inner) (hk : k ≤ 7) (hfuel : 8 ≤ k + fuel) :
    RootsTaken x (rangeReduceLoop fuel y k).1 (rangeReduceLoop fuel y k).2 := by
  induction fuel generalizing y k with
  | zero => omega
  | succ fuel ih =>
    rcases rangeReduceLoop_succ h.reduced.pos.le fuel k with ⟨hend, -⟩ | ⟨hfar, hnext⟩
    · rw [hend]
      exact h
    · have hk7 : k ≠ 7 := by
        rintro rfl
        exact absurd (h.reduced.near hF hx) (by omega)
      obtain ⟨-, hne, hne0⟩ := h.reduced.step hF hS hx hfar
      rw [hnext hne hne0]
      exact ih (h.step hF hS hx hfar) (by omega) (by omega)

end Roots

section Logarithm

variable {x : FixedNumber F}

theorem isUnsigned_iff (hF : F.Decimal) : isUnsigned F ↔ F.minInner = 0 := by
  have hD := F.div_pos'
  have hmax := F.one_le_max
  have hinner : ((zero : FixedNumber F).saturatingSub one).inner = max F.minInner (-F.div) := by
    rw [saturatingSub_inner, zero_inner, one_inner, zero_sub, clamp_inner, min_eq_left (by omega)]
  rw [isUnsigned, FixedNumber.ext_iff, hinner, zero_inner]
  rcases hF.signed with h | h
  · omega
  · have hsq : (1 * F.div : Int) ≤ F.div * F.div := Int.mul_le_mul_of_nonneg_right (by omega) hD.le
    omega

/-- The exact logarithm is missed by a number of root errors that grows with its size. -/
theorem fixedLn_near (hF : F.Decimal) (hS : SqrtBounds F) (hx : 0 < x.inner)
    (hdomain : ¬(isUnsigned F ∧ x.inner < (one : FixedNumber F).inner)) :
    ∃ l, fixedLn x = some l ∧
      |l.toReal - Real.log x.toReal| ≤ 110 * (1 + 6 * |Real.log x.toReal|) * rootError x := by
  have hu := F.unit_pos
  have herr := (rootError_bounds hF hx).1
  rw [fixedLn, if_neg (by omega)]
  by_cases hone : x = one
  · refine ⟨zero, if_pos hone, ?_⟩
    rw [hone, toReal_zero, toReal_one, Real.log_one, sub_zero, abs_zero, mul_zero, add_zero, mul_one]
    exact mul_nonneg (by norm_num) (hu.le.trans (hone ▸ herr))
  rw [if_neg hone, if_neg hdomain]
  obtain ⟨hred, hk, hnear⟩ := rangeReduceLoop_reduced hF hS (Reduced.start hx) hx (Nat.zero_le 7)
    (by decide : 8 ≤ 0 + maxIterations)
  have htaken := rangeReduceLoop_taken hF hS (RootsTaken.start hx) hx (Nat.zero_le 7)
    (by decide : 8 ≤ 0 + maxIterations)
  rw [← rangeReduceSqrt] at hred hk hnear htaken
  dsimp only
  generalize rangeReduceSqrt x = reduced at hred hk hnear htaken ⊢
  obtain ⟨y, k⟩ := reduced
  dsimp only at hred hk hnear htaken ⊢
  have hside (h : F.minInner = 0) : (F.div : Int) ≤ y.inner :=
    hred.above (not_lt.mp fun hlt => hdomain ⟨(isUnsigned_iff hF).mpr h, hlt⟩)
  have hln := lnNearOne_near hF hnear hside
  have hlog : |Real.log y.toReal| ≤ 48 + 508 / 10 ^ 4 := by
    have hroot := (rootError_bounds hF hx).2
    have hpow : (2 : ℝ) ^ k ≤ 2 ^ 7 := pow_le_pow_right₀ one_le_two hk
    have hpow1 : (1 : ℝ) ≤ 2 ^ k := one_le_pow₀ one_le_two
    have hloss : 4 * ((2 : ℝ) ^ k - 1) * rootError x ≤ 508 / 10 ^ 4 := by nlinarith
    have hle := le_mul_of_one_le_left (abs_nonneg (Real.log y.toReal)) hpow1
    linarith [hred.log, abs_log_le hF hx]
  have hsize : |(lnNearOne y).toReal| ≤ 10 ^ 6 := by
    have htri := abs_sub_le (lnNearOne y).toReal (Real.log y.toReal) 0
    have hu' := hF.unit_le
    rw [sub_zero, sub_zero] at htri
    linarith
  rw [if_neg (by omega)]
  have hscaled : (if 0 < k then (lnNearOne y).saturatingMul (saturatingFromInteger (2 ^ k)) else
      lnNearOne y).toReal = (lnNearOne y).toReal * 2 ^ k := by
    split
    · have hpow : (2 : Nat) ^ k ≤ 2 ^ 8 := Nat.pow_le_pow_right (by decide) (by omega)
      have hexact := saturatingMul_exact hF hpow hsize
      push_cast at hexact
      exact hexact
    · rename_i hzero
      obtain rfl : k = 0 := by omega
      rw [pow_zero, mul_one]
  refine ⟨_, rfl, ?_⟩
  rw [hscaled]
  have hsplit : (lnNearOne y).toReal * 2 ^ k - Real.log x.toReal =
      2 ^ k * ((lnNearOne y).toReal - Real.log y.toReal) + (2 ^ k * Real.log y.toReal - Real.log x.toReal) := by ring
  have hfirst : |2 ^ k * ((lnNearOne y).toReal - Real.log y.toReal)| ≤ 2 ^ k * (106 * rootError x) := by
    rw [abs_mul, abs_of_pos (by positivity : (0 : ℝ) < 2 ^ k)]
    exact mul_le_mul_of_nonneg_left (hln.trans (by linarith)) (by positivity)
  have hcount := mul_le_mul_of_nonneg_right htaken.count (hu.le.trans herr)
  rw [hsplit]
  calc _ ≤ 2 ^ k * (106 * rootError x) + 4 * (2 ^ k - 1) * rootError x :=
        (abs_add_le _ _).trans (add_le_add hfirst htaken.near)
    _ ≤ 110 * (2 ^ k * rootError x) := by linarith
    _ ≤ 110 * (1 + 6 * |Real.log x.toReal|) * rootError x := by
        rw [mul_assoc]
        exact mul_le_mul_of_nonneg_left hcount (by norm_num)

theorem fixedLn_eq_none (hF : F.Decimal) (hS : SqrtBounds F) :
    fixedLn x = none ↔ x.toReal ≤ 0 ∨ isUnsigned F ∧ x.toReal < 1 := by
  have hle : x.toReal ≤ 0 ↔ x.inner ≤ 0 := by
    rw [← toReal_zero (F := F), toReal_le_toReal, zero_inner]
  have hlt : x.toReal < 1 ↔ x.inner < (one : FixedNumber F).inner := by
    rw [← toReal_one (F := F), toReal_lt_toReal]
  rw [hle, hlt]
  constructor
  · intro hnone
    by_contra hdomain
    rw [not_or] at hdomain
    obtain ⟨l, hl, -⟩ := fixedLn_near hF hS (not_le.mp hdomain.1) hdomain.2
    rw [hl] at hnone
    cases hnone
  · rintro (hneg | ⟨hunsigned, hbelow⟩)
    · exact if_pos hneg
    · have hone : x ≠ one := fun h => absurd hbelow (h ▸ lt_irrefl _)
      unfold fixedLn
      split
      · rfl
      · exact if_pos ⟨hunsigned, hbelow⟩

end Logarithm

/-- In each of the four formats the logarithm is missing for the numbers that are not positive, and for those
below one where there is no sign. Everywhere else it is within 110 root errors of the exact one, and within as
many again for each sixth of its size. -/
theorem fixedLn_accurate (k : FixedKind) (x : FixedNumber k.repr) :
    (fixedLn x = none ↔ x.toReal ≤ 0 ∨ isUnsigned k.repr ∧ x.toReal < 1) ∧
      ∀ l, fixedLn x = some l →
        |l.toReal - Real.log x.toReal| ≤ 110 * (1 + 6 * |Real.log x.toReal|) * rootError x := by
  have hnone := fixedLn_eq_none (x := x) k.decimal k.sqrtBounds
  refine ⟨hnone, fun l hl => ?_⟩
  have hdomain : ¬(x.inner ≤ 0 ∨ isUnsigned k.repr ∧ x.inner < (one : FixedNumber k.repr).inner) := by
    rintro (hneg | hbelow)
    · rw [fixedLn, if_pos hneg] at hl
      cases hl
    · have hlt : x.toReal < 1 := by
        rw [← toReal_one (F := k.repr), toReal_lt_toReal]
        exact hbelow.2
      rw [hnone.mpr (.inr ⟨hbelow.1, hlt⟩)] at hl
      cases hl
  rw [not_or] at hdomain
  obtain ⟨l', hl', hnear⟩ := fixedLn_near k.decimal k.sqrtBounds (not_le.mp hdomain.1) hdomain.2
  obtain rfl := Option.some.inj (hl.symm.trans hl')
  exact hnear

end FrameSuite
