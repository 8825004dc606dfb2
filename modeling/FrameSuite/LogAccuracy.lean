import FrameSuite.FixedLog
import FrameSuite.ExpAccuracy
import FrameSuite.TowardZero

/-! How far the logarithm of a fixed-point number is from the exact one. Its series is cut off toward zero, so only
the square roots that bring the argument near one can move it away from zero. -/

namespace FrameSuite

open FixedNumber

variable {F : FixedRepr}

section Series

variable {x y : FixedNumber F}

theorem atanhLoop_toward (hF : F.Decimal) {t : ℝ} {tSq : FixedNumber F} (hsq : 0 ≤ tSq.toReal ∧ tSq.toReal ≤ t ^ 2)
    {fuel i : Nat} {sum power : FixedNumber F} (hi : i + fuel ≤ 1000) (hsum : Toward sum.toReal (atanhSum t i))
    (hpower : Toward power.toReal (t ^ (2 * i + 1))) :
    ∃ n, Toward (atanhLoop fuel i tSq sum power).toReal (atanhSum t n) := by
  induction fuel generalizing i sum power with
  | zero => exact ⟨i, hsum⟩
  | succ fuel ih =>
    have hindex : ((2 * (i : Int) + 1)) = ((2 * i + 1 : Nat) : Int) := by push_cast; rfl
    rw [atanhLoop]
    split
    · exact ⟨i, hsum⟩
    dsimp only
    split
    · exact ⟨i, hsum⟩
    rw [hindex]
    have hdenom := hF.saturatingFromInteger_inner (n := ((2 * i + 1 : Nat) : Int)) (by omega) (by omega)
    have hpos : 0 < (saturatingFromInteger ((2 * i + 1 : Nat) : Int) : FixedNumber F).inner := by
      rw [hdenom]
      exact Int.mul_pos (by omega) F.div_pos'
    have hterm := checkedDiv_toward (x := power) hpos
    rw [saturatingFromInteger_real hF (by omega)] at hterm
    have hterm' := hterm.trans (hpower.div (Nat.cast_nonneg (2 * i + 1)))
    push_cast at hterm'
    refine ih (by omega) ?_ ?_
    · rw [atanhSum_succ]
      exact (saturatingAdd_toward _ _).trans (hsum.add hterm' (atanhSum_mul_nonneg t i))
    · have hpow : t ^ (2 * (i + 1) + 1) = t ^ (2 * i + 1) * t ^ 2 := by ring
      rw [hpow]
      exact (checkedMul_toward _ _).trans (hpower.mul hsq.1 hsq.2)

theorem lnNearOne_toward (hF : F.Decimal) (hy : 0 < y.inner) (hy' : y.inner ≤ 2 * F.div) :
    Toward (lnNearOne y).toReal (Real.log y.toReal) := by
  have hD := F.div_pos'
  have hmin := F.min_nonpos
  have hmax := hF.mul_le_max (n := 3) (by norm_num)
  have hyr : 0 < y.toReal := by
    rw [← toReal_zero (F := F), toReal_lt_toReal]
    exact hy
  obtain ⟨hlt, hlog⟩ := logArgument hyr
  have hdenom : (y.saturatingAdd one).inner = y.inner + F.div := by
    rw [saturatingAdd_inner, one_inner, FixedNumber.clamp_of_mem] <;> omega
  have hdenomr : (y.saturatingAdd one).toReal = y.toReal + 1 := by
    rw [toReal, hdenom, toReal]
    push_cast
    rw [add_div, div_self F.div_pos_real.ne']
  have ht : Toward (((y.saturatingSub one).checkedDiv (y.saturatingAdd one)).getD zero).toReal
      ((y.toReal - 1) / (y.toReal + 1)) := by
    have hquot := checkedDiv_toward (x := y.saturatingSub one) (y := y.saturatingAdd one) (by omega)
    rw [hdenomr] at hquot
    refine hquot.trans (Toward.div ?_ (by linarith))
    have hsub := saturatingSub_toward y one
    rwa [toReal_one] at hsub
  unfold lnNearOne
  dsimp only
  generalize ((y.saturatingSub one).checkedDiv (y.saturatingAdd one)).getD zero = t at ht ⊢
  have htlt : |t.toReal| < 1 := ht.abs_le.trans_lt hlt
  have hsq : 0 ≤ ((t.checkedMul t).getD zero).toReal ∧ ((t.checkedMul t).getD zero).toReal ≤ t.toReal ^ 2 := by
    rw [sq]
    exact (checkedMul_toward t t).of_nonneg (mul_self_nonneg _)
  have hloop : ∃ n, Toward (atanhLoop maxIterations 0 ((t.checkedMul t).getD zero) zero t).toReal
      (atanhSum t.toReal n) := by
    refine atanhLoop_toward hF hsq (by decide) ?_ ?_
    · rw [toReal_zero]
      exact Toward.zero _
    · rw [Nat.mul_zero, Nat.zero_add, pow_one]
      exact Toward.refl _
  obtain ⟨n, hsum⟩ := hloop
  have htwo : (one.saturatingAdd one : FixedNumber F).toReal = 2 := by
    rw [toReal, two_inner]
    push_cast
    exact mul_div_cancel_right₀ _ F.div_pos_real.ne'
  have hdouble := saturatingMul_toward (atanhLoop maxIterations 0 ((t.checkedMul t).getD zero) zero t)
    (one.saturatingAdd one)
  rw [htwo] at hdouble
  have hscaled := hsum.mul zero_le_two (le_refl (2 : ℝ))
  rw [mul_comm (atanhSum t.toReal n)] at hscaled
  rw [← hlog]
  exact hdouble.trans (hscaled.trans ((two_mul_atanhSum_toward htlt n).trans (logRatio_toward ht hlt)))

end Series

section Reduction

variable {x y : FixedNumber F} {k : Nat}

/-- The largest relative error of a square root on the way from the argument to one. -/
noncomputable def rootError (x : FixedNumber F) : ℝ := F.unit / √(min x.toReal 1)

theorem rootError_bounds (hF : F.Decimal) (hx : 0 < x.inner) :
    F.unit ≤ rootError x ∧ rootError x ≤ 1 / 10 ^ 4 := by
  have hu0 := F.unit_pos
  have hu := hF.unit_le
  have hxu := unit_le_toReal hx
  have hmin : F.unit ≤ min x.toReal 1 := le_min hxu (hu.trans (by norm_num))
  have hpos : 0 < √(min x.toReal 1) := Real.sqrt_pos.mpr (hu0.trans_le hmin)
  have hone : √(min x.toReal 1) ≤ 1 := Real.sqrt_le_one.mpr (min_le_right _ _)
  constructor
  · rw [rootError, le_div_iff₀ hpos]
    exact mul_le_of_le_one_right hu0.le hone
  · have hroot : √F.unit ≤ √(min x.toReal 1) := Real.sqrt_le_sqrt hmin
    have hself : F.unit = √F.unit * √F.unit := (Real.mul_self_sqrt hu0.le).symm
    have hsmall : √F.unit ≤ 1 / 10 ^ 4 := by
      rw [Real.sqrt_le_left (by norm_num)]
      exact hu.trans (by norm_num)
    have hroot0 : 0 ≤ √F.unit := Real.sqrt_nonneg _
    rw [rootError, div_le_iff₀ hpos]
    calc F.unit = √F.unit * √F.unit := hself
      _ ≤ 1 / 10 ^ 4 * √(min x.toReal 1) := mul_le_mul hsmall hroot hroot0 (by norm_num)

theorem fixedSqrtNewton_real (hS : SqrtBounds F) {v : Nat} (hv : y.inner = v) (hpos : 0 < v) :
    (Nat.sqrt (v * F.div) : Int) ≤ (fixedSqrtNewton y).inner ∧
      (fixedSqrtNewton y).inner ≤ Nat.sqrt (v * F.div) + 2 ∧
        √y.toReal - F.unit ≤ (fixedSqrtNewton y).toReal ∧ (fixedSqrtNewton y).toReal ≤ √y.toReal + 2 * F.unit := by
  have hD := F.div_pos_real
  obtain ⟨r, hexit, hlow, hhigh⟩ := fixedSqrtExit_near hS hv hpos
  have hr : fixedSqrtNewton y = r := by rw [fixedSqrtNewton, hexit, NewtonExit.value]
  have hroot : F.div * √y.toReal = √((v * F.div : Nat) : ℝ) := by
    have hy : ((v * F.div : Nat) : ℝ) = F.div ^ 2 * y.toReal := by
      rw [toReal, hv]
      push_cast
      field_simp
    rw [hy, Real.sqrt_mul (sq_nonneg _), Real.sqrt_sq hD.le]
  have hfloor := Real.nat_sqrt_le_real_sqrt (a := v * F.div)
  have hceil := Real.real_sqrt_lt_nat_sqrt_succ (a := v * F.div)
  have hlow' : ((Nat.sqrt (v * F.div) : Nat) : ℝ) ≤ r.inner := by exact_mod_cast hlow
  have hhigh' : (r.inner : ℝ) ≤ (Nat.sqrt (v * F.div) : Nat) + 2 := by exact_mod_cast hhigh
  have hunit := F.div_mul_unit
  rw [hr]
  refine ⟨hlow, hhigh, ?_, ?_⟩
  · refine le_of_mul_le_mul_left ?_ hD
    rw [mul_sub, hroot, hunit, ← inner_eq]
    linarith
  · refine le_of_mul_le_mul_left ?_ hD
    rw [mul_add, hroot, mul_left_comm, hunit, ← inner_eq]
    linarith

/-- The invariant of the reduction after a number of square roots. -/
structure Reduced (x y : FixedNumber F) (k : Nat) : Prop where
  pos : 0 < y.inner
  above : (F.div : Int) ≤ x.inner → (F.div : Int) ≤ y.inner
  below : x.inner ≤ F.div → x.inner ≤ y.inner ∧ y.inner ≤ F.div
  log : 2 ^ k * |Real.log y.toReal| ≤ |Real.log x.toReal| + 4 * (2 ^ k - 1) * rootError x

theorem Reduced.start (hx : 0 < x.inner) : Reduced x x 0 :=
  ⟨hx, id, fun h => ⟨le_refl _, h⟩, by simp⟩

theorem root_above {D v : Nat} (hD : 10 ^ 9 ≤ D) (hv : 3 * D < 2 * v) :
    D ≤ Nat.sqrt (v * D) ∧ Nat.sqrt (v * D) + 2 < v := by
  constructor
  · rw [Nat.le_sqrt]
    exact Nat.mul_le_mul_right _ (by omega)
  · have hsq := Nat.sqrt_le (v * D)
    by_contra hge
    have hle : v ≤ Nat.sqrt (v * D) + 2 := by omega
    nlinarith

theorem root_below {D v : Nat} (hD : 10 ^ 9 ≤ D) (hpos : 0 < v) (hv : 2 * v < D) :
    v < Nat.sqrt (v * D) ∧ Nat.sqrt (v * D) + 2 ≤ D := by
  constructor
  · rw [Nat.lt_iff_add_one_le, Nat.le_sqrt]
    nlinarith
  · have hsq := Nat.sqrt_le (v * D)
    by_contra hgt
    have hle : D ≤ Nat.sqrt (v * D) + 1 := by omega
    nlinarith

theorem log_root_above {a r u : ℝ} (ha : 1 ≤ a) (hr : 1 ≤ r) (hle : r ≤ √a + 2 * u) (hu : 0 ≤ u) :
    |Real.log r| ≤ |Real.log a| / 2 + 2 * u := by
  have hroot : 1 ≤ √a := Real.one_le_sqrt.mpr ha
  have hlog := Real.log_le_log (by linarith) hle
  have hsplit : √a + 2 * u = √a * (1 + 2 * u / √a) := by field_simp
  have hfrac : 2 * u / √a ≤ 2 * u := div_le_self (by linarith) hroot
  have hfrac0 : 0 ≤ 2 * u / √a := by positivity
  rw [hsplit, Real.log_mul (by linarith) (by linarith), Real.log_sqrt (by linarith)] at hlog
  have hone := Real.log_le_sub_one_of_pos (by linarith : 0 < 1 + 2 * u / √a)
  rw [abs_of_nonneg (Real.log_nonneg hr), abs_of_nonneg (Real.log_nonneg ha)]
  linarith

theorem log_root_below {a r u : ℝ} (ha : 0 < a) (ha' : a ≤ 1) (hr : r ≤ 1) (hge : √a - u ≤ r) (hu : 0 ≤ u)
    (hsmall : 2 * u ≤ √a) : |Real.log r| ≤ |Real.log a| / 2 + 2 * (u / √a) := by
  have hroot : 0 < √a := Real.sqrt_pos.mpr ha
  have hfrac : u / √a ≤ 1 / 2 := by
    rw [div_le_iff₀ hroot]
    linarith
  have hfrac0 : 0 ≤ u / √a := by positivity
  have hsplit : √a - u = √a * (1 - u / √a) := by field_simp
  have hpos : 0 < √a - u := by
    rw [hsplit]
    exact mul_pos hroot (by linarith)
  have hlog := Real.log_le_log hpos hge
  rw [hsplit, Real.log_mul hroot.ne' (by linarith), Real.log_sqrt ha.le] at hlog
  have hinv := Real.one_sub_inv_le_log_of_pos (by linarith : 0 < 1 - u / √a)
  have hbound : -(2 * (u / √a)) ≤ 1 - (1 - u / √a)⁻¹ := by
    have hpos' : 0 < 1 - u / √a := by linarith
    rw [neg_le_sub_iff_le_add, inv_le_iff_one_le_mul₀ hpos']
    nlinarith
  have hr0 : 0 < r := hpos.trans_le hge
  rw [abs_of_nonpos (Real.log_nonpos hr0.le hr), abs_of_nonpos (Real.log_nonpos ha.le ha')]
  linarith

theorem rangeReduceLoop_succ (hy : 0 ≤ y.inner) (n k : Nat) :
    (rangeReduceLoop (n + 1) y k = (y, k) ∧ 2 * |y.inner - F.div| ≤ F.div) ∨
      ((F.div : Int) < 2 * |y.inner - F.div| ∧
        (fixedSqrtNewton y ≠ y → fixedSqrtNewton y ≠ zero →
          rangeReduceLoop (n + 1) y k = rangeReduceLoop n (fixedSqrtNewton y) (k + 1))) := by
  have hD := F.div_pos'
  have hmax := F.two_div_le
  have hmin := F.min_nonpos
  have hyM := y.le_max
  have hhalf : (saturatingFromRational 1 2 : FixedNumber F).inner = (F.div : Int) / 2 := by
    have hval : ((1 : Int) * F.div).tdiv 2 = (F.div : Int) / 2 := by
      rw [Int.one_mul, Int.tdiv_eq_ediv_of_nonneg hD.le]
    rw [saturatingFromRational, hval]
    exact FixedNumber.clamp_of_mem (by omega) (by omega)
  have hdiff : (if (one : FixedNumber F).inner < y.inner then y.saturatingSub one else one.saturatingSub y).inner =
      |y.inner - F.div| := by
    rw [one_inner]
    split
    · rw [saturatingSub_inner, one_inner, FixedNumber.clamp_of_mem (by omega) (by omega), abs_of_pos (by omega)]
    · rw [saturatingSub_inner, one_inner, FixedNumber.clamp_of_mem (by omega) (by omega), abs_of_nonpos (by omega)]
      omega
  rw [rangeReduceLoop]
  dsimp only
  rw [hdiff, hhalf]
  split
  · exact Or.inl ⟨rfl, by omega⟩
  · refine Or.inr ⟨by omega, fun hne hne0 => ?_⟩
    rw [if_neg (by simp [hne, hne0])]

theorem pow_mul_halved {a b c e : ℝ} (h : 2 ^ k * b ≤ c + 4 * (2 ^ k - 1) * e) (ha : a ≤ b / 2 + 2 * e) :
    2 ^ (k + 1) * a ≤ c + 4 * (2 ^ (k + 1) - 1) * e := by
  have hpow : (0 : ℝ) ≤ 2 ^ (k + 1) := by positivity
  calc (2 : ℝ) ^ (k + 1) * a ≤ 2 ^ (k + 1) * (b / 2 + 2 * e) := mul_le_mul_of_nonneg_left ha hpow
    _ = 2 ^ k * b + 4 * 2 ^ k * e := by ring
    _ ≤ c + 4 * (2 ^ (k + 1) - 1) * e := by rw [pow_succ]; linarith

/-- A root of a value that is not yet near one keeps the invariant and changes the value. -/
theorem Reduced.step (hF : F.Decimal) (hS : SqrtBounds F) (h : Reduced x y k) (hx : 0 < x.inner)
    (hfar : (F.div : Int) < 2 * |y.inner - F.div|) :
    Reduced x (fixedSqrtNewton y) (k + 1) ∧ fixedSqrtNewton y ≠ y ∧ fixedSqrtNewton y ≠ zero := by
  have hD := F.div_pos'
  have hu := F.unit_pos
  have hpos := h.pos
  obtain ⟨v, hv⟩ := Int.eq_ofNat_of_zero_le hpos.le
  obtain ⟨herr, herr'⟩ := rootError_bounds hF hx
  obtain ⟨hlow, hhigh, hlowr, hhighr⟩ := fixedSqrtNewton_real hS hv (by omega)
  rcases lt_or_ge (F.div : Int) y.inner with hy | hy
  · rw [abs_of_pos (by omega)] at hfar
    obtain ⟨hge, hlt⟩ := root_above (v := v) hF.le_div (by omega)
    have hxD : (F.div : Int) < x.inner := not_le.mp fun hle => (h.below hle).2.not_gt hy
    refine ⟨⟨by omega, fun _ => by omega, fun hle => absurd hle (by omega), pow_mul_halved h.log ?_⟩, ?_, ?_⟩
    · have hroot := log_root_above (one_le_toReal.mpr hy.le) (one_le_toReal.mpr (by omega)) hhighr hu.le
      linarith
    · intro heq
      rw [heq] at hhigh
      omega
    · intro heq
      rw [heq, zero_inner] at hlow
      omega
  · rw [abs_of_nonpos (by omega)] at hfar
    obtain ⟨hgt, hle⟩ := root_below (v := v) hF.le_div (by omega) (by omega)
    have hxD : x.inner < F.div := not_le.mp fun hle => by
      have hyD := h.above hle
      omega
    have hxy := (h.below hxD.le).1
    have hroots : √x.toReal ≤ √y.toReal := Real.sqrt_le_sqrt (toReal_le_toReal.mpr hxy)
    have hx0 : 0 < √x.toReal := Real.sqrt_pos.mpr (toReal_pos hx)
    have hmin : rootError x = F.unit / √x.toReal := by rw [rootError, min_eq_left (toReal_le_one.mpr hxD.le)]
    have hrel : F.unit / √y.toReal ≤ rootError x := by
      rw [hmin]
      exact div_le_div_of_nonneg_left hu.le hx0 hroots
    have hsmall : 2 * F.unit ≤ √y.toReal := by
      rw [hmin, div_le_iff₀ hx0] at herr'
      linarith
    refine ⟨⟨by omega, fun hge => absurd hge (by omega), fun _ => ⟨by omega, by omega⟩, pow_mul_halved h.log ?_⟩,
      ?_, ?_⟩
    · have hroot := log_root_below (toReal_pos hpos) (toReal_le_one.mpr hy) (toReal_le_one.mpr (by omega)) hlowr
        hu.le hsmall
      linarith
    · intro heq
      rw [heq] at hlow
      omega
    · intro heq
      rw [heq, zero_inner] at hlow
      omega

theorem abs_log_le (hF : F.Decimal) (hx : 0 < x.inner) : |Real.log x.toReal| ≤ 48 := by
  have hx0 := toReal_pos hx
  obtain ⟨hmax, hexp⟩ := max_lt_exp hF (le_refl (48 : ℝ))
  have hup : x.toReal ≤ Real.exp 48 := by
    have hle := toReal_le_max x
    linarith
  have hlow : Real.exp (-48) ≤ x.toReal := by
    refine le_trans ?_ (unit_le_toReal hx)
    have hdiv : (F.div : ℝ) ≤ 10 ^ 18 := by exact_mod_cast hF.div_le
    rw [Real.exp_neg, ← one_div]
    exact one_div_le_one_div_of_le F.div_pos_real (hdiv.trans (by linarith))
  rw [abs_le]
  exact ⟨(Real.le_log_iff_exp_le hx0).mpr hlow, (Real.log_le_iff_le_exp hx0).mpr hup⟩

theorem Reduced.near (hF : F.Decimal) (h : Reduced x y 7) (hx : 0 < x.inner) : 2 * |y.inner - F.div| ≤ F.div := by
  have hy0 := toReal_pos h.pos
  obtain ⟨-, herr⟩ := rootError_bounds hF hx
  have hlog := h.log
  have hbound := abs_log_le hF hx
  have habs : |Real.log y.toReal| ≤ 49 / 128 := by linarith
  obtain ⟨hlow, hup⟩ := abs_le.mp habs
  have hexp : Real.exp 49 ≤ (3 / 2 : ℝ) ^ 128 := by
    have hpow : Real.exp 49 = Real.exp 1 ^ 49 := by
      rw [← Real.exp_nat_mul]
      norm_num
    have hle : Real.exp 1 ^ 49 ≤ (2.72 : ℝ) ^ 49 :=
      pow_le_pow_left₀ (Real.exp_pos 1).le (by linarith [Real.exp_one_lt_d9]) 49
    rw [hpow]
    exact hle.trans (by norm_num)
  have hroot : 49 / 128 ≤ Real.log (3 / 2) := by
    have hle := (Real.le_log_iff_exp_le (by norm_num)).mpr hexp
    rw [Real.log_pow] at hle
    push_cast at hle
    linarith
  have hyup : y.toReal ≤ 3 / 2 := (Real.log_le_log_iff hy0 (by norm_num)).mp (hup.trans hroot)
  have hylow : 1 - 49 / 128 ≤ y.toReal := by
    have hle := Real.log_le_sub_one_of_pos hy0
    linarith
  have hD := F.div_pos_real
  rw [toReal, div_le_iff₀ hD] at hyup
  rw [toReal, le_div_iff₀ hD] at hylow
  have hreal : |(y.inner : ℝ) - F.div| ≤ F.div / 2 := abs_le.mpr ⟨by linarith, by linarith⟩
  have hcast : 2 * |(y.inner : ℝ) - F.div| ≤ F.div := by linarith
  exact_mod_cast hcast

theorem rangeReduceLoop_reduced (hF : F.Decimal) (hS : SqrtBounds F) {fuel : Nat} (h : Reduced x y k)
    (hx : 0 < x.inner) (hk : k ≤ 7) (hfuel : 8 ≤ k + fuel) :
    Reduced x (rangeReduceLoop fuel y k).1 (rangeReduceLoop fuel y k).2 ∧ (rangeReduceLoop fuel y k).2 ≤ 7 ∧
      2 * |(rangeReduceLoop fuel y k).1.inner - F.div| ≤ F.div := by
  induction fuel generalizing y k with
  | zero => omega
  | succ fuel ih =>
    rcases rangeReduceLoop_succ h.pos.le fuel k with ⟨hend, hnear⟩ | ⟨hfar, hnext⟩
    · rw [hend]
      exact ⟨h, hk, hnear⟩
    · have hk7 : k ≠ 7 := by
        rintro rfl
        exact absurd (h.near hF hx) (by omega)
      obtain ⟨hstep, hne, hne0⟩ := h.step hF hS hx hfar
      rw [hnext hne hne0]
      exact ih hstep (by omega) (by omega)

/-- The result of the logarithm has the sign of the exact one and is at most that far from zero, up to the errors
of the square roots. -/
theorem fixedLn_eq_some (hF : F.Decimal) (hS : SqrtBounds F) (hx : 0 < x.inner)
    (hdomain : ¬(isUnsigned F ∧ x.inner < (one : FixedNumber F).inner)) :
    ∃ l, fixedLn x = some l ∧ ((F.div : Int) ≤ x.inner → 0 ≤ l.inner) ∧ (x.inner ≤ F.div → l.inner ≤ 0) ∧
      |l.toReal| ≤ |Real.log x.toReal| + 508 * rootError x := by
  have herr := F.unit_pos.le.trans (rootError_bounds hF hx).1
  rw [fixedLn, if_neg (by omega)]
  by_cases hone : x = one
  · refine ⟨zero, if_pos hone, fun _ => le_refl _, fun _ => le_refl _, ?_⟩
    rw [toReal_zero, abs_zero]
    positivity
  rw [if_neg hone, if_neg hdomain]
  obtain ⟨hred, hk, hnear⟩ := rangeReduceLoop_reduced hF hS (Reduced.start hx) hx (Nat.zero_le 7)
    (by decide : 8 ≤ 0 + maxIterations)
  rw [← rangeReduceSqrt] at hred hk hnear
  dsimp only
  generalize rangeReduceSqrt x = reduced at hred hk hnear ⊢
  obtain ⟨y, k⟩ := reduced
  dsimp only at hred hk hnear ⊢
  have hypos := hred.pos
  rw [if_neg (by omega)]
  have hln := lnNearOne_toward hF hred.pos (by
    have habs := (abs_le.mp (le_refl |y.inner - F.div|)).2
    omega)
  have hscaled : Toward (if 0 < k then (lnNearOne y).saturatingMul (saturatingFromInteger (2 ^ k)) else
      lnNearOne y).toReal (Real.log y.toReal * 2 ^ k) := by
    split
    · have hscale : (saturatingFromInteger (2 ^ k) : FixedNumber F).toReal = 2 ^ k := by
        have hpow : (2 : Nat) ^ k ≤ 2 ^ 7 := Nat.pow_le_pow_right (by decide) hk
        have hreal := saturatingFromInteger_real hF (hpow.trans (by decide))
        push_cast at hreal
        exact hreal
      have hmul := saturatingMul_toward (lnNearOne y) (saturatingFromInteger (2 ^ k))
      rw [hscale] at hmul
      exact hmul.trans (hln.mul (by positivity) (le_refl _))
    · rename_i hzero
      obtain rfl : k = 0 := by omega
      rw [pow_zero, mul_one]
      exact hln
  refine ⟨_, rfl, fun hge => ?_, fun hle => ?_, ?_⟩
  · have hlog := Real.log_nonneg (one_le_toReal.mpr (hred.above hge))
    exact toReal_nonneg.mp (hscaled.of_nonneg (by positivity)).1
  · have hlog := Real.log_nonpos (toReal_pos hypos).le (toReal_le_one.mpr (hred.below hle).2)
    have hneg := (hscaled.of_nonpos (mul_nonpos_of_nonpos_of_nonneg hlog (by positivity))).2
    rw [← toReal_zero (F := F), toReal_le_toReal] at hneg
    exact hneg
  · have hpow : (2 : ℝ) ^ k ≤ 2 ^ 7 := pow_le_pow_right₀ one_le_two hk
    have hbound : 4 * ((2 : ℝ) ^ k - 1) * rootError x ≤ 508 * rootError x :=
      mul_le_mul_of_nonneg_right (by linarith) herr
    refine hscaled.abs_le.trans ?_
    rw [abs_mul, abs_of_pos (by positivity : (0 : ℝ) < 2 ^ k), mul_comm]
    exact hred.log.trans (by linarith)

end Reduction

end FrameSuite
