import FrameSuite.FixedNumber
import FrameSuite.IntegerNewton

/-! The square root of a fixed-point number. Within the bounds of the four formats the loop is the integer
iteration on the inner values, so it returns before its cap and is within two units in the last place. -/

namespace FrameSuite

open FixedNumber

variable {F : FixedRepr}

def maxIterations : Nat := 50

/-- How an iteration ended: by one of its exits, or at the cap with its last guess. -/
inductive NewtonExit (F : FixedRepr)
  | returned (root : FixedNumber F)
  | capped (guess : FixedNumber F)
deriving DecidableEq

namespace NewtonExit

def value : NewtonExit F → FixedNumber F
  | returned root => root
  | capped guess => guess

def returned? : NewtonExit F → Option (FixedNumber F)
  | returned root => some root
  | capped _ => none

end NewtonExit

/-- The iterations that remain, the guess and the difference of the step before. -/
def newtonLoop (x : FixedNumber F) : Nat → FixedNumber F → Option (FixedNumber F) → NewtonExit F
  | 0, guess, _ => .capped guess
  | n + 1, guess, prevDiff =>
    match x.checkedDiv guess with
    | none => .returned guess
    | some div =>
      let two := one.saturatingAdd one
      let tol : FixedNumber F := ulp.saturatingAdd ulp
      let next := ((guess.saturatingAdd div).checkedDiv two).getD guess
      let diff := if guess.inner < next.inner then next.saturatingSub guess else guess.saturatingSub next
      if diff.inner ≤ tol.inner then .returned next
      else if prevDiff.any (fun pd => pd.inner ≤ diff.inner) then .returned next
      else newtonLoop x n next (some diff)

def sqrtGuess (x : FixedNumber F) : FixedNumber F :=
  if F.div < x.inner then ((x.saturatingAdd one).checkedDiv (one.saturatingAdd one)).getD one
  else
    let quarter := saturatingFromRational 1 4
    if quarter.inner < x.inner then x else quarter

def fixedSqrtExit (x : FixedNumber F) : NewtonExit F :=
  if x.inner ≤ 0 then .returned zero
  else if x = one then .returned one
  else newtonLoop x maxIterations (sqrtGuess x) none

def fixedSqrtNewton (x : FixedNumber F) : FixedNumber F := (fixedSqrtExit x).value

def fixedSqrt (x : FixedNumber F) : Option (FixedNumber F) :=
  if x.inner < 0 then none
  else if x = zero then some zero
  else if x = one then some one
  else some (fixedSqrtNewton x)

theorem two_inner : ((one.saturatingAdd one : FixedNumber F)).inner = 2 * F.div := by
  have hpos := F.div_pos'
  have hle := F.two_div_le
  have hmin := F.min_nonpos
  rw [saturatingAdd_inner, one_inner, clamp_of_mem] <;> omega

theorem checkedDiv_two {x : FixedNumber F} (hx : 0 ≤ x.inner) :
    ∃ h, x.checkedDiv (one.saturatingAdd one) = some h ∧ h.inner = x.inner / 2 := by
  have hpos := F.div_pos'
  have hmin := F.min_nonpos
  have hmax := x.le_max
  have hin : (x.inner * F.div).tdiv (2 * F.div) = x.inner / 2 := by
    rw [mul_div_tdiv_mul, Int.tdiv_eq_ediv_of_nonneg hx]
  have hne : 2 * (F.div : Int) ≠ 0 := by omega
  refine ⟨⟨x.inner / 2, by omega, by omega⟩, checkedDiv_eq_some.mpr ?_, rfl⟩
  rw [two_inner]
  exact ⟨hne, hin.symm⟩

theorem checkedDiv_nat {x guess : FixedNumber F} {v g : Nat} (hx : x.inner = v) (hg : guess.inner = g)
    (hpos : 0 < g) (hle : ((v * F.div / g : Nat) : Int) ≤ F.maxInner) :
    ∃ q, x.checkedDiv guess = some q ∧ q.inner = ((v * F.div / g : Nat) : Int) := by
  have hmin := F.min_nonpos.trans (Int.natCast_nonneg (v * F.div / g))
  refine ⟨⟨((v * F.div / g : Nat) : Int), hmin, hle⟩, checkedDiv_eq_some.mpr ⟨by omega, ?_⟩, rfl⟩
  change ((v * F.div / g : Nat) : Int) = _
  rw [hx, hg, ← Int.natCast_mul, ← Int.ofNat_tdiv]

section Refinement

variable {x guess : FixedNumber F} {v g : Nat} {prevDiff : Option (FixedNumber F)} {prev : Option Nat}

/-- Sums of the guess and the quotient stay in range. -/
def GuessFits (F : FixedRepr) (a g : Nat) : Prop :=
  0 < g ∧ 2 * (g : Int) ≤ F.maxInner ∧ 2 * ((a / g : Nat) : Int) ≤ F.maxInner

theorem GuessFits.step {a g : Nat} (hs : 0 < Nat.sqrt a) (hM : 2 * ((Nat.sqrt a + 2 : Nat) : Int) ≤ F.maxInner)
    (h : GuessFits F a g) : GuessFits F a (newtonStep a g) := by
  obtain ⟨hpos, hg, hq⟩ := h
  have hle := sqrt_le_newtonStep (a := a) hpos
  have hquot := div_le_sqrt_add_two hle
  refine ⟨hs.trans_le hle, ?_, by omega⟩
  unfold newtonStep
  omega

theorem prevDiff_any {d : FixedNumber F} {k : Nat} (hprev : prevDiff.map (·.inner) = prev.map (fun n => (n : Int)))
    (hd : d.inner = k) :
    prevDiff.any (fun pd => pd.inner ≤ d.inner) = prev.any (· ≤ k) := by
  cases prevDiff with
  | none =>
    cases prev with
    | none => rfl
    | some n => cases hprev
  | some pd =>
    cases prev with
    | none => cases hprev
    | some n =>
      have hpd : pd.inner = n := by simpa using hprev
      simp [hpd, hd]

theorem newtonLoop_returned {n : Nat} (hx : x.inner = v) (hs : 0 < Nat.sqrt (v * F.div))
    (hM : 2 * ((Nat.sqrt (v * F.div) + 2 : Nat) : Int) ≤ F.maxInner) (hg : guess.inner = g)
    (hfits : GuessFits F (v * F.div) g) (hprev : prevDiff.map (·.inner) = prev.map (fun n => (n : Int))) :
    (newtonLoop x n guess prevDiff).returned?.map (·.inner) =
      (newtonIterate (v * F.div) n g prev).map (fun n => (n : Int)) := by
  induction n generalizing guess g prevDiff prev with
  | zero => rfl
  | succ n ih =>
    have hmin := F.min_nonpos
    obtain ⟨hpos, hg2, hq2⟩ := hfits
    have hq0 := Int.natCast_nonneg (v * F.div / g)
    obtain ⟨q, hq, hqi⟩ := checkedDiv_nat hx hg hpos (by omega)
    have hsum : (guess.saturatingAdd q).inner = ((g + v * F.div / g : Nat) : Int) := by
      rw [saturatingAdd_inner, hg, hqi, clamp_of_mem] <;> omega
    obtain ⟨next, hnext, hni⟩ := checkedDiv_two (x := guess.saturatingAdd q) (by omega)
    have hstep : next.inner = (newtonStep (v * F.div) g : Nat) := by
      rw [hni, hsum]
      unfold newtonStep
      omega
    have hfits' := GuessFits.step hs hM ⟨hpos, hg2, hq2⟩
    have hM1 := hfits'.2.1
    have hdiff : (if guess.inner < next.inner then next.saturatingSub guess else guess.saturatingSub next).inner =
        (newtonDiff (v * F.div) g : Nat) := by
      unfold newtonDiff
      split <;> rename_i hlt <;> rw [saturatingSub_inner, hg, hstep] <;> rw [hg, hstep] at hlt
      · rw [if_pos (by omega), clamp_of_mem] <;> omega
      · rw [if_neg (by omega), clamp_of_mem] <;> omega
    have htol : ((ulp.saturatingAdd ulp : FixedNumber F)).inner = 2 := by
      have htwo := F.two_div_le
      have hdpos := F.div_pos'
      rw [saturatingAdd_inner, ulp_inner, clamp_of_mem] <;> omega
    rw [newtonLoop, newtonIterate, hq]
    simp only [hnext, Option.getD_some]
    rw [htol, prevDiff_any hprev hdiff, hdiff]
    by_cases hle : newtonDiff (v * F.div) g ≤ 2
    · rw [if_pos (by omega), if_pos (Or.inl hle)]
      simp [NewtonExit.returned?, hstep]
    · rw [if_neg (by omega)]
      by_cases hany : prev.any (· ≤ newtonDiff (v * F.div) g) = true
      · rw [if_pos hany, if_pos (Or.inr hany)]
        simp [NewtonExit.returned?, hstep]
      · rw [if_neg hany, if_neg (not_or.mpr ⟨hle, hany⟩)]
        exact ih hstep hfits' (by simp [hdiff])

end Refinement

section Accuracy

variable {x : FixedNumber F} {v : Nat}

/-- The range of a format against its accuracy, as far as the number of steps depends on it. -/
structure SqrtBounds (F : FixedRepr) : Prop where
  four_dvd : 4 ∣ F.div
  div_lt : F.div < 2 ^ 60
  le_max : 16 * (F.div : Int) ≤ F.maxInner
  max_lt : F.maxInner < F.div * 2 ^ 69

theorem FixedKind.sqrtBounds (k : FixedKind) : SqrtBounds k.repr := by
  cases k <;> exact ⟨by decide, by decide, by decide, by decide⟩

theorem SqrtBounds.four_mul_sqrt_le (hF : SqrtBounds F) (hx : x.inner = v) :
    4 * (Nat.sqrt (v * F.div) : Int) ≤ F.maxInner := by
  have hle := hF.le_max
  have hv : (v : Int) ≤ F.maxInner := hx ▸ x.le_max
  have hD := F.div_pos'
  have hs : ((Nat.sqrt (v * F.div) : Nat) : Int) * (Nat.sqrt (v * F.div) : Nat) ≤ v * F.div := by
    exact_mod_cast Nat.sqrt_le (v * F.div)
  nlinarith

theorem SqrtBounds.sqrt_lt (hF : SqrtBounds F) (hx : x.inner = v) : Nat.sqrt (v * F.div) < 2 ^ 127 := by
  have hmax := hF.max_lt
  have hdiv := hF.div_lt
  have hv : (v : Int) ≤ F.maxInner := hx ▸ x.le_max
  rw [Nat.sqrt_lt]
  have hvD : v < F.div * 2 ^ 69 := by exact_mod_cast hv.trans_lt hmax
  calc v * F.div ≤ (F.div * 2 ^ 69) * F.div := Nat.mul_le_mul_right _ hvD.le
    _ ≤ (2 ^ 60 * 2 ^ 69) * 2 ^ 60 :=
      Nat.mul_le_mul (Nat.mul_le_mul_right _ hdiv.le) hdiv.le
    _ < 2 ^ 127 * 2 ^ 127 := by decide

theorem sqrt_pos (hv : 0 < v) : 0 < Nat.sqrt (v * F.div) :=
  Nat.sqrt_pos.mpr (Nat.mul_pos hv F.div_pos)

theorem newtonIterate_of_ge (hF : SqrtBounds F) (hx : x.inner = v) (hv : 0 < v) {g : Nat}
    (hsg : Nat.sqrt (v * F.div) ≤ g) (hg : g ≤ 2 ^ 36 * Nat.sqrt (v * F.div)) :
    newtonIterate (v * F.div) maxIterations g none ≠ none := by
  have hs := sqrt_pos (F := F) hv
  have hret := ((returnsWithin_sqrt hs (hF.sqrt_lt hx)).halves hs 36).add 6
  exact hret g none hsg (by omega)

theorem newtonIterate_of_half (hF : SqrtBounds F) (hx : x.inner = v) (hv : 0 < v) {g : Nat}
    (hg : g ≤ Nat.sqrt (v * F.div)) (hhalf : Nat.sqrt (v * F.div) ≤ 2 * g) :
    newtonIterate (v * F.div) maxIterations g none ≠ none :=
  newtonIterate_ne_none_add
    (newtonIterate_of_le (sqrt_pos (F := F) hv) (hF.sqrt_lt hx) hg hhalf) 41

theorem sqrtGuess_of_gt (hF : SqrtBounds F) (hx : x.inner = v) (hv : F.div < v) :
    ∃ g, (sqrtGuess x).inner = (g : Nat) ∧ GuessFits F (v * F.div) g ∧
      newtonIterate (v * F.div) maxIterations g none ≠ none := by
  have hD := F.div_pos
  have hmin := F.min_nonpos
  have hmax := hF.le_max
  have hvM : (v : Int) ≤ F.maxInner := hx ▸ x.le_max
  have hsM := hF.four_mul_sqrt_le hx
  have hs := sqrt_pos (F := F) (v := v) (by omega)
  obtain ⟨M, hM⟩ := Int.eq_ofNat_of_zero_le (zero_le_one.trans F.one_le_max)
  have hsum : (x.saturatingAdd one).inner = ((min (v + F.div) M : Nat) : Int) := by
    rw [saturatingAdd_inner, hx, one_inner, clamp_of_nonneg (by omega), hM]
    omega
  obtain ⟨h, hdiv, hinner⟩ := checkedDiv_two (x := x.saturatingAdd one) (by omega)
  have hguess : (sqrtGuess x).inner = ((min (v + F.div) M / 2 : Nat) : Int) := by
    have hlt : (F.div : Int) < x.inner := by omega
    rw [sqrtGuess, if_pos hlt, hdiv, Option.getD_some, hinner, hsum]
    omega
  have hmid : 2 * Nat.sqrt (v * F.div) ≤ v + F.div := by
    have hle := Nat.sqrt_le (v * F.div)
    by_contra hgt
    have hlt : (v + F.div) * (v + F.div) < (2 * Nat.sqrt (v * F.div)) * (2 * Nat.sqrt (v * F.div)) :=
      Nat.mul_self_lt_mul_self (by omega)
    have hsq : 4 * (v * F.div) ≤ (v + F.div) * (v + F.div) := by
      nlinarith [sq_nonneg ((v : Int) - F.div)]
    nlinarith
  have hsg : Nat.sqrt (v * F.div) ≤ min (v + F.div) M / 2 := by omega
  have hquot := div_le_sqrt_add_two hsg
  refine ⟨_, hguess, ⟨by omega, by omega, by omega⟩, newtonIterate_of_ge hF hx (by omega) hsg ?_⟩
  -- The number is below the `2 ^ 36`-fold of its root, since the range bounds it by `2 ^ 69`.
  have hvD : v < F.div * 2 ^ 69 := by exact_mod_cast hvM.trans_lt hF.max_lt
  have hroot : v ≤ 2 ^ 36 * Nat.sqrt (v * F.div) := by
    have hlt := Nat.lt_succ_sqrt (v * F.div)
    refine Nat.mul_self_le_mul_self_iff.mp ?_
    calc v * v ≤ v * (F.div * 2 ^ 69) := Nat.mul_le_mul_left _ hvD.le
      _ = v * F.div * 2 ^ 69 := by ring
      _ ≤ (2 * Nat.sqrt (v * F.div)) * (2 * Nat.sqrt (v * F.div)) * 2 ^ 69 := by
        refine Nat.mul_le_mul_right _ (hlt.le.trans (Nat.mul_le_mul ?_ ?_)) <;> omega
      _ ≤ (2 ^ 36 * Nat.sqrt (v * F.div)) * (2 ^ 36 * Nat.sqrt (v * F.div)) := by nlinarith
  omega

theorem sqrtGuess_of_lt (hF : SqrtBounds F) (hx : x.inner = v) (hv : 0 < v) (hlt : v < F.div) :
    ∃ g, (sqrtGuess x).inner = (g : Nat) ∧ GuessFits F (v * F.div) g ∧
      newtonIterate (v * F.div) maxIterations g none ≠ none := by
  have hmin := F.min_nonpos
  have hmax := hF.le_max
  obtain ⟨c, hc⟩ := hF.four_dvd
  have hquarter : (saturatingFromRational 1 4 : FixedNumber F).inner = c := by
    have hdiv : ((1 : Int) * F.div).tdiv 4 = c := by
      rw [Int.tdiv_eq_ediv_of_nonneg (by omega)]
      omega
    rw [saturatingFromRational, hdiv, clamp_of_mem] <;> omega
  have hnot : ¬(F.div : Int) < x.inner := by omega
  rw [sqrtGuess, if_neg hnot]
  simp only [hquarter, hx]
  by_cases hcv : (c : Int) < v
  · rw [if_pos hcv, hx]
    have hquot : v * F.div / v = F.div := Nat.mul_div_cancel_left _ hv
    refine ⟨v, rfl, ⟨hv, by omega, by rw [hquot]; omega⟩, newtonIterate_of_half hF hx hv ?_ ?_⟩
    · exact Nat.le_sqrt.mpr (Nat.mul_le_mul_left _ hlt.le)
    · refine Nat.sqrt_le_sqrt (n := 2 * v * (2 * v)) ?_ |>.trans (le_of_eq (Nat.sqrt_eq _))
      nlinarith
  · rw [if_neg hcv, hquarter]
    have hcpos : 0 < c := by
      have hD := F.div_pos
      omega
    have hquot : v * F.div / c = 4 * v := by
      rw [hc, show v * (4 * c) = c * (4 * v) by ring, Nat.mul_div_cancel_left _ hcpos]
    refine ⟨c, rfl, ⟨hcpos, by omega, by rw [hquot]; omega⟩, ?_⟩
    rcases Nat.le_total (Nat.sqrt (v * F.div)) c with hle | hle
    · refine newtonIterate_of_ge hF hx hv hle ?_
      have hs := sqrt_pos (F := F) hv
      have hlt' := Nat.lt_succ_sqrt (v * F.div)
      have hdiv := hF.div_lt
      have hcs : 4 * c ≤ (2 * Nat.sqrt (v * F.div)) * (2 * Nat.sqrt (v * F.div)) := by
        calc 4 * c = F.div := hc.symm
          _ ≤ v * F.div := Nat.le_mul_of_pos_left _ hv
          _ ≤ _ := hlt'.le.trans (Nat.mul_le_mul (by omega) (by omega))
      refine Nat.mul_self_le_mul_self_iff.mp ?_
      calc c * c ≤ c * 2 ^ 58 := Nat.mul_le_mul_left _ (by omega)
        _ ≤ Nat.sqrt (v * F.div) * Nat.sqrt (v * F.div) * 2 ^ 58 := Nat.mul_le_mul_right _ (by linarith)
        _ ≤ (2 ^ 36 * Nat.sqrt (v * F.div)) * (2 ^ 36 * Nat.sqrt (v * F.div)) := by nlinarith
    · refine newtonIterate_of_half hF hx hv hle ?_
      refine Nat.sqrt_le_sqrt (n := 2 * c * (2 * c)) ?_ |>.trans (le_of_eq (Nat.sqrt_eq _))
      have hvc : v ≤ c := by omega
      nlinarith

theorem fixedSqrtExit_near (hF : SqrtBounds F) (hx : x.inner = v) (hv : 0 < v) :
    ∃ r, fixedSqrtExit x = .returned r ∧ (Nat.sqrt (v * F.div) : Int) ≤ r.inner ∧
      r.inner ≤ Nat.sqrt (v * F.div) + 2 := by
  have hpos : ¬x.inner ≤ 0 := by omega
  rw [fixedSqrtExit, if_neg hpos]
  by_cases hone : x = one
  · have hvD : v = F.div := by
      have hinner := congrArg FixedNumber.inner hone
      rw [one_inner, hx] at hinner
      exact_mod_cast hinner
    refine ⟨one, if_pos hone, ?_⟩
    rw [hvD, Nat.sqrt_eq, one_inner]
    omega
  · rw [if_neg hone]
    have hne : v ≠ F.div := by
      intro heq
      refine hone (FixedNumber.ext ?_)
      rw [hx, heq, one_inner]
    have hguess : ∃ g, (sqrtGuess x).inner = (g : Nat) ∧ GuessFits F (v * F.div) g ∧
        newtonIterate (v * F.div) maxIterations g none ≠ none := by
      rcases Nat.lt_or_ge v F.div with hlt | hge
      · exact sqrtGuess_of_lt hF hx hv hlt
      · exact sqrtGuess_of_gt hF hx (by omega)
    obtain ⟨g, hg, hfits, hret⟩ := hguess
    obtain ⟨r, hr⟩ := Option.ne_none_iff_exists'.mp hret
    have hs := sqrt_pos (F := F) hv
    have hsM := hF.four_mul_sqrt_le hx
    have hM := hF.le_max
    have hD := F.div_pos
    have hloop : (newtonLoop x maxIterations (sqrtGuess x) none).returned?.map (·.inner) =
        (newtonIterate (v * F.div) maxIterations g none).map (fun n => (n : Int)) :=
      newtonLoop_returned hx hs (by omega) hg hfits rfl
    have hnear := newtonIterate_near hfits.1 hs (fun d hd => absurd hd (Option.not_mem_none d)) hr
    rw [hr] at hloop
    cases hexit : newtonLoop x maxIterations (sqrtGuess x) none with
    | capped guess =>
      rw [hexit] at hloop
      cases hloop
    | returned root =>
      rw [hexit] at hloop
      have hroot : root.inner = r := Option.some.inj hloop
      exact ⟨root, rfl, by omega, by omega⟩

end Accuracy

/-- The square root of every non-negative number is within two units in the last place, and the loop returns
before its cap. -/
theorem fixedSqrt_accurate (k : FixedKind) (x : k.Number) (hx : 0 ≤ x.inner) :
    ∃ r, fixedSqrt x = some r ∧ fixedSqrtExit x = .returned r ∧
      max 0 (r.inner - 2) ^ 2 ≤ x.inner * k.repr.div ∧ x.inner * k.repr.div ≤ (r.inner + 2) ^ 2 := by
  obtain ⟨v, hv⟩ := Int.eq_ofNat_of_zero_le hx
  have hneg : ¬x.inner < 0 := by omega
  rcases Nat.eq_zero_or_pos v with rfl | hpos
  · have hzero : x = zero := FixedNumber.ext hv
    refine ⟨zero, ?_, ?_, ?_⟩
    · rw [fixedSqrt, if_neg hneg, if_pos hzero]
    · rw [fixedSqrtExit, if_pos (by omega)]
    · rw [hv]
      norm_num
  · obtain ⟨r, hexit, hle, hge⟩ := fixedSqrtExit_near k.sqrtBounds hv hpos
    refine ⟨r, ?_, hexit, ?_⟩
    · have hzero : x ≠ zero := fun h => by
        rw [h, zero_inner] at hv
        omega
      rw [fixedSqrt, if_neg hneg, if_neg hzero, fixedSqrtNewton, hexit, NewtonExit.value]
      split
      · rename_i hone
        rw [fixedSqrtExit, if_neg (by omega), if_pos hone] at hexit
        exact congrArg some (NewtonExit.returned.inj hexit)
      · rfl
    · have hlow : ((Nat.sqrt (v * k.repr.div) : Nat) : Int) * (Nat.sqrt (v * k.repr.div) : Nat) ≤ v * k.repr.div := by
        exact_mod_cast Nat.sqrt_le (v * k.repr.div)
      have hhigh : (v : Int) * k.repr.div ≤
          ((Nat.sqrt (v * k.repr.div) : Nat) + 1 : Int) * ((Nat.sqrt (v * k.repr.div) : Nat) + 1) := by
        exact_mod_cast (Nat.lt_succ_sqrt (v * k.repr.div)).le
      have hbase : max 0 (r.inner - 2) ≤ Nat.sqrt (v * k.repr.div) := by omega
      rw [hv]
      constructor
      · nlinarith [le_max_left 0 (r.inner - 2)]
      · nlinarith

theorem fixedSqrt_accurate_two :
    ∃ r, fixedSqrt (saturatingFromInteger 2 : FixedKind.fixedU128.Number) = some r ∧
      fixedSqrtExit (saturatingFromInteger 2 : FixedKind.fixedU128.Number) = .returned r ∧
      max 0 (r.inner - 2) ^ 2 ≤ (saturatingFromInteger 2 : FixedKind.fixedU128.Number).inner * 10 ^ 18 ∧
      (saturatingFromInteger 2 : FixedKind.fixedU128.Number).inner * 10 ^ 18 ≤ (r.inner + 2) ^ 2 :=
  fixedSqrt_accurate .fixedU128 (saturatingFromInteger 2) (by decide)

example : fixedSqrt (saturatingFromInteger 4 : FixedU64) = some (saturatingFromInteger 2) := by decide +kernel

end FrameSuite
