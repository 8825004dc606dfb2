import Mathlib.Data.Nat.Sqrt
import Mathlib.Tactic.Linarith
import Mathlib.Tactic.Ring

/-! The integer square root by an iteration that averages a guess and the quotient by it. The iteration
stops when a step is at most two, or not below the step before it. The lemmas bound the result on either
exit and the number of steps that reach one. -/

namespace FrameSuite

def newtonStep (a g : Nat) : Nat := (g + a / g) / 2

/-- The distance a step moves the guess. -/
def newtonDiff (a g : Nat) : Nat := if g < newtonStep a g then newtonStep a g - g else g - newtonStep a g

/-- The result of the iteration, or `none` when the fuel runs out first. -/
def newtonIterate (a : Nat) : Nat → Nat → Option Nat → Option Nat
  | 0, _, _ => none
  | n + 1, g, prev =>
    if newtonDiff a g ≤ 2 ∨ prev.any (· ≤ newtonDiff a g) then some (newtonStep a g)
    else newtonIterate a n (newtonStep a g) (some (newtonDiff a g))

section Step

variable {a g : Nat}

theorem div_le_sqrt_of_lt (h : Nat.sqrt a < g) : a / g ≤ Nat.sqrt a := by
  refine Nat.le_of_lt_succ (Nat.div_lt_of_lt_mul ?_)
  exact (Nat.lt_succ_sqrt a).trans_le (Nat.mul_le_mul_right _ h)

theorem div_le_sqrt_add_two (h : Nat.sqrt a ≤ g) : a / g ≤ Nat.sqrt a + 2 := by
  refine Nat.div_le_of_le_mul ((Nat.sqrt_le_add a).trans ?_)
  calc Nat.sqrt a * Nat.sqrt a + Nat.sqrt a + Nat.sqrt a = Nat.sqrt a * (Nat.sqrt a + 2) := by ring
    _ ≤ g * (Nat.sqrt a + 2) := Nat.mul_le_mul_right _ h

theorem sqrt_le_newtonStep (hg : 0 < g) : Nat.sqrt a ≤ newtonStep a g := by
  have hquot : 2 * Nat.sqrt a - g ≤ a / g := by
    rw [Nat.le_div_iff_mul_le hg]
    refine le_trans ?_ (Nat.sqrt_le a)
    rcases Nat.le_total (2 * Nat.sqrt a) g with hle | hle
    · rw [Nat.sub_eq_zero_of_le hle, Nat.zero_mul]
      exact Nat.zero_le _
    · obtain ⟨d, hd⟩ := Nat.exists_eq_add_of_le hle
      rw [hd, Nat.add_sub_cancel_left]
      have hsq : 4 * (d * g) ≤ 4 * (Nat.sqrt a * Nat.sqrt a) := by
        calc 4 * (d * g) ≤ (g + d) * (g + d) := by nlinarith [sq_nonneg ((g : Int) - d)]
          _ = 4 * (Nat.sqrt a * Nat.sqrt a) := by rw [← hd]; ring
      omega
  unfold newtonStep
  omega

theorem newtonStep_le_of_sqrt_lt (h : Nat.sqrt a < g) : 2 * newtonStep a g ≤ g + Nat.sqrt a := by
  have hquot := div_le_sqrt_of_lt h
  unfold newtonStep
  omega

theorem newtonStep_sqrt_le : newtonStep a (Nat.sqrt a) ≤ Nat.sqrt a + 1 := by
  have hquot := div_le_sqrt_add_two (le_refl (Nat.sqrt a))
  unfold newtonStep
  omega

/-- Once the guess is within twice the root, a step squares its distance and divides it by twice the guess. -/
theorem mul_newtonStep_le :
    2 * g * newtonStep a g ≤ g * g + (Nat.sqrt a * Nat.sqrt a + 2 * Nat.sqrt a) := by
  have hstep : 2 * newtonStep a g ≤ g + a / g := Nat.mul_div_le _ _
  calc 2 * g * newtonStep a g = g * (2 * newtonStep a g) := by ring
    _ ≤ g * (g + a / g) := Nat.mul_le_mul_left _ hstep
    _ = g * g + g * (a / g) := by ring
    _ ≤ g * g + a := Nat.add_le_add_left (Nat.mul_div_le a g) _
    _ ≤ g * g + (Nat.sqrt a * Nat.sqrt a + 2 * Nat.sqrt a) := by
      have hle := Nat.sqrt_le_add a
      omega

end Step

theorem exists_of_any {prev : Option Nat} {k : Nat} (h : prev.any (· ≤ k) = true) : ∃ d ∈ prev, d ≤ k := by
  cases prev with
  | none => cases h
  | some d => exact ⟨d, rfl, of_decide_eq_true h⟩

section Accuracy

variable {a : Nat}

/-- What a step leaves behind: the guess is not below the root, and its distance to the root is at most the
length of the step. -/
def StepBehind (a g : Nat) (prev : Option Nat) : Prop :=
  ∀ d ∈ prev, Nat.sqrt a ≤ g ∧ g - Nat.sqrt a ≤ d

theorem StepBehind.step {g : Nat} (hg : 0 < g) :
    StepBehind a (newtonStep a g) (some (newtonDiff a g)) := by
  intro d hd
  obtain rfl := Option.mem_some.mp hd
  have hle := sqrt_le_newtonStep (a := a) hg
  refine ⟨hle, ?_⟩
  unfold newtonDiff
  rcases Nat.lt_or_ge (Nat.sqrt a) g with hlt | hge
  · have hmid := newtonStep_le_of_sqrt_lt hlt
    split <;> omega
  · split <;> omega

/-- The iteration returns the integer root or exceeds it by at most two, whichever exit it takes. -/
theorem newtonIterate_near {n g r : Nat} {prev : Option Nat} (hg : 0 < g) (hs : 0 < Nat.sqrt a)
    (hprev : StepBehind a g prev) (h : newtonIterate a n g prev = some r) :
    Nat.sqrt a ≤ r ∧ r ≤ Nat.sqrt a + 2 := by
  induction n generalizing g prev with
  | zero => cases h
  | succ n ih =>
    have hle := sqrt_le_newtonStep (a := a) hg
    rw [newtonIterate] at h
    split at h
    · rename_i hexit
      obtain rfl := Option.some.inj h
      refine ⟨hle, ?_⟩
      rcases Nat.lt_or_ge (Nat.sqrt a) g with hlt | hge
      · have hmid := newtonStep_le_of_sqrt_lt hlt
        have hdiff : newtonDiff a g = g - newtonStep a g := by
          unfold newtonDiff
          split <;> omega
        rcases hexit with htol | hstag
        · omega
        · -- The last step is at least the distance it had to cover, so it ends on the root.
          obtain ⟨d, hd, hdd⟩ := exists_of_any hstag
          have hb := hprev d hd
          omega
      · rcases Nat.eq_or_lt_of_le hge with heq | hlt
        · have hone := newtonStep_sqrt_le (a := a)
          rw [heq]
          omega
        · have hdiff : newtonDiff a g = newtonStep a g - g := by
            unfold newtonDiff
            split <;> omega
          rcases hexit with htol | hstag
          · omega
          · obtain ⟨d, hd, hdd⟩ := exists_of_any hstag
            have hb := hprev d hd
            omega
    · exact ih (hs.trans_le hle) (StepBehind.step hg) h

end Accuracy

section Termination

variable {a : Nat}

/-- Within the given number of steps the iteration returns from every guess that exceeds the root by at most
the given gap. -/
def ReturnsWithin (a n gap : Nat) : Prop :=
  ∀ g prev, Nat.sqrt a ≤ g → g ≤ Nat.sqrt a + gap → newtonIterate a n g prev ≠ none

theorem ReturnsWithin.mono {n gap gap' : Nat} (h : ReturnsWithin a n gap) (hle : gap' ≤ gap) :
    ReturnsWithin a n gap' :=
  fun g prev hs hg => h g prev hs (hg.trans (Nat.add_le_add_left hle _))

theorem newtonIterate_ne_none_of_step {n g : Nat} {prev : Option Nat}
    (h : ∀ p, newtonIterate a n (newtonStep a g) p ≠ none) : newtonIterate a (n + 1) g prev ≠ none := by
  rw [newtonIterate]
  split
  · exact Option.some_ne_none _
  · exact h _

theorem newtonIterate_ne_none_succ {n g : Nat} {prev : Option Nat} (h : newtonIterate a n g prev ≠ none) :
    newtonIterate a (n + 1) g prev ≠ none := by
  induction n generalizing g prev with
  | zero => exact absurd rfl h
  | succ n ih =>
    rw [newtonIterate] at h ⊢
    split
    · exact Option.some_ne_none _
    · rename_i hexit
      rw [if_neg hexit] at h
      exact ih h

theorem newtonIterate_ne_none_add {n g : Nat} {prev : Option Nat} (h : newtonIterate a n g prev ≠ none) (k : Nat) :
    newtonIterate a (n + k) g prev ≠ none := by
  induction k with
  | zero => exact h
  | succ k ih => exact newtonIterate_ne_none_succ ih

theorem ReturnsWithin.add {n gap : Nat} (h : ReturnsWithin a n gap) (k : Nat) : ReturnsWithin a (n + k) gap :=
  fun g prev hs hg => newtonIterate_ne_none_add (h g prev hs hg) k

theorem returnsWithin_two (hpos : 0 < Nat.sqrt a) : ReturnsWithin a 1 2 := by
  intro g prev hs hg
  have htol : newtonDiff a g ≤ 2 := by
    unfold newtonDiff
    rcases Nat.eq_or_lt_of_le hs with heq | hlt
    · have hone := newtonStep_sqrt_le (a := a)
      have hle := sqrt_le_newtonStep (a := a) hpos
      rw [← heq]
      split <;> omega
    · have hmid := newtonStep_le_of_sqrt_lt hlt
      have hle := sqrt_le_newtonStep (a := a) (hpos.trans hlt)
      split <;> omega
  rw [newtonIterate, if_pos (Or.inl htol)]
  exact Option.some_ne_none _

theorem ReturnsWithin.halve {n gap : Nat} (hs : 0 < Nat.sqrt a) (h : ReturnsWithin a n gap) :
    ReturnsWithin a (n + 1) (2 * gap) := by
  intro g prev hsg hg
  rcases Nat.eq_or_lt_of_le hsg with heq | hlt
  · have htwo := (returnsWithin_two hs).add n
    rw [Nat.add_comm] at htwo
    exact htwo g prev hsg (by omega)
  · have hmid := newtonStep_le_of_sqrt_lt hlt
    have hle := sqrt_le_newtonStep (a := a) (hs.trans hlt)
    exact newtonIterate_ne_none_of_step fun p => h _ p hle (by omega)

theorem ReturnsWithin.halves {n gap : Nat} (hs : 0 < Nat.sqrt a) (h : ReturnsWithin a n gap) (k : Nat) :
    ReturnsWithin a (n + k) (2 ^ k * gap) := by
  induction k with
  | zero => exact h.mono (by omega)
  | succ k ih =>
    refine (ih.halve hs).mono (le_of_eq ?_)
    ring

/-- Within twice the root a step squares the gap: from a `2 ^ j`-th of the root to a `2 ^ (2 * j + 1)`-th. -/
theorem newtonStep_gap_le {g j : Nat} (hpos : 0 < Nat.sqrt a) (hsg : Nat.sqrt a ≤ g) (hg : g ≤ Nat.sqrt a + (Nat.sqrt a / 2 ^ j + 2)) :
    newtonStep a g ≤ Nat.sqrt a + (Nat.sqrt a / 2 ^ (2 * j + 1) + 2) := by
  obtain ⟨e, rfl⟩ := Nat.exists_eq_add_of_le hsg
  have hmul := mul_newtonStep_le (a := a) (g := Nat.sqrt a + e)
  by_contra hgt
  generalize Nat.sqrt a = s at *
  generalize hq : s / 2 ^ j = q at hg
  generalize hk : s / 2 ^ (2 * j + 1) = k at hgt
  have hpow : 0 < 2 ^ j := Nat.two_pow_pos j
  have hqs : q * 2 ^ j ≤ s := hq ▸ Nat.div_mul_le_self _ _
  have hks : s < (k + 1) * 2 ^ (2 * j + 1) := by
    rw [← hk]
    exact Nat.lt_mul_of_div_lt (Nat.lt_succ_self _) (Nat.two_pow_pos _)
  -- The square of the gap is below twice the root times the gap that remains.
  have hqk : q * q ≤ 2 * s * (k + 1) := by
    refine Nat.le_of_mul_le_mul_right ?_ (Nat.mul_pos hpow hpow)
    calc q * q * (2 ^ j * 2 ^ j) = q * 2 ^ j * (q * 2 ^ j) := by ring
      _ ≤ s * s := Nat.mul_le_mul hqs hqs
      _ ≤ s * ((k + 1) * 2 ^ (2 * j + 1)) := Nat.mul_le_mul_left _ hks.le
      _ = 2 * s * (k + 1) * (2 ^ j * 2 ^ j) := by ring
  have heq : e * e ≤ q * q + 4 * e := by
    rcases Nat.lt_or_ge q e with hlt | hle
    · obtain rfl | rfl : e = q + 1 ∨ e = q + 2 := by omega
      · linarith [show (q + 1) * (q + 1) = q * q + 2 * q + 1 by ring]
      · linarith [show (q + 2) * (q + 2) = q * q + 4 * q + 4 by ring]
    · exact (Nat.mul_le_mul hle hle).trans (Nat.le_add_right _ _)
  have hbig : 2 * (s + e) * (s + (k + 3)) ≤ 2 * (s + e) * newtonStep a (s + e) :=
    Nat.mul_le_mul_left _ (by omega)
  have hsum : 2 * (s + e) * (s + (k + 3)) + e * e =
      (s + e) * (s + e) + s * s + (2 * s * (k + 1) + 4 * s + 2 * (e * k) + 6 * e) := by
    ring
  omega

theorem ReturnsWithin.square {n j : Nat} (hs : 0 < Nat.sqrt a)
    (h : ReturnsWithin a n (Nat.sqrt a / 2 ^ (2 * j + 1) + 2)) :
    ReturnsWithin a (n + 1) (Nat.sqrt a / 2 ^ j + 2) := by
  intro g prev hsg hg
  exact newtonIterate_ne_none_of_step fun p =>
    h _ p (sqrt_le_newtonStep (hs.trans_le hsg)) (newtonStep_gap_le hs hsg hg)

theorem returnsWithin_sqrt (hs : 0 < Nat.sqrt a) (hlt : Nat.sqrt a < 2 ^ 127) :
    ReturnsWithin a 8 (Nat.sqrt a + 2) := by
  have h7 : ReturnsWithin a 1 (Nat.sqrt a / 2 ^ 127 + 2) := by
    rw [Nat.div_eq_of_lt hlt]
    exact returnsWithin_two hs
  have h6 : ReturnsWithin a 2 (Nat.sqrt a / 2 ^ 63 + 2) := h7.square hs
  have h5 : ReturnsWithin a 3 (Nat.sqrt a / 2 ^ 31 + 2) := h6.square hs
  have h4 : ReturnsWithin a 4 (Nat.sqrt a / 2 ^ 15 + 2) := h5.square hs
  have h3 : ReturnsWithin a 5 (Nat.sqrt a / 2 ^ 7 + 2) := h4.square hs
  have h2 : ReturnsWithin a 6 (Nat.sqrt a / 2 ^ 3 + 2) := h3.square hs
  have h1 : ReturnsWithin a 7 (Nat.sqrt a / 2 ^ 1 + 2) := h2.square hs
  have h0 : ReturnsWithin a 8 (Nat.sqrt a / 2 ^ 0 + 2) := h1.square hs
  rwa [pow_zero, Nat.div_one] at h0

/-- From a guess below the root, but not below its half, the iteration returns within nine steps. -/
theorem newtonIterate_of_le {g : Nat} {prev : Option Nat} (hs : 0 < Nat.sqrt a) (hlt : Nat.sqrt a < 2 ^ 127)
    (hg : g ≤ Nat.sqrt a) (hhalf : Nat.sqrt a ≤ 2 * g) : newtonIterate a 9 g prev ≠ none := by
  have hpos : 0 < g := by omega
  refine newtonIterate_ne_none_of_step fun p => returnsWithin_sqrt hs hlt _ p (sqrt_le_newtonStep hpos) ?_
  have hquot : a / g ≤ 2 * Nat.sqrt a + 4 := by
    refine Nat.div_le_of_le_mul ((Nat.sqrt_le_add a).trans ?_)
    calc Nat.sqrt a * Nat.sqrt a + Nat.sqrt a + Nat.sqrt a = Nat.sqrt a * (Nat.sqrt a + 2) := by ring
      _ ≤ 2 * g * (Nat.sqrt a + 2) := Nat.mul_le_mul_right _ hhalf
      _ = g * (2 * Nat.sqrt a + 4) := by ring
  unfold newtonStep
  omega

end Termination

end FrameSuite
