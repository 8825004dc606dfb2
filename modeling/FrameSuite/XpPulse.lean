import FrameSuite.XpEarning

/-! The pulse as one amount of steps: the thresholds it has completed and the steps past the last of
them. Counting up adds a count of steps to it and counting down takes as many off. -/

namespace FrameSuite

def Accumulator.potential (threshold : Nat) (accum : Accumulator) : Nat := accum.value * threshold + accum.step

def decrement (stepper : Stepper) (accum : Accumulator) : Accumulator :=
  if stepper.perCount ≤ accum.step then { accum with step := accum.step - stepper.perCount }
  else
    let subPos := stepper.perCount - accum.step
    let deficit := stepper.threshold - subPos
    if accum.value = 0 then { accum with step := 0 } else { value := accum.value - 1, step := deficit }

/-- The steps as the loop of `increment` finds them. -/
def Accumulator.counted (maxPulse : Nat) (stepper : Stepper) (accum : Accumulator) : Accumulator :=
  { accum with step := saturatingAdd maxPulse accum.step stepper.perCount }

/-- One more count leaves the steps and the value within their type. -/
def Stepper.Fits (maxPulse : Nat) (stepper : Stepper) (accum : Accumulator) : Prop :=
  accum.step + stepper.perCount ≤ maxPulse ∧
    accum.value + (accum.step + stepper.perCount) / stepper.threshold ≤ maxPulse

/-- The loop ends below the threshold, one more count adds its steps unless something saturates, one less
undoes that, and takes off what there is where there is not enough. -/
structure PulseExact (maxPulse : Nat) (stepper : Stepper) (accum : Accumulator) : Prop where
  ends : ∃ turns pulse, carryStep maxPulse stepper.threshold turns (accum.counted maxPulse stepper) = some pulse
  below : ∀ pulse, increment maxPulse stepper accum = some pulse → pulse.step < stepper.threshold
  adds : stepper.Fits maxPulse accum → ∀ pulse, increment maxPulse stepper accum = some pulse →
    pulse.potential stepper.threshold = accum.potential stepper.threshold + stepper.perCount
  restores : stepper.Fits maxPulse accum → ∀ pulse, increment maxPulse stepper accum = some pulse →
    (decrement stepper pulse).potential stepper.threshold = accum.potential stepper.threshold
  removes : (decrement stepper accum).potential stepper.threshold =
    accum.potential stepper.threshold - min stepper.perCount (accum.potential stepper.threshold)

section Count

variable {maxPulse threshold turns : Nat} {stepper : Stepper} {accum pulse : Accumulator}

theorem Stepper.new_eq_some {perCount : Nat} :
    Stepper.new threshold perCount = some stepper ↔ stepper = ⟨threshold, perCount⟩ ∧ perCount ≤ threshold := by
  unfold Stepper.new
  split
  · rename_i hlt
    exact iff_of_false (fun h => by cases h) fun h => absurd h.2 (Nat.not_le.mpr hlt)
  · rename_i hle
    rw [Option.some.injEq, and_iff_left (Nat.not_lt.mp hle)]
    exact eq_comm

theorem carryStep_potential_le (h : carryStep maxPulse threshold turns accum = some pulse) :
    pulse.potential threshold ≤ accum.potential threshold := by
  induction turns generalizing accum with
  | zero => cases h
  | succ turns ih =>
    unfold carryStep at h
    split at h
    · rename_i hle
      refine (ih h).trans ?_
      unfold Accumulator.potential saturatingAdd
      have hvalue : min (accum.value + 1) maxPulse * threshold ≤ (accum.value + 1) * threshold :=
        Nat.mul_le_mul_right threshold (Nat.min_le_left _ _)
      rw [Nat.succ_mul] at hvalue
      dsimp only
      omega
    · cases h
      exact le_rfl

theorem increment_potential_le (h : increment maxPulse stepper accum = some pulse) :
    pulse.potential stepper.threshold ≤ accum.potential stepper.threshold + stepper.perCount := by
  refine (carryStep_potential_le h).trans ?_
  unfold Accumulator.potential saturatingAdd
  dsimp only
  omega

theorem increment_potential (hpos : stepper.threshold ≠ 0) (hv : accum.value ≤ maxPulse)
    (hfits : stepper.Fits maxPulse accum) (h : increment maxPulse stepper accum = some pulse) :
    pulse.potential stepper.threshold = accum.potential stepper.threshold + stepper.perCount := by
  rw [increment_of_pos hpos hv, Option.some.injEq] at h
  subst h
  unfold Accumulator.potential pulseGain
  rw [saturatingAdd_of_le hfits.1, Nat.min_eq_left hfits.2, Nat.add_mul]
  have hdiv := Nat.div_add_mod' (accum.step + stepper.perCount) stepper.threshold
  dsimp only
  omega

theorem increment_below (hpos : stepper.threshold ≠ 0) (hv : accum.value ≤ maxPulse)
    (h : increment maxPulse stepper accum = some pulse) : pulse.step < stepper.threshold := by
  rw [increment_of_pos hpos hv, Option.some.injEq] at h
  subst h
  exact Nat.mod_lt _ (Nat.pos_of_ne_zero hpos)

/-- Counting down borrows a threshold from the value, which is never less than what is missing. -/
theorem decrement_potential (hle : stepper.perCount ≤ stepper.threshold) :
    (decrement stepper accum).potential stepper.threshold =
      accum.potential stepper.threshold - min stepper.perCount (accum.potential stepper.threshold) := by
  unfold decrement Accumulator.potential
  by_cases henough : stepper.perCount ≤ accum.step
  · rw [if_pos henough]
    dsimp only
    omega
  · rw [if_neg henough]
    cases hvalue : accum.value with
    | zero =>
      rw [if_pos rfl]
      rw [Nat.zero_mul]
      dsimp only
      omega
    | succ value =>
      rw [if_neg (Nat.succ_ne_zero value), Nat.succ_mul]
      dsimp only
      rw [Nat.add_sub_cancel]
      omega

theorem pulse_exact_iff {perCount : Nat} (hnew : Stepper.new threshold perCount = some stepper)
    (hv : accum.value ≤ maxPulse) : PulseExact maxPulse stepper accum ↔ threshold ≠ 0 := by
  obtain ⟨rfl, hle⟩ := Stepper.new_eq_some.mp hnew
  constructor
  · rintro ⟨⟨turns, pulse, hends⟩, -⟩ rfl
    rw [carryStep_zero] at hends
    cases hends
  · intro hpos
    refine ⟨⟨_, _, increment_of_pos hpos hv⟩, fun pulse => increment_below hpos hv,
      fun hfits pulse => increment_potential hpos hv hfits, fun hfits pulse h => ?_, decrement_potential hle⟩
    have hadded := increment_potential hpos hv hfits h
    rw [decrement_potential hle, hadded]
    dsimp only
    omega

end Count

theorem pulse_exact_fifty_per_ten : PulseExact 255 ⟨50, 10⟩ ⟨3, 120⟩ :=
  (@pulse_exact_iff 255 50 ⟨50, 10⟩ ⟨3, 120⟩ 10 (by decide) (by decide)).mpr (by decide)

/-- A stepper of zero per zero is accepted, and its loop never ends. -/
theorem empty_stepper_never_ends :
    ¬∀ (maxPulse threshold perCount : Nat) (stepper : Stepper) (accum : Accumulator),
      Stepper.new threshold perCount = some stepper → accum.value ≤ maxPulse →
        PulseExact maxPulse stepper accum := by
  intro h
  obtain ⟨turns, pulse, hends⟩ := (h 255 0 0 ⟨0, 0⟩ ⟨0, 0⟩ (by decide) (by decide)).ends
  rw [carryStep_zero] at hends
  cases hends

end FrameSuite
