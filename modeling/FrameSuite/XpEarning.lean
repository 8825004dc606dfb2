import FrameSuite.XpAggregates

/-! Earning, phase by phase: raw points within one block, no points while the pulse warms up,
points scaled by the pulse after that. -/

namespace FrameSuite

variable {T : XpConfig}

/-- The record has earned in this block, with a pulse that counts. -/
def XpState.sameBlock (s : XpState T) (xp : Xp) : Prop :=
  s.blockNumber ≤ xp.timestamp ∧ s.minPulse ≤ xp.pulse.value

/-- The pulse does not count yet. -/
def XpState.warmsUp (s : XpState T) (xp : Xp) : Prop := xp.pulse.value < s.minPulse

/-- The first call of a block with a pulse that counts. -/
def XpState.scales (s : XpState T) (xp : Xp) : Prop :=
  xp.timestamp < s.blockNumber ∧ s.minPulse ≤ xp.pulse.value

section Phases

variable {s : XpState T} {key : T.AccountId} {xp : Xp} {points : Nat}

theorem phase_cases (s : XpState T) (xp : Xp) : s.sameBlock xp ∨ s.warmsUp xp ∨ s.scales xp := by
  unfold XpState.sameBlock XpState.warmsUp XpState.scales
  omega

theorem earn_sameBlock (h : s.sameBlock xp) :
    earn s key points xp =
      if xp.free + points ≤ T.maxXp then .ok points { xp with free := xp.free + points }
      else .error (.error .xpCapOverflowed) xp := by
  unfold earn
  rw [get_bind, if_pos (show s.blockNumber ≤ xp.timestamp ∧ s.minPulse ≤ xp.pulse.value from h)]
  by_cases hmax : xp.free + points ≤ T.maxXp
  · simp only [checkedAdd, hmax, if_true]
    change EStateM.Result.ok (xp.free + points - xp.free) _ = _
    rw [Nat.add_sub_cancel_left]
  · simp only [checkedAdd, hmax, if_false]
    rfl

theorem beat_some {stepper : Stepper} {maxPulse : Nat} {pulse : Accumulator}
    (h : increment maxPulse stepper xp.pulse = some pulse) :
    beat maxPulse stepper xp = .ok () { xp with pulse } := by
  unfold beat
  rw [get_bind]
  simp only [h]
  rfl

theorem beat_none {stepper : Stepper} {maxPulse : Nat} (h : increment maxPulse stepper xp.pulse = none) :
    beat maxPulse stepper xp = .error .diverges xp := by
  unfold beat
  rw [get_bind]
  simp only [h]
  rfl

theorem set_bind {σ ε β : Type} (t : σ) (k : Unit → EStateM ε σ β) (s : σ) :
    ((set t : EStateM ε σ Unit) >>= k) s = k () t := rfl

theorem not_sameBlock_of_warmsUp (h : s.warmsUp xp) :
    ¬(s.blockNumber ≤ xp.timestamp ∧ s.minPulse ≤ xp.pulse.value) := by
  unfold XpState.warmsUp at h
  omega

theorem not_sameBlock_of_scales (h : s.scales xp) :
    ¬(s.blockNumber ≤ xp.timestamp ∧ s.minPulse ≤ xp.pulse.value) := by
  unfold XpState.scales at h
  omega

theorem earn_warmsUp_some {pulse : Accumulator} (h : s.warmsUp xp)
    (hp : increment T.maxPulse s.pulseFactor xp.pulse = some pulse) :
    earn s key points xp = .ok 0 { xp with timestamp := s.blockNumber, pulse } := by
  unfold earn
  rw [get_bind, if_neg (not_sameBlock_of_warmsUp h), set_bind, if_pos (show xp.pulse.value < s.minPulse from h)]
  have hbeat := @beat_some { xp with timestamp := s.blockNumber } s.pulseFactor T.maxPulse pulse hp
  rw [bind_of_ok hbeat]
  rfl

theorem earn_warmsUp_none (h : s.warmsUp xp) (hp : increment T.maxPulse s.pulseFactor xp.pulse = none) :
    earn s key points xp = .error .diverges { xp with timestamp := s.blockNumber } := by
  unfold earn
  rw [get_bind, if_neg (not_sameBlock_of_warmsUp h), set_bind, if_pos (show xp.pulse.value < s.minPulse from h)]
  have hbeat := @beat_none { xp with timestamp := s.blockNumber } s.pulseFactor T.maxPulse hp
  rw [bind_of_error hbeat]

theorem earn_scales_overflow (h : s.scales xp) (hmax : T.maxXp < points * xp.pulse.value + xp.free) :
    ∃ e, earn s key points xp = .error (.error e) { xp with timestamp := s.blockNumber } := by
  unfold earn
  rw [get_bind, if_neg (not_sameBlock_of_scales h), set_bind, if_neg (Nat.not_lt.mpr h.2)]
  by_cases hmul : T.maxXp < points * xp.pulse.value
  · rw [if_pos hmul]
    exact ⟨_, rfl⟩
  · rw [if_neg hmul]
    simp only [checkedAdd, Nat.not_le.mpr hmax, if_false]
    exact ⟨_, rfl⟩

/-- What the scaled points leave before the pulse may grow. -/
def Xp.credited (xp : Xp) (s : XpState T) (points : Nat) : Xp :=
  { xp with timestamp := s.blockNumber, free := points * xp.pulse.value + xp.free }

theorem earn_scales (h : s.scales xp) (hmax : points * xp.pulse.value + xp.free ≤ T.maxXp) :
    earn s key points xp =
      (if (hasLock key s).isOk then beat T.maxPulse s.pulseFactor >>= fun _ => pure (points * xp.pulse.value)
        else pure (points * xp.pulse.value) : EStateM Fault Xp Nat) (xp.credited s points) := by
  unfold earn
  rw [get_bind, if_neg (not_sameBlock_of_scales h), set_bind, if_neg (Nat.not_lt.mpr h.2),
    if_neg (by omega)]
  simp only [checkedAdd, hmax, if_true, checkedSub, Nat.le_add_left, Nat.add_sub_cancel]
  by_cases hlock : (hasLock key s).isOk = true <;> simp only [hlock, if_true] <;> rfl

theorem earn_scales_locked_some {pulse : Accumulator} (h : s.scales xp)
    (hmax : points * xp.pulse.value + xp.free ≤ T.maxXp) (hlock : (hasLock key s).isOk = true)
    (hp : increment T.maxPulse s.pulseFactor xp.pulse = some pulse) :
    earn s key points xp = .ok (points * xp.pulse.value) { xp.credited s points with pulse } := by
  have hbeat := @beat_some (xp.credited s points) s.pulseFactor T.maxPulse pulse hp
  rw [earn_scales h hmax, if_pos hlock, bind_of_ok hbeat]
  rfl

theorem earn_scales_locked_none (h : s.scales xp) (hmax : points * xp.pulse.value + xp.free ≤ T.maxXp)
    (hlock : (hasLock key s).isOk = true) (hp : increment T.maxPulse s.pulseFactor xp.pulse = none) :
    earn s key points xp = .error .diverges (xp.credited s points) := by
  have hbeat := @beat_none (xp.credited s points) s.pulseFactor T.maxPulse hp
  rw [earn_scales h hmax, if_pos hlock, bind_of_error hbeat]

theorem earn_scales_unlocked (h : s.scales xp) (hmax : points * xp.pulse.value + xp.free ≤ T.maxXp)
    (hlock : ¬(hasLock key s).isOk = true) :
    earn s key points xp = .ok (points * xp.pulse.value) (xp.credited s points) := by
  rw [earn_scales h hmax, if_neg hlock]
  rfl

/-- The call counts a beat of the pulse. -/
def XpState.beats (s : XpState T) (key : T.AccountId) (xp : Xp) (points : Nat) : Prop :=
  s.warmsUp xp ∨ s.scales xp ∧ points * xp.pulse.value + xp.free ≤ T.maxXp ∧ (hasLock key s).isOk = true

instance (s : XpState T) (key : T.AccountId) (xp : Xp) (points : Nat) : Decidable (s.beats key xp points) := by
  unfold XpState.beats XpState.warmsUp XpState.scales
  infer_instance

/-- What a call leaves of a record: past the first call of the block other points at most, in any other
call the block as well, and one more count where the call is a beat. -/
theorem earn_leaves_cases : (s.sameBlock xp ∧ ∃ free, leaves (earn s key points) xp = { xp with free }) ∨
    (∃ free, leaves (earn s key points) xp = { xp with timestamp := s.blockNumber, free }) ∨
    s.beats key xp points ∧ ∃ free pulse, increment T.maxPulse s.pulseFactor xp.pulse = some pulse ∧
      leaves (earn s key points) xp = { xp with timestamp := s.blockNumber, free, pulse } := by
  unfold leaves
  rcases phase_cases s xp with h | h | h
  · refine .inl ⟨h, ?_⟩
    rw [earn_sameBlock h]
    by_cases hmax : xp.free + points ≤ T.maxXp
    · rw [if_pos hmax]
      exact ⟨_, rfl⟩
    · rw [if_neg hmax]
      exact ⟨xp.free, rfl⟩
  · cases hp : increment T.maxPulse s.pulseFactor xp.pulse with
    | none =>
      rw [earn_warmsUp_none h hp]
      exact .inr (.inl ⟨xp.free, rfl⟩)
    | some pulse =>
      rw [earn_warmsUp_some h hp]
      exact .inr (.inr ⟨.inl h, xp.free, pulse, rfl, rfl⟩)
  · by_cases hmax : points * xp.pulse.value + xp.free ≤ T.maxXp
    · by_cases hlock : (hasLock key s).isOk = true
      · cases hp : increment T.maxPulse s.pulseFactor xp.pulse with
        | none =>
          rw [earn_scales_locked_none h hmax hlock hp]
          exact .inr (.inl ⟨_, rfl⟩)
        | some pulse =>
          rw [earn_scales_locked_some h hmax hlock hp]
          exact .inr (.inr ⟨.inr ⟨h, hmax, hlock⟩, _, pulse, rfl, rfl⟩)
      · rw [earn_scales_unlocked h hmax hlock]
        exact .inr (.inl ⟨_, rfl⟩)
    · obtain ⟨e, hearn⟩ := @earn_scales_overflow T s key xp points h (Nat.not_le.mp hmax)
      rw [hearn]
      exact .inr (.inl ⟨xp.free, rfl⟩)

theorem earn_pulse_cases : (leaves (earn s key points) xp).pulse = xp.pulse ∨
    s.beats key xp points ∧
      increment T.maxPulse s.pulseFactor xp.pulse = some (leaves (earn s key points) xp).pulse := by
  rcases @earn_leaves_cases T s key xp points with ⟨-, free, h⟩ | ⟨free, h⟩ | ⟨hbeats, free, pulse, hp, h⟩
  · exact .inl (by rw [h])
  · exact .inl (by rw [h])
  · exact .inr ⟨hbeats, by rw [h, hp]⟩

/-- Past the first call of the block the timestamp is left as it is; every other call sets it. -/
theorem earn_timestamp_cases : (leaves (earn s key points) xp).timestamp = s.blockNumber ∨
    s.sameBlock xp ∧ (leaves (earn s key points) xp).timestamp = xp.timestamp := by
  rcases @earn_leaves_cases T s key xp points with ⟨hsame, free, h⟩ | ⟨free, h⟩ | ⟨-, free, pulse, -, h⟩
  · exact .inr ⟨hsame, by rw [h]⟩
  · exact .inl (by rw [h])
  · exact .inl (by rw [h])

theorem scales_of_earn_ok {actual : Nat} {xp' : Xp} (h : earn s key points xp = .ok actual xp')
    (hmore : points < actual) : s.scales xp := by
  rcases phase_cases s xp with hphase | hphase | hphase
  · rw [earn_sameBlock hphase] at h
    by_cases hmax : xp.free + points ≤ T.maxXp
    · rw [if_pos hmax] at h
      cases h
      omega
    · rw [if_neg hmax] at h
      cases h
  · cases hp : increment T.maxPulse s.pulseFactor xp.pulse with
    | none =>
      rw [earn_warmsUp_none hphase hp] at h
      cases h
    | some pulse =>
      rw [earn_warmsUp_some hphase hp] at h
      cases h
      omega
  · exact hphase

theorem leaves_earnXp (hx : s.xpOf.get key = some xp) : leaves (earnXp key points) s =
    { s with xpOf := s.xpOf.insert key (leaves (earn s key points) xp) } := by
  unfold earnXp
  rw [leaves_get_bind, leaves_mutateXp, hx]

theorem earnXp_of_ok {actual : Nat} {xp' : Xp} (hx : s.xpOf.get key = some xp)
    (h : earn s key points xp = .ok actual xp') :
    earnXp key points s = .ok actual { s with xpOf := s.xpOf.insert key xp' } := by
  unfold earnXp
  rw [get_bind]
  unfold mutateXp
  simp only [hx, h]

theorem earnXp_of_error {e : Fault} {xp' : Xp} (hx : s.xpOf.get key = some xp)
    (h : earn s key points xp = .error e xp') :
    earnXp key points s = .error e { s with xpOf := s.xpOf.insert key xp' } := by
  unfold earnXp
  rw [get_bind]
  unfold mutateXp
  simp only [hx, h]

end Phases

section Pulse

variable {maxPulse threshold turns : Nat} {stepper : Stepper} {accum : Accumulator}

theorem carryStep_eq (hpos : threshold ≠ 0) (hmax : accum.value ≤ maxPulse) (hturns : accum.step < turns) :
    carryStep maxPulse threshold turns accum =
      some ⟨min (accum.value + accum.step / threshold) maxPulse, accum.step % threshold⟩ := by
  induction turns generalizing accum with
  | zero => omega
  | succ turns ih =>
    unfold carryStep
    by_cases hle : threshold ≤ accum.step
    · rw [if_pos hle, ih (Nat.min_le_right _ _) (by dsimp only; omega)]
      have hdiv : accum.step / threshold = (accum.step - threshold) / threshold + 1 :=
        Nat.div_eq_sub_div (Nat.pos_of_ne_zero hpos) hle
      have hmod : accum.step % threshold = (accum.step - threshold) % threshold := Nat.mod_eq_sub_mod hle
      simp only [saturatingAdd, hdiv, hmod, Option.some.injEq, Accumulator.mk.injEq, and_true]
      generalize (accum.step - threshold) / threshold = turns
      omega
    · have hlt := Nat.not_le.mp hle
      rw [if_neg hle, Nat.div_eq_of_lt hlt, Nat.mod_eq_of_lt hlt, Nat.add_zero, Nat.min_eq_left hmax]

theorem carryStep_zero (turns : Nat) (accum : Accumulator) : carryStep maxPulse 0 turns accum = none := by
  induction turns generalizing accum with
  | zero => rfl
  | succ turns ih =>
    unfold carryStep
    rw [if_pos (Nat.zero_le _), ih]

/-- How often the threshold fits in the steps after one more count. -/
def pulseGain (maxPulse : Nat) (stepper : Stepper) (accum : Accumulator) : Nat :=
  saturatingAdd maxPulse accum.step stepper.perCount / stepper.threshold

theorem increment_of_pos (hpos : stepper.threshold ≠ 0) (hmax : accum.value ≤ maxPulse) :
    increment maxPulse stepper accum =
      some ⟨min (accum.value + pulseGain maxPulse stepper accum) maxPulse,
        saturatingAdd maxPulse accum.step stepper.perCount % stepper.threshold⟩ :=
  @carryStep_eq maxPulse stepper.threshold _ { accum with step := saturatingAdd maxPulse accum.step stepper.perCount }
    hpos hmax (Nat.lt_succ_self _)

theorem increment_of_zero (hzero : stepper.threshold = 0) : increment maxPulse stepper accum = none := by
  unfold increment
  rw [hzero]
  exact carryStep_zero _ _

end Pulse

end FrameSuite
