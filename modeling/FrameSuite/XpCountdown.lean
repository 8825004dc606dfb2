import FrameSuite.XpPreview
import FrameSuite.XpPulse

/-! The countdown of a warm-up. The count of the interface starts every pulse from no steps at all, so it is
exact when the steps that are carried into the next pulse never save a whole call. -/

namespace FrameSuite

section Counts

variable (maxPulse : Nat) (stepper : Stepper)

/-- The pulses that so many counts complete. -/
def gained : Nat → Nat → Nat
  | 0, _ => 0
  | counts + 1, step =>
    saturatingAdd maxPulse step stepper.perCount / stepper.threshold +
      gained counts (saturatingAdd maxPulse step stepper.perCount % stepper.threshold)

/-- The steps past the last pulse after so many counts. -/
def stepAfter : Nat → Nat → Nat
  | 0, step => step
  | counts + 1, step => stepAfter counts (saturatingAdd maxPulse step stepper.perCount % stepper.threshold)

/-- The counts from some steps to the next pulse. -/
def Stepper.countsFrom (step : Nat) : Nat := (stepper.threshold - step - 1) / stepper.perCount + 1

/-- The steps by which the counts of the next pulse overshoot the threshold. -/
def Stepper.overshoot (step : Nat) : Nat :=
  step + stepper.countsFrom step * stepper.perCount - stepper.threshold

/-- With so many pulses to go, what is carried from pulse to pulse, where the type of the steps does not cut
it off, stays below the count that would save a call. -/
def CarrySettles (pulses step : Nat) : Prop :=
  pulses ≤ 1 ∨
    stepper.overshoot 0 +
        min (stepper.overshoot step + (pulses - 2) * stepper.overshoot 0) (maxPulse - stepper.threshold) <
      stepper.perCount

instance (pulses step : Nat) : Decidable (CarrySettles maxPulse stepper pulses step) := by
  unfold CarrySettles
  infer_instance

variable {maxPulse stepper}

theorem gained_add (a b step : Nat) : gained maxPulse stepper (a + b) step =
    gained maxPulse stepper a step + gained maxPulse stepper b (stepAfter maxPulse stepper a step) := by
  induction a generalizing step with
  | zero => simp [gained, stepAfter]
  | succ a ih => rw [Nat.succ_add, gained, ih, gained, stepAfter, Nat.add_assoc]

theorem stepAfter_add (a b step : Nat) : stepAfter maxPulse stepper (a + b) step =
    stepAfter maxPulse stepper b (stepAfter maxPulse stepper a step) := by
  induction a generalizing step with
  | zero => rw [Nat.zero_add, stepAfter]
  | succ a ih => rw [Nat.succ_add, stepAfter, ih, stepAfter]

theorem gained_mono {a b : Nat} (hle : a ≤ b) (step : Nat) :
    gained maxPulse stepper a step ≤ gained maxPulse stepper b step := by
  obtain ⟨more, rfl⟩ := Nat.exists_eq_add_of_le hle
  rw [gained_add]
  exact Nat.le_add_right _ _

theorem stepAfter_lt (hpos : 0 < stepper.threshold) {step : Nat} (hstep : step < stepper.threshold)
    (counts : Nat) : stepAfter maxPulse stepper counts step < stepper.threshold := by
  induction counts generalizing step with
  | zero => exact hstep
  | succ counts ih => exact ih (Nat.mod_lt _ hpos)

section Counting

variable (hper : 0 < stepper.perCount)
include hper

theorem Stepper.countsFrom_bounds (step : Nat) :
    (stepper.countsFrom step - 1) * stepper.perCount ≤ stepper.threshold - step - 1 ∧
      stepper.threshold - step ≤ stepper.countsFrom step * stepper.perCount := by
  have hdiv := Nat.div_add_mod' (stepper.threshold - step - 1) stepper.perCount
  have hmod := Nat.mod_lt (stepper.threshold - step - 1) hper
  unfold Stepper.countsFrom
  rw [Nat.add_sub_cancel, Nat.succ_mul]
  omega

omit hper in
theorem Stepper.countsFrom_le (step : Nat) : stepper.countsFrom step ≤ stepper.countsFrom 0 :=
  Nat.add_le_add_right (Nat.div_le_div_right (by omega)) 1

omit hper in
theorem Stepper.countsFrom_mul (step : Nat) : stepper.countsFrom step * stepper.perCount =
    (stepper.countsFrom step - 1) * stepper.perCount + stepper.perCount := by
  rw [← Nat.succ_mul]
  rfl

theorem Stepper.threshold_add_overshoot (step : Nat) :
    stepper.threshold + stepper.overshoot step = step + stepper.countsFrom step * stepper.perCount := by
  obtain ⟨-, hreached⟩ := Stepper.countsFrom_bounds hper step
  unfold Stepper.overshoot
  omega

/-- With some steps carried over the next pulse comes as late as without, unless they save a call. -/
theorem Stepper.countsFrom_eq_iff {carried : Nat} (hcarried : carried < stepper.threshold) :
    stepper.countsFrom carried = stepper.countsFrom 0 ↔ stepper.overshoot 0 + carried < stepper.perCount := by
  obtain ⟨hbefore, hreached⟩ := Stepper.countsFrom_bounds hper carried
  have hover := Stepper.threshold_add_overshoot hper 0
  have hlast := stepper.countsFrom_mul 0
  constructor
  · intro heq
    rw [heq] at hbefore
    omega
  · intro hsaves
    refine le_antisymm (Stepper.countsFrom_le carried) ?_
    by_contra hless
    have hfew : stepper.countsFrom carried * stepper.perCount ≤
        (stepper.countsFrom 0 - 1) * stepper.perCount := Nat.mul_le_mul_right _ (by omega)
    omega

end Counting

variable (hper : 0 < stepper.perCount) (hle : stepper.perCount ≤ stepper.threshold)
  (hmax : stepper.threshold ≤ maxPulse)

include hmax

theorem gained_below {counts step : Nat} (hlt : step + counts * stepper.perCount < stepper.threshold) :
    gained maxPulse stepper counts step = 0 ∧
      stepAfter maxPulse stepper counts step = step + counts * stepper.perCount := by
  induction counts generalizing step with
  | zero => simp [gained, stepAfter]
  | succ counts ih =>
    rw [Nat.succ_mul] at hlt ⊢
    have hsum : saturatingAdd maxPulse step stepper.perCount = step + stepper.perCount :=
      saturatingAdd_of_le (by omega)
    have hless : step + stepper.perCount < stepper.threshold := by omega
    obtain ⟨hnone, hstep⟩ := @ih (step + stepper.perCount) (by omega)
    rw [gained, stepAfter, hsum, Nat.mod_eq_of_lt hless, Nat.div_eq_of_lt hless, hnone, hstep]
    omega

include hper

theorem gained_before_pulse (step : Nat) :
    gained maxPulse stepper (stepper.countsFrom step - 1) step = 0 ∧
      stepAfter maxPulse stepper (stepper.countsFrom step - 1) step =
        step + (stepper.countsFrom step - 1) * stepper.perCount := by
  obtain ⟨hbefore, -⟩ := Stepper.countsFrom_bounds hper step
  by_cases hstep : step < stepper.threshold
  · exact gained_below hmax (by omega)
  · have hzero : stepper.countsFrom step - 1 = 0 := by
      have hnone : stepper.threshold - step - 1 = 0 := by omega
      rw [Stepper.countsFrom, hnone, Nat.zero_div]
    simp [hzero, gained, stepAfter]

/-- The counts to the next pulse complete it and leave what they overshoot, as far as it fits. -/
theorem first_pulse (step : Nat) :
    gained maxPulse stepper (stepper.countsFrom step) step =
        min (stepper.threshold + stepper.overshoot step) maxPulse / stepper.threshold ∧
      stepAfter maxPulse stepper (stepper.countsFrom step) step =
        min (stepper.threshold + stepper.overshoot step) maxPulse % stepper.threshold := by
  obtain ⟨hnone, hstep⟩ := gained_before_pulse hper hmax step
  have hlast : saturatingAdd maxPulse (step + (stepper.countsFrom step - 1) * stepper.perCount) stepper.perCount =
      min (stepper.threshold + stepper.overshoot step) maxPulse := by
    rw [Stepper.threshold_add_overshoot hper, stepper.countsFrom_mul, ← Nat.add_assoc]
    rfl
  have hcounts : stepper.countsFrom step = stepper.countsFrom step - 1 + 1 := rfl
  rw [hcounts]
  constructor
  · rw [gained_add, hnone, hstep, gained, gained, hlast, Nat.zero_add, Nat.add_zero]
  · rw [stepAfter_add, hstep, stepAfter, stepAfter, hlast]

theorem one_le_first_gain (hpos : 0 < stepper.threshold) (step : Nat) :
    1 ≤ gained maxPulse stepper (stepper.countsFrom step) step := by
  rw [(first_pulse hper hmax step).1]
  exact Nat.div_pos (by omega) hpos

/-- So many full pulses are completed by the counts of so many, whatever was carried into the first. -/
theorem le_gained {step : Nat} (hstep : step < stepper.threshold) (pulses : Nat) :
    pulses ≤ gained maxPulse stepper (pulses * stepper.countsFrom 0) step := by
  have hpos : 0 < stepper.threshold := by omega
  induction pulses generalizing step with
  | zero => exact Nat.zero_le _
  | succ pulses ih =>
    have hfirst := (one_le_first_gain hper hmax hpos step).trans (gained_mono (Stepper.countsFrom_le step) step)
    have hnext : stepAfter maxPulse stepper (stepper.countsFrom 0) step < stepper.threshold :=
      stepAfter_lt hpos hstep _
    have hrest := ih hnext
    rw [Nat.succ_mul, Nat.add_comm (pulses * _), gained_add]
    omega

theorem count_suffices (hpos : 0 < stepper.threshold) (step pulses : Nat) :
    pulses + 1 ≤
      gained maxPulse stepper (stepper.countsFrom step + pulses * stepper.countsFrom 0) step := by
  have hfirst := one_le_first_gain hper hmax hpos step
  have hstep : stepAfter maxPulse stepper (stepper.countsFrom step) step < stepper.threshold := by
    rw [(first_pulse hper hmax step).2]
    exact Nat.mod_lt _ hpos
  have hrest := le_gained hper hmax hstep pulses
  rw [gained_add]
  omega

/-- A single pulse is gained: the overshoot is carried on, as far as it fits. -/
theorem first_pulse_of_single (step : Nat) (hpos : 0 < stepper.threshold)
    (hsingle : min (stepper.threshold + stepper.overshoot step) maxPulse < 2 * stepper.threshold) :
    gained maxPulse stepper (stepper.countsFrom step) step = 1 ∧
      stepAfter maxPulse stepper (stepper.countsFrom step) step =
        min (stepper.overshoot step) (maxPulse - stepper.threshold) := by
  obtain ⟨hgain, hstep⟩ := first_pulse hper hmax step
  rw [hgain, hstep]
  constructor
  · exact Nat.div_eq_of_lt_le (by omega) (by omega)
  · rw [Nat.mod_eq_sub_mod (by omega), Nat.mod_eq_of_lt (by omega)]
    omega

theorem early_of_saved {carried counts : Nat} (pulses : Nat) (hpos : 0 < stepper.threshold)
    (hcounts : stepper.countsFrom carried + pulses * stepper.countsFrom 0 ≤ counts) :
    ¬gained maxPulse stepper counts carried < pulses + 1 := by
  have hmany := count_suffices hper hmax hpos carried pulses
  have hmore : _ ≤ gained maxPulse stepper counts carried := gained_mono hcounts carried
  omega

include hle

/-- After a pulse the others are on time exactly when what is carried on never saves a call. -/
theorem gained_late_iff (carried : Nat) (hcarried : carried < stepper.threshold)
    (hcut : carried ≤ maxPulse - stepper.threshold) (pulses : Nat) :
    gained maxPulse stepper ((pulses + 1) * stepper.countsFrom 0 - 1) carried < pulses + 1 ↔
      stepper.overshoot 0 + min (carried + pulses * stepper.overshoot 0) (maxPulse - stepper.threshold) <
        stepper.perCount := by
  have hpos : 0 < stepper.threshold := by omega
  have hfull := stepper.countsFrom_le carried
  have hsaves := Stepper.countsFrom_eq_iff hper hcarried
  have hsome : 0 < stepper.countsFrom 0 := Nat.succ_pos _
  induction pulses generalizing carried with
  | zero =>
    rw [Nat.zero_add, Nat.one_mul, Nat.zero_mul, Nat.add_zero, Nat.min_eq_left hcut, ← hsaves]
    by_cases heq : stepper.countsFrom carried = stepper.countsFrom 0
    · obtain ⟨hbefore, -⟩ := Stepper.countsFrom_bounds hper carried
      rw [heq] at hbefore
      rw [(gained_below hmax (by omega)).1]
      exact iff_of_true Nat.one_pos heq
    · exact iff_of_false (early_of_saved hper hmax 0 hpos (by omega)) heq
  | succ pulses ih =>
    have hrest : 0 < (pulses + 1) * stepper.countsFrom 0 := Nat.mul_pos pulses.succ_pos hsome
    have hsplit : (pulses + 1 + 1) * stepper.countsFrom 0 - 1 =
        stepper.countsFrom 0 + ((pulses + 1) * stepper.countsFrom 0 - 1) := by
      rw [Nat.succ_mul (pulses + 1)]
      omega
    have hmul : (pulses + 1) * stepper.overshoot 0 = pulses * stepper.overshoot 0 + stepper.overshoot 0 :=
      Nat.succ_mul _ _
    by_cases heq : stepper.countsFrom carried = stepper.countsFrom 0
    · have hover₀ := Stepper.threshold_add_overshoot hper 0
      have hover := Stepper.threshold_add_overshoot hper carried
      rw [heq] at hover
      have hless := hsaves.mp heq
      obtain ⟨hgain, hstep⟩ := first_pulse_of_single hper hmax carried hpos (by omega)
      rw [heq] at hgain hstep
      rw [hsplit, gained_add, hgain, hstep]
      have hnext := ih (min (stepper.overshoot carried) (maxPulse - stepper.threshold))
        (by omega) (by omega) (stepper.countsFrom_le _) (Stepper.countsFrom_eq_iff hper (by omega))
      omega
    · have hnot : ¬stepper.overshoot 0 + carried < stepper.perCount := fun h => heq (hsaves.mpr h)
      refine iff_of_false ?_ (by omega)
      exact early_of_saved hper hmax (pulses + 1) hpos (by omega)

/-- One count less than the interface says does not complete the pulses exactly when what is carried from
pulse to pulse saves no call. -/
theorem count_exact_iff (step pulses : Nat) :
    gained maxPulse stepper (stepper.countsFrom step + pulses * stepper.countsFrom 0 - 1) step < pulses + 1 ↔
      CarrySettles maxPulse stepper (pulses + 1) step := by
  have hpos : 0 < stepper.threshold := by omega
  have hsome : 0 < stepper.countsFrom 0 := Nat.succ_pos _
  cases pulses with
  | zero =>
    rw [Nat.zero_mul, Nat.add_zero, (gained_before_pulse hper hmax step).1]
    exact iff_of_true Nat.one_pos (.inl le_rfl)
  | succ pulses =>
    have hrest : 0 < (pulses + 1) * stepper.countsFrom 0 := Nat.mul_pos pulses.succ_pos hsome
    have hmany : ¬pulses + 1 + 1 ≤ 1 := by omega
    have hsplit : stepper.countsFrom step + (pulses + 1) * stepper.countsFrom 0 - 1 =
        stepper.countsFrom step + ((pulses + 1) * stepper.countsFrom 0 - 1) := Nat.add_sub_assoc hrest _
    rw [hsplit, gained_add, CarrySettles, or_iff_right hmany, Nat.add_sub_cancel_right pulses 2]
    by_cases hsingle : min (stepper.threshold + stepper.overshoot step) maxPulse < 2 * stepper.threshold
    · obtain ⟨hgain, hstep⟩ := first_pulse_of_single hper hmax step hpos hsingle
      have hlate := gained_late_iff hper hle hmax
        (min (stepper.overshoot step) (maxPulse - stepper.threshold)) (by omega) (by omega) pulses
      have hcut : min (min (stepper.overshoot step) (maxPulse - stepper.threshold) + pulses * stepper.overshoot 0)
          (maxPulse - stepper.threshold) =
          min (stepper.overshoot step + pulses * stepper.overshoot 0) (maxPulse - stepper.threshold) := by
        omega
      rw [hgain, hstep, ← hcut, ← hlate]
      omega
    · obtain ⟨hgain, hstep⟩ := first_pulse hper hmax step
      have htwo : 2 ≤ gained maxPulse stepper (stepper.countsFrom step) step := by
        rw [hgain]
        exact (Nat.le_div_iff_mul_le hpos).mpr (by omega)
      have hbelow : stepAfter maxPulse stepper (stepper.countsFrom step) step < stepper.threshold := by
        rw [hstep]
        exact Nat.mod_lt _ hpos
      have hfew : pulses * stepper.countsFrom 0 ≤ (pulses + 1) * stepper.countsFrom 0 - 1 := by
        rw [Nat.succ_mul]
        omega
      have hothers := (le_gained hper hmax hbelow pulses).trans (gained_mono hfew _)
      exact iff_of_false (by omega) (by omega)

end Counts

section WarmUp

variable {T : XpConfig}

/-- One earning call in each of the blocks. -/
def earnings (key : T.AccountId) (blocks : List (Nat × Nat)) : List (XpOp T) :=
  blocks.flatMap fun block => [.block block.1, .earnXp key block.2]

/-- Blocks after the given one, in their order. -/
def FurtherBlocks (number : Nat) (blocks : List (Nat × Nat)) : Prop :=
  (number :: blocks.map Prod.fst).Pairwise (· < ·)

/-- With one call in a block the warm-up takes exactly so many calls. -/
structure CountdownExact (s : XpState T) (key : T.AccountId) (calls : Nat) : Prop where
  warming : ∀ blocks, FurtherBlocks s.blockNumber blocks → blocks.length = calls - 1 →
    ∃ xp, (s.after (earnings key blocks)).xpOf.get key = some xp ∧ (s.after (earnings key blocks)).warmsUp xp
  earns : ∀ blocks, FurtherBlocks s.blockNumber blocks → blocks.length = calls →
    xpEligibility key (s.after (earnings key blocks)) = .ok .earning

variable {s : XpState T} {key : T.AccountId} {xp : Xp} {points : Nat}

theorem earn_pulse_warmsUp (hpos : s.pulseFactor.threshold ≠ 0) (hv : xp.pulse.value ≤ T.maxPulse)
    (hlow : s.warmsUp xp) :
    (leaves (earn s key points) xp).pulse =
      ⟨min (xp.pulse.value + pulseGain T.maxPulse s.pulseFactor xp.pulse) T.maxPulse,
        saturatingAdd T.maxPulse xp.pulse.step s.pulseFactor.perCount % s.pulseFactor.threshold⟩ := by
  have hearn := @earn_warmsUp_some T s key xp points _ hlow (increment_of_pos hpos hv)
  unfold leaves
  rw [hearn]

theorem earn_pulse_bounds (hpos : s.pulseFactor.threshold ≠ 0) (hv : xp.pulse.value ≤ T.maxPulse) :
    xp.pulse.value ≤ (leaves (earn s key points) xp).pulse.value ∧
      (leaves (earn s key points) xp).pulse.value ≤ T.maxPulse := by
  rcases @earn_pulse_cases T s key xp points with h | ⟨-, h⟩
  · rw [h]
    exact ⟨le_rfl, hv⟩
  · refine ⟨le_increment hv h, ?_⟩
    rw [increment_of_pos hpos hv, Option.some.injEq] at h
    rw [← h]
    exact Nat.min_le_right _ _

theorem after_earnings (hpos : s.pulseFactor.threshold ≠ 0) (hmin : s.minPulse ≤ T.maxPulse)
    (hx : s.xpOf.get key = some xp) (hv : xp.pulse.value ≤ T.maxPulse) (blocks : List (Nat × Nat)) :
    (s.after (earnings key blocks)).minPulse = s.minPulse ∧
      ∃ xp', (s.after (earnings key blocks)).xpOf.get key = some xp' ∧
        (s.minPulse ≤ xp'.pulse.value ↔
          s.minPulse ≤ xp.pulse.value + gained T.maxPulse s.pulseFactor blocks.length xp.pulse.step) := by
  induction blocks generalizing s xp with
  | nil => exact ⟨rfl, xp, hx, by rw [List.length_nil, gained, Nat.add_zero]⟩
  | cons block blocks ih =>
    let t : XpState T := { s with blockNumber := block.1 }
    have htx : t.xpOf.get key = some xp := hx
    have hcall : s.after (earnings key (block :: blocks)) =
        (leaves (earnXp key block.2) t).after (earnings key blocks) := rfl
    rw [hcall, leaves_earnXp htx]
    obtain ⟨hgrows, hfits⟩ := @earn_pulse_bounds T t key xp block.2 hpos hv
    obtain ⟨hkeeps, xp', hx', hiff⟩ := @ih { t with xpOf := t.xpOf.insert key (leaves (earn t key block.2) xp) }
      (leaves (earn t key block.2) xp) hpos hmin (StorageMap.get_insert_self ..) hfits
    refine ⟨hkeeps, xp', hx', hiff.trans ?_⟩
    change s.minPulse ≤ (leaves (earn t key block.2) xp).pulse.value + _ ↔ _
    by_cases hlow : xp.pulse.value < s.minPulse
    · rw [@earn_pulse_warmsUp T t key xp block.2 hpos hv hlow]
      change s.minPulse ≤ min (xp.pulse.value + pulseGain T.maxPulse s.pulseFactor xp.pulse) T.maxPulse +
        gained T.maxPulse s.pulseFactor blocks.length
          (saturatingAdd T.maxPulse xp.pulse.step s.pulseFactor.perCount % s.pulseFactor.threshold) ↔ _
      rw [List.length_cons, gained]
      unfold pulseGain
      omega
    · exact iff_of_true (by omega) (by omega)

/-- Some further blocks with calls for no points. -/
def nextBlocks (number : Nat) (calls : Nat) : List (Nat × Nat) :=
  (List.range' (number + 1) calls).map fun block => (block, 0)

theorem nextBlocks_further (number calls : Nat) : FurtherBlocks number (nextBlocks number calls) := by
  unfold FurtherBlocks nextBlocks
  rw [List.map_map, Function.comp_def, List.map_id']
  exact List.pairwise_lt_range' (n := calls + 1)

theorem nextBlocks_length (number calls : Nat) : (nextBlocks number calls).length = calls := by
  unfold nextBlocks
  rw [List.length_map, List.length_range']

theorem countdown_exact_iff {calls : Nat} (hx : s.xpOf.get key = some xp) (ht : s.Typed xp)
    (hadmitted : s.pulseFactor.perCount ≤ s.pulseFactor.threshold)
    (hshown : xpEligibility key s = .ok (.progressing calls)) :
    CountdownExact s key calls ↔
      CarrySettles T.maxPulse s.pulseFactor (s.minPulse - xp.pulse.value) xp.pulse.step := by
  have hlow : s.warmsUp xp := by
    by_contra hhigh
    rw [xpEligibility_earning hx (Nat.not_lt.mp hhigh)] at hshown
    cases hshown
  obtain ⟨hper, hcalls⟩ := xpEligibility_progressing hx hlow hshown
  obtain rfl := XpEligibility.progressing.inj hcalls
  have hper' := Nat.pos_of_ne_zero hper
  have hpos : 0 < s.pulseFactor.threshold := by omega
  obtain ⟨pulses, hpulses⟩ : ∃ pulses, s.minPulse = xp.pulse.value + (pulses + 1) :=
    ⟨s.minPulse - xp.pulse.value - 1, by unfold XpState.warmsUp at hlow; omega⟩
  have hleft : actionsLeft s xp.pulse =
      s.pulseFactor.countsFrom xp.pulse.step + pulses * s.pulseFactor.countsFrom 0 := by
    have hmissing : s.minPulse - xp.pulse.value - 1 = pulses := by omega
    unfold actionsLeft
    rw [hmissing]
    rfl
  have hmissing : s.minPulse - xp.pulse.value = pulses + 1 := by omega
  have hrun := after_earnings (Nat.pos_iff_ne_zero.mp hpos) ht.minPulse hx ht.pulse
  have hsuffices := count_suffices hper' ht.threshold hpos xp.pulse.step pulses
  rw [hmissing, ← count_exact_iff hper' hadmitted ht.threshold, hleft]
  constructor
  · intro hexact
    obtain ⟨xp', hx', hwarm⟩ := hexact.warming (nextBlocks s.blockNumber _) (nextBlocks_further _ _)
      (nextBlocks_length _ _)
    obtain ⟨hmin, xp'', hx'', hiff⟩ := hrun (nextBlocks s.blockNumber _)
    obtain rfl := Option.some.inj (hx'.symm.trans hx'')
    rw [nextBlocks_length] at hiff
    unfold XpState.warmsUp at hwarm
    omega
  · intro hlate
    refine ⟨fun blocks _ hlength => ?_, fun blocks _ hlength => ?_⟩
    · obtain ⟨hmin, xp', hx', hiff⟩ := hrun blocks
      rw [hlength] at hiff
      refine ⟨xp', hx', ?_⟩
      unfold XpState.warmsUp
      omega
    · obtain ⟨hmin, xp', hx', hiff⟩ := hrun blocks
      rw [hlength] at hiff
      exact xpEligibility_earning hx' (by omega)

end WarmUp

/-- Twenty-five steps a call and fifty to a pulse leave nothing to carry. -/
def halving : XpState mockXp :=
  XpGenesis.build { mockGenesis with minPulse := 3, pulseFactor := ⟨50, 25⟩, accounts := [((1 : Nat), (7 : Nat))] }

theorem halving_countdown_exact : CountdownExact halving (7 : Nat) 6 :=
  (@countdown_exact_iff mockXp halving (7 : Nat) ⟨10, 0, 0, ⟨0, 0⟩, 0⟩ 6 (by decide +kernel)
    ⟨by decide, by decide, by decide +kernel, by decide +kernel⟩ (by decide +kernel) (by decide +kernel)).mpr
    (by decide +kernel)

/-- Two steps a call and three to a pulse: two pulses are shown as four calls and take three. -/
def thirds : XpState mockXp :=
  XpGenesis.build { mockGenesis with minPulse := 2, pulseFactor := ⟨3, 2⟩, accounts := [((1 : Nat), (7 : Nat))] }

theorem carried_steps_end_warm_up_early :
    ¬∀ (s : XpState mockXp) (key : Nat) (xp : Xp) (calls : Nat), s.xpOf.get key = some xp → s.Typed xp →
      s.pulseFactor.perCount ≤ s.pulseFactor.threshold → xpEligibility key s = .ok (.progressing calls) →
        CountdownExact s key calls := by
  intro h
  have hexact := h thirds (7 : Nat) ⟨10, 0, 0, ⟨0, 0⟩, 0⟩ 4 (by decide +kernel)
    ⟨by decide, by decide, by decide +kernel, by decide +kernel⟩ (by decide +kernel) (by decide +kernel)
  obtain ⟨xp, hx, hwarm⟩ := hexact.warming [(1, 5), (2, 5), (3, 5)] (by unfold FurtherBlocks; decide) rfl
  have hthree : (thirds.after (earnings (7 : Nat) [(1, 5), (2, 5), (3, 5)])).xpOf.get (7 : Nat) =
      some ⟨10, 0, 0, ⟨2, 0⟩, 3⟩ := by decide +kernel
  obtain rfl := Option.some.inj (hx.symm.trans hthree)
  exact absurd hwarm (by unfold XpState.warmsUp; decide +kernel)

end FrameSuite
