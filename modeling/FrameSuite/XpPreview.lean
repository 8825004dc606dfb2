import FrameSuite.XpEarning

/-! Previews of an earning call. The preview counts one more step towards the next pulse in
every phase, and reads the eligibility from the record as it still is. -/

namespace FrameSuite

variable {T : XpConfig}

def checkedMul (bound a b : Nat) : Option Nat := if a * b ≤ bound then some (a * b) else none

def checkedDiv (a b : Nat) : Option Nat := if b = 0 then none else some (a / b)

inductive XpEligibility
  | progressing (actions : Nat)
  | earning
deriving DecidableEq

/-- The state of an identity as it is shown: the `XpState` of the interface. -/
structure XpSnapshot where
  liquid : Nat
  reserved : Nat
  locked : Nat
  multiplier : Nat
  eligibility : XpEligibility
deriving DecidableEq

def quoteEarnXp (key : T.AccountId) (points : Nat) : XpCheck T Nat := fun s => do
  let value ← okOr (s.xpOf.get key) (.error .xpNotFound)
  if s.blockNumber ≤ value.timestamp ∧ s.minPulse ≤ value.pulse.value then pure points
  else if value.pulse.value < s.minPulse then pure 0
  else okOr (checkedMul T.maxXp points value.pulse.value) (.error .reputationDeriveOverflowed)

def ceilDivPulse (maxPulse value per : Nat) : Except Fault Nat := do
  ensure (per ≠ 0) (.error .xpComputationError)
  let adjusted := (checkedSub value 1).getD 0
  okOr ((checkedDiv adjusted per).bind fun v => checkedAdd maxPulse v 1) (.error .xpComputationError)

def xpEligibility (key : T.AccountId) : XpCheck T XpEligibility := fun s => do
  let xp ← getXp key s
  let currentPulse := xp.pulse.value
  let currentProgress := xp.pulse.step
  let requiredPulse := s.minPulse
  if requiredPulse ≤ currentPulse then pure .earning
  else
    let threshold := s.pulseFactor.threshold
    let perAction := s.pulseFactor.perCount
    ensure (perAction ≠ 0) (.error .xpComputationError)
    let remainingPulses ← okOr (checkedSub requiredPulse currentPulse) (.error .xpComputationError)
    let actionsPerPulse ← ceilDivPulse T.maxPulse threshold perAction
    let remainingProgress := (checkedSub threshold currentProgress).getD 0
    let actionsToNextPulse ← ceilDivPulse T.maxPulse remainingProgress perAction
    let extraPulses := (checkedSub remainingPulses 1).getD 0
    let extraActions ← okOr (checkedMul T.maxPulse extraPulses actionsPerPulse) (.error .xpComputationError)
    let totalActions ← okOr (checkedAdd T.maxPulse actionsToNextPulse extraActions) (.error .xpComputationError)
    pure (.progressing totalActions)

def xpState (key : T.AccountId) : XpCheck T XpSnapshot := fun s => do
  let xp ← getXp key s
  let eligibility ← xpEligibility key s
  let multiplier := if xp.pulse.value < s.minPulse then 1 else xp.pulse.value
  pure { liquid := xp.free, reserved := xp.reserve, locked := xp.lock, multiplier, eligibility }

/-- The eligibility shown for the next pulse, with the progress of the stored one. -/
def nextEligibility (key : T.AccountId) (nextPulse : Accumulator) : XpCheck T XpEligibility := fun s =>
  if s.minPulse ≤ nextPulse.value then .ok .earning else xpEligibility key s

def earnPreview (key : T.AccountId) (raw : Nat) : XpCheck T XpSnapshot := fun s => do
  let xp ← getXp key s
  let reward ← quoteEarnXp key raw s
  let newFree ← okOr (checkedAdd T.maxXp xp.free reward) (.error .xpCapOverflowed)
  let nextPulse ← okOr (increment T.maxPulse s.pulseFactor xp.pulse) .diverges
  let eligibility ← nextEligibility key nextPulse s
  let multiplier := if eligibility = .earning then nextPulse.value else 1
  pure { liquid := newFree, reserved := xp.reserve, locked := xp.lock, multiplier, eligibility }

/-- The preview succeeds when the call would, and shows what the call leaves. -/
structure PreviewMatches (s : XpState T) (key : T.AccountId) (raw : Nat) : Prop where
  succeeds : (∃ shown, earnPreview key raw s = .ok shown) ↔ ∃ actual t, earnXp key raw s = .ok actual t
  state : ∀ shown actual t, earnPreview key raw s = .ok shown → earnXp key raw s = .ok actual t →
    xpState key t = .ok shown
  credit : ∀ actual t, earnXp key raw s = .ok actual t → quoteEarnXp key raw s = .ok actual

/-- One more step leaves the value of the pulse as it is. -/
def XpState.pulseRests (s : XpState T) (xp : Xp) : Prop :=
  s.pulseFactor.threshold ≠ 0 ∧
    (saturatingAdd T.maxPulse xp.pulse.step s.pulseFactor.perCount < s.pulseFactor.threshold ∨
      xp.pulse.value = T.maxPulse)

/-- When the preview is right: within a block the pulse rests, a warm-up ends with this call,
and a scaled call beats the pulse because of a lock or leaves it at rest. A credit that does
not fit fails in both. -/
structure PreviewAgrees (s : XpState T) (key : T.AccountId) (xp : Xp) (raw : Nat) : Prop where
  sameBlock : s.sameBlock xp → T.maxXp < xp.free + raw ∨ s.pulseRests xp
  warmsUp : s.warmsUp xp → s.pulseFactor.threshold = 0 ∨
    s.minPulse ≤ xp.pulse.value + pulseGain T.maxPulse s.pulseFactor xp.pulse
  scales : s.scales xp → T.maxXp < raw * xp.pulse.value + xp.free ∨ (hasLock key s).isOk = true ∨
    s.pulseRests xp

/-- The values of a record and of the settings are values of their types. -/
structure XpState.Typed (s : XpState T) (xp : Xp) : Prop where
  free : xp.free ≤ T.maxXp
  pulse : xp.pulse.value ≤ T.maxPulse
  minPulse : s.minPulse ≤ T.maxPulse
  threshold : s.pulseFactor.threshold ≤ T.maxPulse

section Preview

variable {s t : XpState T} {key : T.AccountId} {xp : Xp} {raw actual reward : Nat} {pulse : Accumulator}

theorem getXp_of_get (hx : s.xpOf.get key = some xp) : getXp key s = .ok xp := okOr_eq_ok.mpr hx

theorem quoteEarnXp_sameBlock (hx : s.xpOf.get key = some xp) (h : s.sameBlock xp) :
    quoteEarnXp key raw s = .ok raw := by
  have hblock : s.blockNumber ≤ xp.timestamp ∧ s.minPulse ≤ xp.pulse.value := h
  simp [quoteEarnXp, hx, okOr, hblock, bind, Except.bind, pure, Except.pure]

theorem quoteEarnXp_warmsUp (hx : s.xpOf.get key = some xp) (h : s.warmsUp xp) :
    quoteEarnXp key raw s = .ok 0 := by
  have hlow : xp.pulse.value < s.minPulse := h
  have hblock := not_sameBlock_of_warmsUp h
  simp [quoteEarnXp, hx, okOr, hlow, hblock, bind, Except.bind, pure, Except.pure]

theorem quoteEarnXp_scales (hx : s.xpOf.get key = some xp) (h : s.scales xp) :
    quoteEarnXp key raw s = okOr (checkedMul T.maxXp raw xp.pulse.value) (.error .reputationDeriveOverflowed) := by
  have hhigh : ¬xp.pulse.value < s.minPulse := Nat.not_lt.mpr h.2
  have hblock := not_sameBlock_of_scales h
  simp [quoteEarnXp, hx, okOr, hhigh, hblock, bind, Except.bind]

theorem checkedMul_eq_some {bound a b c : Nat} : checkedMul bound a b = some c ↔ c = a * b ∧ a * b ≤ bound := by
  unfold checkedMul
  split <;> rename_i h <;> simp [h, eq_comm]

theorem earnPreview_eq_ok {shown : XpSnapshot} (hx : s.xpOf.get key = some xp) :
    earnPreview key raw s = .ok shown ↔ ∃ reward pulse eligibility,
      quoteEarnXp key raw s = .ok reward ∧ xp.free + reward ≤ T.maxXp ∧
      increment T.maxPulse s.pulseFactor xp.pulse = some pulse ∧
      nextEligibility key pulse s = .ok eligibility ∧
      shown = ⟨xp.free + reward, xp.reserve, xp.lock,
        if eligibility = .earning then pulse.value else 1, eligibility⟩ := by
  unfold earnPreview
  constructor
  · intro h
    obtain ⟨xp', hx', h⟩ := bind_eq_ok.mp h
    obtain rfl := Option.some.inj (hx.symm.trans (okOr_eq_ok.mp hx'))
    obtain ⟨reward, hreward, h⟩ := bind_eq_ok.mp h
    obtain ⟨free, hfree, h⟩ := bind_eq_ok.mp h
    obtain ⟨rfl, hmax⟩ := checkedAdd_eq_some.mp (okOr_eq_ok.mp hfree)
    obtain ⟨pulse, hpulse, h⟩ := bind_eq_ok.mp h
    obtain ⟨eligibility, heligible, h⟩ := bind_eq_ok.mp h
    exact ⟨reward, pulse, eligibility, hreward, hmax, okOr_eq_ok.mp hpulse, heligible, (pure_eq_ok.mp h).symm⟩
  · rintro ⟨reward, pulse, eligibility, hreward, hmax, hpulse, heligible, rfl⟩
    refine bind_eq_ok.mpr ⟨xp, getXp_of_get hx, bind_eq_ok.mpr ⟨reward, hreward, ?_⟩⟩
    refine bind_eq_ok.mpr ⟨_, okOr_eq_ok.mpr (checkedAdd_eq_some.mpr ⟨rfl, hmax⟩), ?_⟩
    exact bind_eq_ok.mpr ⟨pulse, okOr_eq_ok.mpr hpulse, bind_eq_ok.mpr ⟨eligibility, heligible, rfl⟩⟩

theorem matches_iff_of_ok {shown : XpSnapshot} (he : earnXp key raw s = .ok actual t)
    (hp : earnPreview key raw s = .ok shown) (hq : quoteEarnXp key raw s = .ok actual) :
    PreviewMatches s key raw ↔ xpState key t = .ok shown := by
  constructor
  · exact fun h => h.state shown actual t hp he
  · intro hstate
    refine ⟨iff_of_true ⟨shown, hp⟩ ⟨actual, t, he⟩, fun shown' actual' t' hp' he' => ?_,
      fun actual' t' he' => ?_⟩
    · rw [hp] at hp'
      rw [he] at he'
      cases hp'
      cases he'
      exact hstate
    · rw [he] at he'
      cases he'
      exact hq

theorem earnPreview_ne_ok (hx : s.xpOf.get key = some xp)
    (hp : increment T.maxPulse s.pulseFactor xp.pulse = none) (shown : XpSnapshot) :
    earnPreview key raw s ≠ .ok shown := fun hok => by
  obtain ⟨_, pulse, _, _, _, hsome, _⟩ := (earnPreview_eq_ok hx).mp hok
  rw [hp] at hsome
  cases hsome

theorem earnXp_ne_ok {e : Fault} {xp' : Xp} (hx : s.xpOf.get key = some xp) (hearn : earn s key raw xp = .error e xp')
    (actual : Nat) (t : XpState T) : earnXp key raw s ≠ .ok actual t := fun hok => by
  rw [earnXp_of_error hx hearn] at hok
  cases hok

theorem matches_of_neither (he : ∀ actual t, earnXp key raw s ≠ .ok actual t)
    (hp : ∀ shown, earnPreview key raw s ≠ .ok shown) : PreviewMatches s key raw where
  succeeds := iff_of_false (fun ⟨shown, h⟩ => hp shown h) fun ⟨actual, t, h⟩ => he actual t h
  state shown _ _ h := (hp shown h).elim
  credit actual t h := (he actual t h).elim

theorem not_matches_of_earn (he : earnXp key raw s = .ok actual t)
    (hp : ∀ shown, earnPreview key raw s ≠ .ok shown) : ¬PreviewMatches s key raw := fun h => by
  obtain ⟨shown, hshown⟩ := h.succeeds.mpr ⟨actual, t, he⟩
  exact hp shown hshown

theorem xpEligibility_earning (hx : s.xpOf.get key = some xp) (h : s.minPulse ≤ xp.pulse.value) :
    xpEligibility key s = .ok .earning := by
  simp [xpEligibility, getXp_of_get hx, h, bind, Except.bind, pure, Except.pure]

theorem xpState_earning (hx : s.xpOf.get key = some xp) (h : s.minPulse ≤ xp.pulse.value) :
    xpState key s = .ok ⟨xp.free, xp.reserve, xp.lock, xp.pulse.value, .earning⟩ := by
  simp [xpState, getXp_of_get hx, xpEligibility_earning hx h, Nat.not_lt.mpr h, bind, Except.bind, pure,
    Except.pure]

theorem le_increment (hv : xp.pulse.value ≤ T.maxPulse)
    (h : increment T.maxPulse s.pulseFactor xp.pulse = some pulse) : xp.pulse.value ≤ pulse.value := by
  by_cases hpos : s.pulseFactor.threshold = 0
  · rw [increment_of_zero hpos] at h
    cases h
  · rw [increment_of_pos hpos hv] at h
    cases h
    dsimp only
    omega

theorem pulseRests_iff (hv : xp.pulse.value ≤ T.maxPulse) :
    s.pulseRests xp ↔
      ∃ pulse, increment T.maxPulse s.pulseFactor xp.pulse = some pulse ∧ pulse.value = xp.pulse.value := by
  unfold XpState.pulseRests
  by_cases hpos : s.pulseFactor.threshold = 0
  · simp [hpos, increment_of_zero hpos]
  · have hdiv : pulseGain T.maxPulse s.pulseFactor xp.pulse = 0 ↔
        saturatingAdd T.maxPulse xp.pulse.step s.pulseFactor.perCount < s.pulseFactor.threshold := by
      unfold pulseGain
      rw [Nat.div_eq_zero_iff]
      simp [hpos]
    rw [increment_of_pos hpos hv, ← hdiv]
    simp only [ne_eq, hpos, not_false_eq_true, true_and, Option.some.injEq, exists_eq_left']
    omega

theorem earnPreview_active (hx : s.xpOf.get key = some xp) (hq : quoteEarnXp key raw s = .ok reward)
    (hmax : xp.free + reward ≤ T.maxXp) (hp : increment T.maxPulse s.pulseFactor xp.pulse = some pulse)
    (hactive : s.minPulse ≤ pulse.value) :
    earnPreview key raw s = .ok ⟨xp.free + reward, xp.reserve, xp.lock, pulse.value, .earning⟩ :=
  (earnPreview_eq_ok hx).mpr ⟨reward, pulse, .earning, hq, hmax, hp, if_pos hactive, rfl⟩

theorem xpState_insert {xp' : Xp} (h : s.minPulse ≤ xp'.pulse.value) :
    xpState key { s with xpOf := s.xpOf.insert key xp' } =
      .ok ⟨xp'.free, xp'.reserve, xp'.lock, xp'.pulse.value, .earning⟩ :=
  xpState_earning (StorageMap.get_insert_self ..) h

/-- The call credits the reward and leaves a pulse that counts: the preview is right when it
shows that pulse. -/
theorem matches_active_iff {xp' : Xp} (hx : s.xpOf.get key = some xp) (hv : xp.pulse.value ≤ T.maxPulse)
    (hactive : s.minPulse ≤ xp.pulse.value) (hq : quoteEarnXp key raw s = .ok reward)
    (hmax : xp.free + reward ≤ T.maxXp) (he : earn s key raw xp = .ok reward xp')
    (hxp : xp'.free = xp.free + reward ∧ xp'.reserve = xp.reserve ∧ xp'.lock = xp.lock)
    (hpulse : xp.pulse.value ≤ xp'.pulse.value) :
    PreviewMatches s key raw ↔
      ∃ pulse, increment T.maxPulse s.pulseFactor xp.pulse = some pulse ∧ pulse.value = xp'.pulse.value := by
  have hcall := earnXp_of_ok hx he
  cases hp : increment T.maxPulse s.pulseFactor xp.pulse with
  | none =>
    exact iff_of_false (not_matches_of_earn hcall (earnPreview_ne_ok hx hp)) fun ⟨_, h, _⟩ => by cases h
  | some pulse =>
    have hle := le_increment hv hp
    rw [matches_iff_of_ok hcall (earnPreview_active hx hq hmax hp (by omega)) hq,
      xpState_insert (by omega), hxp.1, hxp.2.1, hxp.2.2]
    simp only [Except.ok.injEq, XpSnapshot.mk.injEq, true_and, and_true, Option.some.injEq, exists_eq_left']
    exact eq_comm

theorem matches_sameBlock_iff (hx : s.xpOf.get key = some xp) (hv : xp.pulse.value ≤ T.maxPulse)
    (h : s.sameBlock xp) : PreviewMatches s key raw ↔ T.maxXp < xp.free + raw ∨ s.pulseRests xp := by
  have hq := @quoteEarnXp_sameBlock T s key xp raw hx h
  have hearn := @earn_sameBlock T s key xp raw h
  by_cases hmax : xp.free + raw ≤ T.maxXp
  · rw [if_pos hmax] at hearn
    rw [matches_active_iff hx hv h.2 hq hmax hearn ⟨rfl, rfl, rfl⟩ le_rfl, ← pulseRests_iff hv]
    simp [Nat.not_lt.mpr hmax]
  · rw [if_neg hmax] at hearn
    refine iff_of_true (matches_of_neither (earnXp_ne_ok hx hearn) fun shown hok => ?_) (Or.inl (Nat.not_le.mp hmax))
    obtain ⟨reward, _, _, hreward, hle, _⟩ := (earnPreview_eq_ok hx).mp hok
    rw [hq] at hreward
    cases hreward
    exact hmax hle

theorem matches_scales_iff (hx : s.xpOf.get key = some xp) (hv : xp.pulse.value ≤ T.maxPulse)
    (h : s.scales xp) :
    PreviewMatches s key raw ↔
      T.maxXp < raw * xp.pulse.value + xp.free ∨ (hasLock key s).isOk = true ∨ s.pulseRests xp := by
  have hquote := @quoteEarnXp_scales T s key xp raw hx h
  by_cases hmax : raw * xp.pulse.value + xp.free ≤ T.maxXp
  · have hq : quoteEarnXp key raw s = .ok (raw * xp.pulse.value) := by
      rw [hquote]
      exact okOr_eq_ok.mpr (checkedMul_eq_some.mpr ⟨rfl, by omega⟩)
    have hfit : xp.free + raw * xp.pulse.value ≤ T.maxXp := by omega
    have hno : ¬T.maxXp < raw * xp.pulse.value + xp.free := by omega
    by_cases hlock : (hasLock key s).isOk = true
    · refine iff_of_true ?_ (Or.inr (Or.inl hlock))
      cases hp : increment T.maxPulse s.pulseFactor xp.pulse with
      | none =>
        have hearn := earn_scales_locked_none h hmax hlock hp
        exact matches_of_neither (earnXp_ne_ok hx hearn) (earnPreview_ne_ok hx hp)
      | some pulse =>
        have hearn := earn_scales_locked_some h hmax hlock hp
        have hiff := matches_active_iff hx hv h.2 hq hfit hearn ⟨Nat.add_comm .., rfl, rfl⟩ (le_increment hv hp)
        exact hiff.mpr ⟨pulse, hp, rfl⟩
    · have hearn := earn_scales_unlocked h hmax hlock
      rw [matches_active_iff hx hv h.2 hq hfit hearn ⟨Nat.add_comm .., rfl, rfl⟩ le_rfl, pulseRests_iff hv]
      simp only [hno, hlock, false_or, Bool.false_eq_true]
      rfl
  · obtain ⟨e, hearn⟩ := @earn_scales_overflow T s key xp raw h (Nat.not_le.mp hmax)
    refine iff_of_true (matches_of_neither (earnXp_ne_ok hx hearn) fun shown hok => ?_) (Or.inl (Nat.not_le.mp hmax))
    obtain ⟨reward, _, _, hreward, hle, _⟩ := (earnPreview_eq_ok hx).mp hok
    rw [hquote, okOr_eq_ok, checkedMul_eq_some] at hreward
    omega

theorem getD_checkedSub (a b : Nat) : (checkedSub a b).getD 0 = a - b := by
  unfold checkedSub
  split
  · rfl
  · simp only [Option.getD_none]
    omega

theorem ceilDivPulse_eq_ok {maxPulse value per c : Nat} (h : ceilDivPulse maxPulse value per = .ok c) :
    c = (value - 1) / per + 1 := by
  obtain ⟨_, hper, h⟩ := bind_eq_ok.mp h
  rw [okOr_eq_ok, getD_checkedSub, checkedDiv, if_neg (ensure_eq_ok.mp hper), Option.bind_some,
    checkedAdd_eq_some] at h
  exact h.1

/-- The calls a warm-up still takes, by the count of the interface. -/
def actionsLeft (s : XpState T) (pulse : Accumulator) : Nat :=
  (s.pulseFactor.threshold - pulse.step - 1) / s.pulseFactor.perCount + 1 +
    (s.minPulse - pulse.value - 1) * ((s.pulseFactor.threshold - 1) / s.pulseFactor.perCount + 1)

theorem xpEligibility_progressing {eligibility : XpEligibility} (hx : s.xpOf.get key = some xp)
    (hlow : s.warmsUp xp) (h : xpEligibility key s = .ok eligibility) :
    s.pulseFactor.perCount ≠ 0 ∧ eligibility = .progressing (actionsLeft s xp.pulse) := by
  obtain ⟨xp', hx', h⟩ := bind_eq_ok.mp h
  obtain rfl := Option.some.inj (hx.symm.trans (okOr_eq_ok.mp hx'))
  have hlow' : ¬s.minPulse ≤ xp.pulse.value := Nat.not_le.mpr hlow
  simp only [hlow', if_false] at h
  obtain ⟨_, hper, h⟩ := bind_eq_ok.mp h
  obtain ⟨remaining, hremaining, h⟩ := bind_eq_ok.mp h
  obtain ⟨perPulse, hperPulse, h⟩ := bind_eq_ok.mp h
  obtain ⟨toNext, htoNext, h⟩ := bind_eq_ok.mp h
  obtain ⟨extra, hextra, h⟩ := bind_eq_ok.mp h
  obtain ⟨total, htotal, h⟩ := bind_eq_ok.mp h
  obtain ⟨hle, hsub⟩ := checkedSub_eq_some.mp (okOr_eq_ok.mp hremaining)
  obtain ⟨rfl, -⟩ := checkedAdd_eq_some.mp (okOr_eq_ok.mp htotal)
  obtain ⟨rfl, -⟩ := checkedMul_eq_some.mp (okOr_eq_ok.mp hextra)
  obtain rfl : remaining = s.minPulse - xp.pulse.value := by omega
  rw [getD_checkedSub] at h htoNext
  rw [ceilDivPulse_eq_ok hperPulse, ceilDivPulse_eq_ok htoNext] at h
  exact ⟨ensure_eq_ok.mp hper, (pure_eq_ok.mp h).symm⟩

theorem actionsLeft_lt (hper : s.pulseFactor.perCount ≠ 0) (hpos : s.pulseFactor.threshold ≠ 0)
    (hthreshold : s.pulseFactor.threshold ≤ T.maxPulse)
    (hlow : xp.pulse.value + pulseGain T.maxPulse s.pulseFactor xp.pulse < s.minPulse) :
    actionsLeft s ⟨xp.pulse.value + pulseGain T.maxPulse s.pulseFactor xp.pulse,
      saturatingAdd T.maxPulse xp.pulse.step s.pulseFactor.perCount % s.pulseFactor.threshold⟩ <
        actionsLeft s xp.pulse := by
  unfold actionsLeft pulseGain at *
  set threshold := s.pulseFactor.threshold
  set per := s.pulseFactor.perCount
  by_cases hbelow : saturatingAdd T.maxPulse xp.pulse.step per < threshold
  · have hstep : saturatingAdd T.maxPulse xp.pulse.step per = xp.pulse.step + per := by
      unfold saturatingAdd at hbelow ⊢
      omega
    rw [Nat.div_eq_of_lt hbelow, Nat.mod_eq_of_lt hbelow, hstep]
    have hdiv : (threshold - xp.pulse.step - 1) / per = (threshold - xp.pulse.step - 1 - per) / per + 1 :=
      Nat.div_eq_sub_div (Nat.pos_of_ne_zero hper) (by omega)
    have hless : threshold - (xp.pulse.step + per) - 1 = threshold - xp.pulse.step - 1 - per := by omega
    simp only [Nat.add_zero, hless, hdiv]
    omega
  · have hgain : 1 ≤ saturatingAdd T.maxPulse xp.pulse.step per / threshold :=
      Nat.div_pos (Nat.not_lt.mp hbelow) (Nat.pos_of_ne_zero hpos)
    set gain := saturatingAdd T.maxPulse xp.pulse.step per / threshold
    set left := saturatingAdd T.maxPulse xp.pulse.step per % threshold
    set full := (threshold - 1) / per + 1
    have hnext : (threshold - left - 1) / per + 1 ≤ full :=
      Nat.add_le_add_right (Nat.div_le_div_right (by omega)) 1
    have hrest : (s.minPulse - (xp.pulse.value + gain) - 1) * full + full ≤
        (s.minPulse - xp.pulse.value - 1) * full := by
      rw [← Nat.succ_mul]
      exact Nat.mul_le_mul_right full (by omega)
    calc (threshold - left - 1) / per + 1 + (s.minPulse - (xp.pulse.value + gain) - 1) * full
        ≤ full + (s.minPulse - (xp.pulse.value + gain) - 1) * full := Nat.add_le_add_right hnext _
      _ = (s.minPulse - (xp.pulse.value + gain) - 1) * full + full := Nat.add_comm _ _
      _ ≤ (s.minPulse - xp.pulse.value - 1) * full := hrest
      _ < (threshold - xp.pulse.step - 1) / per + 1 + (s.minPulse - xp.pulse.value - 1) * full :=
        Nat.lt_add_of_pos_left (Nat.succ_pos _)

theorem xpState_insert_progressing {xp' : Xp} {shown : XpSnapshot} (hlow : xp'.pulse.value < s.minPulse)
    (h : xpState key { s with xpOf := s.xpOf.insert key xp' } = .ok shown) :
    shown.eligibility = .progressing (actionsLeft s xp'.pulse) := by
  obtain ⟨xp'', -, h⟩ := bind_eq_ok.mp h
  obtain ⟨eligibility, heligible, h⟩ := bind_eq_ok.mp h
  obtain rfl := pure_eq_ok.mp h
  obtain ⟨-, hleft⟩ := @xpEligibility_progressing T { s with xpOf := s.xpOf.insert key xp' } key xp' eligibility
    (StorageMap.get_insert_self ..) hlow heligible
  exact hleft

theorem matches_warmsUp_iff (hx : s.xpOf.get key = some xp) (ht : s.Typed xp) (h : s.warmsUp xp) :
    PreviewMatches s key raw ↔ s.pulseFactor.threshold = 0 ∨
      s.minPulse ≤ xp.pulse.value + pulseGain T.maxPulse s.pulseFactor xp.pulse := by
  have hq := @quoteEarnXp_warmsUp T s key xp raw hx h
  by_cases hzero : s.pulseFactor.threshold = 0
  · have hp := @increment_of_zero T.maxPulse s.pulseFactor xp.pulse hzero
    have hearn := @earn_warmsUp_none T s key xp raw h hp
    exact iff_of_true (matches_of_neither (earnXp_ne_ok hx hearn) (earnPreview_ne_ok hx hp)) (Or.inl hzero)
  · have hp := increment_of_pos hzero ht.pulse
    have hcall := earnXp_of_ok hx (@earn_warmsUp_some T s key xp raw _ h hp)
    have hfree := ht.free
    have hmin := ht.minPulse
    simp only [hzero, false_or]
    by_cases hdone : s.minPulse ≤ xp.pulse.value + pulseGain T.maxPulse s.pulseFactor xp.pulse
    · have hactive : s.minPulse ≤
          min (xp.pulse.value + pulseGain T.maxPulse s.pulseFactor xp.pulse) T.maxPulse := by omega
      refine iff_of_true ?_ hdone
      rw [matches_iff_of_ok hcall (earnPreview_active hx hq (by omega) hp hactive) hq, xpState_insert hactive]
      rfl
    · refine iff_of_false (fun hm => ?_) hdone
      obtain ⟨shown, hshown⟩ := hm.succeeds.mpr ⟨_, _, hcall⟩
      have hafter := hm.state shown _ _ hshown hcall
      obtain ⟨reward, pulse, eligibility, hreward, -, hpulse, heligible, rfl⟩ := (earnPreview_eq_ok hx).mp hshown
      obtain rfl := Option.some.inj (hp.symm.trans hpulse)
      have hvalue : min (xp.pulse.value + pulseGain T.maxPulse s.pulseFactor xp.pulse) T.maxPulse =
          xp.pulse.value + pulseGain T.maxPulse s.pulseFactor xp.pulse := by omega
      simp only [nextEligibility, hvalue, hdone, if_false] at heligible
      obtain ⟨hper, rfl⟩ := xpEligibility_progressing hx h heligible
      have hleft := xpState_insert_progressing (lt_of_eq_of_lt hvalue (Nat.not_le.mp hdone)) hafter
      dsimp only at hleft
      rw [hvalue] at hleft
      have hlt := actionsLeft_lt hper hzero ht.threshold (Nat.not_le.mp hdone)
      exact absurd (XpEligibility.progressing.inj hleft) hlt.ne'

/-- The preview is right exactly in the cases of `PreviewAgrees`. -/
theorem earn_preview_matches_iff (hx : s.xpOf.get key = some xp) (ht : s.Typed xp) :
    PreviewMatches s key raw ↔ PreviewAgrees s key xp raw := by
  rcases phase_cases s xp with h | h | h
  · rw [matches_sameBlock_iff hx ht.pulse h]
    refine ⟨fun ha => ⟨fun _ => ha, fun hw => ?_, fun hs => ?_⟩, fun ha => ha.sameBlock h⟩
    · exact absurd h (not_sameBlock_of_warmsUp hw)
    · exact absurd h (not_sameBlock_of_scales hs)
  · rw [matches_warmsUp_iff hx ht h]
    refine ⟨fun ha => ⟨fun hb => ?_, fun _ => ha, fun hs => ?_⟩, fun ha => ha.warmsUp h⟩
    · exact absurd hb (not_sameBlock_of_warmsUp h)
    · exact absurd h (Nat.not_lt.mpr hs.2)
  · rw [matches_scales_iff hx ht.pulse h]
    refine ⟨fun ha => ⟨fun hb => ?_, fun hw => ?_, fun _ => ha⟩, fun ha => ha.scales h⟩
    · exact absurd hb (not_sameBlock_of_scales h)
    · exact absurd hw (Nat.not_lt.mpr h.2)

end Preview

/-- A new identity, four calls into a warm-up of five. -/
def warming : XpState mockXp :=
  mockGenesis.build.after
    [.createXp (1 : Nat) (7 : Nat), .block 1, .earnXp (7 : Nat) 5, .block 2, .earnXp (7 : Nat) 5, .block 3,
      .earnXp (7 : Nat) 5, .block 4, .earnXp (7 : Nat) 5, .block 5]

def warmingXp : Xp := ⟨10, 0, 0, ⟨0, 40⟩, 4⟩

theorem last_warm_up_previewed : PreviewMatches warming (7 : Nat) 5 :=
  (@earn_preview_matches_iff mockXp warming (7 : Nat) warmingXp 5 (by decide +kernel)
    ⟨by decide, by decide, by decide +kernel, by decide +kernel⟩).mpr
    ⟨fun h => absurd h.1 (by decide +kernel), fun _ => Or.inr (by decide +kernel),
      fun h => absurd h.2 (by decide +kernel)⟩

def newcomer : XpState mockXp := mockGenesis.build.after [.createXp (1 : Nat) (7 : Nat), .block 1]

/-- The first call of a warm-up leaves four more to make, and the preview shows five. -/
theorem preview_counts_the_call_itself :
    ¬∀ (s : XpState mockXp) (key : Nat) (xp : Xp) (raw : Nat), s.xpOf.get key = some xp → s.Typed xp →
      PreviewMatches s key raw := by
  intro h
  have hmatches := h newcomer (7 : Nat) ⟨10, 0, 0, ⟨0, 0⟩, 0⟩ 5 (by decide +kernel)
    ⟨by decide, by decide, by decide +kernel, by decide +kernel⟩
  have hafter := hmatches.state ⟨10, 0, 0, 1, .progressing 5⟩ 0 _ (by decide +kernel) rfl
  exact absurd hafter (by decide +kernel)

end FrameSuite
