import FrameSuite.XpEarning
import FrameSuite.XpMoves

/-! Calls that fail after a write. Only the deposits and the scaled phase of earning write
before their last check. -/

namespace FrameSuite

variable {T : XpConfig}

/-- A call that returns an error leaves the record and the entries of the identity as they were. -/
def AtomicAt {α : Type} (s : XpState T) (key : T.AccountId) (call : XpCall T α) : Prop :=
  ∀ e t, call s = .error (.error e) t → t.xpOf.get key = s.xpOf.get key ∧
    t.reservedXpOf.get key = s.reservedXpOf.get key ∧ t.lockedXpOf.get key = s.lockedXpOf.get key

/-- Whether the pocket and its total have room for a deposit. -/
def XpState.admits (s : XpState T) (key : T.AccountId) (xp : Xp) (pocket : Pocket T) (points : Nat) : Prop :=
  pocket.total xp + points ≤ T.maxXp ∧
    match s.inPocket key pocket with
    | some old => old + points ≤ T.maxXp
    | none => s.hasRoom key pocket

/-- Nothing is deposited, the free balance does not cover it, or the pocket has room for it. -/
def XpState.settles (s : XpState T) (key : T.AccountId) (xp : Xp) (pocket : Pocket T) (points : Nat) : Prop :=
  points = 0 ∨ xp.free < points ∨ s.admits key xp pocket points

/-- When a move does not fail halfway. -/
def XpMove.settles (s : XpState T) (key : T.AccountId) (xp : Xp) : XpMove T → Prop
  | .lockXp reason points => s.settles key xp (.lock reason) points
  | .reserveXp reason points => s.settles key xp (.reserve reason) points
  | .withdrawLock _ => True
  | .withdrawReserve _ => True
  | .withdrawReservePartial _ _ _ => True

section Results

variable {α : Type} {s t : XpState T} {key : T.AccountId} {call : XpCall T α}

theorem atomicAt_of_ok {a : α} (h : call s = .ok a t) : AtomicAt s key call := by
  intro e t he
  rw [h] at he
  cases he

theorem atomicAt_of_same {e : Fault} (h : call s = .error e s) : AtomicAt s key call := by
  intro e' t he
  rw [h] at he
  cases he
  exact ⟨rfl, rfl, rfl⟩

theorem atomicAt_of_diverges (h : call s = .error .diverges t) : AtomicAt s key call := by
  intro e t he
  rw [h] at he
  cases he

theorem atomicAt_iff_of_record {e : XpError} {xp xp' : Xp} (hx : s.xpOf.get key = some xp)
    (h : call s = .error (.error e) { s with xpOf := s.xpOf.insert key xp' }) :
    AtomicAt s key call ↔ xp' = xp := by
  unfold AtomicAt
  rw [h, hx]
  constructor
  · intro ha
    have hrecord := (ha e _ rfl).1
    rw [StorageMap.get_insert_self] at hrecord
    exact Option.some.inj hrecord
  · rintro rfl e' t he
    cases he
    exact ⟨StorageMap.get_insert_self .., rfl, rfl⟩

end Results

section Deposits

variable {s : XpState T} {key : T.AccountId} {xp : Xp} {points : Nat} {call : XpCall T Unit}

theorem withFree_atomic_iff {e : XpError} (hx : s.xpOf.get key = some xp) (hle : points ≤ xp.free)
    (h : call s = .error (.error e) (s.withFree key xp (xp.free - points))) :
    AtomicAt s key call ↔ points = 0 := by
  have hsame (free : Nat) : { xp with free } = xp ↔ free = xp.free := by
    cases xp
    simp
  rw [atomicAt_iff_of_record hx h, hsame]
  omega

theorem takes_iff_admits {pocket : Pocket T} (hpos : points ≠ 0)
    (hmax : ∀ old, s.inPocket key pocket = some old → old + points ≤ T.maxXp) :
    (s.withFree key xp (xp.free - points)).takes key { xp with free := xp.free - points } pocket
      (s.held key pocket + points) ↔ s.admits key xp pocket points := by
  have hallow : pocket.allows (s.held key pocket + points) := by
    cases pocket with
    | reserve reason => trivial
    | lock reason => exact Nat.ne_of_gt (by omega)
  have htotal : pocket.total { xp with free := xp.free - points } = pocket.total xp := by
    cases pocket <;> rfl
  have hroom : (s.withFree key xp (xp.free - points)).hasRoom key pocket ↔ s.hasRoom key pocket := by
    cases pocket <;> rfl
  unfold XpState.takes XpState.admits XpState.held at *
  rw [inPocket_withFree, htotal]
  cases hin : s.inPocket key pocket with
  | none =>
    simp only [hin, Option.getD_none, Nat.zero_add] at hallow
    simp only [Option.getD_none, Nat.zero_add, hroom, hallow, true_and]
    exact and_comm
  | some old =>
    have hold := hmax old hin
    simp only [hin, Option.getD_some] at hallow
    simp only [Option.getD_some, hallow, hold, true_and, and_true]
    omega

theorem DepositEnds.atomicAt_iff {pocket : Pocket T} (hx : s.xpOf.get key = some xp)
    (h : DepositEnds s key xp pocket points (call s)) :
    AtomicAt s key call ↔ s.settles key xp pocket points := by
  generalize hr : call s = r at h
  unfold XpState.settles
  cases h with
  | refused e hrefused =>
    refine iff_of_true (atomicAt_of_same hr) ?_
    rcases hrefused with hallow | hlt
    · cases pocket with
      | reserve reason => exact absurd trivial hallow
      | lock reason => exact Or.inl (not_not.mp hallow)
    · exact Or.inr (Or.inl hlt)
  | overflows e hle old hin hmax =>
    have hno : ¬s.admits key xp pocket points := fun hadmits => by
      have hroom := hadmits.2
      rw [hin] at hroom
      exact absurd hroom (Nat.not_le.mpr hmax)
    rw [withFree_atomic_iff hx hle hr]
    simp [Nat.not_lt.mpr hle, hno]
  | sets hle hallow hmax =>
    have hget : (s.withFree key xp (xp.free - points)).xpOf.get key = some { xp with free := xp.free - points } :=
      get_withFree s _
    obtain ⟨htakes, hfails⟩ := @Pocket.set_spec T _ key _ (s.held key pocket + points) pocket hget
    by_cases hcan : (s.withFree key xp (xp.free - points)).takes key
        { xp with free := xp.free - points } pocket (s.held key pocket + points)
    · obtain ⟨t, _, ht, _⟩ := htakes hcan
      refine iff_of_true (atomicAt_of_ok (hr.trans ht)) ?_
      by_cases hpos : points = 0
      · exact Or.inl hpos
      · exact Or.inr (Or.inr ((takes_iff_admits hpos hmax).mp hcan))
    · obtain ⟨e, he⟩ := hfails hcan
      rw [withFree_atomic_iff hx hle (hr.trans he)]
      refine ⟨Or.inl, fun hs => ?_⟩
      by_contra hpos
      rcases hs with hzero | hlt | hadmits
      · exact hpos hzero
      · omega
      · exact hcan ((takes_iff_admits hpos hmax).mpr hadmits)

end Deposits

section Returns

variable {s : XpState T} {key : T.AccountId} {xp : Xp} {points old : Nat} {call : XpCall T Unit}

theorem ReturnEnds.atomicAt {reason : T.ReserveReason} {precision : Precision} (hx : s.xpOf.get key = some xp)
    (h : ReturnEnds s key xp reason points precision (call s)) : AtomicAt s key call := by
  generalize hr : call s = r at h
  cases h with
  | nothing hzero => exact atomicAt_of_ok hr
  | refused e he => exact atomicAt_of_same hr
  | pays hpos old hin hexact =>
    obtain ⟨htakes, hfails⟩ := @setReserve_spec T s key xp (old - points) reason hx
    by_cases hcan : s.takes key xp (.reserve reason) (old - points)
    · obtain ⟨t, total, ht, hb⟩ := htakes hcan
      rw [bind_of_ok ht, setXp_eq_ok hb.get] at hr
      exact atomicAt_of_ok hr
    · obtain ⟨e, he⟩ := hfails hcan
      rw [bind_of_error he] at hr
      exact atomicAt_of_same hr

theorem withdrawLock_atomicAt {reason : T.LockReason} (hx : s.xpOf.get key = some xp) :
    AtomicAt s key (withdrawLock key reason) := by
  cases hin : s.inPocket key (.lock reason) with
  | none => exact atomicAt_of_same (withdrawLock_error hx hin)
  | some held =>
    have hget : (s.withFree key xp (saturatingAdd T.maxXp xp.free held)).xpOf.get key =
        some { xp with free := saturatingAdd T.maxXp xp.free held } := get_withFree s _
    obtain ⟨t, ht⟩ := exists_burnLock_ok hget ((inPocket_withFree ..).trans hin)
    exact atomicAt_of_ok ((withdrawLock_eq hx hin).trans ht)

end Returns

section Calls

variable {s : XpState T} {key : T.AccountId} {xp : Xp} {points : Nat}

theorem xp_move_atomicAt_iff (hx : s.xpOf.get key = some xp) (move : XpMove T) :
    AtomicAt s key (move.dispatch key) ↔ move.settles s key xp := by
  cases move with
  | lockXp reason points => exact DepositEnds.atomicAt_iff hx (lockXp_deposits hx)
  | reserveXp reason points => exact DepositEnds.atomicAt_iff hx (reserveXp_deposits hx)
  | withdrawLock reason => exact iff_of_true (withdrawLock_atomicAt hx) trivial
  | withdrawReserve reason => exact iff_of_true (ReturnEnds.atomicAt hx (withdrawReserve_returns hx)) trivial
  | withdrawReservePartial reason points precision =>
    exact iff_of_true (ReturnEnds.atomicAt hx (withdrawReservePartial_returns hx)) trivial

theorem xp_move_atomicAt_of_none (hx : s.xpOf.get key = none) (move : XpMove T) :
    AtomicAt s key (move.dispatch key) := by
  have hread : xpExists key s = .error (.error .xpNotFound) := by
    have hin : ¬s.xpOf.containsKey key = true := by simp [StorageMap.containsKey, hx]
    exact if_neg hin
  cases move <;> exact atomicAt_of_same (reads_bind_of_error hread)

theorem earnXp_atomicAt_of_none (hx : s.xpOf.get key = none) : AtomicAt s key (earnXp key points) := by
  refine atomicAt_of_same (e := .error .xpNotFound) ?_
  unfold earnXp
  rw [get_bind]
  unfold mutateXp
  rw [hx]

theorem earnXp_atomicAt_iff (hx : s.xpOf.get key = some xp) :
    AtomicAt s key (earnXp key points) ↔
      (s.scales xp → points * xp.pulse.value + xp.free ≤ T.maxXp) := by
  rcases phase_cases s xp with h | h | h
  · have hno : ¬s.scales xp := fun hs => not_sameBlock_of_scales hs h
    refine iff_of_true ?_ fun hs => absurd hs hno
    have hearn := @earn_sameBlock T s key xp points h
    split at hearn
    · exact atomicAt_of_ok (earnXp_of_ok hx hearn)
    · exact (atomicAt_iff_of_record hx (earnXp_of_error hx hearn)).mpr rfl
  · have hno : ¬s.scales xp := fun hs => absurd h (Nat.not_lt.mpr hs.2)
    refine iff_of_true ?_ fun hs => absurd hs hno
    cases hp : increment T.maxPulse s.pulseFactor xp.pulse with
    | none => exact atomicAt_of_diverges (earnXp_of_error hx (earn_warmsUp_none h hp))
    | some pulse => exact atomicAt_of_ok (earnXp_of_ok hx (earn_warmsUp_some h hp))
  · by_cases hmax : points * xp.pulse.value + xp.free ≤ T.maxXp
    · refine iff_of_true ?_ fun _ => hmax
      by_cases hlock : (hasLock key s).isOk = true
      · cases hp : increment T.maxPulse s.pulseFactor xp.pulse with
        | none => exact atomicAt_of_diverges (earnXp_of_error hx (earn_scales_locked_none h hmax hlock hp))
        | some pulse => exact atomicAt_of_ok (earnXp_of_ok hx (earn_scales_locked_some h hmax hlock hp))
      · exact atomicAt_of_ok (earnXp_of_ok hx (earn_scales_unlocked h hmax hlock))
    · obtain ⟨e, hearn⟩ := @earn_scales_overflow T s key xp points h (Nat.not_le.mp hmax)
      rw [atomicAt_iff_of_record hx (earnXp_of_error hx hearn)]
      refine iff_of_false (fun hsame => ?_) fun hfits => hmax (hfits h)
      have hstamp : s.blockNumber = xp.timestamp := congrArg Xp.timestamp hsame
      have hblock := h.1
      omega

end Calls

/-- Which calls leave nothing behind when they fail: a move that settles, and a scaled credit
that fits. -/
theorem xp_calls_atomic_iff (s : XpState T) (key : T.AccountId) :
    (∀ move : XpMove T, AtomicAt s key (move.dispatch key) ↔
      ∀ xp, s.xpOf.get key = some xp → move.settles s key xp) ∧
    ∀ points, AtomicAt s key (earnXp key points) ↔
      ∀ xp, s.xpOf.get key = some xp → s.scales xp → points * xp.pulse.value + xp.free ≤ T.maxXp := by
  cases hx : s.xpOf.get key with
  | none =>
    have hnone {p : Xp → Prop} (xp : Xp) (h : none = some xp) : p xp := by cases h
    exact ⟨fun move => iff_of_true (xp_move_atomicAt_of_none hx move) hnone,
      fun points => iff_of_true (earnXp_atomicAt_of_none hx) hnone⟩
  | some xp =>
    simp only [Option.some.injEq, forall_eq']
    exact ⟨fun move => xp_move_atomicAt_iff hx move, fun points => earnXp_atomicAt_iff hx⟩

/-- A lock that would overflow fails after the free balance was taken. -/
theorem failed_lock_takes_free_points :
    ¬∀ (s : XpState mockXp) (key : Nat), (∀ move : XpMove mockXp, AtomicAt s key (move.dispatch key)) ∧
      ∀ points, AtomicAt s key (earnXp key points) := by
  intro h
  have hatomic := (h brimming (7 : Nat)).1 (.lockXp Reason.staking (2 ^ 64 - 1))
  rcases (xp_move_atomicAt_iff brimming_get _).mp hatomic with hzero | hlt | hroom
  · exact absurd hzero (by decide)
  · exact absurd hlt (by decide)
  · exact absurd hroom.1 (by decide)

end FrameSuite
