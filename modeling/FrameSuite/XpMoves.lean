import FrameSuite.XpPockets

/-! Moves of points between the free balance of an identity and one of its pockets. A
deposit takes the points off the free balance before it knows that the pocket takes them,
and a return saturates the free balance at the largest value. -/

namespace FrameSuite

variable {T : XpConfig}

/-- How a deposit into a pocket ends: refused, stopped after the free balance was written, or
left to the pocket. -/
inductive DepositEnds (s : XpState T) (key : T.AccountId) (xp : Xp) (pocket : Pocket T) (points : Nat) :
    EStateM.Result Fault (XpState T) Unit → Prop
  | refused (e : XpError) (h : ¬pocket.allows points ∨ xp.free < points) :
    DepositEnds s key xp pocket points (.error (.error e) s)
  | overflows (e : XpError) (hle : points ≤ xp.free) (old : Nat) (hin : s.inPocket key pocket = some old)
      (hmax : T.maxXp < old + points) :
    DepositEnds s key xp pocket points (.error (.error e) (s.withFree key xp (xp.free - points)))
  | sets (hle : points ≤ xp.free) (hallow : pocket.allows points)
      (hmax : ∀ old, s.inPocket key pocket = some old → old + points ≤ T.maxXp) :
    DepositEnds s key xp pocket points
      (pocket.set key (s.held key pocket + points) (s.withFree key xp (xp.free - points)))

section Deposits

variable {s : XpState T} {key : T.AccountId} {xp : Xp} {points : Nat}

theorem xpExists_of_get (hx : s.xpOf.get key = some xp) : xpExists key s = .ok () :=
  ensure_eq_ok.mpr (StorageMap.containsKey_iff.mpr ⟨xp, hx⟩)

theorem getLiquidXp_of_get (hx : s.xpOf.get key = some xp) : getLiquidXp key s = .ok xp.free := by
  unfold getLiquidXp getXp
  rw [hx]
  rfl

theorem reserveXp_deposits {reason : T.ReserveReason} (hx : s.xpOf.get key = some xp) :
    DepositEnds s key xp (.reserve reason) points (reserveXp key reason points s) := by
  unfold reserveXp
  rw [reads_bind_of_ok (xpExists_of_get hx), reads_bind_of_ok (getLiquidXp_of_get hx)]
  by_cases hlt : xp.free < points
  · rw [if_pos hlt]
    exact .refused _ (Or.inr hlt)
  have hle := Nat.not_lt.mp hlt
  rw [if_neg hlt, get_bind]
  cases hin : s.inPocket key (.reserve reason) with
  | none =>
    have hex : ¬(reserveExists key reason s).isOk = true := by simp [inPocket_reserve_isSome, hin]
    rw [if_neg hex, bind_of_ok (setXp_eq_ok hx)]
    have hmax (old : Nat) : s.inPocket key (.reserve reason) = some old → old + points ≤ T.maxXp := by simp [hin]
    have hset : DepositEnds s key xp (.reserve reason) points _ := .sets hle trivial hmax
    simpa [XpState.held, hin, Pocket.set] using hset
  | some old =>
    have hread : getReserveXp key reason (s.withFree key xp (xp.free - points)) = .ok old := okOr_eq_ok.mpr hin
    rw [if_pos (inPocket_reserve_isSome.mpr ⟨old, hin⟩), bind_of_ok (setXp_eq_ok hx), reads_bind_of_ok hread]
    by_cases hmax : old + points ≤ T.maxXp
    · have hset : DepositEnds s key xp (.reserve reason) points _ := .sets hle trivial (by simpa [hin] using hmax)
      simpa [XpState.held, hin, Pocket.set, checkedAdd, hmax] using hset
    · simp only [checkedAdd, hmax, if_false]
      exact .overflows _ hle old hin (Nat.not_le.mp hmax)

theorem lockXp_deposits {reason : T.LockReason} (hx : s.xpOf.get key = some xp) :
    DepositEnds s key xp (.lock reason) points (lockXp key reason points s) := by
  unfold lockXp
  rw [reads_bind_of_ok (xpExists_of_get hx)]
  by_cases hpos : points = 0
  · rw [if_pos hpos]
    exact .refused _ (Or.inl fun h => h hpos)
  rw [if_neg hpos, reads_bind_of_ok (getLiquidXp_of_get hx)]
  by_cases hlt : xp.free < points
  · rw [if_pos hlt]
    exact .refused _ (Or.inr hlt)
  have hle := Nat.not_lt.mp hlt
  rw [if_neg hlt, get_bind]
  cases hin : s.inPocket key (.lock reason) with
  | none =>
    have hex : ¬(lockExists key reason s).isOk = true := by simp [inPocket_lock_isSome, hin]
    rw [if_neg hex, bind_of_ok (setXp_eq_ok hx)]
    have hmax (old : Nat) : s.inPocket key (.lock reason) = some old → old + points ≤ T.maxXp := by simp [hin]
    have hset : DepositEnds s key xp (.lock reason) points _ := .sets hle hpos hmax
    simpa [XpState.held, hin, Pocket.set] using hset
  | some old =>
    have hread : getLockXp key reason (s.withFree key xp (xp.free - points)) = .ok old := okOr_eq_ok.mpr hin
    rw [if_pos (inPocket_lock_isSome.mpr ⟨old, hin⟩), bind_of_ok (setXp_eq_ok hx), reads_bind_of_ok hread]
    by_cases hmax : old + points ≤ T.maxXp
    · have hset : DepositEnds s key xp (.lock reason) points _ := .sets hle hpos (by simpa [hin] using hmax)
      simpa [XpState.held, hin, Pocket.set, checkedAdd, hmax] using hset
    · simp only [checkedAdd, hmax, if_false]
      exact .overflows _ hle old hin (Nat.not_le.mp hmax)

end Deposits

/-- How a return from a reserve ends. -/
inductive ReturnEnds (s : XpState T) (key : T.AccountId) (xp : Xp) (reason : T.ReserveReason) (points : Nat)
    (precision : Precision) : EStateM.Result Fault (XpState T) Unit → Prop
  | nothing (h : points = 0) : ReturnEnds s key xp reason points precision (.ok () s)
  | refused (e : XpError) (h : precision = .exact ∨ s.inPocket key (.reserve reason) = none) :
    ReturnEnds s key xp reason points precision (.error (.error e) s)
  | pays (hpos : points ≠ 0) (old : Nat) (hin : s.inPocket key (.reserve reason) = some old)
      (hexact : precision = .exact → points ≤ old ∧ xp.free + points ≤ T.maxXp) :
    ReturnEnds s key xp reason points precision
      ((setReserve key reason (old - points) >>= fun _ =>
        setXp key (saturatingAdd T.maxXp xp.free (min old points))) s)

section Returns

variable {s : XpState T} {key : T.AccountId} {xp : Xp} {points : Nat} {precision : Precision}

/-- Exactly or not, the free balance gets what the reserve gives, as far as it can hold it. -/
theorem partialWithdrawal_cases (maxXp old free points : Nat) (precision : Precision) :
    (precision = .exact ∧ ∃ e, partialWithdrawal maxXp old free points precision = .error (.error e)) ∨
      partialWithdrawal maxXp old free points precision =
          .ok (old - points, saturatingAdd maxXp free (min old points)) ∧
        (precision = .exact → points ≤ old ∧ free + points ≤ maxXp) := by
  cases precision with
  | bestEffort => exact Or.inr ⟨rfl, fun h => by cases h⟩
  | exact =>
    by_cases hle : points ≤ old
    · by_cases hmax : free + points ≤ maxXp
      · refine Or.inr ⟨?_, fun _ => ⟨hle, hmax⟩⟩
        rw [Nat.min_eq_right hle, saturatingAdd_of_le hmax]
        simp [partialWithdrawal, checkedSub, checkedAdd, hle, hmax, okOr, bind, Except.bind, pure, Except.pure]
      · refine Or.inl ⟨rfl, .xpCapOverflowed, ?_⟩
        simp [partialWithdrawal, checkedSub, checkedAdd, hle, hmax, okOr, bind, Except.bind]
    · refine Or.inl ⟨rfl, .insufficientReserveXp, ?_⟩
      simp [partialWithdrawal, checkedSub, hle, okOr, bind, Except.bind]

theorem withdrawReservePartial_returns {reason : T.ReserveReason} (hx : s.xpOf.get key = some xp) :
    ReturnEnds s key xp reason points precision (withdrawReservePartial key reason points precision s) := by
  unfold withdrawReservePartial
  rw [reads_bind_of_ok (xpExists_of_get hx)]
  by_cases hpos : points = 0
  · rw [if_pos hpos]
    exact .nothing hpos
  rw [if_neg hpos]
  cases hin : s.inPocket key (.reserve reason) with
  | none =>
    have hfail : reserveExists key reason s = .error (.error .xpReserveNotFound) := by
      have hex : ¬(reserveExists key reason s).isOk = true := by simp [inPocket_reserve_isSome, hin]
      unfold reserveExists at hex ⊢
      cases hes : s.reservedXpOf.get key with
      | none => rfl
      | some es =>
        simp only [hes, ensure_isOk_iff] at hex
        exact if_neg hex
    rw [reads_bind_of_error hfail]
    exact .refused _ (Or.inr hin)
  | some old =>
    have hexists : reserveExists key reason s = .ok () := by
      obtain ⟨u, hu⟩ := exists_eq_ok (inPocket_reserve_isSome.mpr ⟨old, hin⟩)
      exact hu
    have hread : getReserveXp key reason s = .ok old := okOr_eq_ok.mpr hin
    rw [reads_bind_of_ok hexists, reads_bind_of_ok hread, reads_bind_of_ok (getLiquidXp_of_get hx)]
    rcases partialWithdrawal_cases T.maxXp old xp.free points precision with ⟨hexact, e, he⟩ | ⟨hpay, hexact⟩
    · rw [reads_bind_of_error (s := s) (f := fun _ => _) he]
      exact .refused _ (Or.inl hexact)
    · rw [reads_bind_of_ok (s := s) (f := fun _ => _) hpay]
      exact .pays hpos old hin hexact

theorem withdrawReserve_returns {reason : T.ReserveReason} (hx : s.xpOf.get key = some xp) :
    ReturnEnds s key xp reason (s.held key (.reserve reason)) .bestEffort (withdrawReserve key reason s) := by
  unfold withdrawReserve
  rw [reads_bind_of_ok (xpExists_of_get hx)]
  cases hin : s.inPocket key (.reserve reason) with
  | none =>
    have hread : getReserveXp key reason s = .error (.error .xpReserveNotFound) := by
      unfold getReserveXp okOr
      rw [show findPoints (s.reservedXpOf.get key) reason = none from hin]
    rw [reads_bind_of_error hread]
    exact .refused _ (Or.inr hin)
  | some old =>
    have hread : getReserveXp key reason s = .ok old := okOr_eq_ok.mpr hin
    rw [reads_bind_of_ok hread, XpState.held, hin]
    exact withdrawReservePartial_returns hx

end Returns

/-- A move of points between the free balance and a pocket. -/
inductive XpMove (T : XpConfig)
  | lockXp (reason : T.LockReason) (points : Nat)
  | withdrawLock (reason : T.LockReason)
  | reserveXp (reason : T.ReserveReason) (points : Nat)
  | withdrawReserve (reason : T.ReserveReason)
  | withdrawReservePartial (reason : T.ReserveReason) (points : Nat) (precision : Precision)

namespace XpMove

def dispatch (key : T.AccountId) : XpMove T → XpCall T Unit
  | lockXp reason points => FrameSuite.lockXp key reason points
  | withdrawLock reason => FrameSuite.withdrawLock key reason
  | reserveXp reason points => FrameSuite.reserveXp key reason points
  | withdrawReserve reason => FrameSuite.withdrawReserve key reason
  | withdrawReservePartial reason points precision =>
    FrameSuite.withdrawReservePartial key reason points precision

def pocket : XpMove T → Pocket T
  | lockXp reason _ => .lock reason
  | withdrawLock reason => .lock reason
  | reserveXp reason _ => .reserve reason
  | withdrawReserve reason => .reserve reason
  | withdrawReservePartial reason _ _ => .reserve reason

/-- What the pocket holds afterwards. -/
def target (held : Nat) : XpMove T → Nat
  | lockXp _ points => held + points
  | withdrawLock _ => 0
  | reserveXp _ points => held + points
  | withdrawReserve _ => 0
  | withdrawReservePartial _ points _ => held - points

/-- What comes back to the free balance without a check. -/
def returned (held : Nat) : XpMove T → Nat
  | lockXp _ _ => 0
  | withdrawLock _ => held
  | reserveXp _ _ => 0
  | withdrawReserve _ => held
  | withdrawReservePartial _ points .bestEffort => min held points
  | withdrawReservePartial _ _ .exact => 0

end XpMove

/-- The points went between the free balance and the pocket of the move, none were lost, and no
other pocket changed. -/
structure PointsMoved (s t : XpState T) (key : T.AccountId) (xp xp' : Xp) (move : XpMove T) : Prop where
  record : t.xpOf.get key = some xp'
  conserved : xp'.free + xp'.reserve + xp'.lock = xp.free + xp.reserve + xp.lock
  matched : xp'.free + t.held key move.pocket = xp.free + s.held key move.pocket
  target : t.held key move.pocket = move.target (s.held key move.pocket)
  others : ∀ other, other ≠ move.pocket → t.inPocket key other = s.inPocket key other

/-- A move of an identity that succeeds keeps its points. -/
def ConservesXp (s : XpState T) (key : T.AccountId) (xp : Xp) (move : XpMove T) : Prop :=
  ∀ t, move.dispatch key s = .ok () t → ∃ xp', PointsMoved s t key xp xp' move

section Moves

variable {s t : XpState T} {key : T.AccountId} {xp : Xp} {points total : Nat} {new : Option Nat}

theorem Rebooked.get {pocket : Pocket T} (h : Rebooked s t key xp pocket new total) :
    t.xpOf.get key = some (pocket.retotalled xp total) := by
  rw [h.record, StorageMap.get_insert_self]

theorem Pocket.retotalled_sum (pocket : Pocket T) (xp : Xp) (total : Nat) :
    (pocket.retotalled xp total).reserve + (pocket.retotalled xp total).lock + pocket.total xp =
      xp.reserve + xp.lock + total := by
  cases pocket <;> simp only [Pocket.retotalled, Pocket.total] <;> omega

theorem Pocket.retotalled_free (pocket : Pocket T) (xp : Xp) (total : Nat) :
    (pocket.retotalled xp total).free = xp.free := by
  cases pocket <;> rfl

@[simp] theorem inPocket_withFree (s : XpState T) (free : Nat) (pocket : Pocket T) :
    (s.withFree key xp free).inPocket key pocket = s.inPocket key pocket := by
  cases pocket <;> rfl

@[simp] theorem held_withFree (s : XpState T) (free : Nat) (pocket : Pocket T) :
    (s.withFree key xp free).held key pocket = s.held key pocket := by
  unfold XpState.held
  rw [inPocket_withFree]

theorem get_withFree (s : XpState T) (free : Nat) :
    (s.withFree key xp free).xpOf.get key = some { xp with free } := StorageMap.get_insert_self ..

/-- A move that did what it should to the pocket and its total keeps the points when the free
balance followed. -/
theorem moved_iff {xp' : Xp} {move : XpMove T} (hrecord : t.xpOf.get key = some xp')
    (htarget : t.held key move.pocket = move.target (s.held key move.pocket))
    (htotal : xp'.reserve + xp'.lock + s.held key move.pocket =
      xp.reserve + xp.lock + t.held key move.pocket)
    (hothers : ∀ other, other ≠ move.pocket → t.inPocket key other = s.inPocket key other) :
    (∃ xp'', PointsMoved s t key xp xp'' move) ↔
      xp'.free + t.held key move.pocket = xp.free + s.held key move.pocket := by
  constructor
  · rintro ⟨xp'', h⟩
    obtain rfl := Option.some.inj (hrecord.symm.trans h.record)
    exact h.matched
  · intro hmatched
    exact ⟨xp', hrecord, by omega, hmatched, htarget, hothers⟩

theorem conservesXp_of_ok {move : XpMove T} (h : move.dispatch key s = .ok () t) :
    ConservesXp s key xp move ↔ ∃ xp', PointsMoved s t key xp xp' move := by
  unfold ConservesXp
  constructor
  · exact fun hc => hc t h
  · intro hm t' ht'
    rw [h] at ht'
    cases ht'
    exact hm

theorem Rebooked.held {pocket : Pocket T} (h : Rebooked s t key xp pocket new total) :
    t.held key pocket = new.getD 0 := by
  rw [XpState.held, h.entry]

theorem Rebooked.inPocket_of_ne {pocket other : Pocket T} (h : Rebooked s t key xp pocket new total)
    (hne : other ≠ pocket) : t.inPocket key other = s.inPocket key other :=
  h.others key other fun heq => hne (congrArg Prod.snd heq)

theorem Rebooked.total_eq {pocket : Pocket T} (h : Rebooked s t key xp pocket new total) :
    (pocket.retotalled xp total).reserve + (pocket.retotalled xp total).lock + s.held key pocket =
      xp.reserve + xp.lock + t.held key pocket := by
  have hmoved := h.moved
  have hsum := pocket.retotalled_sum xp total
  rw [h.held]
  omega

theorem Rebooked.moved_iff_of_withFree {free : Nat} {move : XpMove T}
    (h : Rebooked (s.withFree key xp free) t key { xp with free } move.pocket new total)
    (hnew : new.getD 0 = move.target (s.held key move.pocket)) :
    (∃ xp', PointsMoved s t key xp xp' move) ↔ free + new.getD 0 = xp.free + s.held key move.pocket := by
  have htotal := h.total_eq
  rw [held_withFree] at htotal
  have hothers (other : Pocket T) (hne : other ≠ move.pocket) : t.inPocket key other = s.inPocket key other := by
    rw [h.inPocket_of_ne hne, inPocket_withFree]
  rw [@moved_iff T s t key xp _ move h.get (h.held.trans hnew) htotal hothers, Pocket.retotalled_free, h.held]

theorem Rebooked.withFree_moved_iff {free : Nat} {move : XpMove T}
    (h : Rebooked s t key xp move.pocket new total)
    (hnew : new.getD 0 = move.target (s.held key move.pocket)) :
    (∃ xp', PointsMoved s (t.withFree key (move.pocket.retotalled xp total) free) key xp xp' move) ↔
      free + new.getD 0 = xp.free + s.held key move.pocket := by
  have hheld : (t.withFree key (move.pocket.retotalled xp total) free).held key move.pocket = new.getD 0 := by
    rw [held_withFree, h.held]
  have htotal := h.total_eq
  rw [h.held, ← hheld] at htotal
  have hothers (other : Pocket T) (hne : other ≠ move.pocket) :
      (t.withFree key (move.pocket.retotalled xp total) free).inPocket key other = s.inPocket key other := by
    rw [inPocket_withFree, h.inPocket_of_ne hne]
  rw [moved_iff (get_withFree t free) (hheld.trans hnew) htotal hothers, hheld]

theorem DepositEnds.conserves {move : XpMove T}
    (h : DepositEnds s key xp move.pocket points (move.dispatch key s))
    (htarget : move.target (s.held key move.pocket) = s.held key move.pocket + points) :
    ConservesXp s key xp move := by
  intro t ht
  rw [ht] at h
  generalize hr : (EStateM.Result.ok () t : EStateM.Result Fault (XpState T) Unit) = r at h
  cases h with
  | refused e h => cases hr
  | overflows e hle old hin hmax => cases hr
  | sets hle hallow hmax =>
    have hspent : (s.withFree key xp (xp.free - points)).xpOf.get key =
        some { xp with free := xp.free - points } := get_withFree s _
    obtain ⟨htakes, hfails⟩ :=
      @Pocket.set_spec T _ key _ (s.held key move.pocket + points) move.pocket hspent
    by_cases hcan : (s.withFree key xp (xp.free - points)).takes key
        { xp with free := xp.free - points } move.pocket (s.held key move.pocket + points)
    · obtain ⟨u, total, hu, hb⟩ := htakes hcan
      obtain rfl : t = u := by
        rw [hu] at hr
        cases hr
        rfl
      rw [hb.moved_iff_of_withFree htarget.symm]
      simp only [Option.getD_some]
      omega
    · obtain ⟨e, he⟩ := hfails hcan
      rw [he] at hr
      cases hr

theorem takes_less {old : Nat} {reason : T.ReserveReason} (hin : s.inPocket key (.reserve reason) = some old)
    (hle : old ≤ xp.reserve) : s.takes key xp (.reserve reason) (old - points) := by
  unfold XpState.takes
  rw [hin]
  refine ⟨trivial, fun h => ?_, ?_⟩
  · omega
  · simp only [Pocket.total]
    omega

theorem pays_eq_ok {old free : Nat} {reason : T.ReserveReason} (hx : s.xpOf.get key = some xp)
    (hin : s.inPocket key (.reserve reason) = some old) (hle : old ≤ xp.reserve) :
    ∃ t total, Rebooked s t key xp (.reserve reason) (some (old - points)) total ∧
      (setReserve key reason (old - points) >>= fun _ => setXp key free) s =
        .ok () (t.withFree key ((Pocket.reserve reason).retotalled xp total) free) := by
  obtain ⟨t, total, ht, hb⟩ := (setReserve_spec hx).1 (takes_less hin hle)
  refine ⟨t, total, hb, ?_⟩
  rw [bind_of_ok ht]
  exact setXp_eq_ok hb.get

theorem reserve_covers {old : Nat} {reason : T.ReserveReason} (ha : Aggregates xp (s.reserves key) (s.locks key))
    (hin : s.inPocket key (.reserve reason) = some old) : old ≤ xp.reserve := by
  have hview : findPoints (some (s.reserves key)) reason = some old := by
    obtain ⟨es, e, hes, he, rfl⟩ := findPoints_eq_some.mp hin
    simp [XpState.reserves, hes, findPoints, he]
  rw [ha.reserve]
  exact findPoints_le_totalPoints hview

theorem lock_covers {old : Nat} {reason : T.LockReason} (ha : Aggregates xp (s.reserves key) (s.locks key))
    (hin : s.inPocket key (.lock reason) = some old) : old ≤ xp.lock := by
  have hview : findPoints (some (s.locks key)) reason = some old := by
    obtain ⟨es, e, hes, he, rfl⟩ := findPoints_eq_some.mp hin
    simp [XpState.locks, hes, findPoints, he]
  rw [ha.lock]
  exact findPoints_le_totalPoints hview

theorem conservesXp_of_not_ok {move : XpMove T} (h : ∀ t, move.dispatch key s ≠ .ok () t) :
    ConservesXp s key xp move := fun t ht => (h t ht).elim

theorem withdrawLock_eq {old : Nat} {reason : T.LockReason} (hx : s.xpOf.get key = some xp)
    (hin : s.inPocket key (.lock reason) = some old) :
    withdrawLock key reason s = burnLock key reason (s.withFree key xp (saturatingAdd T.maxXp xp.free old)) := by
  have hexists : lockExists key reason s = .ok () := by
    obtain ⟨u, hu⟩ := exists_eq_ok (inPocket_lock_isSome.mpr ⟨old, hin⟩)
    exact hu
  have hread : getLockXp key reason s = .ok old := okOr_eq_ok.mpr hin
  unfold withdrawLock
  rw [reads_bind_of_ok (xpExists_of_get hx), reads_bind_of_ok hexists, reads_bind_of_ok hread,
    reads_bind_of_ok (getLiquidXp_of_get hx), bind_of_ok (setXp_eq_ok hx)]

theorem withdrawLock_error {reason : T.LockReason} (hx : s.xpOf.get key = some xp)
    (hin : s.inPocket key (.lock reason) = none) :
    withdrawLock key reason s = .error (.error .xpLockNotFound) s := by
  have hex : ¬(lockExists key reason s).isOk = true := by simp [inPocket_lock_isSome, hin]
  have hfail : lockExists key reason s = .error (.error .xpLockNotFound) := by
    unfold lockExists at hex ⊢
    cases hes : s.lockedXpOf.get key with
    | none => rfl
    | some es =>
      simp only [hes, ensure_isOk_iff] at hex
      exact if_neg hex
  unfold withdrawLock
  rw [reads_bind_of_ok (xpExists_of_get hx), reads_bind_of_error hfail]

theorem withdrawLock_conserves_iff {reason : T.LockReason} (hx : s.xpOf.get key = some xp)
    (ha : Aggregates xp (s.reserves key) (s.locks key)) (hmax : xp.free ≤ T.maxXp) :
    ConservesXp s key xp (.withdrawLock reason) ↔ xp.free + s.held key (.lock reason) ≤ T.maxXp := by
  cases hin : s.inPocket key (.lock reason) with
  | none =>
    have hnot : ConservesXp s key xp (.withdrawLock reason) := conservesXp_of_not_ok fun t ht => by
      change withdrawLock key reason s = _ at ht
      rw [withdrawLock_error hx hin] at ht
      cases ht
    simpa [XpState.held, hin, hnot] using hmax
  | some old =>
    have hget : (s.withFree key xp (saturatingAdd T.maxXp xp.free old)).xpOf.get key =
        some { xp with free := saturatingAdd T.maxXp xp.free old } := get_withFree s _
    have hcovers : old ≤ xp.lock := lock_covers ha hin
    obtain ⟨t, total, ht, hb⟩ := burnLock_spec hget ((inPocket_withFree ..).trans hin) hcovers
    have hok : (XpMove.withdrawLock reason).dispatch key s = .ok () t := (withdrawLock_eq hx hin).trans ht
    rw [conservesXp_of_ok hok]
    refine Iff.trans (Rebooked.moved_iff_of_withFree hb rfl) ?_
    simp only [XpMove.pocket, XpState.held, hin, Option.getD_some, Option.getD_none, saturatingAdd]
    omega

theorem ReturnEnds.conserves_iff {move : XpMove T} {reason : T.ReserveReason} {precision : Precision}
    (hx : s.xpOf.get key = some xp) (ha : Aggregates xp (s.reserves key) (s.locks key))
    (hmax : xp.free ≤ T.maxXp) (hpocket : move.pocket = .reserve reason)
    (htarget : move.target (s.held key (.reserve reason)) = s.held key (.reserve reason) - points)
    (h : ReturnEnds s key xp reason points precision (move.dispatch key s)) :
    ConservesXp s key xp move ↔
      precision = .exact ∨ xp.free + min (s.held key (.reserve reason)) points ≤ T.maxXp := by
  generalize hr : move.dispatch key s = r at h
  cases h with
  | nothing hzero =>
    have hmoved : PointsMoved s s key xp xp move :=
      ⟨hx, rfl, rfl, by rw [hpocket, htarget, hzero, Nat.sub_zero], fun _ _ => rfl⟩
    rw [conservesXp_of_ok hr, hzero, Nat.min_zero, Nat.add_zero]
    exact ⟨fun _ => Or.inr hmax, fun _ => ⟨xp, hmoved⟩⟩
  | refused e he =>
    have hnot : ConservesXp s key xp move := conservesXp_of_not_ok fun t ht => by
      rw [hr] at ht
      cases ht
    refine ⟨fun _ => he.imp_right fun hnone => ?_, fun _ => hnot⟩
    simpa [XpState.held, hnone] using hmax
  | pays hpos old hin hexact =>
    obtain ⟨t, total, hb, hok⟩ := @pays_eq_ok T s key xp points old
      (saturatingAdd T.maxXp xp.free (min old points)) reason hx hin (reserve_covers ha hin)
    rw [hok] at hr
    rw [conservesXp_of_ok hr]
    have hiff := @Rebooked.withFree_moved_iff T s t key xp total (some (old - points))
      (saturatingAdd T.maxXp xp.free (min old points)) move
    rw [hpocket] at hiff
    have hheld : s.held key (.reserve reason) = old := by rw [XpState.held, hin, Option.getD_some]
    rw [hheld] at htarget hiff
    rw [hiff hb htarget.symm, hheld]
    simp only [Option.getD_some, saturatingAdd]
    cases precision with
    | exact =>
      obtain ⟨hle, hroom⟩ := hexact rfl
      simp only [true_or, iff_true]
      omega
    | bestEffort =>
      simp only [reduceCtorEq, false_or]
      omega

/-- A move loses points exactly when what it returns does not fit in the free balance. -/
theorem xp_move_conserves_iff {move : XpMove T} (hx : s.xpOf.get key = some xp)
    (ha : Aggregates xp (s.reserves key) (s.locks key)) (hmax : xp.free ≤ T.maxXp) :
    ConservesXp s key xp move ↔ xp.free + move.returned (s.held key move.pocket) ≤ T.maxXp := by
  cases move with
  | lockXp reason points =>
    have hc : ConservesXp s key xp (.lockXp reason points) :=
      @DepositEnds.conserves T s key xp points (.lockXp reason points) (lockXp_deposits hx) rfl
    simpa [XpMove.returned, hc] using hmax
  | reserveXp reason points =>
    have hc : ConservesXp s key xp (.reserveXp reason points) :=
      @DepositEnds.conserves T s key xp points (.reserveXp reason points) (reserveXp_deposits hx) rfl
    simpa [XpMove.returned, hc] using hmax
  | withdrawLock reason => exact withdrawLock_conserves_iff hx ha hmax
  | withdrawReserve reason =>
    have hiff := @ReturnEnds.conserves_iff T s key xp _ (.withdrawReserve reason) reason .bestEffort hx ha hmax rfl
      (Nat.sub_self _).symm (withdrawReserve_returns hx)
    simpa [XpMove.returned, XpMove.pocket] using hiff
  | withdrawReservePartial reason points precision =>
    have hreturns : ReturnEnds s key xp reason points precision
        (withdrawReservePartial key reason points precision s) := withdrawReservePartial_returns hx
    have hiff := @ReturnEnds.conserves_iff T s key xp points (.withdrawReservePartial reason points precision) reason
      precision hx ha hmax rfl rfl hreturns
    cases precision with
    | exact => simpa [XpMove.returned, XpMove.pocket, hmax] using hiff
    | bestEffort => simpa [XpMove.returned, XpMove.pocket] using hiff

end Moves

/-- Ten points are locked, and the free balance is as large as it can be. -/
def brimming : XpState mockXp :=
  XpState.after { mockGenesis with minPulse := 0 }.build
    [.createXp (1 : Nat) (7 : Nat), .lockXp (7 : Nat) Reason.staking 10, .earnXp (7 : Nat) (2 ^ 64 - 1)]

def brimmingXp : Xp := ⟨2 ^ 64 - 1, 0, 10, Accumulator.default, 0⟩

theorem brimming_get : brimming.xpOf.get (7 : Nat) = some brimmingXp := by
  decide +kernel

theorem brimming_aggregates : Aggregates brimmingXp (brimming.reserves (7 : Nat)) (brimming.locks (7 : Nat)) :=
  ⟨by decide +kernel, by decide +kernel, by decide +kernel, by decide +kernel, by decide +kernel⟩

theorem staking_deposit_conserves : ConservesXp brimming (7 : Nat) brimmingXp (.lockXp Reason.staking 5) :=
  (xp_move_conserves_iff brimming_get brimming_aggregates (by decide)).mpr (by decide +kernel)

/-- The ten points of the lock vanish when it is withdrawn. -/
theorem withdrawn_lock_loses_points :
    ¬∀ (s : XpState mockXp) (key : Nat) (xp : Xp) (move : XpMove mockXp), s.xpOf.get key = some xp →
      Aggregates xp (s.reserves key) (s.locks key) → xp.free ≤ mockXp.maxXp → ConservesXp s key xp move := by
  intro h
  obtain ⟨xp', hmoved⟩ := h brimming (7 : Nat) brimmingXp (.withdrawLock Reason.staking) brimming_get
    brimming_aggregates (by decide) _ rfl
  have hempty : (leaves (withdrawLock (7 : Nat) Reason.staking) brimming).xpOf.get (7 : Nat) =
      some ⟨2 ^ 64 - 1, 0, 0, Accumulator.default, 0⟩ := by decide +kernel
  obtain rfl := Option.some.inj (hempty.symm.trans hmoved.record)
  exact absurd hmoved.conserved (by decide)

end FrameSuite
