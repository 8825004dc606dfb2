import FrameSuite.XpAggregates

/-! The pockets of an identity: one for each reason of a reserve or a lock, beside its free
points. Setting a pocket either fails before it writes or moves the pocket and its total
together, and nothing else. -/

namespace FrameSuite

variable {T : XpConfig}

inductive Pocket (T : XpConfig)
  | reserve (reason : T.ReserveReason)
  | lock (reason : T.LockReason)

def XpState.inPocket (s : XpState T) (key : T.AccountId) : Pocket T → Option Nat
  | .reserve reason => findPoints (s.reservedXpOf.get key) reason
  | .lock reason => findPoints (s.lockedXpOf.get key) reason

def XpState.held (s : XpState T) (key : T.AccountId) (pocket : Pocket T) : Nat :=
  (s.inPocket key pocket).getD 0

def XpState.withFree (s : XpState T) (key : T.AccountId) (xp : Xp) (free : Nat) : XpState T :=
  { s with xpOf := s.xpOf.insert key { xp with free } }

/-- Whether the identity may open one more pocket of this kind. -/
def XpState.hasRoom (s : XpState T) (key : T.AccountId) : Pocket T → Prop
  | .reserve _ => (s.reserves key).length < T.maximumReserves
  | .lock _ => (s.locks key).length < T.maximumLocks

namespace Pocket

def total (xp : Xp) : Pocket T → Nat
  | .reserve _ => xp.reserve
  | .lock _ => xp.lock

def retotalled (xp : Xp) (total : Nat) : Pocket T → Xp
  | .reserve _ => { xp with reserve := total }
  | .lock _ => { xp with lock := total }

/-- A lock may not be set to nothing. -/
def allows (points : Nat) : Pocket T → Prop
  | .reserve _ => True
  | .lock _ => points ≠ 0

def set (key : T.AccountId) (points : Nat) : Pocket T → XpCall T Unit
  | .reserve reason => setReserve key reason points
  | .lock reason => setLock key reason points

end Pocket

/-- Whether a pocket of the identity can be set to so many points. -/
def XpState.takes (s : XpState T) (key : T.AccountId) (xp : Xp) (pocket : Pocket T) (points : Nat) : Prop :=
  pocket.allows points ∧
    match s.inPocket key pocket with
    | some old => (old < points → pocket.total xp + points ≤ T.maxXp + old) ∧
        old ≤ pocket.total xp + points
    | none => s.hasRoom key pocket ∧ pocket.total xp + points ≤ T.maxXp

/-- A pocket of the identity holds something else, its total followed, and the rest is as
before. -/
structure Rebooked (s t : XpState T) (key : T.AccountId) (xp : Xp) (pocket : Pocket T)
    (points : Option Nat) (total : Nat) : Prop where
  entry : t.inPocket key pocket = points
  moved : total + s.held key pocket = pocket.total xp + points.getD 0
  record : t.xpOf = s.xpOf.insert key (pocket.retotalled xp total)
  others : ∀ k other, (k, other) ≠ (key, pocket) → t.inPocket k other = s.inPocket k other
  rest : { t with xpOf := s.xpOf, reservedXpOf := s.reservedXpOf, lockedXpOf := s.lockedXpOf } = s

section Checks

variable {s : XpState T} {key : T.AccountId} {xp : Xp} {points old : Nat}

theorem canRetotal_eq_ok {maxXp total : Nat} {overflow underflow : XpError} :
    canRetotal maxXp total old points overflow underflow = .ok () ↔
      (old < points → total + points ≤ maxXp + old) ∧ old ≤ total + points := by
  unfold canRetotal
  by_cases hup : old < points
  · have : (checkedAdd maxXp total (points - old)).isSome = true ↔ total + points ≤ maxXp + old := by
      rw [Option.isSome_iff_exists]
      simp only [checkedAdd_eq_some, exists_eq_left]
      omega
    rw [if_pos hup, ensure_eq_ok, this]
    omega
  · by_cases hdown : points < old
    · have : (checkedSub total (old - points)).isSome = true ↔ old ≤ total + points := by
        rw [Option.isSome_iff_exists]
        constructor
        · rintro ⟨rest, hrest⟩
          have := checkedSub_eq_some.mp hrest
          omega
        · intro h
          exact ⟨total - (old - points), checkedSub_eq_some.mpr (by omega)⟩
      rw [if_neg hup, if_pos hdown, ensure_eq_ok, this]
      omega
    · rw [if_neg hup, if_neg hdown]
      simp only [pure_eq_ok, true_iff]
      omega

theorem canRetotal_eq_error {maxXp total : Nat} {overflow underflow : XpError}
    (h : canRetotal maxXp total old points overflow underflow ≠ .ok ()) :
    ∃ e, canRetotal maxXp total old points overflow underflow = .error (.error e) := by
  unfold canRetotal ensure at h ⊢
  split at h
  · split at h
    · exact absurd rfl h
    · exact ⟨overflow, by simp [*]⟩
  · split at h
    · split at h
      · exact absurd rfl h
      · exact ⟨underflow, by simp [*]⟩
    · exact absurd rfl h

/-- What follows from a check of the new total follows in the same cases from the totals. -/
theorem retotal_cases {check : Except Fault Unit} {maxXp total : Nat} {overflow underflow : XpError} {p q : Prop}
    (hcheck : check = canRetotal maxXp total old points overflow underflow) (hok : check = .ok () → p)
    (herror : ∀ e, check = fault e → q) :
    ((old < points → total + points ≤ maxXp + old) ∧ old ≤ total + points → p) ∧
      (¬((old < points → total + points ≤ maxXp + old) ∧ old ≤ total + points) → q) := by
  refine ⟨fun h => hok (hcheck.trans (canRetotal_eq_ok.mpr h)), fun h => ?_⟩
  obtain ⟨e, he⟩ := canRetotal_eq_error (mt canRetotal_eq_ok.mp h)
  exact herror e (hcheck.trans he)

theorem room_cases {check : Except Fault Unit} {room fits : Prop} [Decidable room] [Decidable fits]
    {full overflow : XpError} {p q : Prop}
    (hcheck : check = if room then if fits then .ok () else fault overflow else fault full)
    (hok : check = .ok () → p) (herror : ∀ e, check = fault e → q) :
    (room ∧ fits → p) ∧ (¬(room ∧ fits) → q) := by
  by_cases hroom : room
  · by_cases hfits : fits
    · rw [if_pos hroom, if_pos hfits] at hcheck
      exact ⟨fun _ => hok hcheck, fun h => absurd ⟨hroom, hfits⟩ h⟩
    · rw [if_pos hroom, if_neg hfits] at hcheck
      exact ⟨fun h => absurd h.2 hfits, fun _ => herror _ hcheck⟩
  · rw [if_neg hroom] at hcheck
    exact ⟨fun h => absurd h.1 hroom, fun _ => herror _ hcheck⟩

theorem canReserveMutate_eq {reason : T.ReserveReason} (hx : s.xpOf.get key = some xp)
    (hold : s.inPocket key (.reserve reason) = some old) :
    canReserveMutate key reason points s =
      canRetotal T.maxXp xp.reserve old points .xpReserveCapOverflowed .xpReserveCapUnderflowed := by
  have hfind : findPoints (s.reservedXpOf.get key) reason = some old := hold
  simp [canReserveMutate, getReserveXp, totalReserved, getXp, hx, hfind, okOr]
  rfl

theorem canLockMutate_eq {reason : T.LockReason} (hx : s.xpOf.get key = some xp) (hpos : points ≠ 0)
    (hold : s.inPocket key (.lock reason) = some old) :
    canLockMutate key reason points s =
      canRetotal T.maxXp xp.lock old points .xpLockCapOverflowed .xpLockCapUnderflowed := by
  have hfind : findPoints (s.lockedXpOf.get key) reason = some old := hold
  simp [canLockMutate, getLockXp, totalLocked, getXp, hx, hfind, okOr, ensure, hpos]
  rfl

theorem canReserveNew_eq (hx : s.xpOf.get key = some xp) :
    canReserveNew key points s =
      if (s.reserves key).length < T.maximumReserves then
        if xp.reserve + points ≤ T.maxXp then .ok () else fault .xpReserveCapOverflowed
      else fault .tooManyReserves := by
  have hin : s.xpOf.containsKey key = true := StorageMap.containsKey_iff.mpr ⟨xp, hx⟩
  change canReserveNew key points s = if ((s.reservedXpOf.get key).getD []).length < _ then _ else _
  by_cases hlen : ((s.reservedXpOf.get key).getD []).length < T.maximumReserves <;>
    by_cases hle : xp.reserve + points ≤ T.maxXp <;>
    simp [canReserveNew, xpExists, totalReserved, getXp, hin, hx, okOr, ensure, checkedAdd, hlen, hle,
      fault, bind, Except.bind, pure, Except.pure]

theorem canLockNew_eq (hx : s.xpOf.get key = some xp) (hpos : points ≠ 0) :
    canLockNew key points s =
      if (s.locks key).length < T.maximumLocks then
        if xp.lock + points ≤ T.maxXp then .ok () else fault .xpLockCapOverflowed
      else fault .tooManyLocks := by
  have hin : s.xpOf.containsKey key = true := StorageMap.containsKey_iff.mpr ⟨xp, hx⟩
  change canLockNew key points s = if ((s.lockedXpOf.get key).getD []).length < _ then _ else _
  by_cases hlen : ((s.lockedXpOf.get key).getD []).length < T.maximumLocks <;>
    by_cases hle : xp.lock + points ≤ T.maxXp <;>
    simp [canLockNew, xpExists, totalLocked, getXp, hin, hx, okOr, ensure, checkedAdd, hpos, hlen,
      hle, fault, bind, Except.bind, pure, Except.pure]

theorem inPocket_reserve_isSome {reason : T.ReserveReason} :
    (reserveExists key reason s).isOk = true ↔ ∃ old, s.inPocket key (.reserve reason) = some old := by
  rw [reserveExists_isOk]
  unfold XpState.reserves XpState.inPocket
  cases s.reservedXpOf.get key with
  | none => simp [findPoints]
  | some es =>
    simp only [Option.getD_some, findPoints_isSome_iff]

theorem inPocket_lock_isSome {reason : T.LockReason} :
    (lockExists key reason s).isOk = true ↔ ∃ old, s.inPocket key (.lock reason) = some old := by
  rw [lockExists_isOk]
  unfold XpState.locks XpState.inPocket
  cases s.lockedXpOf.get key with
  | none => simp [findPoints]
  | some es =>
    simp only [Option.getD_some, findPoints_isSome_iff]

end Checks

section Set

variable {s : XpState T} {key : T.AccountId} {xp : Xp} {points old : Nat}

/-- New entries are what an identity keeps, and other reasons and identities keep what they had. -/
theorem findPoints_insert {α : Type} [DecidableEq α] {m : StorageMap T.AccountId (List (IdXp α))} {reason : α}
    {entries : List (IdXp α)} (hother : ∀ r, r ≠ reason → findPoints (some entries) r = findPoints (m.get key) r)
    {k : T.AccountId} {r : α} (hne : k = key → r ≠ reason) :
    findPoints ((m.insert key entries).get k) r = findPoints (m.get k) r := by
  by_cases hk : k = key
  · subst hk
    rw [StorageMap.get_insert_self]
    exact hother r (hne rfl)
  · rw [StorageMap.get_insert_of_ne hk]

theorem rebooked_reserve {reason : T.ReserveReason} {new : Option Nat} {entries : List (IdXp T.ReserveReason)}
    {total : Nat} (hnew : findPoints (some entries) reason = new)
    (hother : ∀ r, r ≠ reason → findPoints (some entries) r = s.inPocket key (.reserve r))
    (hmoved : total + s.held key (.reserve reason) = xp.reserve + new.getD 0) :
    Rebooked s
      { s with
        reservedXpOf := s.reservedXpOf.insert key entries
        xpOf := s.xpOf.insert key { xp with reserve := total } }
      key xp (.reserve reason) new total where
  entry := by
    change findPoints ((s.reservedXpOf.insert key entries).get key) reason = new
    rwa [StorageMap.get_insert_self]
  moved := hmoved
  record := rfl
  others k other hne := by
    cases other with
    | lock r => rfl
    | reserve r =>
      exact findPoints_insert hother fun hk hr => hne (by rw [hk, hr])
  rest := rfl

theorem rebooked_lock {reason : T.LockReason} {new : Option Nat} {entries : List (IdXp T.LockReason)}
    {total : Nat} (hnew : findPoints (some entries) reason = new)
    (hother : ∀ r, r ≠ reason → findPoints (some entries) r = s.inPocket key (.lock r))
    (hmoved : total + s.held key (.lock reason) = xp.lock + new.getD 0) :
    Rebooked s
      { s with
        lockedXpOf := s.lockedXpOf.insert key entries
        xpOf := s.xpOf.insert key { xp with lock := total } }
      key xp (.lock reason) new total where
  entry := by
    change findPoints ((s.lockedXpOf.insert key entries).get key) reason = new
    rwa [StorageMap.get_insert_self]
  moved := hmoved
  record := rfl
  others k other hne := by
    cases other with
    | reserve r => rfl
    | lock r =>
      exact findPoints_insert hother fun hk hr => hne (by rw [hk, hr])
  rest := rfl

theorem mutateXp_modify {f : Xp → Xp} (hx : s.xpOf.get key = some xp) :
    mutateXp key (modify f) s = .ok () { s with xpOf := s.xpOf.insert key (f xp) } := by
  unfold mutateXp
  rw [hx]
  rfl

theorem setReserve_overwrites {reason : T.ReserveReason} (hx : s.xpOf.get key = some xp)
    (hin : s.inPocket key (.reserve reason) = some old) (hcan : canReserveMutate key reason points s = .ok ()) :
    ∃ t total, setReserve key reason points s = .ok () t ∧
      Rebooked s t key xp (.reserve reason) (some points) total := by
  obtain ⟨es, e, hes, he, rfl⟩ := findPoints_eq_some.mp hin
  have hwrite : overwriteReserve key reason points s = .ok e.points
      { s with reservedXpOf := s.reservedXpOf.insert key (setPoints reason points es) } := by
    simp only [overwriteReserve, hes, findPoints, Option.bind_some, he, Option.map_some]
  have hview (r : T.ReserveReason) : s.inPocket key (.reserve r) = findPoints (some es) r := by
    rw [← hes]
    rfl
  have hset : findPoints (some (setPoints reason points es)) reason = some points :=
    findPoints_setPoints (hview reason ▸ hin)
  have hmoved : retotal T.maxXp xp.reserve e.points points + s.held key (.reserve reason) =
      xp.reserve + (some points).getD 0 := by
    rw [canReserveMutate_eq hx hin] at hcan
    rw [XpState.held, hin]
    exact retotal_of_canRetotal hcan
  refine ⟨_, _, ?_, rebooked_reserve hset (fun r hr => ?_) hmoved⟩
  · unfold setReserve
    rw [get_bind, if_pos (inPocket_reserve_isSome.mpr ⟨_, hin⟩), reads_bind_of_ok hcan, bind_of_ok hwrite]
    exact mutateXp_modify hx
  · rw [hview, findPoints_setPoints_of_ne hr]

theorem setReserve_pushes {reason : T.ReserveReason} (hx : s.xpOf.get key = some xp)
    (hin : s.inPocket key (.reserve reason) = none) (hcan : canReserveNew key points s = .ok ()) :
    ∃ t total, setReserve key reason points s = .ok () t ∧
      Rebooked s t key xp (.reserve reason) (some points) total := by
  obtain ⟨xp', hx', hlen, hle⟩ := canReserveNew_eq_ok hcan
  obtain rfl := Option.some.inj (hx.symm.trans hx')
  have hview (r : T.ReserveReason) : s.inPocket key (.reserve r) = findPoints (some (s.reserves key)) r := by
    unfold XpState.inPocket XpState.reserves
    cases s.reservedXpOf.get key <;> rfl
  have hex : ¬(reserveExists key reason s).isOk = true := by
    rw [inPocket_reserve_isSome, hin]
    simp
  have hwrite : pushReserve key reason points s = .ok () { s with
      reservedXpOf := s.reservedXpOf.insert key (s.reserves key ++ [⟨reason, points⟩]) } := if_pos hlen
  have hpush : findPoints (some (s.reserves key ++ [⟨reason, points⟩])) reason = some points :=
    findPoints_push (hview reason ▸ hin)
  have hmoved : xp.reserve + points + s.held key (.reserve reason) = xp.reserve + (some points).getD 0 := by
    rw [XpState.held, hin]
    rfl
  refine ⟨_, _, ?_, rebooked_reserve hpush (fun r hr => ?_) hmoved⟩
  · unfold setReserve
    rw [get_bind, if_neg hex, reads_bind_of_ok hcan, bind_of_ok hwrite]
    have hsum : checkedAdd T.maxXp xp.reserve points = some (xp.reserve + points) :=
      checkedAdd_eq_some.mpr ⟨rfl, hle⟩
    unfold mutateXp
    simp only [hx, get_bind, hsum]
    rfl
  · rw [hview, findPoints_push_of_ne hr]

theorem setReserve_spec {reason : T.ReserveReason} (hx : s.xpOf.get key = some xp) :
    (s.takes key xp (.reserve reason) points → ∃ t total, setReserve key reason points s = .ok () t ∧
      Rebooked s t key xp (.reserve reason) (some points) total) ∧
    (¬s.takes key xp (.reserve reason) points →
      ∃ e, setReserve key reason points s = .error (.error e) s) := by
  unfold XpState.takes
  cases hin : s.inPocket key (.reserve reason) with
  | some old =>
    simp only [Pocket.allows, Pocket.total, true_and]
    refine retotal_cases (canReserveMutate_eq hx hin) (setReserve_overwrites hx hin) fun e he => ⟨e, ?_⟩
    unfold setReserve
    rw [get_bind, if_pos (inPocket_reserve_isSome.mpr ⟨_, hin⟩), reads_bind_of_error he]
  | none =>
    have hex : ¬(reserveExists key reason s).isOk = true := by
      rw [inPocket_reserve_isSome, hin]
      simp
    simp only [Pocket.allows, Pocket.total, XpState.hasRoom, true_and]
    refine room_cases (canReserveNew_eq hx) (setReserve_pushes hx hin) fun e he => ⟨e, ?_⟩
    unfold setReserve
    rw [get_bind, if_neg hex, reads_bind_of_error he]

theorem setLock_overwrites {reason : T.LockReason} (hx : s.xpOf.get key = some xp) (hpos : points ≠ 0)
    (hin : s.inPocket key (.lock reason) = some old) (hcan : canLockMutate key reason points s = .ok ()) :
    ∃ t total, setLock key reason points s = .ok () t ∧
      Rebooked s t key xp (.lock reason) (some points) total := by
  obtain ⟨es, e, hes, he, rfl⟩ := findPoints_eq_some.mp hin
  have hwrite : overwriteLock key reason points s = .ok e.points
      { s with lockedXpOf := s.lockedXpOf.insert key (setPoints reason points es) } := by
    simp only [overwriteLock, hes, findPoints, Option.bind_some, he, Option.map_some]
  have hview (r : T.LockReason) : s.inPocket key (.lock r) = findPoints (some es) r := by
    rw [← hes]
    rfl
  have hset : findPoints (some (setPoints reason points es)) reason = some points :=
    findPoints_setPoints (hview reason ▸ hin)
  have hmoved : retotal T.maxXp xp.lock e.points points + s.held key (.lock reason) =
      xp.lock + (some points).getD 0 := by
    rw [canLockMutate_eq hx hpos hin] at hcan
    rw [XpState.held, hin]
    exact retotal_of_canRetotal hcan
  refine ⟨_, _, ?_, rebooked_lock hset (fun r hr => ?_) hmoved⟩
  · unfold setLock
    rw [get_bind, if_pos (inPocket_lock_isSome.mpr ⟨_, hin⟩), reads_bind_of_ok hcan, bind_of_ok hwrite]
    exact mutateXp_modify hx
  · rw [hview, findPoints_setPoints_of_ne hr]

theorem setLock_pushes {reason : T.LockReason} (hx : s.xpOf.get key = some xp)
    (hin : s.inPocket key (.lock reason) = none) (hcan : canLockNew key points s = .ok ()) :
    ∃ t total, setLock key reason points s = .ok () t ∧
      Rebooked s t key xp (.lock reason) (some points) total := by
  obtain ⟨xp', hx', hpos, hlen, hle⟩ := canLockNew_eq_ok hcan
  obtain rfl := Option.some.inj (hx.symm.trans hx')
  have hview (r : T.LockReason) : s.inPocket key (.lock r) = findPoints (some (s.locks key)) r := by
    unfold XpState.inPocket XpState.locks
    cases s.lockedXpOf.get key <;> rfl
  have hex : ¬(lockExists key reason s).isOk = true := by
    rw [inPocket_lock_isSome, hin]
    simp
  have hwrite : pushLock key reason points s = .ok () { s with
      lockedXpOf := s.lockedXpOf.insert key (s.locks key ++ [⟨reason, points⟩]) } := if_pos hlen
  have hpush : findPoints (some (s.locks key ++ [⟨reason, points⟩])) reason = some points :=
    findPoints_push (hview reason ▸ hin)
  have hmoved : saturatingAdd T.maxXp xp.lock points + s.held key (.lock reason) =
      xp.lock + (some points).getD 0 := by
    rw [XpState.held, hin, saturatingAdd_of_le hle]
    rfl
  refine ⟨_, _, ?_, rebooked_lock hpush (fun r hr => ?_) hmoved⟩
  · unfold setLock
    rw [get_bind, if_neg hex, reads_bind_of_ok hcan, bind_of_ok hwrite]
    exact mutateXp_modify hx
  · rw [hview, findPoints_push_of_ne hr]

theorem setLock_zero {reason : T.LockReason} (hx : s.xpOf.get key = some xp) :
    setLock key reason 0 s = .error (.error .cannotLockZero) s := by
  have hin : s.xpOf.containsKey key = true := StorageMap.containsKey_iff.mpr ⟨xp, hx⟩
  unfold setLock
  rw [get_bind]
  split
  · exact reads_bind_of_error (by simp [canLockMutate, ensure, bind, Except.bind])
  · exact reads_bind_of_error (by simp [canLockNew, xpExists, hin, ensure, bind, Except.bind])

theorem setLock_spec {reason : T.LockReason} (hx : s.xpOf.get key = some xp) :
    (s.takes key xp (.lock reason) points → ∃ t total, setLock key reason points s = .ok () t ∧
      Rebooked s t key xp (.lock reason) (some points) total) ∧
    (¬s.takes key xp (.lock reason) points →
      ∃ e, setLock key reason points s = .error (.error e) s) := by
  unfold XpState.takes
  by_cases hpos : points = 0
  · subst hpos
    exact ⟨fun h => absurd rfl h.1, fun _ => ⟨_, setLock_zero hx⟩⟩
  cases hin : s.inPocket key (.lock reason) with
  | some old =>
    simp only [Pocket.allows, Pocket.total, ne_eq, hpos, not_false_eq_true, true_and]
    refine retotal_cases (canLockMutate_eq hx hpos hin) (setLock_overwrites hx hpos hin) fun e he => ⟨e, ?_⟩
    unfold setLock
    rw [get_bind, if_pos (inPocket_lock_isSome.mpr ⟨_, hin⟩), reads_bind_of_error he]
  | none =>
    have hex : ¬(lockExists key reason s).isOk = true := by
      rw [inPocket_lock_isSome, hin]
      simp
    simp only [Pocket.allows, Pocket.total, XpState.hasRoom, ne_eq, hpos, not_false_eq_true, true_and]
    refine room_cases (canLockNew_eq hx hpos) (setLock_pushes hx hin) fun e he => ⟨e, ?_⟩
    unfold setLock
    rw [get_bind, if_neg hex, reads_bind_of_error he]

theorem Pocket.set_spec (pocket : Pocket T) (hx : s.xpOf.get key = some xp) :
    (s.takes key xp pocket points → ∃ t total, pocket.set key points s = .ok () t ∧
      Rebooked s t key xp pocket (some points) total) ∧
    (¬s.takes key xp pocket points → ∃ e, pocket.set key points s = .error (.error e) s) := by
  cases pocket with
  | reserve reason => exact setReserve_spec hx
  | lock reason => exact setLock_spec hx

theorem burnLock_eq_ok {reason : T.LockReason} {es : List (IdXp T.LockReason)} {e : IdXp T.LockReason}
    (hx : s.xpOf.get key = some xp) (hes : s.lockedXpOf.get key = some es)
    (he : es.find? (fun e => e.id = reason) = some e) :
    burnLock key reason s = .ok () { s with
      lockedXpOf := s.lockedXpOf.insert key (es.filter fun lock => lock.id ≠ reason)
      xpOf := s.xpOf.insert key { xp with
        lock := if xp.lock < e.points then 0 else xp.lock - e.points } } := by
  have hwrite : retainLocks key reason s = .ok () { s with
      lockedXpOf := s.lockedXpOf.insert key (es.filter fun lock => lock.id ≠ reason) } := by
    simp only [retainLocks, hes]
  have hread : getLockXp key reason s = .ok e.points :=
    okOr_eq_ok.mpr (findPoints_eq_some.mpr ⟨es, e, hes, he, rfl⟩)
  unfold burnLock
  rw [reads_bind_of_ok hread, bind_of_ok hwrite]
  exact mutateXp_modify hx

theorem exists_burnLock_ok {reason : T.LockReason} (hx : s.xpOf.get key = some xp)
    (hin : s.inPocket key (.lock reason) = some old) : ∃ t, burnLock key reason s = .ok () t := by
  obtain ⟨es, e, hes, he, rfl⟩ := findPoints_eq_some.mp hin
  exact ⟨_, burnLock_eq_ok hx hes he⟩

theorem burnLock_spec {reason : T.LockReason} (hx : s.xpOf.get key = some xp)
    (hin : s.inPocket key (.lock reason) = some old) (hle : old ≤ xp.lock) :
    ∃ t total, burnLock key reason s = .ok () t ∧ Rebooked s t key xp (.lock reason) none total := by
  obtain ⟨es, e, hes, he, rfl⟩ := findPoints_eq_some.mp hin
  have hview (r : T.LockReason) : s.inPocket key (.lock r) = findPoints (some es) r := by
    rw [← hes]
    rfl
  have hmoved : (if xp.lock < e.points then 0 else xp.lock - e.points) + s.held key (.lock reason) =
      xp.lock + (none : Option Nat).getD 0 := by
    rw [if_neg (Nat.not_lt.mpr hle), XpState.held, hin]
    simp only [Option.getD_some, Option.getD_none]
    omega
  have hdrop : findPoints (some (es.filter fun lock => lock.id ≠ reason)) reason = none := findPoints_drop
  refine ⟨_, _, burnLock_eq_ok hx hes he, rebooked_lock hdrop (fun r hr => ?_) hmoved⟩
  rw [hview, findPoints_drop_of_ne hr]

theorem setXp_eq_ok (hx : s.xpOf.get key = some xp) :
    setXp key points s = .ok () (s.withFree key xp points) :=
  mutateXp_modify hx

end Set

end FrameSuite
