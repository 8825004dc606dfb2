import FrameSuite.XpEntries

/-! What each operation of the XP pallet writes. The operations on points are made of five
writes, so what withstands those five withstands them all, and four of them earn nothing. -/

namespace FrameSuite

variable {T : XpConfig}

def XpState.reserves (s : XpState T) (key : T.AccountId) : List (IdXp T.ReserveReason) :=
  (s.reservedXpOf.get key).getD []

def XpState.locks (s : XpState T) (key : T.AccountId) : List (IdXp T.LockReason) :=
  (s.lockedXpOf.get key).getD []

section Records

variable {α : Type} {key : T.AccountId}

theorem leaves_mutateXp (f : EStateM Fault Xp α) (s : XpState T) :
    leaves (mutateXp key f) s =
      match s.xpOf.get key with
      | none => s
      | some xp => { s with xpOf := s.xpOf.insert key (leaves f xp) } := by
  unfold leaves mutateXp
  cases s.xpOf.get key with
  | none => rfl
  | some xp =>
    dsimp only
    cases f xp <;> rfl

/-- A change of the free points, the pulse or the timestamp at most. -/
def SparesTotals (f : EStateM Fault Xp α) : Prop :=
  ∀ reserve lock, Keeps (fun xp => xp.reserve = reserve ∧ xp.lock = lock) f

/-- Nothing was written, or one record, and not its totals. -/
def Rewritten (key : T.AccountId) (s t : XpState T) : Prop :=
  t = s ∨ ∃ xp xp', s.xpOf.get key = some xp ∧ t = { s with xpOf := s.xpOf.insert key xp' } ∧
    xp'.reserve = xp.reserve ∧ xp'.lock = xp.lock

theorem SparesTotals.rewritten {f : EStateM Fault Xp α} (hf : SparesTotals f) (s : XpState T) :
    Rewritten key s (leaves (mutateXp key f) s) := by
  rw [leaves_mutateXp]
  cases hx : s.xpOf.get key with
  | none => exact Or.inl rfl
  | some xp => exact Or.inr ⟨xp, leaves f xp, hx, rfl, hf xp.reserve xp.lock xp ⟨rfl, rfl⟩⟩

theorem setXp_rewritten (s : XpState T) (points : Nat) : Rewritten key s (leaves (setXp key points) s) := by
  have hspares : SparesTotals (modify fun value => { value with free := points }) := fun _ _ _ h => h
  exact hspares.rewritten s

theorem beat_sparesTotals (maxPulse : Nat) (stepper : Stepper) : SparesTotals (beat maxPulse stepper) := by
  intro r l xp h
  unfold beat
  rw [leaves_get_bind]
  split <;> exact h

theorem earn_sparesTotals (s : XpState T) (points : Nat) : SparesTotals (earn s key points) := by
  intro r l xp h
  unfold earn
  rw [leaves_get_bind]
  split
  · split <;> exact h
  · rw [leaves_set_bind]
    refine Keeps.ite (P := fun xp : Xp => xp.reserve = r ∧ xp.lock = l) (fun _ => ?_) (fun _ => ?_) _ h
    · exact (beat_sparesTotals _ _ r l).bind fun _ => Keeps.pure _
    refine Keeps.ite (fun _ => Keeps.throw _) fun _ => ?_
    split
    · exact Keeps.throw _
    · split
      · exact Keeps.throw _
      · refine Keeps.bind (fun _ h => h) fun _ => ?_
        dsimp only
        exact Keeps.ite (fun _ => (beat_sparesTotals _ _ r l).bind fun _ => Keeps.pure _) fun _ => Keeps.pure _

theorem earnXp_rewritten (s : XpState T) (points : Nat) : Rewritten key s (leaves (earnXp key points) s) := by
  unfold earnXp
  rw [leaves_get_bind]
  exact (earn_sparesTotals s points).rewritten s

end Records

section Reserves

variable {key : T.AccountId} {reason : T.ReserveReason} {points : Nat}

theorem reserveExists_isOk {s : XpState T} :
    (reserveExists key reason s).isOk = true ↔ reason ∈ (s.reserves key).map IdXp.id := by
  unfold reserveExists XpState.reserves
  cases s.reservedXpOf.get key with
  | none => simp [fault, Except.isOk, Except.toBool]
  | some es =>
    simp only [ensure]
    split <;> rename_i h <;> simp_all [Except.isOk, Except.toBool]

theorem totalReserved_eq_ok {s : XpState T} {total : Nat} (h : totalReserved key s = .ok total) :
    ∃ xp, s.xpOf.get key = some xp ∧ xp.reserve = total := by
  obtain ⟨xp, hx, h⟩ := bind_eq_ok.mp h
  exact ⟨xp, okOr_eq_ok.mp hx, pure_eq_ok.mp h⟩

theorem canReserveNew_eq_ok {s : XpState T} (h : canReserveNew key points s = .ok ()) :
    ∃ xp, s.xpOf.get key = some xp ∧ (s.reserves key).length < T.maximumReserves ∧
      xp.reserve + points ≤ T.maxXp := by
  obtain ⟨_, -, h⟩ := bind_eq_ok.mp h
  obtain ⟨_, hlen, h⟩ := bind_eq_ok.mp h
  obtain ⟨_, htotal, h⟩ := bind_eq_ok.mp h
  obtain ⟨xp, hx, rfl⟩ := totalReserved_eq_ok htotal
  obtain ⟨sum, hsum⟩ := Option.isSome_iff_exists.mp (ensure_eq_ok.mp h)
  exact ⟨xp, hx, ensure_eq_ok.mp hlen, (checkedAdd_eq_some.mp hsum).2⟩

theorem canReserveMutate_eq_ok {s : XpState T} (h : canReserveMutate key reason points s = .ok ()) :
    ∃ xp es e, s.xpOf.get key = some xp ∧ s.reservedXpOf.get key = some es ∧
      es.find? (fun e => e.id = reason) = some e ∧
      retotal T.maxXp xp.reserve e.points points + e.points = xp.reserve + points := by
  obtain ⟨current, hcur, h⟩ := bind_eq_ok.mp h
  obtain ⟨_, htotal, h⟩ := bind_eq_ok.mp h
  obtain ⟨xp, hx, rfl⟩ := totalReserved_eq_ok htotal
  obtain ⟨es, e, hes, he, rfl⟩ := findPoints_eq_some.mp (okOr_eq_ok.mp hcur)
  exact ⟨xp, es, e, hx, hes, he, retotal_of_canRetotal h⟩

theorem setReserve_leaves (s : XpState T) :
    leaves (setReserve key reason points) s = s ∨
      ∃ xp new total, s.xpOf.get key = some xp ∧
        leaves (setReserve key reason points) s =
          { s with
            reservedXpOf := s.reservedXpOf.insert key new
            xpOf := s.xpOf.insert key { xp with reserve := total } } ∧
        Booked reason points (s.reserves key) new xp.reserve total := by
  unfold setReserve
  rw [leaves_get_bind]
  split
  · rw [leaves_reads_bind]
    cases hcan : canReserveMutate key reason points s with
    | error e => exact Or.inl rfl
    | ok u =>
      obtain ⟨xp, es, e, hx, hes, he, htotal⟩ := canReserveMutate_eq_ok hcan
      refine Or.inr ⟨xp, setPoints reason points es, retotal T.maxXp xp.reserve e.points points, hx, ?_, ?_⟩
      · have hwrite : overwriteReserve key reason points s = .ok e.points
            { s with reservedXpOf := s.reservedXpOf.insert key (setPoints reason points es) } := by
          simp only [overwriteReserve, hes, findPoints, Option.bind_some, he, Option.map_some]
        rw [leaves_bind_of_ok hwrite, leaves_mutateXp]
        dsimp only
        rw [hx]
        rfl
      · unfold XpState.reserves
        rw [hes]
        exact Booked.overwrite he htotal
  · rename_i hex
    rw [leaves_reads_bind]
    cases hcan : canReserveNew key points s with
    | error e => exact Or.inl rfl
    | ok u =>
      obtain ⟨xp, hx, hlen, hle⟩ := canReserveNew_eq_ok hcan
      refine Or.inr ⟨xp, s.reserves key ++ [⟨reason, points⟩], xp.reserve + points, hx, ?_, Booked.push ?_⟩
      · have hwrite : pushReserve key reason points s = .ok () { s with
            reservedXpOf := s.reservedXpOf.insert key (s.reserves key ++ [⟨reason, points⟩]) } :=
          if_pos hlen
        have hsum : checkedAdd T.maxXp xp.reserve points = some (xp.reserve + points) :=
          checkedAdd_eq_some.mpr ⟨rfl, hle⟩
        rw [leaves_bind_of_ok hwrite, leaves_mutateXp]
        simp only [hx, leaves_get_bind, hsum]
        rfl
      · exact fun hmem => hex (reserveExists_isOk.mpr hmem)

end Reserves

section Locks

variable {key : T.AccountId} {reason : T.LockReason} {points : Nat}

theorem lockExists_isOk {s : XpState T} :
    (lockExists key reason s).isOk = true ↔ reason ∈ (s.locks key).map IdXp.id := by
  unfold lockExists XpState.locks
  cases s.lockedXpOf.get key with
  | none => simp [fault, Except.isOk, Except.toBool]
  | some es =>
    simp only [ensure]
    split <;> rename_i h <;> simp_all [Except.isOk, Except.toBool]

theorem totalLocked_eq_ok {s : XpState T} {total : Nat} (h : totalLocked key s = .ok total) :
    ∃ xp, s.xpOf.get key = some xp ∧ xp.lock = total := by
  obtain ⟨xp, hx, h⟩ := bind_eq_ok.mp h
  exact ⟨xp, okOr_eq_ok.mp hx, pure_eq_ok.mp h⟩

theorem canLockNew_eq_ok {s : XpState T} (h : canLockNew key points s = .ok ()) :
    ∃ xp, s.xpOf.get key = some xp ∧ points ≠ 0 ∧ (s.locks key).length < T.maximumLocks ∧
      xp.lock + points ≤ T.maxXp := by
  obtain ⟨_, -, h⟩ := bind_eq_ok.mp h
  obtain ⟨_, hpos, h⟩ := bind_eq_ok.mp h
  obtain ⟨_, hlen, h⟩ := bind_eq_ok.mp h
  obtain ⟨_, htotal, h⟩ := bind_eq_ok.mp h
  obtain ⟨xp, hx, rfl⟩ := totalLocked_eq_ok htotal
  obtain ⟨sum, hsum⟩ := Option.isSome_iff_exists.mp (ensure_eq_ok.mp h)
  exact ⟨xp, hx, ensure_eq_ok.mp hpos, ensure_eq_ok.mp hlen, (checkedAdd_eq_some.mp hsum).2⟩

theorem canLockMutate_eq_ok {s : XpState T} (h : canLockMutate key reason points s = .ok ()) :
    ∃ xp es e, s.xpOf.get key = some xp ∧ points ≠ 0 ∧ s.lockedXpOf.get key = some es ∧
      es.find? (fun e => e.id = reason) = some e ∧
      retotal T.maxXp xp.lock e.points points + e.points = xp.lock + points := by
  obtain ⟨_, hpos, h⟩ := bind_eq_ok.mp h
  obtain ⟨current, hcur, h⟩ := bind_eq_ok.mp h
  obtain ⟨_, htotal, h⟩ := bind_eq_ok.mp h
  obtain ⟨xp, hx, rfl⟩ := totalLocked_eq_ok htotal
  obtain ⟨es, e, hes, he, rfl⟩ := findPoints_eq_some.mp (okOr_eq_ok.mp hcur)
  exact ⟨xp, es, e, hx, ensure_eq_ok.mp hpos, hes, he, retotal_of_canRetotal h⟩

/-- Setting a lock writes nothing, or its entry, which is not empty, and the total that
follows it. -/
theorem setLock_leaves (s : XpState T) :
    leaves (setLock key reason points) s = s ∨
      ∃ xp new total, s.xpOf.get key = some xp ∧ points ≠ 0 ∧
        leaves (setLock key reason points) s =
          { s with
            lockedXpOf := s.lockedXpOf.insert key new
            xpOf := s.xpOf.insert key { xp with lock := total } } ∧
        Booked reason points (s.locks key) new xp.lock total := by
  unfold setLock
  rw [leaves_get_bind]
  split
  · rw [leaves_reads_bind]
    cases hcan : canLockMutate key reason points s with
    | error e => exact Or.inl rfl
    | ok u =>
      obtain ⟨xp, es, e, hx, hpos, hes, he, htotal⟩ := canLockMutate_eq_ok hcan
      refine Or.inr ⟨xp, setPoints reason points es, retotal T.maxXp xp.lock e.points points, hx, hpos, ?_, ?_⟩
      · have hwrite : overwriteLock key reason points s = .ok e.points
            { s with lockedXpOf := s.lockedXpOf.insert key (setPoints reason points es) } := by
          simp only [overwriteLock, hes, findPoints, Option.bind_some, he, Option.map_some]
        rw [leaves_bind_of_ok hwrite, leaves_mutateXp]
        dsimp only
        rw [hx]
        rfl
      · unfold XpState.locks
        rw [hes]
        exact Booked.overwrite he htotal
  · rename_i hex
    rw [leaves_reads_bind]
    cases hcan : canLockNew key points s with
    | error e => exact Or.inl rfl
    | ok u =>
      obtain ⟨xp, hx, hpos, hlen, hle⟩ := canLockNew_eq_ok hcan
      refine Or.inr ⟨xp, s.locks key ++ [⟨reason, points⟩], xp.lock + points, hx, hpos, ?_, Booked.push ?_⟩
      · have hwrite : pushLock key reason points s = .ok () { s with
            lockedXpOf := s.lockedXpOf.insert key (s.locks key ++ [⟨reason, points⟩]) } :=
          if_pos hlen
        rw [leaves_bind_of_ok hwrite, leaves_mutateXp]
        simp only [hx, leaves_modify, saturatingAdd_of_le hle]
      · exact fun hmem => hex (lockExists_isOk.mpr hmem)

/-- Burning a lock drops its entry and takes its points off the total, where there is one. -/
theorem burnLock_leaves (s : XpState T) :
    leaves (burnLock key reason) s = s ∨
      ∃ es e, s.lockedXpOf.get key = some es ∧ es.find? (fun e => e.id = reason) = some e ∧
        leaves (burnLock key reason) s =
          { s with
            lockedXpOf := s.lockedXpOf.insert key (es.filter fun lock => lock.id ≠ reason)
            xpOf := match s.xpOf.get key with
              | none => s.xpOf
              | some xp => s.xpOf.insert key { xp with lock := xp.lock - e.points } } := by
  unfold burnLock
  rw [leaves_reads_bind]
  cases hl : getLockXp key reason s with
  | error e => exact Or.inl rfl
  | ok locked =>
    obtain ⟨es, e, hes, he, rfl⟩ := findPoints_eq_some.mp (okOr_eq_ok.mp hl)
    refine Or.inr ⟨es, e, hes, he, ?_⟩
    have hwrite : retainLocks key reason s = .ok () { s with
        lockedXpOf := s.lockedXpOf.insert key (es.filter fun lock => lock.id ≠ reason) } := by
      simp only [retainLocks, hes]
    have hsub (xp : Xp) : (if xp.lock < e.points then 0 else xp.lock - e.points) = xp.lock - e.points := by
      split <;> omega
    dsimp only
    rw [leaves_bind_of_ok hwrite, leaves_mutateXp]
    cases s.xpOf.get key with
    | none => rfl
    | some xp => simp only [leaves_modify, hsub]

end Locks

/-- The operations on the points of an identity that exists. -/
def XpOp.movesPoints : XpOp T → Bool
  | .newXp .. | .createXp .. | .beginXp .. | .tryReap .. | .transferOwner .. | .handover ..
  | .forceHandover .. | .dispose .. | .forceGenesisConfig .. | .block .. => false
  | _ => true

/-- A property that the four writes keep by which points move between the liquid ones, reserves and locks. -/
structure WithstandsMoves (P : XpState T → Prop) : Prop where
  setXp : ∀ key points, Keeps P (setXp key points)
  setReserve : ∀ key reason points, Keeps P (setReserve key reason points)
  setLock : ∀ key reason points, Keeps P (setLock key reason points)
  burnLock : ∀ key reason, Keeps P (burnLock key reason)

/-- A property that the five writes of the operations on points keep. -/
structure Withstands (P : XpState T → Prop) : Prop extends WithstandsMoves P where
  earnXp : ∀ key points, Keeps P (earnXp key points)

namespace WithstandsMoves

variable {P : XpState T → Prop} (h : WithstandsMoves P) (key : T.AccountId) (points : Nat)
include h

theorem resetXp : Keeps P (resetXp key) :=
  (Keeps.reads _).bind fun _ => (Keeps.reads _).bind fun _ => (h.setXp key 0).bind fun _ => Keeps.pure _

theorem slashXp : Keeps P (slashXp key points) := by
  refine (Keeps.reads _).bind fun _ => (Keeps.reads _).bind fun liquid => ?_
  exact Keeps.ite (fun _ => (h.setXp _ _).bind fun _ => Keeps.pure _) fun _ => h.resetXp key

section

variable (reason : T.ReserveReason)

theorem reserveXp : Keeps P (reserveXp key reason points) := by
  refine (Keeps.reads _).bind fun _ => (Keeps.reads _).bind fun liquid => ?_
  refine Keeps.ite (fun _ => Keeps.throw _) fun _ => Keeps.bind (fun _ h => h) fun s => ?_
  refine Keeps.ite (fun _ => (h.setXp _ _).bind fun _ => (Keeps.reads _).bind fun old => ?_)
    fun _ => (h.setXp _ _).bind fun _ => h.setReserve _ _ _
  split
  · exact Keeps.throw _
  · exact h.setReserve _ _ _

theorem withdrawReservePartial (precision : Precision) :
    Keeps P (withdrawReservePartial key reason points precision) := by
  refine (Keeps.reads _).bind fun _ => Keeps.ite (fun _ => Keeps.pure _) fun _ => ?_
  refine (Keeps.reads _).bind fun _ => (Keeps.reads _).bind fun reserve => (Keeps.reads _).bind fun liquid => ?_
  exact (Keeps.reads _).bind fun new => (h.setReserve _ _ _).bind fun _ => h.setXp _ _

theorem withdrawReserve : Keeps P (withdrawReserve key reason) :=
  (Keeps.reads _).bind fun _ => (Keeps.reads _).bind fun _ => h.withdrawReservePartial key _ reason _

theorem resetReserve : Keeps P (resetReserve key reason) :=
  (Keeps.reads _).bind fun _ => (Keeps.reads _).bind fun _ =>
    (h.setReserve key reason 0).bind fun _ => Keeps.pure _

theorem slashReserve : Keeps P (slashReserve key reason points) := by
  refine (Keeps.reads _).bind fun _ => (Keeps.reads _).bind fun reserve => ?_
  exact Keeps.ite (fun _ => h.resetReserve key reason)
    fun _ => (h.setReserve _ _ _).bind fun _ => Keeps.pure _

end

section

variable (reason : T.LockReason)

theorem lockXp : Keeps P (lockXp key reason points) := by
  refine (Keeps.reads _).bind fun _ => Keeps.ite (fun _ => Keeps.throw _) fun _ => ?_
  refine (Keeps.reads _).bind fun liquid => Keeps.ite (fun _ => Keeps.throw _) fun _ => ?_
  refine Keeps.bind (fun _ h => h) fun s => ?_
  refine Keeps.ite (fun _ => (h.setXp _ _).bind fun _ => (Keeps.reads _).bind fun old => ?_)
    fun _ => (h.setXp _ _).bind fun _ => h.setLock _ _ _
  split
  · exact Keeps.throw _
  · exact h.setLock _ _ _

theorem withdrawLock : Keeps P (withdrawLock key reason) := by
  refine (Keeps.reads _).bind fun _ => (Keeps.reads _).bind fun _ => (Keeps.reads _).bind fun points => ?_
  exact (Keeps.reads _).bind fun liquid => (h.setXp _ _).bind fun _ => h.burnLock key reason

theorem slashLock : Keeps P (slashLock key reason points) := by
  refine (Keeps.reads _).bind fun _ => (Keeps.reads _).bind fun lock => ?_
  exact Keeps.ite (fun _ => (h.burnLock _ _).bind fun _ => Keeps.pure _)
    fun _ => (h.setLock _ _ _).bind fun _ => Keeps.pure _

end

theorem perform {s : XpState T} (hs : P s) {op : XpOp T} (ho : op.movesPoints = true)
    (hearn : ∀ key points, op = .earnXp key points → P (s.perform op)) : P (s.perform op) := by
  cases op with
  | earnXp key points => exact hearn key points rfl
  | setXp key points => exact h.setXp key points s hs
  | slashXp key points => exact h.slashXp key points s hs
  | resetXp key => exact h.resetXp key s hs
  | setReserve key reason points => exact h.setReserve key reason points s hs
  | reserveXp key reason points => exact h.reserveXp key points reason s hs
  | withdrawReserve key reason => exact h.withdrawReserve key reason s hs
  | withdrawReservePartial key reason points precision =>
    exact h.withdrawReservePartial key points reason precision s hs
  | slashReserve key reason points => exact h.slashReserve key points reason s hs
  | resetReserve key reason => exact h.resetReserve key reason s hs
  | setLock key reason points => exact h.setLock key reason points s hs
  | lockXp key reason points => exact h.lockXp key points reason s hs
  | withdrawLock key reason => exact h.withdrawLock key reason s hs
  | slashLock key reason points => exact h.slashLock key points reason s hs
  | burnLock key reason => exact h.burnLock key reason s hs
  | _ => cases ho

end WithstandsMoves

theorem Withstands.perform {P : XpState T → Prop} (h : Withstands P) {s : XpState T} (hs : P s) {op : XpOp T}
    (ho : op.movesPoints = true) : P (s.perform op) :=
  h.toWithstandsMoves.perform hs ho fun key points heq => heq ▸ h.earnXp key points s hs

end FrameSuite
