import FrameSuite.CommitTypes
import FrameSuite.Run
import FrameSuite.XpTypes

/-! The XP pallet: identities and their owners, earning, reserves, locks and reaping.
Every step that changes a record writes back what it changed also when it fails. -/

namespace FrameSuite

variable {T : XpConfig}

def fault {α : Type} (e : XpError) : Except Fault α := .error (.error e)

/-- `XpOf::mutate` with a closure that needs an existing record. -/
def mutateXp {α : Type} (key : T.AccountId) (f : EStateM Fault Xp α) : XpCall T α := fun s =>
  match s.xpOf.get key with
  | none => .error (.error .xpNotFound) s
  | some xp =>
    match f xp with
    | .ok a xp' => .ok a { s with xpOf := s.xpOf.insert key xp' }
    | .error e xp' => .error e { s with xpOf := s.xpOf.insert key xp' }

section System

def xpExists (key : T.AccountId) : XpCheck T Unit := fun s =>
  ensure (s.xpOf.containsKey key = true) (.error .xpNotFound)

def getXp (key : T.AccountId) : XpCheck T Xp := fun s => okOr (s.xpOf.get key) (.error .xpNotFound)

def hasMinimumXp (key : T.AccountId) : XpCheck T Unit := fun s => do
  let xp ← getXp key s
  ensure (s.minTimeStamp ≤ xp.timestamp) (.error .lowTimeStamp)

def getLiquidXp (key : T.AccountId) : XpCheck T Nat := fun s => do
  let xp ← getXp key s
  pure xp.free

def getUsableXp (key : T.AccountId) : XpCheck T Nat := fun s => do
  let xp ← getXp key s
  pure (saturatingAdd T.maxXp xp.free xp.reserve)

def totalReserved (key : T.AccountId) : XpCheck T Nat := fun s => do
  let xp ← getXp key s
  pure xp.reserve

def totalLocked (key : T.AccountId) : XpCheck T Nat := fun s => do
  let xp ← getXp key s
  pure xp.lock

def isReaped (key : T.AccountId) : XpCheck T Unit := fun s =>
  ensure (s.reapedXp.containsKey key = true) (.error .xpNotReaped)

end System

section Owners

def isOwner (owner key : T.AccountId) : XpCheck T Unit := fun s =>
  ensure (s.xpOwners.containsKey (owner, key) = true) (.error .invalidXpOwner)

def setOwner (owner key newOwner : T.AccountId) : XpCall T Unit := modify fun s =>
  { s with xpOwners := (s.xpOwners.remove (owner, key)).insert (newOwner, key) () }

def transferOwner (owner key newOwner : T.AccountId) : XpCall T Unit := do
  reads (isOwner owner key)
  if owner = newOwner then pure () else setOwner owner key newOwner

end Owners

section Accumulate

/-- The loop of `increment`, for at most so many turns. -/
def carryStep (maxPulse threshold : Nat) : Nat → Accumulator → Option Accumulator
  | 0, _ => none
  | turns + 1, accum =>
    if threshold ≤ accum.step then
      carryStep maxPulse threshold turns
        { value := saturatingAdd maxPulse accum.value 1, step := accum.step - threshold }
    else some accum

/-- A threshold that is not zero needs no more turns than there are steps; a zero
threshold never leaves the loop. -/
def increment (maxPulse : Nat) (stepper : Stepper) (accum : Accumulator) : Option Accumulator :=
  let step := saturatingAdd maxPulse accum.step stepper.perCount
  carryStep maxPulse stepper.threshold (step + 1) { accum with step }

end Accumulate

section Checks

def hasLock (key : T.AccountId) : XpCheck T Unit := fun s =>
  match s.lockedXpOf.get key with
  | none => fault .xpLockNotFound
  | some locks => ensure (locks.length ≠ 0) (.error .xpLockNotFound)

def reserveExists (key : T.AccountId) (reason : T.ReserveReason) : XpCheck T Unit := fun s =>
  match s.reservedXpOf.get key with
  | none => fault .xpReserveNotFound
  | some reserves => ensure (reserves.any (fun r => r.id = reason) = true) (.error .xpReserveNotFound)

def lockExists (key : T.AccountId) (reason : T.LockReason) : XpCheck T Unit := fun s =>
  match s.lockedXpOf.get key with
  | none => fault .xpLockNotFound
  | some locks => ensure (locks.any (fun l => l.id = reason) = true) (.error .xpLockNotFound)

def getReserveXp (key : T.AccountId) (reason : T.ReserveReason) : XpCheck T Nat := fun s =>
  okOr (findPoints (s.reservedXpOf.get key) reason) (.error .xpReserveNotFound)

def getLockXp (key : T.AccountId) (reason : T.LockReason) : XpCheck T Nat := fun s =>
  okOr (findPoints (s.lockedXpOf.get key) reason) (.error .xpLockNotFound)

/-- Whether a total can follow one of its entries from `current` to `points`. -/
def canRetotal (maxXp total current points : Nat) (overflow underflow : XpError) : Except Fault Unit :=
  if current < points then
    ensure ((checkedAdd maxXp total (points - current)).isSome = true) (.error overflow)
  else if points < current then
    ensure ((checkedSub total (current - points)).isSome = true) (.error underflow)
  else pure ()

def canReserveNew (key : T.AccountId) (points : Nat) : XpCheck T Unit := fun s => do
  xpExists key s
  ensure (((s.reservedXpOf.get key).getD []).length < T.maximumReserves) (.error .tooManyReserves)
  let total ← totalReserved key s
  ensure ((checkedAdd T.maxXp total points).isSome = true) (.error .xpReserveCapOverflowed)

def canReserveMutate (key : T.AccountId) (reason : T.ReserveReason) (points : Nat) :
    XpCheck T Unit := fun s => do
  let reserved ← getReserveXp key reason s
  let total ← totalReserved key s
  canRetotal T.maxXp total reserved points .xpReserveCapOverflowed .xpReserveCapUnderflowed

def canLockNew (key : T.AccountId) (points : Nat) : XpCheck T Unit := fun s => do
  xpExists key s
  ensure (points ≠ 0) (.error .cannotLockZero)
  ensure (((s.lockedXpOf.get key).getD []).length < T.maximumLocks) (.error .tooManyLocks)
  let total ← totalLocked key s
  ensure ((checkedAdd T.maxXp total points).isSome = true) (.error .xpLockCapOverflowed)

def canLockMutate (key : T.AccountId) (reason : T.LockReason) (points : Nat) :
    XpCheck T Unit := fun s => do
  ensure (points ≠ 0) (.error .cannotLockZero)
  let locked ← getLockXp key reason s
  let total ← totalLocked key s
  canRetotal T.maxXp total locked points .xpLockCapOverflowed .xpLockCapUnderflowed

def canReap (key : T.AccountId) : XpCheck T Unit := fun s => do
  ensure ((isReaped key s).isOk = false) (.error .xpAlreadyReaped)
  xpExists key s
  ensure ((hasMinimumXp key s).isOk = false) (.error .xpNotDead)
  ensure ((hasLock key s).isOk = false) (.error .cannotReapLockedXp)

end Checks

section Mutate

def newXp (owner key : T.AccountId) : XpCall T Unit := modify fun s =>
  { s with
    xpOf := s.xpOf.insert key (Xp.default s)
    xpOwners := s.xpOwners.insert (owner, key) () }

def setXp (key : T.AccountId) (points : Nat) : XpCall T Unit :=
  mutateXp key (modify fun value => { value with free := points })

def createXp (owner key : T.AccountId) : XpCall T Unit := do
  newXp owner key
  let s ← get
  setXp key s.initXp

/-- The pulse grows by one count, or the loop that carries it never ends. -/
def beat (maxPulse : Nat) (stepper : Stepper) : EStateM Fault Xp Unit := do
  let value ← get
  match increment maxPulse stepper value.pulse with
  | some pulse => set { value with pulse }
  | none => throw .diverges

/-- The closure of `earn_xp`. Within one block only raw points count, and a pulse below the
minimum grows in place of the points. -/
def earn (s : XpState T) (key : T.AccountId) (points : Nat) : EStateM Fault Xp Nat := do
  let value ← get
  if s.blockNumber ≤ value.timestamp ∧ s.minPulse ≤ value.pulse.value then
    match checkedAdd T.maxXp value.free points with
    | none => throw (.error .xpCapOverflowed)
    | some free =>
      set { value with free }
      pure (free - value.free)
  else
    set { value with timestamp := s.blockNumber }
    if value.pulse.value < s.minPulse then
      beat T.maxPulse s.pulseFactor
      pure 0
    else if T.maxXp < points * value.pulse.value then throw (.error .reputationDeriveOverflowed)
    else
      match checkedAdd T.maxXp (points * value.pulse.value) value.free with
      | none => throw (.error .xpCapOverflowed)
      | some free =>
        match checkedSub free value.free with
        | none => throw (.error .xpComputationError)
        | some actual =>
          modify fun value => { value with free }
          if (hasLock key s).isOk then beat T.maxPulse s.pulseFactor
          pure actual

def earnXp (key : T.AccountId) (points : Nat) : XpCall T Nat := do
  let s ← get
  mutateXp key (earn s key points)

def resetXp (key : T.AccountId) : XpCall T Nat := do
  reads (xpExists key)
  let liquid ← reads (getLiquidXp key)
  setXp key 0
  pure liquid

def slashXp (key : T.AccountId) (points : Nat) : XpCall T Nat := do
  reads (xpExists key)
  let liquid ← reads (getLiquidXp key)
  if points ≤ liquid then
    setXp key (liquid - points)
    pure points
  else resetXp key

end Mutate

/-- The total after one of its entries went from `current` to `points`. -/
def retotal (maxXp total current points : Nat) : Nat :=
  if points < current then total - (current - points)
  else if current < points then saturatingAdd maxXp total (points - current)
  else total

section Reserves

def pushReserve (key : T.AccountId) (reason : T.ReserveReason) (points : Nat) : XpCall T Unit :=
  fun s =>
    let value := (s.reservedXpOf.get key).getD []
    if value.length < T.maximumReserves then
      .ok () { s with reservedXpOf := s.reservedXpOf.insert key (value ++ [⟨reason, points⟩]) }
    else
      .error (.error .tooManyReserves) { s with reservedXpOf := s.reservedXpOf.insert key value }

/-- Overwrites a reserve and returns the points it had. -/
def overwriteReserve (key : T.AccountId) (reason : T.ReserveReason) (points : Nat) : XpCall T Nat :=
  fun s =>
    match s.reservedXpOf.get key, findPoints (s.reservedXpOf.get key) reason with
    | some value, some current =>
      .ok current { s with reservedXpOf := s.reservedXpOf.insert key (setPoints reason points value) }
    | _, _ => .error (.error .xpReserveNotFound) s

def setReserve (key : T.AccountId) (reason : T.ReserveReason) (points : Nat) : XpCall T Unit := do
  let s ← get
  if (reserveExists key reason s).isOk then
    reads (canReserveMutate key reason points)
    let current ← overwriteReserve key reason points
    mutateXp key (modify fun value =>
      { value with reserve := retotal T.maxXp value.reserve current points })
  else
    reads (canReserveNew key points)
    pushReserve key reason points
    mutateXp key do
      let value ← get
      match checkedAdd T.maxXp value.reserve points with
      | some reserve => set { value with reserve }
      | none => throw (.error .xpReserveCapOverflowed)

def reserveXp (key : T.AccountId) (reason : T.ReserveReason) (points : Nat) : XpCall T Unit := do
  reads (xpExists key)
  let liquid ← reads (getLiquidXp key)
  if liquid < points then throw (.error .insufficientLiquidXp)
  else
    let s ← get
    if (reserveExists key reason s).isOk then
      setXp key (liquid - points)
      let old ← reads (getReserveXp key reason)
      match checkedAdd T.maxXp old points with
      | none => throw (.error .xpReserveCapOverflowed)
      | some new => setReserve key reason new
    else
      setXp key (liquid - points)
      setReserve key reason points

/-- The reserve and the liquid points after a withdrawal. -/
def partialWithdrawal (maxXp reserve liquid points : Nat) :
    Precision → Except Fault (Nat × Nat)
  | .exact => do
    let reserve ← okOr (checkedSub reserve points) (.error .insufficientReserveXp)
    let free ← okOr (checkedAdd maxXp liquid points) (.error .xpCapOverflowed)
    pure (reserve, free)
  | .bestEffort => pure (reserve - points, saturatingAdd maxXp liquid (min reserve points))

def withdrawReservePartial (key : T.AccountId) (reason : T.ReserveReason) (points : Nat)
    (precision : Precision) : XpCall T Unit := do
  reads (xpExists key)
  if points = 0 then pure ()
  else
    reads (reserveExists key reason)
    let reserve ← reads (getReserveXp key reason)
    let liquid ← reads (getLiquidXp key)
    let new ← reads fun _ => partialWithdrawal T.maxXp reserve liquid points precision
    setReserve key reason new.1
    setXp key new.2

def withdrawReserve (key : T.AccountId) (reason : T.ReserveReason) : XpCall T Unit := do
  reads (xpExists key)
  let points ← reads (getReserveXp key reason)
  withdrawReservePartial key reason points .bestEffort

def resetReserve (key : T.AccountId) (reason : T.ReserveReason) : XpCall T Nat := do
  reads (xpExists key)
  let reserve ← reads (getReserveXp key reason)
  setReserve key reason 0
  pure reserve

def slashReserve (key : T.AccountId) (reason : T.ReserveReason) (points : Nat) : XpCall T Nat := do
  reads (xpExists key)
  let reserve ← reads (getReserveXp key reason)
  if reserve < points then resetReserve key reason
  else
    setReserve key reason (reserve - points)
    pure points

end Reserves

section Locks

def pushLock (key : T.AccountId) (reason : T.LockReason) (points : Nat) : XpCall T Unit := fun s =>
  let value := (s.lockedXpOf.get key).getD []
  if value.length < T.maximumLocks then
    .ok () { s with lockedXpOf := s.lockedXpOf.insert key (value ++ [⟨reason, points⟩]) }
  else .error (.error .tooManyLocks) { s with lockedXpOf := s.lockedXpOf.insert key value }

/-- Overwrites a lock and returns the points it had. -/
def overwriteLock (key : T.AccountId) (reason : T.LockReason) (points : Nat) : XpCall T Nat := fun s =>
  match s.lockedXpOf.get key, findPoints (s.lockedXpOf.get key) reason with
  | some value, some current =>
    .ok current { s with lockedXpOf := s.lockedXpOf.insert key (setPoints reason points value) }
  | _, _ => .error (.error .xpLockNotFound) s

def setLock (key : T.AccountId) (reason : T.LockReason) (points : Nat) : XpCall T Unit := do
  let s ← get
  if (lockExists key reason s).isOk then
    reads (canLockMutate key reason points)
    let current ← overwriteLock key reason points
    mutateXp key (modify fun value => { value with lock := retotal T.maxXp value.lock current points })
  else
    reads (canLockNew key points)
    pushLock key reason points
    mutateXp key (modify fun value => { value with lock := saturatingAdd T.maxXp value.lock points })

def retainLocks (key : T.AccountId) (reason : T.LockReason) : XpCall T Unit := fun s =>
  match s.lockedXpOf.get key with
  | none => .error (.error .xpLockNotFound) s
  | some value =>
    .ok () { s with lockedXpOf := s.lockedXpOf.insert key (value.filter fun lock => lock.id ≠ reason) }

def burnLock (key : T.AccountId) (reason : T.LockReason) : XpCall T Unit := do
  let locked ← reads (getLockXp key reason)
  retainLocks key reason
  mutateXp key (modify fun value =>
    { value with lock := if value.lock < locked then 0 else value.lock - locked })

def lockXp (key : T.AccountId) (reason : T.LockReason) (points : Nat) : XpCall T Unit := do
  reads (xpExists key)
  if points = 0 then throw (.error .cannotLockZero)
  else
    let liquid ← reads (getLiquidXp key)
    if liquid < points then throw (.error .insufficientLiquidXp)
    else
      let s ← get
      if (lockExists key reason s).isOk then
        setXp key (liquid - points)
        let old ← reads (getLockXp key reason)
        match checkedAdd T.maxXp old points with
        | none => throw (.error .xpLockCapOverflowed)
        | some new => setLock key reason new
      else
        setXp key (liquid - points)
        setLock key reason points

def withdrawLock (key : T.AccountId) (reason : T.LockReason) : XpCall T Unit := do
  reads (xpExists key)
  reads (lockExists key reason)
  let points ← reads (getLockXp key reason)
  let liquid ← reads (getLiquidXp key)
  setXp key (saturatingAdd T.maxXp liquid points)
  burnLock key reason

def slashLock (key : T.AccountId) (reason : T.LockReason) (points : Nat) : XpCall T Nat := do
  reads (xpExists key)
  let lock ← reads (getLockXp key reason)
  if lock < points then
    burnLock key reason
    pure lock
  else
    setLock key reason (lock - points)
    pure points

end Locks

section Lifecycle

def reapXp (key : T.AccountId) : XpCall T Nat := do
  let reapable ← reads (getUsableXp key)
  let s ← get
  if (hasLock key s).isOk then throw (.error .xpLockExists)
  else
    modify fun s =>
      { s with
        xpOf := s.xpOf.remove key
        reservedXpOf := s.reservedXpOf.remove key
        reapedXp := s.reapedXp.insert key () }
    pure reapable

def tryReap (key : T.AccountId) : XpCall T Nat := do
  reads (canReap key)
  reapXp key

def beginXp (owner key : T.AccountId) (points : Nat) : XpCall T Unit := do
  let s ← get
  if (isReaped key s).isOk then throw (.error .xpAlreadyReaped)
  else if (xpExists key s).isOk then
    let _ ← earnXp key points
    pure ()
  else createXp owner key

/-- The entry point `call`: the owner acts as the identity. -/
def callAs (caller key : T.AccountId) (dispatch : T.AccountId → XpCall T Unit) : XpCall T Unit := do
  reads (isOwner caller key)
  dispatch key

def handover (caller key newOwner : T.AccountId) : XpCall T Unit := do
  reads (xpExists key)
  reads (isOwner caller key)
  if caller = newOwner then throw (.error .alreadyXpOwner) else transferOwner caller key newOwner

def forceHandover (owner key newOwner : T.AccountId) : XpCall T Unit := do
  reads (xpExists key)
  reads (isOwner owner key)
  if owner = newOwner then throw (.error .alreadyXpOwner) else transferOwner owner key newOwner

def dispose (owner key : T.AccountId) : XpCall T Unit := do
  reads (xpExists key)
  reads (isOwner owner key)
  let _ ← tryReap key
  pure ()

def forceGenesisConfig (field : ForceGenesisConfig) : XpCall T Unit := fun s =>
  match field with
  | .minPulse minPulse => .ok () { s with minPulse }
  | .initXp initXp => .ok () { s with initXp }
  | .pulseFactor threshold perCount =>
    match Stepper.new threshold perCount with
    | none => .error (.error .lowPulseThreshold) s
    | some pulseFactor => .ok () { s with pulseFactor }
  | .minTimeStamp minTimeStamp =>
    if s.blockNumber < minTimeStamp then .error (.error .invalidMinTimeStamp) s
    else .ok () { s with minTimeStamp }

end Lifecycle

/-- One operation of the pallet, or the move to another block. -/
inductive XpOp (T : XpConfig)
  | newXp (owner key : T.AccountId)
  | createXp (owner key : T.AccountId)
  | beginXp (owner key : T.AccountId) (points : Nat)
  | earnXp (key : T.AccountId) (points : Nat)
  | setXp (key : T.AccountId) (points : Nat)
  | slashXp (key : T.AccountId) (points : Nat)
  | resetXp (key : T.AccountId)
  | setReserve (key : T.AccountId) (reason : T.ReserveReason) (points : Nat)
  | reserveXp (key : T.AccountId) (reason : T.ReserveReason) (points : Nat)
  | withdrawReserve (key : T.AccountId) (reason : T.ReserveReason)
  | withdrawReservePartial (key : T.AccountId) (reason : T.ReserveReason) (points : Nat)
      (precision : Precision)
  | slashReserve (key : T.AccountId) (reason : T.ReserveReason) (points : Nat)
  | resetReserve (key : T.AccountId) (reason : T.ReserveReason)
  | setLock (key : T.AccountId) (reason : T.LockReason) (points : Nat)
  | lockXp (key : T.AccountId) (reason : T.LockReason) (points : Nat)
  | withdrawLock (key : T.AccountId) (reason : T.LockReason)
  | slashLock (key : T.AccountId) (reason : T.LockReason) (points : Nat)
  | burnLock (key : T.AccountId) (reason : T.LockReason)
  | tryReap (key : T.AccountId)
  | transferOwner (owner key newOwner : T.AccountId)
  | handover (caller key newOwner : T.AccountId)
  | forceHandover (owner key newOwner : T.AccountId)
  | dispose (owner key : T.AccountId)
  | forceGenesisConfig (field : ForceGenesisConfig)
  | block (number : Nat)

/-- The state an operation leaves, with the writes of a failed one. -/
def XpState.perform (s : XpState T) : XpOp T → XpState T
  | .newXp owner key => leaves (FrameSuite.newXp owner key) s
  | .createXp owner key => leaves (FrameSuite.createXp owner key) s
  | .beginXp owner key points => leaves (FrameSuite.beginXp owner key points) s
  | .earnXp key points => leaves (FrameSuite.earnXp key points) s
  | .setXp key points => leaves (FrameSuite.setXp key points) s
  | .slashXp key points => leaves (FrameSuite.slashXp key points) s
  | .resetXp key => leaves (FrameSuite.resetXp key) s
  | .setReserve key reason points => leaves (FrameSuite.setReserve key reason points) s
  | .reserveXp key reason points => leaves (FrameSuite.reserveXp key reason points) s
  | .withdrawReserve key reason => leaves (FrameSuite.withdrawReserve key reason) s
  | .withdrawReservePartial key reason points precision =>
    leaves (FrameSuite.withdrawReservePartial key reason points precision) s
  | .slashReserve key reason points => leaves (FrameSuite.slashReserve key reason points) s
  | .resetReserve key reason => leaves (FrameSuite.resetReserve key reason) s
  | .setLock key reason points => leaves (FrameSuite.setLock key reason points) s
  | .lockXp key reason points => leaves (FrameSuite.lockXp key reason points) s
  | .withdrawLock key reason => leaves (FrameSuite.withdrawLock key reason) s
  | .slashLock key reason points => leaves (FrameSuite.slashLock key reason points) s
  | .burnLock key reason => leaves (FrameSuite.burnLock key reason) s
  | .tryReap key => leaves (FrameSuite.tryReap key) s
  | .transferOwner owner key newOwner => leaves (FrameSuite.transferOwner owner key newOwner) s
  | .handover caller key newOwner => leaves (FrameSuite.handover caller key newOwner) s
  | .forceHandover owner key newOwner => leaves (FrameSuite.forceHandover owner key newOwner) s
  | .dispose owner key => leaves (FrameSuite.dispose owner key) s
  | .forceGenesisConfig field => leaves (FrameSuite.forceGenesisConfig field) s
  | .block number => { s with blockNumber := number }

def XpState.apply (s : XpState T) (op : XpOp T) : Except Fault (XpState T) := .ok (s.perform op)

def XpState.after (s : XpState T) (ops : List (XpOp T)) : XpState T := run XpState.apply s ops

structure XpGenesis (T : XpConfig) where
  minPulse : Nat
  initXp : Nat
  pulseFactor : Stepper
  accounts : List (T.AccountId × T.AccountId)

def XpGenesis.empty (genesis : XpGenesis T) : XpState T where
  xpOf := .empty
  xpOwners := .empty
  reservedXpOf := .empty
  lockedXpOf := .empty
  reapedXp := .empty
  minPulse := genesis.minPulse
  initXp := genesis.initXp
  pulseFactor := genesis.pulseFactor
  minTimeStamp := 0
  blockNumber := 0

/-- Every listed account, an owner with an identity, starts with a new record. -/
def XpGenesis.build (genesis : XpGenesis T) : XpState T :=
  genesis.empty.after (genesis.accounts.map fun account => .newXp account.1 account.2)

end FrameSuite
