import FrameSuite.CommitState

/-! Deposits into digests, indexes and pools. A deposit into a pool first takes the
pool's funds back from its slots, and then spreads the new total over them again. The
source's checks for zero shares and zero capital are carried by the stored types. -/

namespace FrameSuite

variable {T : Config}

/-- An operation on a balance whose error aborts the call. -/
def liftShare {α : Type} (outcome : ShareOutcome T.share α) :
    Except DispatchError (α × LazyBalance T) :=
  match outcome with
  | (.ok a, balance) => .ok (a, balance)
  | (.error e, _) => .error (.balance e)

/-- Deposits into the balance of a variant, which is initiated when it is missing. -/
def DigestInfo.deposit (info : DigestInfo T) (variant : T.Position) (value : Nat) :
    Except DispatchError (DigestInfo T × Nat × CommitInstance T) := do
  let info ← info.ensureBalance variant
  let balance ← okOr (info.getBalance variant) .digestVariantBalanceNotFound
  let ((deposited, receipt), balance) ← liftShare (ShareBalance.deposit balance value)
  pure (info.setBalance variant balance, deposited, some receipt)

def DigestInfo.withdraw (info : DigestInfo T) (variant : T.Position) (receipt : CommitInstance T) :
    Except DispatchError (DigestInfo T × Nat) := do
  let balance ← okOr (info.getBalance variant) .digestVariantBalanceNotFound
  let (taken, balance) ← liftShare (ShareBalance.withdraw balance receipt)
  pure (info.setBalance variant balance, taken)

def depositToDigest (s : State T) (reason : T.Reason) (digest : T.AccountId) (value : Nat)
    (variant : T.Position) : Except DispatchError (State T × CommitInstance T × Nat) := do
  let info ← okOr (s.digestMap.get (reason, digest)) .digestNotFound
  let (info, deposited, receipt) ← info.deposit variant value
  pure ({ s with digestMap := s.digestMap.insert (reason, digest) info }, receipt, deposited)

/-- Adds a commit of an entry, the first of its proprietor or a further one. -/
def addEntryCommit (s : State T) (key : EntryKey T) (receipt : CommitInstance T) :
    Except DispatchError (State T) := do
  let commits ← Commits.extend (s.entryMap.get key) receipt
  pure { s with entryMap := s.entryMap.insert key commits }

/-- The part of a value that falls to an entry, in fixed-point form. -/
def entryDeposit (T : Config) (value shares capital : Nat) :
    Except DispatchError (Fixed T.share.rational) := do
  ensure (shares ≤ capital) .shareGreaterThanCapital
  let factor ← okOr (Fixed.checkedFromRational shares capital) .tooSmallShareValue
  okOr ((Fixed.saturatingFromInteger value).checkedMul factor) .depositDeriveOverflowed

/-- Deposits to the entries one by one; an entry whose part is below one unit is skipped. -/
def depositToEntries (who : T.AccountId) (reason : T.Reason) (indexOf : T.AccountId)
    (value capital : Nat) :
    List (EntryInfo T) → State T → Nat → Except DispatchError (State T × Nat)
  | [], s, actual => .ok (s, actual)
  | entry :: entries, s, actual => do
    let part ← entryDeposit T value entry.shares capital
    if part.inner < T.share.rational.div then
      depositToEntries who reason indexOf value capital entries s actual
    else
      let (s, receipt, amount) ← depositToDigest s reason entry.digest part.toInteger entry.variant
      let s ← addEntryCommit s (reason, indexOf, entry.digest, who) receipt
      let actual ← okOr (checkedAdd T.share.maxAsset actual amount) .factorGreaterThanOne
      depositToEntries who reason indexOf value capital entries s actual

/-- The proprietor's commit holds a default receipt; the receipts of the entries are kept
in the entry map. -/
def depositToIndex (s : State T) (who : T.AccountId) (reason : T.Reason) (indexOf : T.AccountId)
    (value : Nat) : Except DispatchError (State T × CommitInstance T × Nat) := do
  let info ← getIndex s reason indexOf
  ensure (info.capital ≠ 0) .capitalCannotBeZero
  let (s, actual) ←
    depositToEntries who reason indexOf value info.capital info.entries.list s 0
  let refund := value - actual
  let s ← s.unlessZero refund (s.increaseBalance who refund)
  let principal ← okOr (checkedAdd T.share.maxAsset info.principal actual) .maxIndexCapacityReached
  pure ({ s with indexMap := s.indexMap.insert (reason, indexOf) (info.setBalance principal) },
    none, actual)

/-- Withdraws the commits the pool holds on its slots. -/
def releaseSlots (reason : T.Reason) :
    List (SlotInfo T) → DigestMap T → Nat → Except DispatchError (DigestMap T × Nat)
  | [], digestMap, taken => .ok (digestMap, taken)
  | slot :: slots, digestMap, taken =>
    if slot.commit = none then releaseSlots reason slots digestMap taken
    else do
      let info ← okOr (digestMap.get (reason, slot.digest)) .slotOfPoolNotFound
      let (info, take) ← info.withdraw slot.variant slot.commit
      let taken ← okOr (checkedAdd T.share.maxAsset taken take) .withdrawAccumulationExhausted
      releaseSlots reason slots (digestMap.insert (reason, slot.digest) info) taken

/-- Mints or reaps the pool's own balance to what its slots returned. -/
def adjustPoolBalance (balance : LazyBalance T) (taken : Nat) :
    Except DispatchError (LazyBalance T) :=
  let effective := ShareBalance.totalValue balance
  if effective < taken then do
    let (minted, balance) ← liftShare (ShareBalance.mint balance (taken - effective))
    ensure (minted = taken - effective) .poolUnsupported
    pure balance
  else if taken < effective then do
    let (reaped, balance) ← liftShare (ShareBalance.reap balance (effective - taken))
    ensure (reaped = effective - taken) .poolUnsupported
    pure balance
  else pure balance

def releasePool (s : State T) (reason : T.Reason) (poolOf : T.AccountId) :
    Except DispatchError (State T × LazyBalance T) := do
  let pool ← getPool s reason poolOf
  if pool.balance = none then pure (s, none)
  else
    ensure (pool.capital ≠ 0) .capitalCannotBeZero
    let (digestMap, taken) ← releaseSlots reason pool.slots s.digestMap 0
    let balance ← adjustPoolBalance pool.balance taken
    pure ({ s with digestMap, poolMap := s.poolMap.insert (reason, poolOf) pool.balanceReset },
      balance)

/-- The part of the pool's value that falls to a slot. -/
def slotDeposit (T : Config) (effective shares capital : Nat) : Except DispatchError Nat := do
  let factor := Fixed.saturatingFromRational (F := T.share.rational) shares capital
  let part ← okOr ((Fixed.saturatingFromInteger effective).checkedMul factor) .depositDeriveOverflowed
  pure part.toInteger

/-- Commits the pool's value to its slots one by one. A slot that gets nothing holds a
default commit. -/
def recoverSlots (reason : T.Reason) (effective : Nat) :
    List (SlotInfo T) → DigestMap T → PoolInfo T → Nat →
      Except DispatchError (DigestMap T × PoolInfo T × Nat)
  | [], digestMap, pool, taken => .ok (digestMap, pool, taken)
  | slot :: slots, digestMap, pool, taken => do
    let part ← slotDeposit T effective slot.shares pool.capital
    if part = 0 then
      let pool ← pool.setSlotCommit slot.digest none
      recoverSlots reason effective slots digestMap pool taken
    else
      let info ← okOr (digestMap.get (reason, slot.digest)) .slotOfPoolNotFound
      let (info, deposited, receipt) ← info.deposit slot.variant part
      ensure (deposited = part) .poolUnsupported
      let taken ← okOr (checkedAdd T.share.maxAsset taken deposited) .withdrawAccumulationExhausted
      let pool ← pool.setSlotCommit slot.digest receipt
      recoverSlots reason effective slots (digestMap.insert (reason, slot.digest) info) pool taken

/-- Spreads the value of a released pool over its slots; what the rounding leaves over is
paid to the manager. -/
def recoverPool (s : State T) (reason : T.Reason) (poolOf : T.AccountId) (balance : LazyBalance T) :
    Except DispatchError (State T) := do
  let effective := ShareBalance.totalValue balance
  let pool ← getPool s reason poolOf
  ensure (pool.balance = none) .releasePoolToRecover
  ensure (pool.capital ≠ 0) .capitalCannotBeZero
  let (digestMap, pool, taken) ← recoverSlots reason effective pool.slots s.digestMap pool 0
  let s := { s with digestMap }
  let dust := effective - taken
  if dust = 0 then
    pure { s with poolMap := s.poolMap.insert (reason, poolOf) (pool.setBalance balance) }
  else
    let manager ← getManager s reason poolOf
    let (s, paid) ← resolveImbalance s manager { deposit := dust, withdraw := dust }
    let s ← subFromTotalValue s reason paid
    let (reaped, balance) ← liftShare (ShareBalance.reap balance dust)
    ensure (reaped = dust) .poolUnsupported
    pure { s with poolMap := s.poolMap.insert (reason, poolOf) (pool.setBalance balance) }

def depositToPool (s : State T) (reason : T.Reason) (poolOf : T.AccountId) (value : Nat) :
    Except DispatchError (State T × CommitInstance T × Nat) := do
  let (s, balance) ← releasePool s reason poolOf
  let ((deposited, receipt), balance) ← liftShare (ShareBalance.deposit balance value)
  let s ← recoverPool s reason poolOf balance
  pure (s, some receipt, deposited)

end FrameSuite
