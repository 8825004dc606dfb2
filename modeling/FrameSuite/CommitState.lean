import FrameSuite.CommitTypes

/-! The storage of the commitment pallet, the queries that read it and the movements
between the underlying fungible and the two counters of outstanding issuance and reaping. -/

namespace FrameSuite

variable {T : Config}

abbrev DigestMap (T : Config) := StorageMap (T.Reason × T.AccountId) (DigestInfo T)

abbrev CommitMap (T : Config) := StorageMap (T.AccountId × T.Reason) (CommitInfo T)

/-- The reason, index, entry digest and proprietor of an entry commit. -/
abbrev EntryKey (T : Config) := T.Reason × T.AccountId × T.AccountId × T.AccountId

abbrev EntryMap (T : Config) := StorageMap (EntryKey T) (Commits T)

structure State (T : Config) where
  ledger : T.Ledger
  reasonValue : StorageMap T.Reason Nat
  digestMap : DigestMap T
  commitMap : CommitMap T
  indexMap : StorageMap (T.Reason × T.AccountId) (IndexInfo T)
  entryMap : EntryMap T
  poolMap : StorageMap (T.Reason × T.AccountId) (PoolInfo T)
  poolManager : StorageMap (T.Reason × T.AccountId) T.AccountId
  assetToIssue : Nat
  assetToReap : Nat

/-- No commitment has been made yet; the fungible holds whatever it held before. -/
def State.genesis (ledger : T.Ledger) : State T :=
  { ledger
    reasonValue := .empty
    digestMap := .empty
    commitMap := .empty
    indexMap := .empty
    entryMap := .empty
    poolMap := .empty
    poolManager := .empty
    assetToIssue := 0
    assetToReap := 0 }

/-- Runs an operation of the fungible on the ledger of the state. -/
def State.onLedger (s : State T) (op : T.Ledger → Except DispatchError T.Ledger) :
    Except DispatchError (State T) := do
  let ledger ← op s.ledger
  pure { s with ledger }

/-- Skips an operation on a zero amount. -/
def State.unlessZero (s : State T) (value : Nat) (op : Except DispatchError (State T)) :
    Except DispatchError (State T) :=
  if value = 0 then .ok s else op

def State.increaseBalance (s : State T) (who : T.AccountId) (value : Nat) :
    Except DispatchError (State T) :=
  s.onLedger fun l => T.asset.increaseBalance l who value

def State.decreaseBalance (s : State T) (who : T.AccountId) (value : Nat) :
    Except DispatchError (State T) :=
  s.onLedger fun l => T.asset.decreaseBalance l who value

def State.decreaseBalanceOnHold (s : State T) (who : T.AccountId) (value : Nat) :
    Except DispatchError (State T) :=
  s.onLedger fun l => T.asset.decreaseBalanceOnHold l who value

def State.mintInto (s : State T) (who : T.AccountId) (value : Nat) :
    Except DispatchError (State T) :=
  s.onLedger fun l => T.asset.mintInto l who value

def State.burnFrom (s : State T) (who : T.AccountId) (value : Nat) :
    Except DispatchError (State T) :=
  s.onLedger fun l => T.asset.burnFrom l who value

def getCommit (s : State T) (who : T.AccountId) (reason : T.Reason) :
    Except DispatchError (CommitInfo T) :=
  okOr (s.commitMap.get (who, reason)) .commitNotFound

def getCommitDigest (s : State T) (who : T.AccountId) (reason : T.Reason) :
    Except DispatchError T.AccountId := do
  let info ← getCommit s who reason
  pure info.digest

def getCommitVariant (s : State T) (who : T.AccountId) (reason : T.Reason) :
    Except DispatchError T.Position := do
  let info ← getCommit s who reason
  pure info.variant

def getIndex (s : State T) (reason : T.Reason) (indexOf : T.AccountId) :
    Except DispatchError (IndexInfo T) :=
  okOr (s.indexMap.get (reason, indexOf)) .indexNotFound

def getPool (s : State T) (reason : T.Reason) (poolOf : T.AccountId) :
    Except DispatchError (PoolInfo T) :=
  okOr (s.poolMap.get (reason, poolOf)) .poolNotFound

def getManager (s : State T) (reason : T.Reason) (poolOf : T.AccountId) :
    Except DispatchError T.AccountId := do
  ensure (s.poolMap.containsKey (reason, poolOf) = true) .poolNotFound
  okOr (s.poolManager.get (reason, poolOf)) .poolManagerNotFound

/-- Direct digests are looked up first, then indexes, then pools. -/
def determineDigest (s : State T) (digest : T.AccountId) (reason : T.Reason) :
    Except DispatchError (DigestVariant T) :=
  if s.digestMap.containsKey (reason, digest) then .ok (.direct digest)
  else if s.indexMap.containsKey (reason, digest) then .ok (.index digest)
  else if s.poolMap.containsKey (reason, digest) then .ok (.pool digest)
  else .error .digestNotFoundToDetermine

def getTotalValue (s : State T) (reason : T.Reason) : Nat := (s.reasonValue.get reason).getD 0

def setTotalValue (s : State T) (reason : T.Reason) (value : Nat) : State T :=
  { s with reasonValue := s.reasonValue.insert reason value }

def addToTotalValue (s : State T) (reason : T.Reason) (value : Nat) :
    Except DispatchError (State T) := do
  let total ← okOr (checkedAdd T.share.maxAsset (getTotalValue s reason) value) .arithmeticOverflow
  pure (setTotalValue s reason total)

def subFromTotalValue (s : State T) (reason : T.Reason) (value : Nat) :
    Except DispatchError (State T) := do
  let total ← okOr (checkedSub (getTotalValue s reason) value) .arithmeticUnderflow
  pure (setTotalValue s reason total)

def addAssetToIssue (s : State T) (value : Nat) : Except DispatchError (State T) := do
  let assetToIssue ← okOr (checkedAdd T.share.maxAsset s.assetToIssue value) .maxAssetIssued
  pure { s with assetToIssue }

def addAssetToReap (s : State T) (value : Nat) : Except DispatchError (State T) := do
  let assetToReap ← okOr (checkedAdd T.share.maxAsset s.assetToReap value) .maxAssetReaped
  pure { s with assetToReap }

/-- Pays the withdrawal out: a gain is minted against the issuance still outstanding, a
loss is burnt against the reaping still outstanding. -/
def resolveImbalance (s : State T) (who : T.AccountId) (imbalance : AssetDelta) :
    Except DispatchError (State T × Nat) :=
  let deposit := imbalance.deposit
  let withdraw := imbalance.withdraw
  if deposit < withdraw then do
    let reward := withdraw - deposit
    let assetToIssue ← okOr (checkedSub s.assetToIssue reward) .mintingMoreThanIssued
    let s := { s with assetToIssue }
    let s ← s.unlessZero deposit (s.increaseBalance who deposit)
    let s ← s.mintInto who reward
    pure (s, saturatingAdd T.share.maxAsset deposit reward)
  else if deposit = withdraw then do
    let s ← s.increaseBalance who withdraw
    pure (s, withdraw)
  else do
    let penalty := deposit - withdraw
    let assetToReap ← okOr (checkedSub s.assetToReap penalty) .burningMoreThanReapable
    let s := { s with assetToReap }
    let s ← s.increaseBalance who deposit
    let s ← s.unlessZero penalty (s.burnFrom who penalty)
    pure (s, deposit - penalty)

/-- Takes the value from the commit reserve first and from liquid funds for the rest. -/
def deductBalance (s : State T) (who : T.AccountId) (value : Nat) (qualifier : Directive) :
    Except DispatchError (State T × Nat) :=
  let reserve := T.asset.balanceOnHold s.ledger who
  if value ≤ reserve then do
    let s ← s.decreaseBalanceOnHold who value
    pure (s, value)
  else if qualifier.fortitude = .polite ∧ (qualifier.precision = .exact ∨ reserve = 0) then do
    ensure (T.asset.totalBalanceOnHold s.ledger who < value) .expectsHoldWithdrawal
    .error .insufficientFunds
  else do
    let liquid := T.asset.reducibleBalance s.ledger who
    let total ← okOr (checkedAdd T.share.maxAsset reserve liquid) .reserveLiquidOverflow
    if total < value then
      if qualifier.precision = .exact ∨ total = 0 then do
        ensure (T.asset.totalBalance s.ledger who ≤ value) .expectsFreezeAndHoldWithdrawal
        .error .insufficientFunds
      else do
        let s ← s.decreaseBalance who liquid
        let s ← s.decreaseBalanceOnHold who reserve
        pure (s, total)
    else do
      let excess := total - value
      let free := liquid - excess
      let s ← s.decreaseBalance who free
      let s ← s.decreaseBalanceOnHold who reserve
      pure (s, value)

/-- Splits a payment off an imbalance. A reward pays first and is then simply not minted;
what it does not cover is recorded as a penalty still to be burnt. -/
def deductFromImbalance (s : State T) (imbalance : AssetDelta) (value : Nat) :
    Except DispatchError (State T × AssetDelta × AssetDelta) := do
  let given := imbalance.deposit
  let taken := imbalance.withdraw
  let payment : AssetDelta := { deposit := value, withdraw := value }
  if given < taken then
    let reward := taken - given
    if value < reward then
      pure (s, { imbalance with withdraw := saturatingAdd T.share.maxAsset given (reward - value) },
        payment)
    else if value = reward then
      pure (s, { imbalance with withdraw := given }, payment)
    else do
      let remaining := value - reward
      let s ← addAssetToReap s remaining
      pure (s, { imbalance with withdraw := given - remaining }, payment)
  else do
    let s ← addAssetToReap s value
    pure (s, { imbalance with withdraw := taken - value }, payment)

end FrameSuite
