import FrameSuite.CommitOps

/-! What a proprietor can ask about a commit: whether it can be resolved and what it is worth. The
checks of the source for zero shares are carried by the stored types. -/

namespace FrameSuite

variable {T : Config}

def canWithdrawReceipts (balance : LazyBalance T) : List (CommitInstance T) → Except DispatchError Unit
  | [] => .ok ()
  | receipt :: receipts => do
    (ShareBalance.canWithdraw balance receipt).mapError DispatchError.balance
    canWithdrawReceipts balance receipts

/-- An entry without a commit of the proprietor is passed over. -/
def canResolveEntries (s : State T) (who : T.AccountId) (reason : T.Reason) (indexOf : T.AccountId) :
    List (EntryInfo T) → Except DispatchError Unit
  | [] => .ok ()
  | entry :: entries =>
    match s.entryMap.get (reason, indexOf, entry.digest, who) with
    | none => canResolveEntries s who reason indexOf entries
    | some commits => do
      let info ← okOr (s.digestMap.get (reason, entry.digest)) .entryDigestNotFound
      let balance ← okOr (info.getBalance entry.variant) .digestVariantBalanceNotFound
      canWithdrawReceipts balance commits.receipts
      canResolveEntries s who reason indexOf entries

def canResolveCommit (s : State T) (who : T.AccountId) (reason : T.Reason) : Except DispatchError Unit := do
  let digest ← getCommitDigest s who reason
  let model ← determineDigest s digest reason
  match model with
  | .direct direct => do
    let variant ← getCommitVariant s who reason
    let info ← okOr (s.digestMap.get (reason, direct)) .digestNotFound
    let balance ← okOr (info.getBalance variant) .digestVariantBalanceNotFound
    let commit ← getCommit s who reason
    canWithdrawReceipts balance commit.commits.receipts
  | .index index => do
    let info ← getIndex s reason index
    canResolveEntries s who reason index info.entries.list
  | .pool pool => do
    let info ← getPool s reason pool
    let commit ← getCommit s who reason
    canWithdrawReceipts info.balance commit.commits.receipts

/-- Adds what the receipts are worth on one balance to a total. -/
def activeValues (balance : LazyBalance T) : List (CommitInstance T) → Nat → Except DispatchError Nat
  | [], total => .ok total
  | receipt :: receipts, total => do
    let take ← (ShareBalance.receiptActiveValue balance receipt).mapError DispatchError.balance
    let total ← okOr (checkedAdd T.share.maxAsset total take) .commitsAccumulationExhausted
    activeValues balance receipts total

def digestCommitValue (s : State T) (who : T.AccountId) (reason : T.Reason) (digest : T.AccountId) :
    Except DispatchError Nat := do
  let info ← okOr (s.digestMap.get (reason, digest)) .digestNotFound
  let commit ← getCommit s who reason
  let balance ← okOr (info.getBalance commit.variant) .digestVariantBalanceNotFound
  activeValues balance commit.commits.receipts 0

def entryCommitValues (s : State T) (who : T.AccountId) (reason : T.Reason) (indexOf : T.AccountId) :
    List (EntryInfo T) → Nat → Except DispatchError Nat
  | [], total => .ok total
  | entry :: entries, total => do
    let commits ← okOr (s.entryMap.get (reason, indexOf, entry.digest, who)) .commitNotFoundForEntry
    let info ← okOr (s.digestMap.get (reason, entry.digest)) .entryOfIndexNotFound
    let balance ← okOr (info.getBalance entry.variant) .digestVariantBalanceNotFound
    let total ← activeValues balance commits.receipts total
    entryCommitValues s who reason indexOf entries total

def indexCommitValue (s : State T) (who : T.AccountId) (reason : T.Reason) (indexOf : T.AccountId) :
    Except DispatchError Nat := do
  let info ← getIndex s reason indexOf
  entryCommitValues s who reason indexOf info.entries.list 0

def slotActiveValues (s : State T) (reason : T.Reason) : List (SlotInfo T) → Nat → Except DispatchError Nat
  | [], taken => .ok taken
  | slot :: slots, taken => do
    let info ← okOr (s.digestMap.get (reason, slot.digest)) .slotOfPoolNotFound
    let balance ← okOr (info.getBalance slot.variant) .digestVariantBalanceNotFound
    let take ← (ShareBalance.receiptActiveValue balance slot.commit).mapError DispatchError.balance
    let taken ← okOr (checkedAdd T.share.maxAsset taken take) .withdrawAccumulationExhausted
    slotActiveValues s reason slots taken

/-- Withdraws the receipts from a copy of the balance, for their value. -/
def withdrawnValues : List (CommitInstance T) → LazyBalance T → Nat → Except DispatchError Nat
  | [], _, total => .ok total
  | receipt :: receipts, balance, total => do
    let (take, balance) ← liftShare (ShareBalance.withdraw balance receipt)
    let total ← okOr (checkedAdd T.share.maxAsset total take) .commitsAccumulationExhausted
    withdrawnValues receipts balance total

/-- The value of a commit on the pool as if the pool were released. -/
def poolCommitValue (s : State T) (who : T.AccountId) (reason : T.Reason) (poolOf : T.AccountId) :
    Except DispatchError Nat := do
  let pool ← getPool s reason poolOf
  let commit ← getCommit s who reason
  ensure (commit.digest = poolOf) .commitNotFoundForPool
  ensure (pool.capital ≠ 0) .capitalCannotBeZero
  match pool.slots with
  | [] => .error .emptySlotsNotAllowed
  | first :: slots =>
    if first.commit = none then pure 0
    else do
      let taken ← slotActiveValues s reason (first :: slots) 0
      let balance ← adjustPoolBalance pool.balance taken
      withdrawnValues commit.commits.receipts balance 0

def commitValueOf (s : State T) (who : T.AccountId) (reason : T.Reason) (model : DigestVariant T) :
    Except DispatchError Nat :=
  match model with
  | .direct dir => digestCommitValue s who reason dir
  | .index index => indexCommitValue s who reason index
  | .pool pool => poolCommitValue s who reason pool

def getCommitValue (s : State T) (who : T.AccountId) (reason : T.Reason) : Except DispatchError Nat := do
  let digest ← getCommitDigest s who reason
  let model ← determineDigest s digest reason
  commitValueOf s who reason model

end FrameSuite
