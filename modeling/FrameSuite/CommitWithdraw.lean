import FrameSuite.CommitDeposit

/-! Withdrawals from digests, indexes and pools. Each returns the deposit and the
withdrawal of all receipts of the commit; a pool pays its manager's commission first. -/

namespace FrameSuite

variable {T : Config}

/-- Withdraws receipts from one balance and adds up what was given and what is taken. -/
def withdrawReceipts :
    List (CommitInstance T) → LazyBalance T → AssetDelta →
      Except DispatchError (LazyBalance T × AssetDelta)
  | [], balance, imbalance => .ok (balance, imbalance)
  | receipt :: receipts, balance, imbalance => do
    let value ← (ShareBalance.receiptDepositValue receipt).mapError DispatchError.balance
    let given ← okOr (checkedAdd T.share.maxAsset imbalance.deposit value)
      .depositAccumulationExhausted
    let (take, balance) ← liftShare (ShareBalance.withdraw balance receipt)
    let taken ← okOr (checkedAdd T.share.maxAsset imbalance.withdraw take)
      .withdrawAccumulationExhausted
    withdrawReceipts receipts balance { deposit := given, withdraw := taken }

def withdrawFromDigest (s : State T) (who : T.AccountId) (reason : T.Reason) (digest : T.AccountId) :
    Except DispatchError (State T × AssetDelta) := do
  let variant ← getCommitVariant s who reason
  let info ← okOr (s.digestMap.get (reason, digest)) .digestNotFound
  let balance ← okOr (info.getBalance variant) .digestVariantBalanceNotFound
  let commit ← getCommit s who reason
  let (balance, imbalance) ←
    withdrawReceipts commit.commits.receipts balance { deposit := 0, withdraw := 0 }
  pure ({ s with
    digestMap := s.digestMap.insert (reason, digest) (info.setBalance variant balance) }, imbalance)

/-- Withdraws the receipts a proprietor holds on one entry of an index. -/
def withdrawEntryReceipts (reason : T.Reason) (digest : T.AccountId) (variant : T.Position) :
    List (CommitInstance T) → DigestMap T → AssetDelta →
      Except DispatchError (DigestMap T × AssetDelta)
  | [], digestMap, imbalance => .ok (digestMap, imbalance)
  | receipt :: receipts, digestMap, imbalance => do
    let value ← (ShareBalance.receiptDepositValue receipt).mapError DispatchError.balance
    let given ← okOr (checkedAdd T.share.maxAsset imbalance.deposit value)
      .depositAccumulationExhausted
    let info ← okOr (digestMap.get (reason, digest)) .entryDigestNotFound
    let (info, take) ← info.withdraw variant receipt
    let taken ← okOr (checkedAdd T.share.maxAsset imbalance.withdraw take)
      .withdrawAccumulationExhausted
    withdrawEntryReceipts reason digest variant receipts
      (digestMap.insert (reason, digest) info) { deposit := given, withdraw := taken }

/-- Every entry of the index needs a commit of the proprietor, which is removed. -/
def withdrawEntries (who : T.AccountId) (reason : T.Reason) (indexOf : T.AccountId) :
    List (EntryInfo T) → State T → AssetDelta → Except DispatchError (State T × AssetDelta)
  | [], s, imbalance => .ok (s, imbalance)
  | entry :: entries, s, imbalance => do
    let commits ← okOr (s.entryMap.get (reason, indexOf, entry.digest, who)) .commitNotFoundForEntry
    let (digestMap, imbalance) ←
      withdrawEntryReceipts reason entry.digest entry.variant commits.receipts s.digestMap imbalance
    let entryMap := s.entryMap.remove (reason, indexOf, entry.digest, who)
    withdrawEntries who reason indexOf entries { s with digestMap, entryMap } imbalance

def withdrawFromIndex (s : State T) (who : T.AccountId) (reason : T.Reason) (indexOf : T.AccountId) :
    Except DispatchError (State T × AssetDelta) := do
  let info ← getIndex s reason indexOf
  let (s, imbalance) ←
    withdrawEntries who reason indexOf info.entries.list s { deposit := 0, withdraw := 0 }
  let principal ← okOr (checkedSub info.principal imbalance.deposit) .indexBalanceUnderflow
  pure ({ s with indexMap := s.indexMap.insert (reason, indexOf) (info.setBalance principal) },
    imbalance)

/-- The manager's part of a withdrawal. -/
def commissionOf (commission : Commission T) (taken : Nat) : Except DispatchError Nat := do
  ensure (taken * commission.parts ≤ T.share.maxAsset) .commissionOverflow
  ensure (T.accuracy ≠ 0) .derivedLessThanZeroValue
  pure (taken * commission.parts / T.accuracy)

def payCommission (s : State T) (reason : T.Reason) (poolOf : T.AccountId) (imbalance : AssetDelta) :
    Except DispatchError (State T × AssetDelta) := do
  let pool ← getPool s reason poolOf
  if pool.commission.parts = 0 then pure (s, imbalance)
  else
    let payTo ← getManager s reason poolOf
    let toPay ← commissionOf pool.commission imbalance.withdraw
    if toPay = 0 then pure (s, imbalance)
    else
      let (s, imbalance, payment) ← deductFromImbalance s imbalance toPay
      let (s, paid) ← resolveImbalance s payTo payment
      let s ← subFromTotalValue s reason paid
      pure (s, imbalance)

def withdrawFromPool (s : State T) (who : T.AccountId) (reason : T.Reason) (poolOf : T.AccountId) :
    Except DispatchError (State T × AssetDelta) := do
  let commit ← getCommit s who reason
  let (s, balance) ← releasePool s reason poolOf
  let (balance, imbalance) ←
    withdrawReceipts commit.commits.receipts balance { deposit := 0, withdraw := 0 }
  let s ← recoverPool s reason poolOf balance
  payCommission s reason poolOf imbalance

end FrameSuite
