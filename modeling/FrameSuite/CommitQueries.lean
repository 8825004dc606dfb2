import FrameSuite.CommitInspect
import FrameSuite.CommitPallet

/-! What other pallets ask the commitment pallet about: limits of a deposit, the parts of an index or a
pool with their shares, and what one account's commit is worth on one of these parts. -/

namespace FrameSuite

variable {T : Config}

structure Limits where
  minimum : Option Nat
  maximum : Option Nat

namespace Limits

def contains (limits : Limits) (value : Nat) : Bool :=
  limits.minimum.all (· ≤ value) && limits.maximum.all (value ≤ ·)

/-- The share balance accepts deposits of any size. -/
def ofShareBalance (_ : LazyBalance T) : Limits := { minimum := none, maximum := none }

end Limits

def commitExists (s : State T) (who : T.AccountId) (reason : T.Reason) : Except DispatchError Unit :=
  ensure (s.commitMap.containsKey (who, reason) = true) .commitNotFound

def placeCommitLimitsOfVariant (s : State T) (reason : T.Reason) (digest : T.AccountId)
    (variant : T.Position) : Limits :=
  let balance := (s.digestMap.get (reason, digest)).bind fun info => info.getBalance variant
  Limits.ofShareBalance (balance.getD none)

def placeCommitLimits (s : State T) (reason : T.Reason) (digest : T.AccountId) : Limits :=
  placeCommitLimitsOfVariant s reason digest T.positionDefault

def raiseCommitLimits (s : State T) (who : T.AccountId) (reason : T.Reason) :
    Except DispatchError Limits := do
  let digest ← getCommitDigest s who reason
  let variant ← getCommitVariant s who reason
  pure (placeCommitLimitsOfVariant s reason digest variant)

def getDigestValue (s : State T) (reason : T.Reason) (digest : T.AccountId) : Except DispatchError Nat :=
  getDigestVariantValue s reason digest T.positionDefault

def entryExists (s : State T) (reason : T.Reason) (indexOf entryOf : T.AccountId) :
    Except DispatchError Unit := do
  let index ← getIndex s reason indexOf
  ensure (index.entries.list.any fun entry => entry.digest = entryOf) .entryOfIndexNotFound

def slotExists (s : State T) (reason : T.Reason) (poolOf slotOf : T.AccountId) :
    Except DispatchError Unit := do
  let pool ← getPool s reason poolOf
  ensure (pool.slots.any fun slot => slot.digest = slotOf) .slotOfPoolNotFound

def getEntriesShares (s : State T) (reason : T.Reason) (indexOf : T.AccountId) :
    Except DispatchError (List (T.AccountId × Nat)) := do
  let index ← getIndex s reason indexOf
  pure (index.entries.list.map fun entry => (entry.digest, entry.shares))

def getSlotsShares (s : State T) (reason : T.Reason) (poolOf : T.AccountId) :
    Except DispatchError (List (T.AccountId × Nat)) := do
  let pool ← getPool s reason poolOf
  pure (pool.slots.map fun slot => (slot.digest, slot.shares))

def indexEntryCommitValue (s : State T) (who : T.AccountId) (reason : T.Reason)
    (indexOf entryOf : T.AccountId) : Except DispatchError Nat := do
  let index ← getIndex s reason indexOf
  let entry ← okOr (index.entries.list.find? fun entry => entry.digest = entryOf) .entryOfIndexNotFound
  let commits ← okOr (s.entryMap.get (reason, indexOf, entryOf, who)) .commitNotFoundForEntry
  let info ← okOr (s.digestMap.get (reason, entryOf)) .entryDigestNotFound
  let balance ← okOr (info.getBalance entry.variant) .digestVariantBalanceNotFound
  activeValues balance commits.receipts 0

def getEntryValueFor (s : State T) (who : T.AccountId) (reason : T.Reason)
    (indexOf entryOf : T.AccountId) : Except DispatchError Nat := do
  let digest ← getCommitDigest s who reason
  entryExists s reason indexOf entryOf
  ensure (digest = indexOf) .commitNotFoundForEntry
  indexEntryCommitValue s who reason indexOf entryOf

/-- The slot's share of the commit on the pool; a part below one unit is nothing. -/
def poolSlotCommitValue (s : State T) (who : T.AccountId) (reason : T.Reason)
    (poolOf slotOf : T.AccountId) : Except DispatchError Nat := do
  let poolCommit ← poolCommitValue s who reason poolOf
  let pool ← getPool s reason poolOf
  let slot ← okOr (pool.slots.find? fun slot => slot.digest = slotOf) .slotOfPoolNotFound
  let factor ← okOr (Fixed.checkedFromRational (F := T.share.rational) slot.shares pool.capital)
    .tooSmallShareValue
  let value ← okOr ((Fixed.saturatingFromInteger poolCommit).checkedMul factor) .withdrawalOverflow
  if value.inner < T.share.rational.div then pure 0 else pure value.toInteger

def getSlotValueFor (s : State T) (who : T.AccountId) (reason : T.Reason)
    (poolOf slotOf : T.AccountId) : Except DispatchError Nat := do
  let digest ← getCommitDigest s who reason
  slotExists s reason poolOf slotOf
  ensure (digest = poolOf) .commitNotFoundForSlot
  poolSlotCommitValue s who reason poolOf slotOf

/-- The digest is derived from the nonce of the caller, which is given. -/
def genPoolDigest (s : State T) (reason : T.Reason) (indexOf : T.AccountId) (commission : Commission T)
    (generated : T.AccountId) : Except DispatchError T.AccountId := do
  let index ← getIndex s reason indexOf
  let _ ← PoolInfo.new index.entries commission
  pure generated

end FrameSuite
