import FrameSuite.CommitOps
import FrameSuite.Run

/-! The remaining calls of the pallet: digest values, indexes, pools and their slots,
and reaping. A run of the pallet is any sequence of these calls, with arbitrary changes
of the underlying fungible by others in between. -/

namespace FrameSuite

variable {T : Config}

def getDigestVariantValue (s : State T) (reason : T.Reason) (digest : T.AccountId)
    (variant : T.Position) : Except DispatchError Nat := do
  let info ← okOr (s.digestMap.get (reason, digest)) .digestNotFound
  pure (ShareBalance.totalValue ((info.getBalance variant).getD none))

/-- Mints or reaps the balance to the new value, books the difference as issuance or
reaping still to be resolved and returns the value reached. -/
def setDigestVariantValue (s : State T) (reason : T.Reason) (digest : T.AccountId) (value : Nat)
    (variant : T.Position) : Except DispatchError (State T × Nat) := do
  let info ← okOr (s.digestMap.get (reason, digest)) .digestNotFound
  let balance ← okOr (info.getBalance variant) .digestVariantBalanceNotFound
  let current := ShareBalance.totalValue balance
  if current < value then
    let (actual, balance) ← liftShare (ShareBalance.mint balance (value - current))
    let s := { s with
      digestMap := s.digestMap.insert (reason, digest) (info.setBalance variant balance) }
    let s ← addAssetToIssue s actual
    let s ← addToTotalValue s reason actual
    pure (s, saturatingAdd T.share.maxAsset current actual)
  else if value < current then
    let (actual, balance) ← liftShare (ShareBalance.reap balance (current - value))
    let s := { s with
      digestMap := s.digestMap.insert (reason, digest) (info.setBalance variant balance) }
    let s ← addAssetToReap s actual
    let s ← subFromTotalValue s reason actual
    pure (s, current - actual)
  else pure (s, current)

/-- The balances of a digest that are not default, each at a valid position. -/
def DigestInfo.occupied (info : DigestInfo T) : Except DispatchError (List (LazyBalance T)) :=
  (info.balances.zipIdx.filter fun p => p.1.isSome).mapM fun p => do
    let _ ← okOr (T.positionOf p.2) .invalidCommitVariantIndex
    pure p.1

def reapDigest (s : State T) (digest : T.AccountId) (reason : T.Reason) :
    Except DispatchError (State T) := do
  let info ← okOr (s.digestMap.get (reason, digest)) .digestNotFound
  let balances ← info.occupied
  ensure (∀ balance ∈ balances, (ShareBalance.hasDeposits balance).isOk = false) .digestHasFunds
  let remaining := (balances.getLast?.map ShareBalance.totalValue).getD 0
  let s ← s.unlessZero remaining do
    let s ← addAssetToReap s remaining
    subFromTotalValue s reason remaining
  pure { s with digestMap := s.digestMap.remove (reason, digest) }

/-- Entries with zero shares are ignored. -/
def prepareEntries (s : State T) (reason : T.Reason) :
    List (T.AccountId × Nat × T.Position) → Except DispatchError (List (EntryInfo T))
  | [] => .ok []
  | (digest, shares, variant) :: entries =>
    if shares = 0 then prepareEntries s reason entries
    else do
      ensure (s.digestMap.containsKey (reason, digest) = true) .entryDigestNotInitiated
      let entry ← EntryInfo.new digest shares variant
      let entries ← prepareEntries s reason entries
      pure (entry :: entries)

def prepareIndexOfVariants (s : State T) (reason : T.Reason)
    (entries : List (T.AccountId × Nat × T.Position)) : Except DispatchError (IndexInfo T) := do
  let entries ← prepareEntries s reason entries
  let entries ← Entries.new entries
  IndexInfo.new entries

def prepareIndex (s : State T) (reason : T.Reason) (entries : List (T.AccountId × Nat)) :
    Except DispatchError (IndexInfo T) :=
  prepareIndexOfVariants s reason (entries.map fun e => (e.1, e.2, T.positionDefault))

def setIndex (s : State T) (reason : T.Reason) (index : IndexInfo T) (digest : T.AccountId) :
    Except DispatchError (State T) := do
  ensure (s.indexMap.containsKey (reason, digest) = false) .indexDigestTaken
  pure { s with indexMap := s.indexMap.insert (reason, digest) index }

def findEntry (s : State T) (reason : T.Reason) (indexOf entryOf : T.AccountId) :
    Option (EntryInfo T) := do
  let info ← s.indexMap.get (reason, indexOf)
  info.entries.list.find? fun entry => entry.digest = entryOf

/-- Indexes are immutable: the changed entries become a new index at a generated digest. -/
def removeIndexEntry (s : State T) (reason : T.Reason) (indexOf entryOf generated : T.AccountId) :
    Except DispatchError (State T) := do
  let info ← getIndex s reason indexOf
  let entries ← info.entries.removeEntry entryOf
  let index ← IndexInfo.new entries
  setIndex s reason index generated

def setIndexEntry (s : State T) (reason : T.Reason) (indexOf entryOf : T.AccountId) (shares : Nat)
    (variant : T.Position) (generated : T.AccountId) : Except DispatchError (State T) := do
  ensure (shares ≠ 0) .shareCannotBeZero
  let info ← getIndex s reason indexOf
  let entries ← info.entries.dropEntry entryOf
  let entry ← EntryInfo.new entryOf shares variant
  let entries ← entries.addEntry entry
  let index ← IndexInfo.new entries
  setIndex s reason index generated

def setEntryShares (s : State T) (reason : T.Reason) (indexOf entryOf : T.AccountId) (shares : Nat)
    (generated : T.AccountId) : Except DispatchError (State T) :=
  match findEntry s reason indexOf entryOf with
  | some entry =>
    if shares = 0 then removeIndexEntry s reason indexOf entryOf generated
    else setIndexEntry s reason indexOf entryOf shares entry.variant generated
  | none =>
    if shares = 0 then pure s
    else do
      ensure (s.digestMap.containsKey (reason, entryOf) = true) .entryDigestNotInitiated
      setIndexEntry s reason indexOf entryOf shares T.positionDefault generated

def setEntryOfVariant (s : State T) (reason : T.Reason) (indexOf entryOf : T.AccountId)
    (variant : T.Position) (shares : Option Nat) (generated : T.AccountId) :
    Except DispatchError (State T) :=
  match findEntry s reason indexOf entryOf, shares with
  | some _, some shares =>
    if shares = 0 then removeIndexEntry s reason indexOf entryOf generated
    else setIndexEntry s reason indexOf entryOf shares variant generated
  | some entry, none => setIndexEntry s reason indexOf entryOf entry.shares variant generated
  | none, some shares =>
    if shares = 0 then pure s
    else do
      ensure (s.digestMap.containsKey (reason, entryOf) = true) .entryDigestNotInitiated
      setIndexEntry s reason indexOf entryOf shares variant generated
  | none, none => pure s

/-- Whether some proprietor holds a commit on the entry of the index. -/
def hasEntryCommits (s : State T) (reason : T.Reason) (indexOf entryOf : T.AccountId) : Prop :=
  ∃ key ∈ s.entryMap.keys, key.1 = reason ∧ key.2.1 = indexOf ∧ key.2.2.1 = entryOf

instance (s : State T) (reason : T.Reason) (indexOf entryOf : T.AccountId) :
    Decidable (hasEntryCommits s reason indexOf entryOf) :=
  inferInstanceAs (Decidable (∃ key ∈ s.entryMap.keys, _))

def reapIndex (s : State T) (reason : T.Reason) (indexOf : T.AccountId) :
    Except DispatchError (State T) := do
  let info ← getIndex s reason indexOf
  ensure (info.principal = 0) .indexHasFunds
  ensure (∀ entry ∈ info.entries.list, ¬hasEntryCommits s reason indexOf entry.digest) .indexHasFunds
  pure { s with indexMap := s.indexMap.remove (reason, indexOf) }

def setPoolManager (s : State T) (reason : T.Reason) (poolOf manager : T.AccountId) :
    Except DispatchError (State T) := do
  ensure (s.poolMap.containsKey (reason, poolOf) = true) .poolNotFound
  pure { s with poolManager := s.poolManager.insert (reason, poolOf) manager }

def setPool (s : State T) (who : T.AccountId) (reason : T.Reason) (poolOf indexOf : T.AccountId)
    (commission : Commission T) : Except DispatchError (State T) := do
  ensure (s.poolMap.containsKey (reason, poolOf) = false) .poolDigestTaken
  let info ← getIndex s reason indexOf
  let pool ← PoolInfo.new info.entries commission
  let s := { s with poolMap := s.poolMap.insert (reason, poolOf) pool }
  setPoolManager s reason poolOf who

def removePoolSlot (s : State T) (reason : T.Reason) (poolOf slotOf : T.AccountId) :
    Except DispatchError (State T) := do
  let (s, balance) ← releasePool s reason poolOf
  let pool ← getPool s reason poolOf
  let pool ← pool.removeSlot slotOf
  ensure (pool.capital ≠ 0) .capitalCannotBeZero
  let s := { s with poolMap := s.poolMap.insert (reason, poolOf) pool }
  recoverPool s reason poolOf balance

/-- An existing slot is removed and added again at the end. -/
def setPoolSlot (s : State T) (reason : T.Reason) (poolOf slotOf : T.AccountId) (shares : Nat)
    (variant : T.Position) : Except DispatchError (State T) := do
  ensure (shares ≠ 0) .shareCannotBeZero
  let (s, balance) ← releasePool s reason poolOf
  let pool ← getPool s reason poolOf
  let pool ← pool.dropSlot slotOf
  let entry ← EntryInfo.new slotOf shares variant
  let pool ← pool.addSlot entry
  let s := { s with poolMap := s.poolMap.insert (reason, poolOf) pool }
  recoverPool s reason poolOf balance

def findSlot (s : State T) (reason : T.Reason) (poolOf slotOf : T.AccountId) :
    Option (SlotInfo T) := do
  let pool ← s.poolMap.get (reason, poolOf)
  pool.slots.find? fun slot => slot.digest = slotOf

def setSlotShares (s : State T) (reason : T.Reason) (poolOf slotOf : T.AccountId) (shares : Nat) :
    Except DispatchError (State T) :=
  match findSlot s reason poolOf slotOf with
  | some slot =>
    if shares = 0 then removePoolSlot s reason poolOf slotOf
    else setPoolSlot s reason poolOf slotOf shares slot.variant
  | none =>
    if shares = 0 then pure s
    else do
      ensure (s.digestMap.containsKey (reason, slotOf) = true) .slotDigestNotInitiated
      setPoolSlot s reason poolOf slotOf shares T.positionDefault

def setSlotOfVariant (s : State T) (reason : T.Reason) (poolOf slotOf : T.AccountId)
    (variant : T.Position) (shares : Option Nat) : Except DispatchError (State T) :=
  match findSlot s reason poolOf slotOf, shares with
  | some _, some shares =>
    if shares = 0 then removePoolSlot s reason poolOf slotOf
    else setPoolSlot s reason poolOf slotOf shares variant
  | some slot, none => setPoolSlot s reason poolOf slotOf slot.shares variant
  | none, some shares =>
    if shares = 0 then pure s
    else do
      ensure (s.digestMap.containsKey (reason, slotOf) = true) .slotDigestNotInitiated
      setPoolSlot s reason poolOf slotOf shares variant
  | none, none => .error .slotOfPoolNotFound

def reapPool (s : State T) (reason : T.Reason) (poolOf : T.AccountId) :
    Except DispatchError (State T) := do
  let pool ← getPool s reason poolOf
  ensure ((ShareBalance.hasDeposits pool.balance).isOk = false) .poolHasFunds
  let effective := ShareBalance.totalValue pool.balance
  let s ← s.unlessZero effective do
    let manager ← getManager s reason poolOf
    let (s, paid) ← resolveImbalance s manager { deposit := 0, withdraw := effective }
    subFromTotalValue s reason paid
  pure { s with
    poolMap := s.poolMap.remove (reason, poolOf)
    poolManager := s.poolManager.remove (reason, poolOf) }

/-- The calls of the pallet. `generated` is the digest the pallet derives from the nonce of
the caller; `external` is any change of the fungible by others. -/
inductive Call (T : Config)
  | placeCommit (who : T.AccountId) (reason : T.Reason) (digest : T.AccountId) (value : Nat)
      (variant : T.Position) (qualifier : Directive)
  | raiseCommit (who : T.AccountId) (reason : T.Reason) (value : Nat) (qualifier : Directive)
  | resolveCommit (who : T.AccountId) (reason : T.Reason)
  | setCommitVariant (who : T.AccountId) (reason : T.Reason) (variant : T.Position)
      (qualifier : Directive)
  | setDigestValue (reason : T.Reason) (digest : T.AccountId) (value : Nat) (variant : T.Position)
  | reapDigest (digest : T.AccountId) (reason : T.Reason)
  | setIndex (reason : T.Reason) (index : IndexInfo T) (digest : T.AccountId)
  | setEntryShares (reason : T.Reason) (indexOf entryOf : T.AccountId) (shares : Nat)
      (generated : T.AccountId)
  | setEntryOfVariant (reason : T.Reason) (indexOf entryOf : T.AccountId) (variant : T.Position)
      (shares : Option Nat) (generated : T.AccountId)
  | reapIndex (reason : T.Reason) (indexOf : T.AccountId)
  | setPool (who : T.AccountId) (reason : T.Reason) (poolOf indexOf : T.AccountId)
      (commission : Commission T)
  | setPoolManager (reason : T.Reason) (poolOf manager : T.AccountId)
  | setSlotShares (reason : T.Reason) (poolOf slotOf : T.AccountId) (shares : Nat)
  | setSlotOfVariant (reason : T.Reason) (poolOf slotOf : T.AccountId) (variant : T.Position)
      (shares : Option Nat)
  | reapPool (reason : T.Reason) (poolOf : T.AccountId)
  | external (ledger : T.Ledger)

/-- Executes a call. A call that fails leaves the storage as it was. -/
def State.apply (s : State T) : Call T → Except DispatchError (State T)
  | .placeCommit who reason digest value variant qualifier => do
    let (s, _) ← placeCommitOfVariant s who reason digest value variant qualifier
    pure s
  | .raiseCommit who reason value qualifier => do
    let (s, _) ← raiseCommit s who reason value qualifier
    pure s
  | .resolveCommit who reason => do
    let (s, _) ← resolveCommit s who reason
    pure s
  | .setCommitVariant who reason variant qualifier => setCommitVariant s who reason variant qualifier
  | .setDigestValue reason digest value variant => do
    let (s, _) ← setDigestVariantValue s reason digest value variant
    pure s
  | .reapDigest digest reason => reapDigest s digest reason
  | .setIndex reason index digest => setIndex s reason index digest
  | .setEntryShares reason indexOf entryOf shares generated =>
    setEntryShares s reason indexOf entryOf shares generated
  | .setEntryOfVariant reason indexOf entryOf variant shares generated =>
    setEntryOfVariant s reason indexOf entryOf variant shares generated
  | .reapIndex reason indexOf => reapIndex s reason indexOf
  | .setPool who reason poolOf indexOf commission => setPool s who reason poolOf indexOf commission
  | .setPoolManager reason poolOf manager => setPoolManager s reason poolOf manager
  | .setSlotShares reason poolOf slotOf shares => setSlotShares s reason poolOf slotOf shares
  | .setSlotOfVariant reason poolOf slotOf variant shares =>
    setSlotOfVariant s reason poolOf slotOf variant shares
  | .reapPool reason poolOf => reapPool s reason poolOf
  | .external ledger => .ok { s with ledger }

/-- The state after the calls, from the empty pallet over some ledger. -/
def State.after (ledger : T.Ledger) (calls : List (Call T)) : State T :=
  run State.apply (State.genesis ledger) calls

def Reachable (s : State T) : Prop := ∃ ledger calls, s = State.after ledger calls

end FrameSuite
