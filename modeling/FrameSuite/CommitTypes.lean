import FrameSuite.Checked
import FrameSuite.ShareBalance
import FrameSuite.StorageMap

/-! The configuration, errors and stored types of the commitment pallet. Commits are
never empty, index entries and pool slots have distinct digests and nonzero shares,
and the capital of an index or a pool is the sum of those shares. -/

namespace FrameSuite

inductive DispatchError
  | balance (e : ShareBalanceError)
  | asset
  | arithmeticOverflow
  | arithmeticUnderflow
  | mintingMoreThanIssued
  | burningMoreThanReapable
  | maxAssetIssued
  | maxAssetReaped
  | insufficientFunds
  | expectsHoldWithdrawal
  | expectsFreezeAndHoldWithdrawal
  | reserveLiquidOverflow
  | commitNotFound
  | commitAlreadyExists
  | markerCommitNotAllowed
  | zeroMaxCommits
  | maxCommitsReached
  | invalidCommitVariantIndex
  | variantsExhausted
  | digestNotFound
  | digestNotFoundToDetermine
  | digestVariantBalanceNotFound
  | digestHasFunds
  | indexNotFound
  | indexDigestTaken
  | indexHasFunds
  | indexBalanceUnderflow
  | maxIndexCapacityReached
  | triedCreatingHaltedIndexes
  | emptyEntriesNotAllowed
  | duplicateEntry
  | maxEntriesReached
  | entryOfIndexNotFound
  | entryDigestNotFound
  | entryDigestNotInitiated
  | commitNotFoundForEntry
  | poolNotFound
  | poolDigestTaken
  | poolHasFunds
  | poolManagerNotFound
  | poolUnsupported
  | releasePoolToRecover
  | emptySlotsNotAllowed
  | duplicateSlot
  | maxSlotsReached
  | slotOfPoolNotFound
  | slotDigestNotFound
  | slotDigestNotInitiated
  | commitNotFoundForPool
  | commitNotFoundForSlot
  | shareCannotBeZero
  | capitalCannotBeZero
  | capitalOverflowed
  | shareGreaterThanCapital
  | tooSmallShareValue
  | factorGreaterThanOne
  | depositDeriveOverflowed
  | depositAccumulationExhausted
  | withdrawAccumulationExhausted
  | commitsAccumulationExhausted
  | commissionOverflow
  | withdrawalOverflow
  | derivedLessThanZeroValue
deriving DecidableEq

inductive Precision
  | exact
  | bestEffort
deriving DecidableEq

inductive Fortitude
  | polite
  | force
deriving DecidableEq

structure Directive where
  precision : Precision
  fortitude : Fortitude
deriving DecidableEq

/-- The calls the pallet makes to the underlying fungible, which lives outside the pallet.
Decreases keep the account alive, burns may use all of it, and all amounts are exact. -/
structure Fungible (AccountId Reason Ledger : Type) where
  balanceOnHold : Ledger → AccountId → Nat
  totalBalanceOnHold : Ledger → AccountId → Nat
  reducibleBalance : Ledger → AccountId → Nat
  totalBalance : Ledger → AccountId → Nat
  increaseBalance : Ledger → AccountId → Nat → Except DispatchError Ledger
  decreaseBalance : Ledger → AccountId → Nat → Except DispatchError Ledger
  decreaseBalanceOnHold : Ledger → AccountId → Nat → Except DispatchError Ledger
  mintInto : Ledger → AccountId → Nat → Except DispatchError Ledger
  burnFrom : Ledger → AccountId → Nat → Except DispatchError Ledger
  setFreeze : Ledger → Reason → AccountId → Nat → Except DispatchError Ledger
  increaseFrozen : Ledger → Reason → AccountId → Nat → Except DispatchError Ledger
  thaw : Ledger → Reason → AccountId → Except DispatchError Ledger

structure Config where
  AccountId : Type
  Reason : Type
  Position : Type
  Ledger : Type
  decEqAccountId : DecidableEq AccountId
  decEqReason : DecidableEq Reason
  decEqPosition : DecidableEq Position
  positionIndex : Position → Nat
  positionOf : Nat → Option Position
  positionDefault : Position
  variantCount : Nat
  share : ShareConfig
  asset : Fungible AccountId Reason Ledger
  maxShares : Nat
  maxCommits : Nat
  maxIndexEntries : Nat
  accuracy : Nat

attribute [instance] Config.decEqAccountId Config.decEqReason Config.decEqPosition

variable {T : Config}

abbrev LazyBalance (T : Config) := VirtualBalance T.share

abbrev CommitInstance (T : Config) := VirtualReceipt T.share

/-- The balances of a digest by the index of their variant. -/
structure DigestInfo (T : Config) where
  balances : List (LazyBalance T)

namespace DigestInfo

def default : DigestInfo T := ⟨[]⟩

def getBalance (info : DigestInfo T) (variant : T.Position) : Option (LazyBalance T) :=
  info.balances[T.positionIndex variant]?

def setBalance (info : DigestInfo T) (variant : T.Position) (balance : LazyBalance T) : DigestInfo T :=
  ⟨info.balances.set (T.positionIndex variant) balance⟩

/-- Pushes default balances until the variant has one. -/
def initBalance (info : DigestInfo T) (variant : T.Position) : Except DispatchError (DigestInfo T) :=
  let missing := T.positionIndex variant + 1 - info.balances.length
  if missing = 0 ∨ T.positionIndex variant < T.variantCount then
    .ok ⟨info.balances ++ List.replicate missing none⟩
  else .error .variantsExhausted

/-- The vector with a balance for the variant. -/
def ensureBalance (info : DigestInfo T) (variant : T.Position) : Except DispatchError (DigestInfo T) :=
  match info.getBalance variant with
  | some _ => .ok info
  | none => info.initBalance variant

end DigestInfo

structure Commits (T : Config) where
  receipts : List (CommitInstance T)
  nonempty : receipts ≠ []

namespace Commits

def new (instance_ : CommitInstance T) : Except DispatchError (Commits T) :=
  if T.maxCommits = 0 then .error .zeroMaxCommits
  else .ok ⟨[instance_], List.cons_ne_nil _ _⟩

def addCommit (commits : Commits T) (instance_ : CommitInstance T) : Except DispatchError (Commits T) :=
  if commits.receipts.length < T.maxCommits then
    .ok ⟨commits.receipts ++ [instance_], by simp⟩
  else .error .maxCommitsReached

/-- Adds to existing commits, or starts new ones. -/
def extend (commits : Option (Commits T)) (instance_ : CommitInstance T) :
    Except DispatchError (Commits T) :=
  match commits with
  | some commits => commits.addCommit instance_
  | none => new instance_

end Commits

structure CommitInfo (T : Config) where
  digest : T.AccountId
  commits : Commits T
  variant : T.Position

def CommitInfo.new (digest : T.AccountId) (instance_ : CommitInstance T) (variant : T.Position) :
    Except DispatchError (CommitInfo T) := do
  let commits ← Commits.new instance_
  let position ← okOr (T.positionOf (T.positionIndex variant)) .invalidCommitVariantIndex
  ensure (position = variant) .invalidCommitVariantIndex
  pure { digest, commits, variant }

def CommitInfo.addCommit (info : CommitInfo T) (instance_ : CommitInstance T) :
    Except DispatchError (CommitInfo T) := do
  let commits ← info.commits.addCommit instance_
  pure { info with commits }

structure EntryInfo (T : Config) where
  digest : T.AccountId
  shares : Nat
  variant : T.Position
  shares_ne : shares ≠ 0

def EntryInfo.new (digest : T.AccountId) (shares : Nat) (variant : T.Position) :
    Except DispatchError (EntryInfo T) :=
  if h : shares = 0 then .error .shareCannotBeZero
  else do
    let position ← okOr (T.positionOf (T.positionIndex variant)) .invalidCommitVariantIndex
    ensure (position = variant) .invalidCommitVariantIndex
    pure { digest, shares, variant, shares_ne := h }

structure Entries (T : Config) where
  list : List (EntryInfo T)
  nonempty : list ≠ []
  nodup : (list.map EntryInfo.digest).Nodup

namespace Entries

def new (entries : List (EntryInfo T)) : Except DispatchError (Entries T) :=
  if T.maxIndexEntries = 0 then .error .triedCreatingHaltedIndexes
  else if hne : entries = [] then .error .emptyEntriesNotAllowed
  else if hnd : (entries.map EntryInfo.digest).Nodup then
    if entries.length ≤ T.maxIndexEntries then .ok ⟨entries, hne, hnd⟩
    else .error .maxEntriesReached
  else .error .duplicateEntry

def addEntry (entries : Entries T) (entry : EntryInfo T) : Except DispatchError (Entries T) :=
  if T.maxIndexEntries ≤ entries.list.length then .error .maxEntriesReached
  else if hnd : ((entries.list ++ [entry]).map EntryInfo.digest).Nodup then
    .ok ⟨entries.list ++ [entry], by simp, hnd⟩
  else .error .duplicateEntry

def removeEntry (entries : Entries T) (entry : T.AccountId) : Except DispatchError (Entries T) :=
  if h : 1 < entries.list.length then
    let i := entries.list.findIdx fun e => e.digest = entry
    if hi : i < entries.list.length then
      .ok
        { list := entries.list.eraseIdx i
          nonempty := by
            have hl := List.length_eraseIdx_add_one hi
            intro he
            rw [he, List.length_nil] at hl
            omega
          nodup := entries.nodup.sublist ((List.eraseIdx_sublist _ _).map _) }
    else .error .entryOfIndexNotFound
  else .error .emptyEntriesNotAllowed

/-- Removes an entry if it is there. -/
def dropEntry (entries : Entries T) (entry : T.AccountId) : Except DispatchError (Entries T) :=
  if entry ∈ entries.list.map EntryInfo.digest then entries.removeEntry entry else .ok entries

end Entries

/-- The checked sum of the shares of an index or a pool. -/
def totalShares (T : Config) (shares : List Nat) : Except DispatchError { n : Nat // n = shares.sum } :=
  if shares.sum ≤ T.maxShares then .ok ⟨shares.sum, rfl⟩ else .error .capitalOverflowed

structure IndexInfo (T : Config) where
  principal : Nat
  capital : Nat
  entries : Entries T
  capital_eq : capital = (entries.list.map EntryInfo.shares).sum

def IndexInfo.new (entries : Entries T) : Except DispatchError (IndexInfo T) := do
  let ⟨capital, h⟩ ← totalShares T (entries.list.map EntryInfo.shares)
  ensure (capital ≠ 0) .capitalCannotBeZero
  pure { principal := 0, capital, entries, capital_eq := h }

def IndexInfo.setBalance (info : IndexInfo T) (principal : Nat) : IndexInfo T := { info with principal }

structure SlotInfo (T : Config) where
  digest : T.AccountId
  shares : Nat
  commit : CommitInstance T
  variant : T.Position
  shares_ne : shares ≠ 0

def SlotInfo.ofEntry (entry : EntryInfo T) : SlotInfo T :=
  { digest := entry.digest, shares := entry.shares, commit := none, variant := entry.variant,
    shares_ne := entry.shares_ne }

def SlotInfo.setCommit (slot : SlotInfo T) (commit : CommitInstance T) : SlotInfo T :=
  { slot with commit }

/-- A part per `accuracy`. -/
structure Commission (T : Config) where
  parts : Nat
  parts_le : parts ≤ T.accuracy

structure PoolInfo (T : Config) where
  balance : LazyBalance T
  capital : Nat
  commission : Commission T
  slots : List (SlotInfo T)
  capital_eq : capital = (slots.map SlotInfo.shares).sum
  nonempty : slots ≠ []
  nodup : (slots.map SlotInfo.digest).Nodup

namespace PoolInfo

def new (entries : Entries T) (commission : Commission T) : Except DispatchError (PoolInfo T) := do
  let ⟨capital, h⟩ ← totalShares T (entries.list.map EntryInfo.shares)
  pure
    { balance := none
      capital
      commission
      slots := entries.list.map SlotInfo.ofEntry
      capital_eq := by
        rw [h, List.map_map]
        rfl
      nonempty := by simpa using entries.nonempty
      nodup := by
        rw [List.map_map]
        exact entries.nodup }

def setBalance (info : PoolInfo T) (balance : LazyBalance T) : PoolInfo T := { info with balance }

/-- Rewrites the commits of the slots, leaving their digests, shares and variants. -/
def mapCommits (info : PoolInfo T) (f : SlotInfo T → CommitInstance T) : PoolInfo T :=
  { info with
    slots := info.slots.map fun slot => slot.setCommit (f slot)
    capital_eq := by
      rw [info.capital_eq, List.map_map]
      rfl
    nonempty := by simpa using info.nonempty
    nodup := by
      rw [List.map_map]
      exact info.nodup }

def balanceReset (info : PoolInfo T) : PoolInfo T :=
  (info.mapCommits fun _ => none).setBalance none

def setSlotCommit (info : PoolInfo T) (digest : T.AccountId) (commit : CommitInstance T) :
    Except DispatchError (PoolInfo T) :=
  if digest ∈ info.slots.map SlotInfo.digest then
    .ok (info.mapCommits fun slot => if slot.digest = digest then commit else slot.commit)
  else .error .slotOfPoolNotFound

def addSlot (info : PoolInfo T) (entry : EntryInfo T) : Except DispatchError (PoolInfo T) :=
  let slots := info.slots ++ [SlotInfo.ofEntry entry]
  if T.maxIndexEntries ≤ info.slots.length then .error .maxSlotsReached
  else if hnd : (slots.map SlotInfo.digest).Nodup then do
    let ⟨capital, h⟩ ← totalShares T (slots.map SlotInfo.shares)
    pure { info with slots, capital, capital_eq := h, nonempty := by simp [slots], nodup := hnd }
  else .error .duplicateSlot

def removeSlot (info : PoolInfo T) (slot : T.AccountId) : Except DispatchError (PoolInfo T) :=
  if hlen : 1 < info.slots.length then
    let i := info.slots.findIdx fun s => s.digest = slot
    if hi : i < info.slots.length then do
      let slots := info.slots.eraseIdx i
      let ⟨capital, h⟩ ← totalShares T (slots.map SlotInfo.shares)
      pure
        { info with
          slots
          capital
          capital_eq := h
          nonempty := by
            have hl := List.length_eraseIdx_add_one hi
            intro he
            change info.slots.eraseIdx i = [] at he
            rw [he, List.length_nil] at hl
            omega
          nodup := info.nodup.sublist ((List.eraseIdx_sublist _ _).map _) }
    else .error .slotOfPoolNotFound
  else .error .emptySlotsNotAllowed

/-- Removes a slot if it is there. -/
def dropSlot (info : PoolInfo T) (slot : T.AccountId) : Except DispatchError (PoolInfo T) :=
  if slot ∈ info.slots.map SlotInfo.digest then info.removeSlot slot else .ok info

end PoolInfo

structure AssetDelta where
  deposit : Nat
  withdraw : Nat
deriving DecidableEq

/-- The model a digest belongs to. -/
inductive DigestVariant (T : Config)
  | direct (digest : T.AccountId)
  | index (digest : T.AccountId)
  | pool (digest : T.AccountId)

end FrameSuite
