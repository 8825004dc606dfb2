import FrameSuite.CommitQueries
import FrameSuite.Perbill
import FrameSuite.StorageIter

/-! The configuration, errors and storage of the authors pallet. Collateral and funding are commits of
the commitment pallet under two different reasons. -/

namespace FrameSuite

/-- The duties that keep an author from resigning. -/
inductive AuthorActivity
  | sessionValidator
  | electionCandidate
  | electionWinner
  | indeterminate
deriving DecidableEq

inductive AuthorError
  | commitment (e : DispatchError)
  | activity (a : AuthorActivity)
  | endlessSearch
  | endOfChain
  | authorNotFound
  | inadequateCollateral
  | inadequateFunds
  | alreadyEnrolled
  | authorIsActive
  | authorInProbation
  | authorResigned
  | authorHasPenalties
  | authorHasRewards
  | authorDigestNotFound
  | fundedToAnotherDigest
  | belowMinimumFund
  | aboveMaximumExposure
  | rewardNotFound
  | penaltyNotFound
  | authorTotalHoldExhausted
  | finalizedObligations
  | authorNeedsMoreCollateral
  | zeroPenaltyFound
  | authorIsUnsafe
  | redundantResignation
  | inadequateCandidatesToElect
  | authorNotElected
  | minElectedNotReached
  | riskWithinThreshold
  | invalidPoolManager
  | nonZeroConfigRequired
  | minGreaterThanMax
deriving DecidableEq

/-- A backer with the digest the funds are committed to. -/
inductive Funder (A : Type)
  | direct (backer : A)
  | index (digest backer : A)
  | pool (digest backer : A)
deriving DecidableEq

def Funder.backer {A : Type} : Funder A → A
  | .direct backer => backer
  | .index _ backer => backer
  | .pool _ backer => backer

/-- The digest the funds are committed to: that of the author, the index or the pool. -/
def Funder.towards {A : Type} (funder : Funder A) (authorDigest : A) : A :=
  match funder with
  | .direct _ => authorDigest
  | .index digest _ => digest
  | .pool digest _ => digest

/-- Authors with the backing each of them can show. -/
abbrev Candidates (A : Type) := List (A × List (Funder A × Nat))

structure AuthorConfig extends Config where
  authorFunding : Reason
  authorCollateral : Reason
  reasons_ne : authorFunding ≠ authorCollateral
  maxBlock : Nat
  hashOrder : HashOrder AccountId
  /-- The liquid balance that keeps the account alive and its freezes untouched. -/
  liquidBalance : Ledger → AccountId → Nat
  electionModel : Candidates AccountId → List AccountId

inductive AuthorStatus
  | active
  | probation
  | resigned
deriving DecidableEq

inductive FundingTarget (A : Type)
  | direct (author : A)
  | index (digest : A)
  | pool (digest : A)
deriving DecidableEq

structure AuthorInfo (A : Type) where
  digest : A
  since : Nat
  status : AuthorStatus
  statusSince : Nat
  riskUntil : Nat
  minFund : Option Nat
  maxFund : Option Nat
deriving DecidableEq

namespace AuthorInfo

variable {A : Type}

def new (digest : A) (now : Nat) : AuthorInfo A :=
  { digest, since := now, status := .probation, statusSince := now, riskUntil := now, minFund := none,
    maxFund := none }

def reEnroll (info : AuthorInfo A) (now : Nat) : AuthorInfo A := new info.digest now

end AuthorInfo

variable {T : AuthorConfig}

structure AuthorState (T : AuthorConfig) where
  commitment : State T.toConfig
  blockNumber : Nat
  authorsMap : StorageMap T.AccountId (AuthorInfo T.AccountId)
  authorsDigest : StorageMap T.AccountId T.AccountId
  authorFunders : StorageMap (T.AccountId × T.AccountId) (Funder T.AccountId)
  rewardsUntil : Nat
  penaltiesUntil : Nat
  rewardsBuffer : Nat
  penaltiesBuffer : Nat
  authorRewards : StorageMap (Nat × T.AccountId) Nat
  authorPenalties : StorageMap (Nat × T.AccountId) Perbill
  minCollateral : Nat
  maxExposure : Nat
  minFund : Nat
  probationPeriod : Nat
  reduceProbationBy : Nat
  increaseProbationBy : Nat
  elected : StorageMap (Nat × T.AccountId) Unit
  recentElectedOn : Nat
  maxElected : Nat
  minElected : Nat
  forceMaxElected : Bool

/-- The parameters of the genesis with the conditions it asserts. -/
structure AuthorGenesis where
  minCollateral : Nat
  maxExposure : Nat
  minFund : Nat
  probationPeriod : Nat
  reduceProbationBy : Nat
  increaseProbationBy : Nat
  rewardsBuffer : Nat
  penaltiesBuffer : Nat
  maxElected : Nat
  minElected : Nat
  forceMaxElected : Bool
  minCollateral_ne : minCollateral ≠ 0
  minFund_ne : minFund ≠ 0
  minElected_ne : minElected ≠ 0
  minElected_le : minElected ≤ maxElected
  minFund_le : minFund ≤ maxExposure

/-- The first state of the pallet, over some ledger of the fungible. -/
def AuthorState.genesis (ledger : T.Ledger) (g : AuthorGenesis) : AuthorState T :=
  { commitment := State.genesis ledger
    blockNumber := 0
    authorsMap := .empty
    authorsDigest := .empty
    authorFunders := .empty
    rewardsUntil := 0
    penaltiesUntil := 0
    rewardsBuffer := g.rewardsBuffer
    penaltiesBuffer := g.penaltiesBuffer
    authorRewards := .empty
    authorPenalties := .empty
    minCollateral := g.minCollateral
    maxExposure := g.maxExposure
    minFund := g.minFund
    probationPeriod := g.probationPeriod
    reduceProbationBy := g.reduceProbationBy
    increaseProbationBy := g.increaseProbationBy
    elected := .empty
    recentElectedOn := 0
    maxElected := g.maxElected
    minElected := g.minElected
    forceMaxElected := g.forceMaxElected }

/-- An operation of the commitment pallet whose error is passed on. -/
def liftCommit {α : Type} (result : Except DispatchError α) : Except AuthorError α :=
  result.mapError .commitment

@[simp] theorem liftCommit_eq_ok {α : Type} {x : Except DispatchError α} {a : α} :
    liftCommit x = .ok a ↔ x = .ok a := by
  cases x <;> simp [liftCommit, Except.mapError]

/-- Runs an operation of the commitment pallet on the state. -/
def AuthorState.onCommitment (s : AuthorState T)
    (op : State T.toConfig → Except DispatchError (State T.toConfig × Nat)) :
    Except AuthorError (AuthorState T × Nat) := do
  let (commitment, actual) ← liftCommit (op s.commitment)
  pure ({ s with commitment }, actual)

/-- The next block of the type; at the last one the counter stays. -/
def AuthorConfig.blockAdd (T : AuthorConfig) (block offset : Nat) : Nat := saturatingAdd T.maxBlock block offset

end FrameSuite
