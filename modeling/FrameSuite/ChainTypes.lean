import FrameSuite.AuthorTypes

/-! The storage of the chain-manager pallet, the session pallet around it and what it takes from the role
and election adapters, which are parameters, as are the keys and signatures of affidavits. -/

namespace FrameSuite

/-- Parts per million, as the windows of a session are given. -/
structure Permill where
  parts : Nat
  parts_le : parts ≤ 10 ^ 6
deriving DecidableEq

def Permill.mulFloor (r : Permill) (n : Nat) : Nat := n * r.parts / 10 ^ 6

/-- What is signed with an affidavit key. -/
inductive AffidavitPayload (Public AffidavitId : Type)
  | validate (signer : Public)
  | declare (signer : Public) (rotate : AffidavitId)
  | elect (signer : Public)

structure ChainConfig where
  AccountId : Type
  AffidavitId : Type
  Public : Type
  Signature : Type
  Weight : Type
  [decEqAccountId : DecidableEq AccountId]
  [decEqAffidavitId : DecidableEq AffidavitId]
  intoAccount : Public → AffidavitId
  verify : AffidavitPayload Public AffidavitId → Signature → Bool
  hashOrder : HashOrder AccountId
  maxAffidavitWeights : Nat
  /-- The weights sorted, the largest first. -/
  descending : List Weight → List Weight
  averageSessionLength : Nat
  maxBlock : Nat
  maxSession : Nat
  maxPoints : Nat
  /-- The storage of the role and election adapters, with the number of the block. -/
  Roles : Type
  RoleCall : Type
  RoleError : Type
  blockNumber : Roles → Nat
  nextBlock : Roles → Except RoleError Roles
  roleExists : Roles → AccountId → Except RoleError Unit
  isAvailable : Roles → AccountId → Except RoleError Unit
  weightOf : Roles → AccountId → Except RoleError (List Weight)
  prepare : Roles → List (AccountId × List Weight) → Except RoleError Roles
  reveal : Roles → Option (List AccountId)
  reward : Roles → AccountId → Nat → Roles
  payout : Roles → Nat
  payees : Nat → List (AccountId × Nat) → List (AccountId × Nat)
  /-- A call of the other pallets, which may ask for the duty of an account. -/
  callRoles : (AccountId → Option AuthorActivity) → Roles → RoleCall → Except RoleError Roles

attribute [instance] ChainConfig.decEqAccountId ChainConfig.decEqAffidavitId

inductive InvalidTransaction
  | badProof
  | stale
  | badSigner
  | call
deriving DecidableEq

inductive ChainError (ε : Type)
  | role (e : ε)
  | invalid (reason : InvalidTransaction)
  | badOrigin
  | affidavitAuthorNotFound
  | affidavitsNotAllowed
  | declareDuringNextAffidavitSession
  | invalidAffidavitPeriod
  | notAffidavitPeriod
  | affidavitPeriodEnded
  | notElectionPeriod
  | electionPeriodEnded
  | blockAuthorNotFound
  | triedElectingByNonBlockAuthor
  | sessionIdQueryFailed
  | validatorCannotChill
  | authorNotAffidavitOwner
  | declaredBeforeAffidavitPeriod
  | candidateCannotChill
  | electedCannotChill
  | invalidRotatedAffidavitKey
  | sessionOverflow
deriving DecidableEq

structure ChainState (T : ChainConfig) where
  roles : T.Roles
  currentSession : Nat
  sessionStartAt : Nat
  affidavitKeys : StorageMap (Nat × T.AffidavitId) T.AccountId
  authorAffidavits : StorageMap (Nat × T.AccountId) (Nat × List T.Weight)
  electsPreparedBy : StorageMap Nat (T.AccountId × Nat)
  blockPointsStore : StorageMap (Nat × T.AccountId) Nat
  electionRunnerPoints : Nat
  electionRunnerPointsUpgrade : Option Nat
  allowAffidavits : Bool
  affidavitBeginsAt : Permill
  affidavitEndsAt : Permill
  electionBeginsAt : Permill
  /-- The validators of the session and those queued for the next one, in the session pallet. -/
  validators : List T.AccountId
  queued : List T.AccountId
  blockAuthor : Option T.AccountId

/-- The parameters of the genesis with the conditions it asserts. -/
structure ChainGenesis where
  allowAffidavits : Bool
  affidavitBeginsAt : Permill
  affidavitEndsAt : Permill
  electionBeginsAt : Permill
  electionRunnerPoints : Nat
  begins_lt_ends : affidavitBeginsAt.parts < affidavitEndsAt.parts

def ChainState.genesis {T : ChainConfig} (roles : T.Roles) (validators : List T.AccountId) (g : ChainGenesis) :
    ChainState T :=
  { roles
    currentSession := 0
    sessionStartAt := 0
    affidavitKeys := .empty
    authorAffidavits := .empty
    electsPreparedBy := .empty
    blockPointsStore := .empty
    electionRunnerPoints := g.electionRunnerPoints
    electionRunnerPointsUpgrade := none
    allowAffidavits := g.allowAffidavits
    affidavitBeginsAt := g.affidavitBeginsAt
    affidavitEndsAt := g.affidavitEndsAt
    electionBeginsAt := g.electionBeginsAt
    validators
    queued := validators
    blockAuthor := none }

/-- Who submits a transaction: the account that signed it, or nobody. -/
inductive Origin (A : Type)
  | signed (who : A)
  | none

inductive Extrinsic (T : ChainConfig)
  | validate (signer : T.Public) (signature : T.Signature)
  | declare (signer : T.Public) (rotate : T.AffidavitId) (signature : T.Signature)
  | elect (signer : T.Public) (signature : T.Signature)
  | chill (affidavitPub : T.AffidavitId)

inductive ChainForceGenesisConfig
  | allowAffidavits (allow : Bool)
  | affidavitBeginsAt (point : Permill)
  | affidavitEndsAt (point : Permill)
  | electionBeginsAt (point : Permill)
  | electionRunnerPointsUpgrade (points : Option Nat)

/-- What happens to the chain: transactions, changes of the parameters, rotations of the session, new
blocks with their authors, and calls of the other pallets. -/
inductive ChainCall (T : ChainConfig)
  | dispatch (origin : Origin T.AccountId) (extrinsic : Extrinsic T)
  | forceGenesisConfig (field : ChainForceGenesisConfig)
  | rotateSession
  | enterBlock (author : Option T.AccountId)
  | callRoles (call : T.RoleCall)

end FrameSuite
