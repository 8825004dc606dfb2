import FrameSuite.AuthorRuntime
import FrameSuite.ChainManager
import FrameSuite.SharesPay

/-! The chain manager over the authors pallet, which holds the roles and runs the elections, and the whole
as the runtime configures it with sessions of ten blocks. -/

namespace FrameSuite

section Roles

variable {A : AuthorConfig}

/-- The calls that do not come from the chain manager itself. -/
def AuthorCall.ofOthers : AuthorCall A → Bool
  | .prepareElects _ => false
  | .removeElected _ => false
  | .enterBlock => false
  | _ => true

/-- The chain manager is the activity provider. -/
def AuthorCall.withDuty (duty : A.AccountId → Option AuthorActivity) : AuthorCall A → AuthorCall A
  | .demit who _ => .demit who (duty who)
  | .setStatus who status _ => .setStatus who status (duty who)
  | call => call

/-- A reward outside of any transaction: permanence stays secured when no block is left for it. -/
def rewardKept (s : AuthorState A) (who : A.AccountId) (value : Nat) : AuthorState A :=
  match securePermanence s who with
  | .error _ => s
  | .ok s =>
    match scheduleReward s who value with
    | .ok (s, _) => s
    | .error _ => s

theorem rewardKept_of_ok {s s' : AuthorState A} {who : A.AccountId} {value block : Nat}
    (h : reward s who value = .ok (s', block)) : rewardKept s who value = s' := by
  obtain ⟨t, ht, h⟩ := bind_eq_ok.mp h
  simp [rewardKept, ht, h]

end Roles

/-- What the chain manager is configured with besides the authors pallet. -/
structure ChainParameters (A : AuthorConfig) where
  AffidavitId : Type
  Public : Type
  Signature : Type
  [decEqAffidavitId : DecidableEq AffidavitId]
  intoAccount : Public → AffidavitId
  verify : AffidavitPayload Public AffidavitId → Signature → Bool
  maxAffidavitWeights : Nat
  descending : List (Funder A.AccountId × Nat) → List (Funder A.AccountId × Nat)
  averageSessionLength : Nat
  maxSession : Nat
  maxPoints : Nat
  payout : AuthorState A → Nat
  payees : Nat → List (A.AccountId × Nat) → List (A.AccountId × Nat)

attribute [instance] ChainParameters.decEqAffidavitId

abbrev ChainParameters.chain {A : AuthorConfig} (P : ChainParameters A) : ChainConfig :=
  { AccountId := A.AccountId
    AffidavitId := P.AffidavitId
    Public := P.Public
    Signature := P.Signature
    Weight := Funder A.AccountId × Nat
    intoAccount := P.intoAccount
    verify := P.verify
    hashOrder := A.hashOrder
    maxAffidavitWeights := P.maxAffidavitWeights
    descending := P.descending
    averageSessionLength := P.averageSessionLength
    maxBlock := A.maxBlock
    maxSession := P.maxSession
    maxPoints := P.maxPoints
    Roles := AuthorState A
    RoleCall := { call : AuthorCall A // call.ofOthers = true }
    RoleError := AuthorError
    blockNumber := AuthorState.blockNumber
    nextBlock := enterBlock
    roleExists := roleExists
    isAvailable := isAvailable
    weightOf := backersOf
    prepare := fun s candidates => .ok (prepareElects s candidates)
    reveal := reveal
    reward := rewardKept
    payout := P.payout
    payees := P.payees
    callRoles := fun duty s call => s.apply (call.1.withDuty duty) }

/-- The division by shares, between the integers of the pallet and those of the types. -/
def sharesPayments {Id : Type} (T : PayTypes) (payout : Nat) (payoutFor : List (Id × Nat)) : List (Id × Nat) :=
  (SharesPay.compute (T := T) (IntValue.clamp payout) (payoutFor.map fun e => (e.1, IntValue.clamp e.2))).map
    fun paid => (paid.1, SharesPay.amount paid.2)

def AffidavitPayload.signer {Public AffidavitId : Type} : AffidavitPayload Public AffidavitId → Public
  | .validate signer => signer
  | .declare signer _ => signer
  | .elect signer => signer

/-- A signature is known by its signer. -/
abbrev chainParameters : ChainParameters authorConfig :=
  { AffidavitId := Nat
    Public := Nat
    Signature := Nat
    intoAccount := id
    verify := fun payload signature => payload.signer = signature
    maxAffidavitWeights := 100
    descending := fun weights => weights.insertionSort fun a b => b.2 ≤ a.2
    averageSessionLength := 10
    maxSession := 2 ^ 32 - 1
    maxPoints := 2 ^ 64 - 1
    payout := fun _ => 100
    payees := sharesPayments runtimePayTypes }

abbrev chainConfig : ChainConfig := chainParameters.chain

/-- Affidavits from the second to the eighth block of a session, elections in the second half of that. -/
def plainChain : ChainGenesis :=
  { allowAffidavits := true
    affidavitBeginsAt := ⟨200000, by decide⟩
    affidavitEndsAt := ⟨800000, by decide⟩
    electionBeginsAt := ⟨500000, by decide⟩
    electionRunnerPoints := 5
    begins_lt_ends := by decide }

/-- From the genesis with the authors that the first calls leave, and their first validators. -/
def chainRun (authors : List (AuthorCall authorConfig)) (validators : List Nat)
    (calls : List (ChainCall chainConfig)) :
    ChainState chainConfig :=
  ChainState.after (T := chainConfig) (authorRun authors) validators plainChain calls

/-- Two authors, ready to validate. -/
def readyAuthors : List (AuthorCall authorConfig) :=
  [enrolls 1 51, enrolls 2 52, backs 3 (.direct 1) 100, backs 5 (.direct 2) 50, confirms 1, confirms 2]

def signs (who : Nat) (extrinsic : Extrinsic chainConfig) : ChainCall chainConfig :=
  .dispatch (.signed who) extrinsic

def submits (extrinsic : Extrinsic chainConfig) : ChainCall chainConfig := .dispatch .none extrinsic

def validates (who key : Nat) : ChainCall chainConfig := signs who (.validate (T := chainConfig) key key)

def declares (key rotate : Nat) : ChainCall chainConfig := submits (.declare (T := chainConfig) key rotate key)

def elects (key : Nat) : ChainCall chainConfig := submits (.elect (T := chainConfig) key key)

def blocksBy (author n : Nat) : List (ChainCall chainConfig) := List.replicate n (.enterBlock (some author))

/-- Author 1 declares itself with one key and runs the election with the next. -/
def electing : List (ChainCall chainConfig) :=
  [validates 1 11] ++ blocksBy 1 6 ++ [declares 11 12]

end FrameSuite
