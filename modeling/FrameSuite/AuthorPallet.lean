import FrameSuite.AuthorHold

/-! The calls of the authors pallet: its extrinsics, what the chain's manager asks of the roles, and
the start of a block. A run is any sequence of these, with arbitrary changes of the underlying
fungible by others in between. -/

namespace FrameSuite

variable {T : AuthorConfig}

/-- The authors elected last, unless there are none. -/
def reveal (s : AuthorState T) : Option (List T.AccountId) :=
  let elects := (s.elected.iterPrefix T.hashOrder s.recentElectedOn).map Prod.fst
  if elects = [] then none else some elects

def removeElected (s : AuthorState T) (who : T.AccountId) : AuthorState T :=
  { s with elected := s.elected.remove (s.recentElectedOn, who) }

def storeElects (s : AuthorState T) (elects : List T.AccountId) : Except AuthorError (AuthorState T) := do
  ensure (s.minElected ≤ elects.length) .minElectedNotReached
  let stored := if s.forceMaxElected then elects.take s.maxElected else elects
  pure { s with
    elected := stored.foldl (fun m author => m.insert (s.blockNumber, author) ()) s.elected
    recentElectedOn := s.blockNumber }

/-- A result that cannot be stored is dropped, and the preparation still counts as done. -/
def prepareElects (s : AuthorState T) (candidates : Candidates T.AccountId) : AuthorState T :=
  match storeElects s (T.electionModel candidates) with
  | .ok s => s
  | .error _ => s

/-- The first entry or slot of a target stands for it; neither an index nor a pool is empty. -/
def firstAuthor (s : AuthorState T) (shares : List (T.AccountId × Nat)) : Except AuthorError T.AccountId := do
  let first ← okOr (shares.head?.map Prod.fst) .authorDigestNotFound
  okOr (s.authorsDigest.get first) .authorDigestNotFound

def resolveTarget (s : AuthorState T) (caller : T.AccountId) :
    FundingTarget T.AccountId → Except AuthorError (T.AccountId × Funder T.AccountId)
  | .direct author => .ok (author, .direct caller)
  | .index digest => do
    let entries ← liftCommit (getEntriesShares s.commitment T.authorFunding digest)
    let author ← firstAuthor s entries
    pure (author, .index digest caller)
  | .pool digest => do
    let slots ← liftCommit (getSlotsShares s.commitment T.authorFunding digest)
    let author ← firstAuthor s slots
    pure (author, .pool digest caller)

def enlist (s : AuthorState T) (who : T.AccountId) (collateral : Nat) (fortitude : Fortitude)
    (generated : T.AccountId) : Except AuthorError (AuthorState T) := do
  ensure (s.minCollateral ≤ collateral) .inadequateCollateral
  let (s, _) ← enroll s who collateral fortitude generated
  pure s

def back (s : AuthorState T) (who : T.AccountId) (via : FundingTarget T.AccountId) (value : Nat)
    (qualifier : Directive) : Except AuthorError (AuthorState T) := do
  let (author, funder) ← resolveTarget s who via
  let (s, _) ← fund s author funder value qualifier
  pure s

def exitTarget (s : AuthorState T) (who : T.AccountId) (target : FundingTarget T.AccountId) :
    Except AuthorError (AuthorState T) := do
  let (author, funder) ← resolveTarget s who target
  let (s, _) ← draw s author funder
  pure s

/-- The entries name authors, whose digests are those of their collateral. -/
def entryDigests (s : AuthorState T) :
    List (T.AccountId × Nat) → Except AuthorError (List (T.AccountId × Nat))
  | [] => .ok []
  | (author, shares) :: entries => do
    let digest ← liftCommit (getCommitDigest s.commitment author T.authorCollateral)
    let rest ← entryDigests s entries
    pure ((digest, shares) :: rest)

/-- An operation of the commitment pallet without a result. -/
def AuthorState.updateCommitment (s : AuthorState T)
    (op : State T.toConfig → Except DispatchError (State T.toConfig)) : Except AuthorError (AuthorState T) := do
  let commitment ← liftCommit (op s.commitment)
  pure { s with commitment }

def createIndex (s : AuthorState T) (entries : List (T.AccountId × Nat)) (generated : T.AccountId) :
    Except AuthorError (AuthorState T) := do
  let entries ← entryDigests s entries
  s.updateCommitment fun c => do
    let index ← prepareIndex c T.authorFunding entries
    setIndex c T.authorFunding index generated

/-- `create_pool` and `update_commission` make the same pool. -/
def createPool (s : AuthorState T) (who index : T.AccountId) (commission : Commission T.toConfig)
    (generated : T.AccountId) : Except AuthorError (AuthorState T) :=
  s.updateCommitment fun c => do
    let pool ← genPoolDigest c T.authorFunding index commission generated
    setPool c who T.authorFunding pool index commission

def requireManager (s : AuthorState T) (who pool : T.AccountId) : Except AuthorError Unit := do
  let manager ← liftCommit (getManager s.commitment T.authorFunding pool)
  ensure (manager = who) .invalidPoolManager

def transferPool (s : AuthorState T) (who pool manager : T.AccountId) : Except AuthorError (AuthorState T) := do
  requireManager s who pool
  s.updateCommitment fun c => setPoolManager c T.authorFunding pool manager

def updateEntryShares (s : AuthorState T) (index entry : T.AccountId) (shares : Nat)
    (generated : T.AccountId) : Except AuthorError (AuthorState T) :=
  s.updateCommitment fun c => FrameSuite.setEntryShares c T.authorFunding index entry shares generated

def updateSlotShares (s : AuthorState T) (who pool slot : T.AccountId) (shares : Nat) :
    Except AuthorError (AuthorState T) := do
  requireManager s who pool
  s.updateCommitment fun c => setSlotShares c T.authorFunding pool slot shares

inductive AuthorForceGenesisConfig
  | probationPeriod (block : Nat)
  | reduceProbationBy (block : Nat)
  | increaseProbationBy (block : Nat)
  | rewardsBuffer (block : Nat)
  | penaltiesBuffer (block : Nat)
  | maxElected (n : Nat)
  | minElected (n : Nat)
  | enforceMaxElected (b : Bool)
  | minFund (asset : Nat)
  | maxExposure (asset : Nat)
  | minCollateral (asset : Nat)

def AuthorState.forceGenesisConfig (s : AuthorState T) : AuthorForceGenesisConfig → Except AuthorError (AuthorState T)
  | .probationPeriod block => .ok { s with probationPeriod := block }
  | .reduceProbationBy block => .ok { s with reduceProbationBy := block }
  | .increaseProbationBy block => .ok { s with increaseProbationBy := block }
  | .rewardsBuffer block => .ok { s with rewardsBuffer := block }
  | .penaltiesBuffer block => .ok { s with penaltiesBuffer := block }
  | .maxElected n => do
    ensure (n ≠ 0) .nonZeroConfigRequired
    ensure (s.minElected ≤ n) .minGreaterThanMax
    pure { s with maxElected := n }
  | .minElected n => do
    ensure (n ≠ 0) .nonZeroConfigRequired
    ensure (n ≤ s.maxElected) .minGreaterThanMax
    pure { s with minElected := n }
  | .enforceMaxElected b => .ok { s with forceMaxElected := b }
  | .minFund asset => do
    ensure (asset ≠ 0) .nonZeroConfigRequired
    ensure (asset ≤ s.maxExposure) .minGreaterThanMax
    pure { s with minFund := asset }
  | .maxExposure asset => do
    ensure (s.minFund ≤ asset) .minGreaterThanMax
    pure { s with maxExposure := asset }
  | .minCollateral asset => do
    ensure (asset ≠ 0) .nonZeroConfigRequired
    pure { s with minCollateral := asset }

/-- The calls, with the digests the commitment pallet generates and the answer of the activity
provider. `external` is any change of the fungible by others. -/
inductive AuthorCall (T : AuthorConfig)
  | enlist (who : T.AccountId) (collateral : Nat) (fortitude : Fortitude) (generated : T.AccountId)
  | back (who : T.AccountId) (via : FundingTarget T.AccountId) (value : Nat) (qualifier : Directive)
  | refill (who : T.AccountId) (collateral : Nat) (fortitude : Fortitude)
  | confirm (who : T.AccountId)
  | exit (who : T.AccountId) (target : FundingTarget T.AccountId)
  | demit (who : T.AccountId) (duty : Option AuthorActivity)
  | createIndex (entries : List (T.AccountId × Nat)) (generated : T.AccountId)
  | createPool (who index : T.AccountId) (commission : Commission T.toConfig) (generated : T.AccountId)
  | transferPool (who pool manager : T.AccountId)
  | updateEntryShares (index entry : T.AccountId) (shares : Nat) (generated : T.AccountId)
  | updateSlotShares (who pool slot : T.AccountId) (shares : Nat)
  | setStatus (who : T.AccountId) (status : AuthorStatus) (duty : Option AuthorActivity)
  | penalize (who : T.AccountId) (factor : Perbill)
  | forgive (who : T.AccountId) (since : Nat)
  | reward (who : T.AccountId) (value : Nat)
  | reclaim (who : T.AccountId) (since : Nat)
  | prepareElects (candidates : Candidates T.AccountId)
  | removeElected (who : T.AccountId)
  | forceGenesisConfig (field : AuthorForceGenesisConfig)
  | enterBlock
  | external (ledger : T.Ledger)

/-- Executes a call. A call that fails leaves the storage as it was. -/
def AuthorState.apply (s : AuthorState T) : AuthorCall T → Except AuthorError (AuthorState T)
  | .enlist who collateral fortitude generated => FrameSuite.enlist s who collateral fortitude generated
  | .back who via value qualifier => FrameSuite.back s who via value qualifier
  | .refill who collateral fortitude => do
    let (s, _) ← addCollateral s who collateral fortitude
    pure s
  | .confirm who => FrameSuite.setStatus s who .active none
  | .exit who target => exitTarget s who target
  | .demit who duty => do
    let (s, _) ← resign s who duty
    pure s
  | .createIndex entries generated => FrameSuite.createIndex s entries generated
  | .createPool who index commission generated => FrameSuite.createPool s who index commission generated
  | .transferPool who pool manager => FrameSuite.transferPool s who pool manager
  | .updateEntryShares index entry shares generated =>
    FrameSuite.updateEntryShares s index entry shares generated
  | .updateSlotShares who pool slot shares => FrameSuite.updateSlotShares s who pool slot shares
  | .setStatus who status duty => FrameSuite.setStatus s who status duty
  | .penalize who factor => do
    let (s, _) ← FrameSuite.penalize s who factor
    pure s
  | .forgive who since => do
    let (s, _) ← FrameSuite.forgive s who since
    pure s
  | .reward who value => do
    let (s, _) ← FrameSuite.reward s who value
    pure s
  | .reclaim who since => do
    let (s, _) ← FrameSuite.reclaim s who since
    pure s
  | .prepareElects candidates => .ok (FrameSuite.prepareElects s candidates)
  | .removeElected who => .ok (FrameSuite.removeElected s who)
  | .forceGenesisConfig field => AuthorState.forceGenesisConfig s field
  | .enterBlock => FrameSuite.enterBlock s
  | .external ledger => .ok { s with commitment := { s.commitment with ledger } }

/-- The state after the calls, from the genesis over some ledger. -/
def AuthorState.after (ledger : T.Ledger) (g : AuthorGenesis) (calls : List (AuthorCall T)) : AuthorState T :=
  run AuthorState.apply (AuthorState.genesis ledger g) calls

end FrameSuite
