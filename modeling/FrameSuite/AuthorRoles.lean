import FrameSuite.AuthorObligations

/-! Enrolling and resigning authors, and backing them directly or through an index or a pool. The
registry of funders is written when funds are placed and erased when they are drawn. -/

namespace FrameSuite

variable {T : AuthorConfig}

def getCollateral (s : AuthorState T) (who : T.AccountId) : Except AuthorError Nat :=
  liftCommit (getCommitValue s.commitment who T.authorCollateral)

def totalCollateral (s : AuthorState T) : Nat := getTotalValue s.commitment T.authorCollateral

def totalBacking (s : AuthorState T) : Nat := getTotalValue s.commitment T.authorFunding

def availableFunds (s : AuthorState T) (who : T.AccountId) : Nat :=
  saturatingAdd T.share.maxAsset (T.asset.balanceOnHold s.commitment.ledger who)
    (T.liquidBalance s.commitment.ledger who)

/-- The opposite of a query, which does not end either when the query does not. -/
def ensureNot (query : Except AuthorError Unit) (e : AuthorError) : Except AuthorError Unit :=
  match query with
  | .ok _ => .error e
  | .error .endlessSearch => .error .endlessSearch
  | .error _ => .ok ()

/-- Only an author who resigned can enroll again. -/
def canEnrollAgain (s : AuthorState T) (who : T.AccountId) : Except AuthorError Unit :=
  match s.authorsMap.get who with
  | some info => do
    ensure (info.status = .resigned) .alreadyEnrolled
    ensureNot (hasReward s who) .authorHasRewards
  | none => .ok ()

def canEnroll (s : AuthorState T) (who : T.AccountId) (collateral : Nat) : Except AuthorError Unit := do
  canEnrollAgain s who
  ensure (collateral ≤ availableFunds s who) .inadequateFunds
  ensure (s.minCollateral ≤ collateral) .inadequateCollateral

/-- The digest of a first enrollment is generated; a later one keeps the digest. -/
def enrollInfo (s : AuthorState T) (who generated : T.AccountId) : AuthorInfo T.AccountId :=
  match s.authorsMap.get who with
  | some info => info.reEnroll s.blockNumber
  | none => .new generated s.blockNumber

def enroll (s : AuthorState T) (who : T.AccountId) (collateral : Nat) (fortitude : Fortitude)
    (generated : T.AccountId) : Except AuthorError (AuthorState T × Nat) := do
  canEnroll s who collateral
  let info := enrollInfo s who generated
  let limits := placeCommitLimits s.commitment T.authorCollateral info.digest
  let placed := if limits.contains collateral then collateral else s.minCollateral
  let (s, actual) ← s.onCommitment fun c =>
    placeCommit c who T.authorCollateral info.digest placed { precision := .exact, fortitude }
  pure ({ s with
    authorsMap := s.authorsMap.insert who info
    authorsDigest := s.authorsDigest.insert info.digest who }, actual)

/-- The activity provider answers with the duty that keeps the author, if there is one. -/
def canResign (s : AuthorState T) (who : T.AccountId) (duty : Option AuthorActivity) :
    Except AuthorError Unit := do
  let status ← getStatus s who
  match status with
  | .probation => .error .authorInProbation
  | .resigned => .error .redundantResignation
  | .active => do
    ensureNot (hasPenalty s who) .authorHasPenalties
    match duty with
    | some a => .error (.activity a)
    | none => .ok ()

def resign (s : AuthorState T) (who : T.AccountId) (duty : Option AuthorActivity) :
    Except AuthorError (AuthorState T × Nat) := do
  canResign s who duty
  let info ← getMeta s who
  let s := s.setInfo who { info with status := .resigned }
  s.onCommitment fun c => resolveCommit c who T.authorCollateral

def setStatus (s : AuthorState T) (who : T.AccountId) (status : AuthorStatus)
    (duty : Option AuthorActivity) : Except AuthorError (AuthorState T) := do
  let current ← getStatus s who
  match current, status with
  | .active, .active => pure s
  | .active, .probation => revokePermanence s who
  | .active, .resigned => do
    let (s, _) ← resign s who duty
    pure s
  | .probation, .probation => pure s
  | .probation, .resigned => .error .authorInProbation
  | .probation, .active => setPermanence s who
  | .resigned, .resigned => pure s
  | .resigned, _ => .error .authorResigned

/-- Collateral below the minimum must be raised by the exact amount. -/
def addCollateral (s : AuthorState T) (who : T.AccountId) (collateral : Nat) (fortitude : Fortitude) :
    Except AuthorError (AuthorState T × Nat) := do
  let existing ← getCollateral s who
  let precision := if existing < s.minCollateral then Precision.exact else Precision.bestEffort
  s.onCommitment fun c =>
    raiseCommit c who T.authorCollateral collateral { precision, fortitude }

def isAvailable (s : AuthorState T) (who : T.AccountId) : Except AuthorError Unit := do
  let status ← getStatus s who
  ensure (status ≠ .resigned) .authorResigned
  let collateral ← getCollateral s who
  ensure (s.minCollateral ≤ collateral) .authorNeedsMoreCollateral

/-- The limits of the commitment that a direct backer places or raises. -/
def fundingLimits (s : AuthorState T) (backer authorDigest : T.AccountId) : Except AuthorError Limits :=
  match commitExists s.commitment backer T.authorFunding with
  | .ok _ => do
    let existing ← liftCommit (getCommitDigest s.commitment backer T.authorFunding)
    ensure (existing = authorDigest) .fundedToAnotherDigest
    liftCommit (raiseCommitLimits s.commitment backer T.authorFunding)
  | .error _ => .ok (placeCommitLimits s.commitment T.authorFunding authorDigest)

def maxExposure (s : AuthorState T) (funder : Funder T.AccountId) (author : T.AccountId) :
    Except AuthorError Nat := do
  let info ← getMeta s author
  let baseMax := min (info.maxFund.getD s.maxExposure) s.maxExposure
  match funder with
  | .direct backer => do
    let limits ← fundingLimits s backer info.digest
    pure (min baseMax (limits.maximum.getD T.share.maxAsset))
  | _ => pure baseMax

def minFund (s : AuthorState T) (funder : Funder T.AccountId) (author : T.AccountId) :
    Except AuthorError Nat := do
  let info ← getMeta s author
  let baseMin := max (info.minFund.getD s.minFund) s.minFund
  match funder with
  | .direct backer => do
    let limits ← fundingLimits s backer info.digest
    pure (max baseMin (limits.minimum.getD 0))
  | _ => pure baseMin

/-- The amount is in the bounds, and the author has a part in the index or the pool. -/
def canFundVia (s : AuthorState T) (funder : Funder T.AccountId) (author authorDigest : T.AccountId)
    (value : Nat) : Except AuthorError Unit :=
  match funder with
  | .direct _ => do
    let least ← minFund s funder author
    ensure (least ≤ value) .belowMinimumFund
    let most ← maxExposure s funder author
    ensure (value ≤ most) .aboveMaximumExposure
  | .index digest _ => do
    ensure (s.minFund ≤ value) .belowMinimumFund
    ensure (value ≤ s.maxExposure) .aboveMaximumExposure
    liftCommit (entryExists s.commitment T.authorFunding digest authorDigest)
  | .pool digest _ => do
    ensure (s.minFund ≤ value) .belowMinimumFund
    ensure (value ≤ s.maxExposure) .aboveMaximumExposure
    liftCommit (slotExists s.commitment T.authorFunding digest authorDigest)

def canFund (s : AuthorState T) (funder : Funder T.AccountId) (author : T.AccountId) (value : Nat) :
    Except AuthorError Unit := do
  isAvailable s author
  let info ← getMeta s author
  canFundVia s funder author info.digest value
  match commitExists s.commitment funder.backer T.authorFunding with
  | .ok _ => do
    let existing ← liftCommit (getCommitDigest s.commitment funder.backer T.authorFunding)
    ensure (existing = funder.towards info.digest) .fundedToAnotherDigest
  | .error _ => .ok ()

abbrev FunderMap (T : AuthorConfig) := StorageMap (T.AccountId × T.AccountId) (Funder T.AccountId)

/-- Changes the registry for the author of every digest. -/
def forAuthors (op : FunderMap T → T.AccountId → FunderMap T) :
    List T.AccountId → AuthorState T → Except AuthorError (AuthorState T)
  | [], s => .ok s
  | digest :: digests, s => do
    let author ← okOr (s.authorsDigest.get digest) .authorDigestNotFound
    forAuthors op digests { s with authorFunders := op s.authorFunders author }

/-- Changes the registry for the author or, when the funds go to an index or a pool, for the authors
of all its current parts. -/
def updateFunders (op : FunderMap T → T.AccountId → FunderMap T) (s : AuthorState T)
    (funder : Funder T.AccountId) (author : T.AccountId) : Except AuthorError (AuthorState T) :=
  match funder with
  | .direct _ => .ok { s with authorFunders := op s.authorFunders author }
  | .index digest _ => do
    let entries ← liftCommit (getEntriesShares s.commitment T.authorFunding digest)
    forAuthors op (entries.map Prod.fst) s
  | .pool digest _ => do
    let slots ← liftCommit (getSlotsShares s.commitment T.authorFunding digest)
    forAuthors op (slots.map Prod.fst) s

def placeOrRaise (s : AuthorState T) (backer towards : T.AccountId) (value : Nat)
    (qualifier : Directive) : Except AuthorError (AuthorState T × Nat) :=
  match commitExists s.commitment backer T.authorFunding with
  | .ok _ => s.onCommitment fun c => raiseCommit c backer T.authorFunding value qualifier
  | .error _ => s.onCommitment fun c => placeCommit c backer T.authorFunding towards value qualifier

def fund (s : AuthorState T) (author : T.AccountId) (funder : Funder T.AccountId) (value : Nat)
    (qualifier : Directive) : Except AuthorError (AuthorState T × Nat) := do
  canFund s funder author value
  let info ← getMeta s author
  let (s, actual) ← placeOrRaise s funder.backer (funder.towards info.digest) value qualifier
  let s ← updateFunders (fun m a => m.insert (a, funder.backer) funder) s funder author
  pure (s, actual)

def canDraw (s : AuthorState T) (funder : Funder T.AccountId) (author : T.AccountId) :
    Except AuthorError Unit := do
  let info ← getMeta s author
  match funder with
  | .direct _ => .ok ()
  | .index digest _ => liftCommit (entryExists s.commitment T.authorFunding digest info.digest)
  | .pool digest _ => liftCommit (slotExists s.commitment T.authorFunding digest info.digest)
  liftCommit (commitExists s.commitment funder.backer T.authorFunding)
  let existing ← liftCommit (getCommitDigest s.commitment funder.backer T.authorFunding)
  ensure (existing = funder.towards info.digest) .fundedToAnotherDigest

def draw (s : AuthorState T) (author : T.AccountId) (funder : Funder T.AccountId) :
    Except AuthorError (AuthorState T × Nat) := do
  canDraw s funder author
  let (s, actual) ← s.onCommitment fun c => resolveCommit c funder.backer T.authorFunding
  let s ← updateFunders (fun m a => m.remove (a, funder.backer)) s funder author
  pure (s, actual)

/-- What one registered funder contributes to the author with the digest. -/
def contribution (s : AuthorState T) (authorDigest : T.AccountId) (funder : Funder T.AccountId) :
    Except AuthorError Nat :=
  liftCommit <|
    match funder with
    | .direct backer => getCommitValue s.commitment backer T.authorFunding
    | .index digest backer => getEntryValueFor s.commitment backer T.authorFunding digest authorDigest
    | .pool digest backer => getSlotValueFor s.commitment backer T.authorFunding digest authorDigest

def contributions (s : AuthorState T) (authorDigest : T.AccountId) :
    List (T.AccountId × Funder T.AccountId) → Except AuthorError (List (Funder T.AccountId × Nat))
  | [] => .ok []
  | (_, funder) :: funders => do
    let value ← contribution s authorDigest funder
    let rest ← contributions s authorDigest funders
    pure ((funder, value) :: rest)

def backersOf (s : AuthorState T) (who : T.AccountId) :
    Except AuthorError (List (Funder T.AccountId × Nat)) := do
  let info ← getMeta s who
  contributions s info.digest (s.authorFunders.iterPrefix T.hashOrder who)

end FrameSuite
