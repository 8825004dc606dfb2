import FrameSuite.ChainTypes
import FrameSuite.Run

/-! The chain-manager pallet: affidavits and their keys, elections, points and the sessions they are for.
A run is any sequence of transactions, blocks, rotations and calls of the other pallets. -/

namespace FrameSuite

variable {T : ChainConfig}

def liftRole {α : Type} (result : Except T.RoleError α) : Except (ChainError T.RoleError) α :=
  result.mapError .role

def ChainState.blockNumber (s : ChainState T) : Nat := T.blockNumber s.roles

def ChainState.nextSession (s : ChainState T) : Nat := saturatingAdd T.maxSession s.currentSession 1

def ChainState.nextAffidavitSession (s : ChainState T) : Nat := saturatingAdd T.maxSession s.nextSession 1

structure SessionWindow where
  start : Nat
  finish : Nat

def computeAffidavitWindow (s : ChainState T) : Except (ChainError T.RoleError) SessionWindow := do
  let start := saturatingAdd T.maxBlock s.sessionStartAt (s.affidavitBeginsAt.mulFloor T.averageSessionLength)
  ensure (s.affidavitBeginsAt.parts < s.affidavitEndsAt.parts) .invalidAffidavitPeriod
  let finish := saturatingAdd T.maxBlock s.sessionStartAt (s.affidavitEndsAt.mulFloor T.averageSessionLength)
  pure { start, finish }

def computeElectionWindow (s : ChainState T) : Except (ChainError T.RoleError) SessionWindow := do
  let window ← computeAffidavitWindow s
  let portion := s.electionBeginsAt.mulFloor (window.finish - window.start)
  pure { start := saturatingAdd T.maxBlock window.start portion, finish := window.finish }

def affidavitAuthor (s : ChainState T) (session : Nat) (who : T.AffidavitId) :
    Except (ChainError T.RoleError) T.AccountId :=
  okOr (s.affidavitKeys.get (session, who)) .affidavitAuthorNotFound

/-- The author of a key for the next session. -/
def registeredAuthor (s : ChainState T) (who : T.AffidavitId) : Except (ChainError T.RoleError) T.AccountId :=
  match s.affidavitKeys.get (s.nextSession, who) with
  | some author => .ok author
  | none =>
    if s.affidavitKeys.containsKey (s.nextAffidavitSession, who) then .error .declareDuringNextAffidavitSession
    else .error .affidavitAuthorNotFound

def canSubmitAffidavit (s : ChainState T) (who : T.AffidavitId) : Except (ChainError T.RoleError) Unit := do
  ensure s.allowAffidavits .affidavitsNotAllowed
  let author ← registeredAuthor s who
  liftRole (T.isAvailable s.roles author)
  let window ← computeAffidavitWindow s
  ensure (window.start ≤ s.blockNumber) .notAffidavitPeriod
  ensure (s.blockNumber ≤ window.finish) .affidavitPeriodEnded

def genAffidavit (s : ChainState T) (who : T.AffidavitId) : Except (ChainError T.RoleError) (List T.Weight) := do
  let author ← affidavitAuthor s s.nextSession who
  liftRole (T.weightOf s.roles author)

def submitAffidavit (s : ChainState T) (who : T.AffidavitId) (affidavit : List T.Weight) :
    Except (ChainError T.RoleError) (ChainState T) := do
  let author ← affidavitAuthor s s.nextSession who
  let weights := if affidavit.length ≤ T.maxAffidavitWeights then affidavit else T.descending affidavit
  pure { s with
    authorAffidavits := s.authorAffidavits.insert (s.nextSession, author) (s.blockNumber, weights) }

def processAffidavit (s : ChainState T) (who : T.AffidavitId) : Except (ChainError T.RoleError) (ChainState T) := do
  canSubmitAffidavit s who
  let affidavit ← genAffidavit s who
  submitAffidavit s who affidavit

/-- The signature is not looked at: the validation of unsigned transactions does that. -/
def validate (s : ChainState T) (origin : Origin T.AccountId) (signer : T.Public) :
    Except (ChainError T.RoleError) (ChainState T) :=
  match origin with
  | .none => .error .badOrigin
  | .signed author => do
    liftRole (T.roleExists s.roles author)
    liftRole (T.isAvailable s.roles author)
    pure { s with
      affidavitKeys := s.affidavitKeys.insert (s.nextSession, T.intoAccount signer) author }

def ensureNone (origin : Origin T.AccountId) : Except (ChainError T.RoleError) Unit :=
  match origin with
  | .none => .ok ()
  | .signed _ => .error .badOrigin

def declare (s : ChainState T) (origin : Origin T.AccountId) (signer : T.Public) (rotate : T.AffidavitId) :
    Except (ChainError T.RoleError) (ChainState T) := do
  ensureNone origin
  let author ← affidavitAuthor s s.nextSession (T.intoAccount signer)
  let s ← processAffidavit s (T.intoAccount signer)
  pure { s with affidavitKeys := s.affidavitKeys.insert (s.nextAffidavitSession, rotate) author }

def canProcessElection (s : ChainState T) : Except (ChainError T.RoleError) Unit := do
  let window ← computeAffidavitWindow s
  ensure (window.start < window.finish) .invalidAffidavitPeriod
  ensure (window.start ≤ s.blockNumber) .notAffidavitPeriod
  let election ← computeElectionWindow s
  ensure (election.start ≤ s.blockNumber) .notElectionPeriod
  ensure (s.blockNumber ≤ window.finish) .electionPeriodEnded

/-- All authors with an affidavit for the next session. -/
def prepareCandidates (s : ChainState T) : List (T.AccountId × List T.Weight) :=
  (s.authorAffidavits.iterPrefix T.hashOrder s.nextSession).map fun a => (a.1, a.2.2)

def prepareElection (s : ChainState T) : Except (ChainError T.RoleError) (ChainState T) := do
  canProcessElection s
  let roles ← liftRole (T.prepare s.roles (prepareCandidates s))
  pure { s with roles }

def elect (s : ChainState T) (origin : Origin T.AccountId) (signer : T.Public) :
    Except (ChainError T.RoleError) (ChainState T) := do
  ensureNone origin
  let author ← affidavitAuthor s s.nextAffidavitSession (T.intoAccount signer)
  let blockAuthor ← okOr s.blockAuthor .blockAuthorNotFound
  ensure (author = blockAuthor) .triedElectingByNonBlockAuthor
  let t ← prepareElection s
  pure { t with electsPreparedBy := t.electsPreparedBy.insert s.nextSession (author, s.blockNumber) }

/-- The validator of an account with a role. -/
def convert (s : ChainState T) (author : T.AccountId) : Option T.AccountId :=
  match T.roleExists s.roles author with
  | .ok _ => some author
  | .error _ => none

/-- A key for the session after next was rotated in by an affidavit, so that its author waits for the end
of the election and must not be elected. -/
def canChillRotated (s : ChainState T) (author : T.AccountId) (window : SessionWindow) :
    Except (ChainError T.RoleError) Unit := do
  ensure (window.start ≤ s.blockNumber) .declaredBeforeAffidavitPeriod
  ensure (window.finish ≤ s.blockNumber) .candidateCannotChill
  ensure (author ∉ (T.reveal s.roles).getD []) .electedCannotChill

def canChillRegistered (s : ChainState T) (author : T.AccountId) (affidavitPub : T.AffidavitId)
    (window : SessionWindow) : Except (ChainError T.RoleError) Unit := do
  let owner ← affidavitAuthor s s.nextSession affidavitPub
  ensure (owner = author) .authorNotAffidavitOwner
  if s.blockNumber < window.start then
    ensure (s.authorAffidavits.containsKey (s.nextSession, author) = false) .declaredBeforeAffidavitPeriod
  else ensure (s.authorAffidavits.containsKey (s.nextSession, author) = false) .invalidRotatedAffidavitKey

def canChill (s : ChainState T) (author : T.AccountId) (affidavitPub : T.AffidavitId) :
    Except (ChainError T.RoleError) Unit := do
  let validator ← okOr (convert s author) .sessionIdQueryFailed
  ensure (validator ∉ s.validators) .validatorCannotChill
  let window ← computeAffidavitWindow s
  ensure (window.start < window.finish) .invalidAffidavitPeriod
  match s.affidavitKeys.get (s.nextAffidavitSession, affidavitPub) with
  | some owner => do
    ensure (owner = author) .authorNotAffidavitOwner
    canChillRotated s author window
  | none => canChillRegistered s author affidavitPub window

def chill (s : ChainState T) (origin : Origin T.AccountId) (affidavitPub : T.AffidavitId) :
    Except (ChainError T.RoleError) (ChainState T) :=
  match origin with
  | .none => .error .badOrigin
  | .signed author => do
    canChill s author affidavitPub
    if s.affidavitKeys.containsKey (s.nextAffidavitSession, affidavitPub) then
      pure { s with affidavitKeys := s.affidavitKeys.remove (s.nextAffidavitSession, affidavitPub) }
    else pure { s with affidavitKeys := s.affidavitKeys.remove (s.nextSession, affidavitPub) }

def ChainState.forceGenesisConfig (s : ChainState T) :
    ChainForceGenesisConfig → Except (ChainError T.RoleError) (ChainState T)
  | .allowAffidavits allow => .ok { s with allowAffidavits := allow }
  | .affidavitBeginsAt point => do
    ensure (point.parts < s.affidavitEndsAt.parts) .invalidAffidavitPeriod
    pure { s with affidavitBeginsAt := point }
  | .affidavitEndsAt point => do
    ensure (s.affidavitBeginsAt.parts < point.parts) .invalidAffidavitPeriod
    pure { s with affidavitEndsAt := point }
  | .electionBeginsAt point => .ok { s with electionBeginsAt := point }
  | .electionRunnerPointsUpgrade points => .ok { s with electionRunnerPointsUpgrade := points }

/-- What the transaction pool and the block builder check of a transaction that nobody signed. -/
def validateUnsigned (s : ChainState T) (extrinsic : Extrinsic T) : Except InvalidTransaction Unit :=
  match computeAffidavitWindow s with
  | .error _ => .error .badProof
  | .ok window =>
    match extrinsic with
    | .declare signer rotate signature => do
      ensure (T.verify (.declare signer rotate) signature) .badProof
      ensure (s.blockNumber ≤ window.finish) .stale
      ensure (s.affidavitKeys.containsKey (s.nextSession, T.intoAccount signer)) .badSigner
    | .validate signer signature => ensure (T.verify (.validate signer) signature) .badProof
    | .elect signer signature => do
      ensure (T.verify (.elect signer) signature) .badProof
      ensure (s.blockNumber ≤ window.finish) .stale
      ensure
        (s.affidavitKeys.containsKey (saturatingAdd T.maxSession s.currentSession 2, T.intoAccount signer))
        .badSigner
    | .chill _ => .error .call

def Extrinsic.execute (s : ChainState T) (origin : Origin T.AccountId) :
    Extrinsic T → Except (ChainError T.RoleError) (ChainState T)
  | .validate signer _ => FrameSuite.validate s origin signer
  | .declare signer rotate _ => FrameSuite.declare s origin signer rotate
  | .elect signer _ => FrameSuite.elect s origin signer
  | .chill affidavitPub => FrameSuite.chill s origin affidavitPub

/-- A transaction without a signature is validated first; a signed one reaches its body directly. -/
def dispatch (s : ChainState T) (origin : Origin T.AccountId) (extrinsic : Extrinsic T) :
    Except (ChainError T.RoleError) (ChainState T) :=
  match origin with
  | .none => do
    (validateUnsigned s extrinsic).mapError .invalid
    extrinsic.execute s .none
  | .signed who => extrinsic.execute s (.signed who)

def ChainState.pointsOf (s : ChainState T) (author : T.AccountId) : Option Nat :=
  s.blockPointsStore.get (s.currentSession, author)

def ChainState.setPoints (s : ChainState T) (author : T.AccountId) (points : Nat) : ChainState T :=
  { s with blockPointsStore := s.blockPointsStore.insert (s.currentSession, author) points }

def ChainState.addPoint (s : ChainState T) (author : T.AccountId) : ChainState T :=
  s.setPoints author (saturatingAdd T.maxPoints ((s.pointsOf author).getD 0) 1)

def payoutFor (s : ChainState T) : List (T.AccountId × Nat) :=
  s.blockPointsStore.iterPrefix T.hashOrder s.currentSession

def rewardAuthors (s : ChainState T) : ChainState T :=
  let payout := T.payout s.roles
  if payout = 0 then s
  else
    { s with
      roles := (T.payees payout (payoutFor s)).foldl (fun roles p => T.reward roles p.1 p.2) s.roles }

def endSession (s : ChainState T) : ChainState T :=
  let s := rewardAuthors s
  match s.electionRunnerPointsUpgrade with
  | some update => { s with electionRunnerPoints := update, electionRunnerPointsUpgrade := none }
  | none => s

def startSession (s : ChainState T) (startIndex : Nat) : ChainState T :=
  { s with currentSession := startIndex, sessionStartAt := s.blockNumber }

/-- The runner of the election that is recorded for the new session. -/
def creditedRunner (s : ChainState T) (newIndex : Nat) : Option T.AccountId :=
  (s.electsPreparedBy.get newIndex).map Prod.fst

def newSession (s : ChainState T) (newIndex : Nat) : ChainState T × Option (List T.AccountId) :=
  match T.reveal s.roles with
  | none => (s, none)
  | some elected =>
    if elected = [] then (s, none)
    else
      match creditedRunner s newIndex with
      | some runner =>
        let points := saturatingAdd T.maxPoints ((s.pointsOf runner).getD 0) s.electionRunnerPoints
        (s.setPoints runner points, some elected)
      | none => (s, some elected)

/-- The session pallet activates the queued validators. -/
def beginSession (s : ChainState T) : ChainState T :=
  startSession { s with validators := s.queued } (s.currentSession + 1)

/-- When no new validators are returned, the active ones stay for another session. -/
def planSession (s : ChainState T) : ChainState T :=
  let planned := newSession s (s.currentSession + 1)
  { planned.1 with queued := planned.2.getD s.validators }

def rotateSession (s : ChainState T) : Except (ChainError T.RoleError) (ChainState T) := do
  ensure (s.currentSession + 2 ≤ T.maxSession) .sessionOverflow
  pure (planSession (beginSession (endSession s)))

def ChainState.enterBlock (s : ChainState T) (author : Option T.AccountId) :
    Except (ChainError T.RoleError) (ChainState T) := do
  let roles ← liftRole (T.nextBlock s.roles)
  let s := { s with roles, blockAuthor := author }
  match author with
  | some author => pure (s.addPoint author)
  | none => pure s

/-- The duty that keeps an author from leaving its role. -/
def isIdle (s : ChainState T) (who : T.AccountId) : Option AuthorActivity :=
  match convert s who with
  | none => none
  | some validator =>
    if validator ∈ s.validators then some .sessionValidator
    else
      match computeAffidavitWindow s with
      | .error _ => some .indeterminate
      | .ok window =>
        if s.blockNumber < window.start then none
        else if s.blockNumber < window.finish ∧ s.authorAffidavits.containsKey (s.nextSession, who) then
          some .electionCandidate
        else if window.finish < s.blockNumber ∧ who ∈ (T.reveal s.roles).getD [] then some .electionWinner
        else none

def ChainState.apply (s : ChainState T) : ChainCall T → Except (ChainError T.RoleError) (ChainState T)
  | .dispatch origin extrinsic => FrameSuite.dispatch s origin extrinsic
  | .forceGenesisConfig field => ChainState.forceGenesisConfig s field
  | .rotateSession => FrameSuite.rotateSession s
  | .enterBlock author => ChainState.enterBlock s author
  | .callRoles call => do
    let roles ← liftRole (T.callRoles (isIdle s) s.roles call)
    pure { s with roles }

/-- The state after the calls, from the genesis over some storage of the other pallets. -/
def ChainState.after (roles : T.Roles) (validators : List T.AccountId) (g : ChainGenesis)
    (calls : List (ChainCall T)) : ChainState T :=
  run ChainState.apply (ChainState.genesis roles validators g) calls

end FrameSuite
