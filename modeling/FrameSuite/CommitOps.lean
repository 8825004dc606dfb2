import FrameSuite.CommitWithdraw

/-! Placing, raising and resolving a commit on each digest model: the funds move, the
proprietor's commit and freeze follow, and the total of the reason is kept. -/

namespace FrameSuite

variable {T : Config}

def finalizePlaceCommit (s : State T) (who : T.AccountId) (reason : T.Reason) (digest : T.AccountId)
    (variant : T.Position) (receipt : CommitInstance T) (totalCommit : Nat) :
    Except DispatchError (State T) := do
  let s ← s.onLedger fun l => T.asset.setFreeze l reason who totalCommit
  let info ← CommitInfo.new digest receipt variant
  let s := { s with commitMap := s.commitMap.insert (who, reason) info }
  addToTotalValue s reason totalCommit

def finalizeRaiseCommit (s : State T) (who : T.AccountId) (reason : T.Reason)
    (receipt : CommitInstance T) (totalRaise : Nat) : Except DispatchError (State T) := do
  let s ← s.onLedger fun l => T.asset.increaseFrozen l reason who totalRaise
  let info ← getCommit s who reason
  let info ← info.addCommit receipt
  let s := { s with commitMap := s.commitMap.insert (who, reason) info }
  addToTotalValue s reason totalRaise

def finalizeResolveCommit (s : State T) (who : T.AccountId) (reason : T.Reason)
    (imbalance : AssetDelta) : Except DispatchError (State T × Nat) := do
  let s := { s with commitMap := s.commitMap.remove (who, reason) }
  let s ← s.onLedger fun l => T.asset.thaw l reason who
  let (s, resolved) ← resolveImbalance s who imbalance
  let s ← subFromTotalValue s reason resolved
  pure (s, resolved)

/-- An unknown digest is initiated, so that the first commit to it creates it. -/
def initiateDigest (s : State T) (reason : T.Reason) (digest : T.AccountId) : State T :=
  if s.digestMap.containsKey (reason, digest) then s
  else { s with digestMap := s.digestMap.insert (reason, digest) DigestInfo.default }

def placeDigestCommit (s : State T) (who : T.AccountId) (reason : T.Reason) (digest : T.AccountId)
    (value : Nat) (variant : T.Position) (qualifier : Directive) :
    Except DispatchError (State T × Nat) := do
  let s := initiateDigest s reason digest
  let (s, actual) ← deductBalance s who value qualifier
  let (s, receipt, amount) ← depositToDigest s reason digest actual variant
  let s ← finalizePlaceCommit s who reason digest variant receipt amount
  pure (s, amount)

def placeIndexCommit (s : State T) (who : T.AccountId) (reason : T.Reason) (indexOf : T.AccountId)
    (value : Nat) (variant : T.Position) (qualifier : Directive) :
    Except DispatchError (State T × Nat) := do
  let (s, actual) ← deductBalance s who value qualifier
  let (s, receipt, amount) ← depositToIndex s who reason indexOf actual
  let s ← finalizePlaceCommit s who reason indexOf variant receipt amount
  pure (s, amount)

def placePoolCommit (s : State T) (who : T.AccountId) (reason : T.Reason) (poolOf : T.AccountId)
    (value : Nat) (variant : T.Position) (qualifier : Directive) :
    Except DispatchError (State T × Nat) := do
  let (s, actual) ← deductBalance s who value qualifier
  let (s, receipt, amount) ← depositToPool s reason poolOf actual
  let s ← finalizePlaceCommit s who reason poolOf variant receipt amount
  pure (s, amount)

def placeCommitOf (s : State T) (who : T.AccountId) (reason : T.Reason) (model : DigestVariant T)
    (value : Nat) (variant : T.Position) (qualifier : Directive) :
    Except DispatchError (State T × Nat) :=
  match model with
  | .direct dir => placeDigestCommit s who reason dir value variant qualifier
  | .index index => placeIndexCommit s who reason index value variant qualifier
  | .pool pool => placePoolCommit s who reason pool value variant qualifier

def raiseDigestCommit (s : State T) (who : T.AccountId) (reason : T.Reason) (digest : T.AccountId)
    (value : Nat) (qualifier : Directive) : Except DispatchError (State T × Nat) := do
  let variant ← getCommitVariant s who reason
  let (s, actual) ← deductBalance s who value qualifier
  let (s, receipt, raised) ← depositToDigest s reason digest actual variant
  let s ← finalizeRaiseCommit s who reason receipt raised
  pure (s, raised)

def raiseIndexCommit (s : State T) (who : T.AccountId) (reason : T.Reason) (indexOf : T.AccountId)
    (value : Nat) (qualifier : Directive) : Except DispatchError (State T × Nat) := do
  let (s, actual) ← deductBalance s who value qualifier
  let (s, receipt, raised) ← depositToIndex s who reason indexOf actual
  let s ← finalizeRaiseCommit s who reason receipt raised
  pure (s, raised)

def raisePoolCommit (s : State T) (who : T.AccountId) (reason : T.Reason) (poolOf : T.AccountId)
    (value : Nat) (qualifier : Directive) : Except DispatchError (State T × Nat) := do
  let (s, actual) ← deductBalance s who value qualifier
  let (s, receipt, raised) ← depositToPool s reason poolOf actual
  let s ← finalizeRaiseCommit s who reason receipt raised
  pure (s, raised)

def raiseCommitOf (s : State T) (who : T.AccountId) (reason : T.Reason) (model : DigestVariant T)
    (value : Nat) (qualifier : Directive) : Except DispatchError (State T × Nat) :=
  match model with
  | .direct dir => raiseDigestCommit s who reason dir value qualifier
  | .index index => raiseIndexCommit s who reason index value qualifier
  | .pool pool => raisePoolCommit s who reason pool value qualifier

def withdrawFor (s : State T) (who : T.AccountId) (reason : T.Reason) (model : DigestVariant T) :
    Except DispatchError (State T × AssetDelta) :=
  match model with
  | .direct dir => withdrawFromDigest s who reason dir
  | .index index => withdrawFromIndex s who reason index
  | .pool pool => withdrawFromPool s who reason pool

/-- `resolve_digest_commit`, `resolve_index_commit` and `resolve_pool_commit` differ in the
withdrawal alone. -/
def resolveCommitOf (s : State T) (who : T.AccountId) (reason : T.Reason) (model : DigestVariant T) :
    Except DispatchError (State T × Nat) := do
  let _ ← getCommitVariant s who reason
  let (s, imbalance) ← withdrawFor s who reason model
  finalizeResolveCommit s who reason imbalance

def placeCommitOfVariant (s : State T) (who : T.AccountId) (reason : T.Reason) (digest : T.AccountId)
    (value : Nat) (variant : T.Position) (qualifier : Directive) :
    Except DispatchError (State T × Nat) := do
  ensure (s.commitMap.containsKey (who, reason) = false) .commitAlreadyExists
  ensure (value ≠ 0) .markerCommitNotAllowed
  let model := match determineDigest s digest reason with
    | .ok model => model
    | .error _ => .direct digest
  placeCommitOf s who reason model value variant qualifier

def placeCommit (s : State T) (who : T.AccountId) (reason : T.Reason) (digest : T.AccountId)
    (value : Nat) (qualifier : Directive) : Except DispatchError (State T × Nat) :=
  placeCommitOfVariant s who reason digest value T.positionDefault qualifier

def raiseCommit (s : State T) (who : T.AccountId) (reason : T.Reason) (value : Nat)
    (qualifier : Directive) : Except DispatchError (State T × Nat) := do
  ensure (s.commitMap.containsKey (who, reason) = true) .commitNotFound
  ensure (value ≠ 0) .markerCommitNotAllowed
  let digest ← getCommitDigest s who reason
  let model ← determineDigest s digest reason
  raiseCommitOf s who reason model value qualifier

def resolveCommit (s : State T) (who : T.AccountId) (reason : T.Reason) :
    Except DispatchError (State T × Nat) := do
  let digest ← getCommitDigest s who reason
  let model ← determineDigest s digest reason
  resolveCommitOf s who reason model

/-- Moves a commit to another variant by resolving it and placing it again. -/
def setCommitVariant (s : State T) (who : T.AccountId) (reason : T.Reason) (variant : T.Position)
    (qualifier : Directive) : Except DispatchError (State T) := do
  ensure (s.commitMap.containsKey (who, reason) = true) .commitNotFound
  let current ← getCommitVariant s who reason
  if current = variant then pure s
  else
    let digest ← getCommitDigest s who reason
    let (s, reDeposit) ← resolveCommit s who reason
    let (s, _) ← placeCommitOfVariant s who reason digest reDeposit variant qualifier
    pure s

end FrameSuite
