import FrameSuite.AuthorTypes

/-! The probation of authors and the rewards and penalties scheduled for them. An obligation
is booked at the first free block from a configured offset on, and a penalty pushes the
author's risk horizon further out. -/

namespace FrameSuite

variable {T : AuthorConfig}

def roleExists (s : AuthorState T) (who : T.AccountId) : Except AuthorError Unit :=
  ensure (s.authorsMap.containsKey who = true) .authorNotFound

def getMeta (s : AuthorState T) (who : T.AccountId) : Except AuthorError (AuthorInfo T.AccountId) :=
  okOr (s.authorsMap.get who) .authorNotFound

def getStatus (s : AuthorState T) (who : T.AccountId) : Except AuthorError AuthorStatus := do
  let info ← getMeta s who
  pure info.status

/-- Looks through the blocks from `start` to `last`. The counter stays at the last block of the
type, where a search that has found nothing goes on forever. -/
def findBlock (T : AuthorConfig) (p : Nat → Bool) (start last : Nat) : Except AuthorError (Option Nat) :=
  match (List.range' start (last + 1 - start)).find? p with
  | some block => .ok (some block)
  | none => if last < T.maxBlock then .ok none else .error .endlessSearch

def AuthorState.nextBlock (s : AuthorState T) : Nat := T.blockAdd s.blockNumber 1

def hasReward (s : AuthorState T) (who : T.AccountId) : Except AuthorError Unit := do
  roleExists s who
  let found ← findBlock T (fun block => s.authorRewards.containsKey (block, who)) s.nextBlock s.rewardsUntil
  ensure (found ≠ none) .rewardNotFound

def hasPenalty (s : AuthorState T) (who : T.AccountId) : Except AuthorError Unit := do
  roleExists s who
  let found ←
    findBlock T (fun block => s.authorPenalties.containsKey (block, who)) s.nextBlock s.penaltiesUntil
  ensure (found ≠ none) .penaltyNotFound

/-- The entries of one author in the blocks from `start` to `last`. -/
def collectBlocks {V : Type} (T : AuthorConfig) (m : StorageMap (Nat × T.AccountId) V) (who : T.AccountId)
    (start last : Nat) : Except AuthorError (List (Nat × V)) :=
  if last < T.maxBlock then
    .ok ((List.range' start (last + 1 - start)).filterMap fun block => (m.get (block, who)).map (Prod.mk block))
  else .error .endlessSearch

def getRewardsOf (s : AuthorState T) (who : T.AccountId) : Except AuthorError (List (Nat × Nat)) := do
  roleExists s who
  collectBlocks T s.authorRewards who s.nextBlock s.rewardsUntil

def getPenaltiesOf (s : AuthorState T) (who : T.AccountId) : Except AuthorError (List (Nat × Perbill)) := do
  roleExists s who
  collectBlocks T s.authorPenalties who s.nextBlock s.penaltiesUntil

/-- The first block from `start` on without an entry of the author. -/
def freeBlock {V : Type} (T : AuthorConfig) (m : StorageMap (Nat × T.AccountId) V) (who : T.AccountId)
    (start : Nat) : Except AuthorError Nat :=
  okOr ((List.range' start (T.maxBlock + 1 - start)).find? fun block => !m.containsKey (block, who))
    .endlessSearch

def statusError : AuthorStatus → AuthorError
  | .active => .authorIsActive
  | .probation => .authorInProbation
  | .resigned => .authorResigned

def requireStatus (info : AuthorInfo T.AccountId) (status : AuthorStatus) : Except AuthorError Unit :=
  ensure (info.status = status) (statusError info.status)

def AuthorState.setInfo (s : AuthorState T) (who : T.AccountId) (info : AuthorInfo T.AccountId) :
    AuthorState T :=
  { s with authorsMap := s.authorsMap.insert who info }

def canBePermanent (s : AuthorState T) (who : T.AccountId) : Except AuthorError Unit := do
  let info ← getMeta s who
  requireStatus info .probation
  ensure (T.blockAdd info.statusSince s.probationPeriod ≤ s.blockNumber) .authorInProbation
  ensure (info.riskUntil ≤ s.blockNumber) .authorIsUnsafe

def setPermanence (s : AuthorState T) (who : T.AccountId) : Except AuthorError (AuthorState T) := do
  canBePermanent s who
  let info ← getMeta s who
  pure (s.setInfo who { info with status := .active })

def canRevokePermanence (s : AuthorState T) (who : T.AccountId) : Except AuthorError Unit := do
  let info ← getMeta s who
  requireStatus info .active
  ensure (T.blockAdd s.blockNumber s.probationPeriod < info.riskUntil) .riskWithinThreshold

def revokePermanence (s : AuthorState T) (who : T.AccountId) : Except AuthorError (AuthorState T) := do
  canRevokePermanence s who
  let info ← getMeta s who
  pure (s.setInfo who { info with status := .probation, statusSince := s.blockNumber })

/-- `risk_permanence` asks for an active author and `risk_probation` for one on probation. -/
def riskStatus (s : AuthorState T) (who : T.AccountId) (status : AuthorStatus) :
    Except AuthorError (AuthorState T) := do
  let info ← getMeta s who
  requireStatus info status
  let riskUntil := T.blockAdd (max info.riskUntil s.blockNumber) s.increaseProbationBy
  pure (s.setInfo who { info with riskUntil })

def riskPermanence (s : AuthorState T) (who : T.AccountId) : Except AuthorError (AuthorState T) :=
  riskStatus s who .active

def riskProbation (s : AuthorState T) (who : T.AccountId) : Except AuthorError (AuthorState T) :=
  riskStatus s who .probation

def securePermanence (s : AuthorState T) (who : T.AccountId) : Except AuthorError (AuthorState T) := do
  let info ← getMeta s who
  ensure (info.status ≠ .resigned) .authorResigned
  if s.blockNumber < info.riskUntil then
    pure (s.setInfo who { info with riskUntil := info.riskUntil - s.reduceProbationBy })
  else pure s

/-- What a penalty does to the status: an active author whose risk reaches past a whole
probation period is put on probation. -/
def raiseRisk (s : AuthorState T) (who : T.AccountId) : Except AuthorError (AuthorState T) := do
  let status ← getStatus s who
  match status with
  | .active => do
    let s ← riskPermanence s who
    match canRevokePermanence s who with
    | .ok _ => revokePermanence s who
    | .error _ => pure s
  | .probation => riskProbation s who
  | .resigned => .error .authorResigned

def schedulePenalty (s : AuthorState T) (who : T.AccountId) (factor : Perbill) :
    Except AuthorError (AuthorState T × Nat) := do
  let block ← freeBlock T s.authorPenalties who (T.blockAdd s.blockNumber s.penaltiesBuffer)
  pure ({ s with
    authorPenalties := s.authorPenalties.insert (block, who) factor
    penaltiesUntil := max s.penaltiesUntil block }, block)

def penalize (s : AuthorState T) (who : T.AccountId) (factor : Perbill) :
    Except AuthorError (AuthorState T × Nat) := do
  ensure (factor.parts ≠ 0) .zeroPenaltyFound
  let s ← raiseRisk s who
  schedulePenalty s who factor

def forgive (s : AuthorState T) (who : T.AccountId) (since : Nat) :
    Except AuthorError (AuthorState T × Perbill) := do
  let status ← getStatus s who
  ensure (s.blockNumber < since) .finalizedObligations
  ensure (status ≠ .resigned) .authorResigned
  let factor ← okOr (s.authorPenalties.get (since, who)) .penaltyNotFound
  let s := { s with authorPenalties := s.authorPenalties.remove (since, who) }
  let s ← securePermanence s who
  pure (s, factor)

def scheduleReward (s : AuthorState T) (who : T.AccountId) (value : Nat) :
    Except AuthorError (AuthorState T × Nat) := do
  let block ← freeBlock T s.authorRewards who (T.blockAdd s.blockNumber s.rewardsBuffer)
  pure ({ s with
    authorRewards := s.authorRewards.insert (block, who) value
    rewardsUntil := max s.rewardsUntil block }, block)

/-- A resigned author has no permanence to secure, which is the check of the source too. -/
def reward (s : AuthorState T) (who : T.AccountId) (value : Nat) :
    Except AuthorError (AuthorState T × Nat) := do
  let s ← securePermanence s who
  scheduleReward s who value

def reclaim (s : AuthorState T) (who : T.AccountId) (since : Nat) :
    Except AuthorError (AuthorState T × Nat) := do
  roleExists s who
  ensure (s.blockNumber < since) .finalizedObligations
  let value ← okOr (s.authorRewards.get (since, who)) .rewardNotFound
  pure ({ s with authorRewards := s.authorRewards.remove (since, who) }, value)

end FrameSuite
