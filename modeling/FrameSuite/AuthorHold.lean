import FrameSuite.AuthorRoles

/-! The hold of an author, which is the value of its digest as funding and as collateral, and the
settlement of rewards and penalties at the start of a block. The hook runs outside of any
transaction, so the updates keep what they have written when they fail. -/

namespace FrameSuite

section Commitment

variable {T : Config}

def putBalance (s : State T) (reason : T.Reason) (digest : T.AccountId) (info : DigestInfo T)
    (variant : T.Position) (balance : LazyBalance T) : State T :=
  { s with digestMap := s.digestMap.insert (reason, digest) (info.setBalance variant balance) }

/-- The steps after the balance: a counter of the imbalance, then the total of the reason. -/
def bookChange (s : State T) (count total : State T → Except DispatchError (State T)) (value : Nat) :
    State T × Except DispatchError Nat :=
  match count s with
  | .error e => (s, .error e)
  | .ok s =>
    match total s with
    | .error e => (s, .error e)
    | .ok s => (s, .ok value)

/-- Sets a digest's value like `setDigestVariantValue`; a failed update leaves the balance and the
counter it has already written. -/
def writeDigestValue (s : State T) (reason : T.Reason) (digest : T.AccountId) (value : Nat)
    (variant : T.Position) : State T × Except DispatchError Nat :=
  match s.digestMap.get (reason, digest) with
  | none => (s, .error .digestNotFound)
  | some info =>
    match info.getBalance variant with
    | none => (s, .error .digestVariantBalanceNotFound)
    | some balance =>
      let current := ShareBalance.totalValue balance
      if current < value then
        match ShareBalance.mint balance (value - current) with
        | (.error e, balance) => (putBalance s reason digest info variant balance, .error (.balance e))
        | (.ok actual, balance) =>
          bookChange (putBalance s reason digest info variant balance) (addAssetToIssue · actual)
            (addToTotalValue · reason actual) (saturatingAdd T.share.maxAsset current actual)
      else if value < current then
        match ShareBalance.reap balance (current - value) with
        | (.error e, balance) => (putBalance s reason digest info variant balance, .error (.balance e))
        | (.ok actual, balance) =>
          bookChange (putBalance s reason digest info variant balance) (addAssetToReap · actual)
            (subFromTotalValue · reason actual) (current - actual)
      else (s, .ok current)

theorem bookChange_map (s : State T) (count total : State T → Except DispatchError (State T)) (value : Nat) :
    (bookChange s count total value).2.map (Prod.mk (bookChange s count total value).1) =
      (do let s ← count s
          let s ← total s
          pure (s, value)) := by
  unfold bookChange
  cases count s with
  | error e => rfl
  | ok s => cases h : total s <;> simp [h, Except.map, bind, Except.bind, pure, Except.pure]

theorem writeDigestValue_map (s : State T) (reason : T.Reason) (digest : T.AccountId) (value : Nat)
    (variant : T.Position) :
    (writeDigestValue s reason digest value variant).2.map
        (Prod.mk (writeDigestValue s reason digest value variant).1) =
      setDigestVariantValue s reason digest value variant := by
  unfold writeDigestValue setDigestVariantValue
  cases s.digestMap.get (reason, digest) with
  | none => rfl
  | some info =>
    cases hbalance : info.getBalance variant with
    | none => simp [okOr, hbalance, Except.map, bind, Except.bind]
    | some balance =>
      simp only [okOr, hbalance, bind, Except.bind]
      split
      · rcases ShareBalance.mint balance (value - ShareBalance.totalValue balance) with ⟨e | a, b⟩
        · rfl
        · exact bookChange_map _ _ _ _
      · split
        · rcases ShareBalance.reap balance (ShareBalance.totalValue balance - value) with ⟨e | a, b⟩
          · rfl
          · exact bookChange_map _ _ _ _
        · rfl

end Commitment

variable {T : AuthorConfig}

/-- The author's digest as funding and as collateral. -/
def holdParts (s : AuthorState T) (who : T.AccountId) : Except AuthorError (Nat × Nat) := do
  let info ← getMeta s who
  let funding ← liftCommit (getDigestValue s.commitment T.authorFunding info.digest)
  let collateral ← liftCommit (getDigestValue s.commitment T.authorCollateral info.digest)
  ensure (funding + collateral ≤ T.share.maxAsset) .authorTotalHoldExhausted
  pure (funding, collateral)

def getHold (s : AuthorState T) (who : T.AccountId) : Except AuthorError Nat := do
  let (funding, collateral) ← holdParts s who
  pure (funding + collateral)

/-- The funding's part of a new hold, in the proportion it has now. -/
def fundingPart (funding collateral value : Nat) : Nat :=
  (Perbill.fromRational funding (funding + collateral)).mulCeil value

def writeValue (s : AuthorState T) (reason : T.Reason) (digest : T.AccountId) (value : Nat) :
    AuthorState T × Except AuthorError Unit :=
  let (commitment, result) := writeDigestValue s.commitment reason digest value T.positionDefault
  ({ s with commitment }, liftCommit (result.map fun _ => ()))

/-- `set_hold`: first the funding is set, then the collateral. -/
def writeHold (s : AuthorState T) (who : T.AccountId) (value : Nat) :
    AuthorState T × Except AuthorError Unit :=
  match getMeta s who, holdParts s who with
  | .ok info, .ok (funding, collateral) =>
    let fundingValue := fundingPart funding collateral value
    match writeValue s T.authorFunding info.digest fundingValue with
    | (s, .error e) => (s, .error e)
    | (s, .ok _) => writeValue s T.authorCollateral info.digest (value - fundingValue)
  | .error e, _ => (s, .error e)
  | _, .error e => (s, .error e)

/-- Sets the hold when there is one; the outcome is ignored. -/
def adjustHold (s : AuthorState T) (who : T.AccountId) (f : Nat → Nat) : AuthorState T :=
  match getHold s who with
  | .ok hold => (writeHold s who (f hold)).1
  | .error _ => s

def settleReward (block : Nat) (s : AuthorState T) (due : T.AccountId × Nat) : AuthorState T :=
  let s := adjustHold s due.1 fun hold => saturatingAdd T.share.maxAsset hold due.2
  { s with authorRewards := s.authorRewards.remove (block, due.1) }

def settlePenalty (block : Nat) (s : AuthorState T) (due : T.AccountId × Perbill) : AuthorState T :=
  let s := adjustHold s due.1 fun hold => hold - due.2.mulFloor hold
  { s with authorPenalties := s.authorPenalties.remove (block, due.1) }

/-- The obligations of a block are collected first, and settled in the order of the storage. -/
def onInitialize (s : AuthorState T) (block : Nat) : AuthorState T :=
  let s := (s.authorRewards.iterPrefix T.hashOrder block).foldl (settleReward block) s
  (s.authorPenalties.iterPrefix T.hashOrder block).foldl (settlePenalty block) s

def enterBlock (s : AuthorState T) : Except AuthorError (AuthorState T) := do
  ensure (s.blockNumber < T.maxBlock) .endOfChain
  let block := s.blockNumber + 1
  pure (onInitialize { s with blockNumber := block } block)

end FrameSuite
