import FrameSuite.FixedPoint

/-! The share-based lazy balance: one pool of value, the shares issued against it
and a price per share (`bias`) that only mint and reap recompute. Every operation
returns its result together with the balance it leaves behind, on errors too. -/

namespace FrameSuite

/-- Widths of the configured types: the rational, the asset and the time counter. -/
structure ShareConfig where
  rational : FixedFormat
  maxAsset : Nat
  maxTime : Nat
  inner_le_asset : rational.maxInner ≤ maxAsset

/-- 64-bit carrier with nine decimal places, 128-bit assets and a 32-bit time counter. -/
def runtimeShareConfig : ShareConfig :=
  { rational :=
      { div := 10 ^ 9
        maxInner := 2 ^ 64 - 1
        div_pos := by decide
        div_le := by decide }
    maxAsset := 2 ^ 128 - 1
    maxTime := 2 ^ 32 - 1
    inner_le_asset := by decide }

inductive ShareBalanceError
  | zeroDepositNotAllowed
  | balanceNotInitiatedViaDeposit
  | balanceDrainedCannotDeposit
  | inadequatePrecision
  | lessThanOneShareDerived
  | assetOverflow
  | assetUnderflow
  | sharesOverflow
  | sharesUnderflow
  | requiresExistingDeposits
  | zeroAdjustmentNotAllowed
  | invalidReceipt
  | allDepositsWithdrawn
deriving DecidableEq

structure Balance (C : ShareConfig) where
  effective : Nat
  issued : Nat
  bias : Fixed C.rational
  checkpoint : Nat
  drainpoint : Nat
deriving DecidableEq

structure Receipt (C : ShareConfig) where
  principal : Nat
  shares : Nat
  bias : Fixed C.rational
  checkpoint : Nat
deriving DecidableEq

/-- `none` is the default balance, none of whose fields is set. -/
abbrev VirtualBalance (C : ShareConfig) := Option (Balance C)

/-- `none` is the default receipt, none of whose fields is set. -/
abbrev VirtualReceipt (C : ShareConfig) := Option (Receipt C)

abbrev ShareOutcome (C : ShareConfig) (α : Type) := Except ShareBalanceError α × VirtualBalance C

namespace ShareBalance

variable {C : ShareConfig}

def initBalance : Balance C :=
  { effective := 0, issued := 0, bias := Fixed.one, checkpoint := 0, drainpoint := 0 }

def isFreshBalance (balance : VirtualBalance C) : Balance C := balance.getD initBalance

def balanceCheckpoint (balance : Balance C) : Balance C :=
  let next := min (balance.checkpoint + 1) C.maxTime
  if balance.bias.inner = 0 then
    { balance with drainpoint := next, checkpoint := next }
  else
    { balance with checkpoint := next }

def deriveShares (balance : Balance C) (asset : Nat) : Except ShareBalanceError Nat :=
  if balance.issued = 0 then .ok asset
  else
    match (Fixed.saturatingFromInteger asset).checkedDiv balance.bias with
    | none => .error .inadequatePrecision
    | some div => .ok div.toInteger

def deposit (balance : VirtualBalance C) (asset : Nat) : ShareOutcome C (Nat × Receipt C) :=
  if asset = 0 then (.error .zeroDepositNotAllowed, balance)
  else
    let b := isFreshBalance balance
    if b.bias.inner = 0 then (.error .balanceDrainedCannotDeposit, some b)
    else
      match deriveShares b asset with
      | .error e => (.error e, some b)
      | .ok shares =>
        if shares = 0 then (.error .lessThanOneShareDerived, some b)
        else if C.maxAsset < b.effective + asset then (.error .assetOverflow, some b)
        else if C.maxAsset < b.issued + shares then (.error .sharesOverflow, some b)
        else
          (.ok (asset, { principal := asset, shares, bias := b.bias, checkpoint := b.checkpoint }),
            some { b with effective := b.effective + asset, issued := b.issued + shares })

def canDeposit (balance : VirtualBalance C) (asset : Nat) : Except ShareBalanceError Unit :=
  match balance with
  | none => .ok ()
  | some b =>
    if b.bias.inner = 0 ∧ b.issued ≠ 0 then .error .balanceDrainedCannotDeposit
    else if C.maxAsset < b.effective + asset then .error .assetOverflow
    else .ok ()

def mint (balance : VirtualBalance C) (asset : Nat) : ShareOutcome C Nat :=
  if asset = 0 then (.ok 0, balance)
  else
    match balance with
    | none => (.error .balanceNotInitiatedViaDeposit, balance)
    | some b =>
      if b.issued = 0 then (.error .requiresExistingDeposits, balance)
      else if C.maxAsset < b.effective + asset then (.error .assetOverflow, balance)
      else
        match Fixed.checkedFromRational (b.effective + asset) b.issued with
        | none => (.error .inadequatePrecision, balance)
        | some bias =>
          (.ok asset, some (balanceCheckpoint { b with effective := b.effective + asset, bias }))

def canMint (balance : VirtualBalance C) (asset : Nat) : Except ShareBalanceError Unit :=
  if asset = 0 then .error .zeroAdjustmentNotAllowed
  else
    match balance with
    | none => .error .balanceNotInitiatedViaDeposit
    | some b =>
      if b.issued = 0 then .error .requiresExistingDeposits
      else if C.maxAsset < b.effective + asset then .error .assetOverflow
      else .ok ()

/-- The effective value is written before the price is known, so a price that does
not fit leaves the reduced value behind with the error. -/
def reap (balance : VirtualBalance C) (asset : Nat) : ShareOutcome C Nat :=
  if asset = 0 then (.ok 0, balance)
  else
    match balance with
    | none => (.error .balanceNotInitiatedViaDeposit, balance)
    | some b =>
      if b.issued = 0 then (.error .requiresExistingDeposits, balance)
      else if b.effective < asset then (.error .assetUnderflow, balance)
      else
        let reaped := { b with effective := b.effective - asset }
        if reaped.effective = 0 then
          (.ok asset, some (balanceCheckpoint { reaped with bias := Fixed.zero }))
        else
          match Fixed.checkedFromRational reaped.effective b.issued with
          | none => (.error .inadequatePrecision, some reaped)
          | some bias => (.ok asset, some (balanceCheckpoint { reaped with bias }))

def canReap (balance : VirtualBalance C) (asset : Nat) : Except ShareBalanceError Unit :=
  if asset = 0 then .error .zeroAdjustmentNotAllowed
  else
    match balance with
    | none => .error .balanceNotInitiatedViaDeposit
    | some b =>
      if b.issued = 0 then .error .requiresExistingDeposits
      else if b.effective < asset then .error .assetUnderflow
      else .ok ()

/-- The value a receipt derives from the current price, before the cap on `effective`. -/
def derivedValue (b : Balance C) (r : Receipt C) : Except ShareBalanceError Nat :=
  match (Fixed.saturatingFromInteger r.shares).checkedMul r.bias with
  | none => .error .inadequatePrecision
  | some value =>
    let drained := decide (r.checkpoint < b.drainpoint)
    let value := if drained then Fixed.saturatingFromInteger r.shares else value
    let receiptBias := if drained then Fixed.one else r.bias
    match b.bias.checkedDiv receiptBias with
    | none => .error .inadequatePrecision
    | some ratio =>
      match value.checkedMul ratio with
      | none => .error .inadequatePrecision
      | some final => .ok final.toInteger

def withdraw (balance : VirtualBalance C) (receipt : VirtualReceipt C) : ShareOutcome C Nat :=
  match balance with
  | none => (.error .balanceNotInitiatedViaDeposit, balance)
  | some b =>
    match receipt with
    | none => (.error .invalidReceipt, balance)
    | some r =>
      if b.issued < r.shares ∨ r.shares = 0 ∨ b.issued = 0 then (.error .invalidReceipt, balance)
      else
        match derivedValue b r with
        | .error e => (.error e, balance)
        | .ok derived =>
          let paid := min derived b.effective
          let left := { b with effective := b.effective - paid, issued := b.issued - r.shares }
          if left.issued = 0 then
            if left.effective ≠ 0 then
              (.ok (min (paid + left.effective) C.maxAsset), some initBalance)
            else (.ok paid, some { left with bias := Fixed.one })
          else (.ok paid, some left)

def canWithdraw (balance : VirtualBalance C) (receipt : VirtualReceipt C) :
    Except ShareBalanceError Unit :=
  match balance with
  | none => .error .balanceNotInitiatedViaDeposit
  | some b =>
    match receipt with
    | none => .error .invalidReceipt
    | some r =>
      if b.issued < r.shares ∨ r.shares = 0 ∨ b.issued = 0 then .error .invalidReceipt
      else .ok ()

def totalValue (balance : VirtualBalance C) : Nat :=
  match balance with
  | none => 0
  | some b => b.effective

def receiptActiveValue (balance : VirtualBalance C) (receipt : VirtualReceipt C) :
    Except ShareBalanceError Nat :=
  match canWithdraw balance receipt with
  | .error e => .error e
  | .ok () => (withdraw balance receipt).1

def drain (balance : VirtualBalance C) : ShareOutcome C Nat :=
  reap balance (totalValue balance)

def hasDeposits (balance : VirtualBalance C) : Except ShareBalanceError Unit :=
  match balance with
  | none => .error .balanceNotInitiatedViaDeposit
  | some b => if b.issued = 0 then .error .allDepositsWithdrawn else .ok ()

def receiptDepositValue (receipt : VirtualReceipt C) : Except ShareBalanceError Nat :=
  match receipt with
  | none => .error .invalidReceipt
  | some r => .ok r.principal

/-- The shares issued by a balance. -/
def issuedShares (balance : VirtualBalance C) : Nat :=
  match balance with
  | none => 0
  | some b => b.issued

@[simp] theorem totalValue_none : totalValue (none : VirtualBalance C) = 0 := rfl

@[simp] theorem totalValue_some (b : Balance C) : totalValue (some b) = b.effective := rfl

@[simp] theorem issuedShares_none : issuedShares (none : VirtualBalance C) = 0 := rfl

@[simp] theorem issuedShares_some (b : Balance C) : issuedShares (some b) = b.issued := rfl

@[simp] theorem mint_zero (balance : VirtualBalance C) : mint balance 0 = (.ok 0, balance) := by
  simp [mint]

@[simp] theorem reap_zero (balance : VirtualBalance C) : reap balance 0 = (.ok 0, balance) := by
  simp [reap]

@[simp] theorem balanceCheckpoint_effective (b : Balance C) :
    (balanceCheckpoint b).effective = b.effective := by
  unfold balanceCheckpoint
  split <;> rfl

@[simp] theorem balanceCheckpoint_issued (b : Balance C) :
    (balanceCheckpoint b).issued = b.issued := by
  unfold balanceCheckpoint
  split <;> rfl

@[simp] theorem balanceCheckpoint_bias (b : Balance C) :
    (balanceCheckpoint b).bias = b.bias := by
  unfold balanceCheckpoint
  split <;> rfl

end ShareBalance

end FrameSuite
