import FrameSuite.AuthorPallet
import FrameSuite.RuntimeConfig

/-! The authors pallet as the runtime configures it, over the token ledger. Candidates are elected by
their total backing. -/

namespace FrameSuite

/-- The candidates by their total backing, the largest first and equal ones in the order given. -/
def topDownFair (maxAsset : Nat) (candidates : Candidates Nat) : List Nat :=
  let items := candidates.map fun c => (c.1, c.2.foldl (fun total backed => saturatingAdd maxAsset total backed.2) 0)
  (items.insertionSort fun a b => b.2 ≤ a.2).map Prod.fst

abbrev authorConfig : AuthorConfig :=
  { toConfig := runtimeConfig
    authorFunding := (0 : Nat)
    authorCollateral := (1 : Nat)
    reasons_ne := Nat.zero_ne_one
    maxBlock := 2 ^ 32 - 1
    hashOrder := HashOrder.natural
    liquidBalance := TokenLedger.reducible
    electionModel := topDownFair runtimeConfig.share.maxAsset }

/-- The least parameters, without periods and buffers. -/
def plainGenesis : AuthorGenesis :=
  { minCollateral := 1
    maxExposure := 1000
    minFund := 1
    probationPeriod := 0
    reduceProbationBy := 0
    increaseProbationBy := 0
    rewardsBuffer := 0
    penaltiesBuffer := 0
    maxElected := 10
    minElected := 1
    forceMaxElected := true
    minCollateral_ne := Nat.one_ne_zero
    minFund_ne := Nat.one_ne_zero
    minElected_ne := Nat.one_ne_zero
    minElected_le := by decide
    minFund_le := by decide }

/-- The account enrolls as an author with the given digest. -/
def enrolls (who digest : Nat) : AuthorCall authorConfig :=
  .enlist (T := authorConfig) who (100 : Nat) .force digest

def confirms (who : Nat) : AuthorCall authorConfig := .confirm (T := authorConfig) who

def backs (who : Nat) (via : FundingTarget Nat) (value : Nat) : AuthorCall authorConfig :=
  .back (T := authorConfig) who via value exactForce

/-- Shares of a slot of a pool managed by account 9. -/
def weighs (pool slot shares : Nat) : AuthorCall authorConfig :=
  .updateSlotShares (T := authorConfig) 9 pool slot shares

/-- Two authors with direct backers, and a pool of both that account 4 backs. -/
def pooledAuthors : List (AuthorCall authorConfig) :=
  [enrolls 1 51, enrolls 2 52, backs 3 (.direct 1) 100, backs 5 (.direct 2) 50,
    .createIndex (T := authorConfig) [(1, 1), (2, 1)] 60,
    .createPool (T := authorConfig) 9 60 { parts := 0, parts_le := Nat.zero_le _ } 70,
    backs 4 (.pool 70) 90]

def authorRun (calls : List (AuthorCall authorConfig)) : AuthorState authorConfig :=
  AuthorState.after (T := authorConfig) fundedLedger plainGenesis calls

end FrameSuite
