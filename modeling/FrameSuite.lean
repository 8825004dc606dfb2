import FrameSuite.FixedPoint
import FrameSuite.Run
import FrameSuite.RunHistory
import FrameSuite.Checked
import FrameSuite.StorageMap
import FrameSuite.ShareBalance
import FrameSuite.ShareSpec
import FrameSuite.ShareSolvency
import FrameSuite.ShareRoundTrip
import FrameSuite.ShareOrder
import FrameSuite.CommitTypes
import FrameSuite.CommitState
import FrameSuite.CommitDeposit
import FrameSuite.CommitWithdraw
import FrameSuite.CommitOps
import FrameSuite.CommitPallet
import FrameSuite.Vault
import FrameSuite.Books
import FrameSuite.Holdings
import FrameSuite.DepositSpec
import FrameSuite.PoolSpec
import FrameSuite.WithdrawSpec
import FrameSuite.BalanceSheet
import FrameSuite.CommitSettle
import FrameSuite.PoolSlots
import FrameSuite.RuntimeConfig
import FrameSuite.Conservation
import FrameSuite.Equilibrium
import FrameSuite.PoolProgress
import FrameSuite.PoolBlocking
import FrameSuite.ActiveValue
import FrameSuite.Outstanding
import FrameSuite.DirectCommits
import FrameSuite.DirectResolve
import FrameSuite.DirectSafety
import FrameSuite.Effects
import FrameSuite.XpTypes
import FrameSuite.XpSystem
import FrameSuite.XpEntries
import FrameSuite.XpAggregates
import FrameSuite.XpIdentity
import FrameSuite.ForkStart
import FrameSuite.ForkProgress
import FrameSuite.ForkAware
import FrameSuite.ForkIsolation
import FrameSuite.ForkAncestry
import FrameSuite.PoolDust
import FrameSuite.Totals
import FrameSuite.TotalSteps
import FrameSuite.ReasonTotals
import FrameSuite.Custody
import FrameSuite.CustodySteps
import FrameSuite.CommitTargets
import FrameSuite.TargetSafety
import FrameSuite.TargetRuns
import FrameSuite.CommitInspect
import FrameSuite.EntryAccounts
import FrameSuite.CommitAccounts
import FrameSuite.CommitRecords
import FrameSuite.RecordedRuns
import FrameSuite.IndexCommits
import FrameSuite.ForkClobbering
import FrameSuite.Perbill
import FrameSuite.StorageIter
import FrameSuite.CommitQueries
import FrameSuite.AuthorObligations
import FrameSuite.AuthorHold
import FrameSuite.AuthorPallet
import FrameSuite.CommitFrame
import FrameSuite.AuthorSteps
import FrameSuite.AuthorLifecycle
import FrameSuite.AuthorRuntime
import FrameSuite.FunderRegistry
import FrameSuite.AuthorFunding
import FrameSuite.FundingExit
import FrameSuite.FunderMirror
import FrameSuite.ChainManager
import FrameSuite.ChainRuntime
import FrameSuite.ChainSteps
import FrameSuite.AffidavitKeys
import FrameSuite.ElectionRunner
import FrameSuite.OffchainRoutines
import FrameSuite.AuthorElections
import FrameSuite.LiveRoles
import FrameSuite.ShareChecks
import FrameSuite.ShareReceipts
import FrameSuite.SplitImbalance
import FrameSuite.ValueQueries
import FrameSuite.PoolQueries
import FrameSuite.EvenParts
import FrameSuite.PoolRebalance
import FrameSuite.KeyHandOver
import FrameSuite.HoldSheet
import FrameSuite.HoldSettlement
import FrameSuite.ObligationSteps
import FrameSuite.ObligationRuns
import FrameSuite.XpPockets
import FrameSuite.XpMoves
import FrameSuite.XpEarning
import FrameSuite.XpPreview
import FrameSuite.XpAtomic
import FrameSuite.XpSlashes
import FrameSuite.DeductBalance
import FrameSuite.ReapResidue
import FrameSuite.IndexSplit
import FrameSuite.PartUpdates
import FrameSuite.ShareAccounts
import FrameSuite.ShareRuns
import FrameSuite.PoolValues
import FrameSuite.CommitBounds
import FrameSuite.LiquidFunds
import FrameSuite.VariantChanges
import FrameSuite.XpCountdown
import FrameSuite.XpBlocks
import FrameSuite.XpFungible
import FrameSuite.ForkGap
import FrameSuite.ForkSteps
import FrameSuite.ForkGraph
import FrameSuite.FinalizedCounts
import FrameSuite.FinalizedMap
import FrameSuite.HoldSplit
import FrameSuite.ElectionModels
import FrameSuite.GreedyRanking
import FrameSuite.LoadElections
import FrameSuite.BackingShifts
import FrameSuite.ElectedSet
import FrameSuite.ElectionOutcome
import FrameSuite.OutcomeHooks
import FrameSuite.SessionWindows
import FrameSuite.DutyWindows
import FrameSuite.ChillEffect
import FrameSuite.AffidavitBound
import FrameSuite.CommitLimits
import FrameSuite.LockedLimits
import FrameSuite.VirtualFields
import FrameSuite.FixedNumber
import FrameSuite.IntegerNewton
import FrameSuite.FixedSqrt
import FrameSuite.FixedBridge
import FrameSuite.EqualPayout
import FrameSuite.Apportionment
import FrameSuite.SharesPay
import FrameSuite.FixedExp
import FrameSuite.FixedLog
import FrameSuite.PayoutModels
import FrameSuite.FixedReal
import FrameSuite.ExpAccuracy
import FrameSuite.TowardZero
import FrameSuite.LogAccuracy
import FrameSuite.LogTails
import FrameSuite.LogSeries
import FrameSuite.LogPrecision
import FrameSuite.GrowthRate
import FrameSuite.GrowthCurves
import FrameSuite.DecayPayouts
import FrameSuite.SignedWorkspace
import FrameSuite.CurveWidth
import FrameSuite.SigmoidWidth
import FrameSuite.PayoutWidths
import FrameSuite.PowDomain
import FrameSuite.ValidatorConsent
import FrameSuite.AuthorCalls
import FrameSuite.BlockPoints
import FrameSuite.BookingLoops
import FrameSuite.SessionPayout
import FrameSuite.Offences
import FrameSuite.ElectionCandidates
import FrameSuite.CandidateWeights
import FrameSuite.PowPrecision
import FrameSuite.InfluenceModels
import FrameSuite.Rankings
import FrameSuite.ThresholdModels
import FrameSuite.BestBacked
import FrameSuite.ComplexRoot
import FrameSuite.PrefixCodes
import FrameSuite.KeySeeds
import FrameSuite.PolynomialPayouts
import FrameSuite.LogarithmicPayouts
import FrameSuite.AnnualPayouts
import FrameSuite.CommitChecks
import FrameSuite.IndexValues
