import FrameSuite.Checked
import FrameSuite.Effects
import FrameSuite.StorageMap

/-! The configuration, errors and stored types of the XP pallet. Reserves and locks are
lists with one entry per reason, kept beside their totals in the XP record. -/

namespace FrameSuite

inductive XpError
  | xpNotFound
  | xpNotDead
  | invalidXpOwner
  | alreadyXpOwner
  | cannotReapLockedXp
  | xpLockExists
  | insufficientLiquidXp
  | tooManyLocks
  | tooManyReserves
  | xpLockNotFound
  | xpReserveNotFound
  | lowTimeStamp
  | xpNotReaped
  | reputationDeriveOverflowed
  | xpCapOverflowed
  | xpCapUnderflowed
  | xpComputationError
  | cannotLockZero
  | xpAlreadyReaped
  | insufficientReserveXp
  | xpReserveCapOverflowed
  | xpReserveCapUnderflowed
  | xpLockCapOverflowed
  | xpLockCapUnderflowed
  | lowPulseThreshold
  | invalidMinTimeStamp
  /-- The error of the token traits for a balance that is too low. -/
  | fundsUnavailable
deriving DecidableEq

/-- Why a call did not return: an error of the pallet, or a loop that never ends. -/
inductive Fault
  | error (e : XpError)
  | diverges
deriving DecidableEq

structure XpConfig where
  AccountId : Type
  ReserveReason : Type
  LockReason : Type
  decEqAccountId : DecidableEq AccountId
  decEqReserveReason : DecidableEq ReserveReason
  decEqLockReason : DecidableEq LockReason
  maximumReserves : Nat
  maximumLocks : Nat
  maxXp : Nat
  maxPulse : Nat

attribute [instance] XpConfig.decEqAccountId XpConfig.decEqReserveReason XpConfig.decEqLockReason

/-- Points held under a reason. -/
structure IdXp (Id : Type) where
  id : Id
  points : Nat
deriving DecidableEq

structure Accumulator where
  value : Nat
  step : Nat
deriving DecidableEq

def Accumulator.default : Accumulator := ⟨0, 0⟩

structure Stepper where
  threshold : Nat
  perCount : Nat
deriving DecidableEq

def Stepper.new (threshold perCount : Nat) : Option Stepper :=
  if threshold < perCount then none else some { threshold, perCount }

inductive ForceGenesisConfig
  | minPulse (value : Nat)
  | initXp (value : Nat)
  | pulseFactor (threshold perCount : Nat)
  | minTimeStamp (value : Nat)

structure Xp where
  free : Nat
  reserve : Nat
  lock : Nat
  pulse : Accumulator
  timestamp : Nat
deriving DecidableEq

variable {T : XpConfig}

/-- The storage of the pallet and the block it runs in. -/
structure XpState (T : XpConfig) where
  xpOf : StorageMap T.AccountId Xp
  xpOwners : StorageMap (T.AccountId × T.AccountId) Unit
  reservedXpOf : StorageMap T.AccountId (List (IdXp T.ReserveReason))
  lockedXpOf : StorageMap T.AccountId (List (IdXp T.LockReason))
  reapedXp : StorageMap T.AccountId Unit
  minPulse : Nat
  initXp : Nat
  pulseFactor : Stepper
  minTimeStamp : Nat
  blockNumber : Nat

def Xp.default (s : XpState T) : Xp :=
  { free := s.initXp, reserve := 0, lock := 0, pulse := Accumulator.default, timestamp := s.blockNumber }

abbrev XpCheck (T : XpConfig) (α : Type) := XpState T → Except Fault α

abbrev XpCall (T : XpConfig) (α : Type) := EStateM Fault (XpState T) α

section Entries

variable {Id : Type} [DecidableEq Id]

def findPoints (entries : Option (List (IdXp Id))) (reason : Id) : Option Nat :=
  (entries.bind fun es => es.find? fun e => e.id = reason).map IdXp.points

/-- Overwrites the points of the first entry under the reason. -/
def setPoints (reason : Id) (points : Nat) : List (IdXp Id) → List (IdXp Id)
  | [] => []
  | e :: es => if e.id = reason then { e with points } :: es else e :: setPoints reason points es

end Entries

end FrameSuite
