import FrameSuite.Checked
import FrameSuite.ForkAware
import FrameSuite.StorageMap

/-! `Finalized` keeps the hash of a value as a marker on a fork, and in a ledger that all forks share what
was seen of every value. A read is one more observation, and says how sure it is of the value. -/

namespace FrameSuite

/-- How sure the storage is of a value. -/
inductive Confidence (V : Type)
  | safe (value : V)
  | risky (value : V)
  | notSafe (value : V)

def Confidence.value {V : Type} : Confidence V → V
  | safe value => value
  | risky value => value
  | notSafe value => value

/-- The moments at which a stored value was first and last seen, and how often since it is old enough. -/
structure Observation (V : Type) where
  firstSeen : Nat
  lastSeen : Nat
  blocksSeen : Nat
  value : V

/-- When a value counts as final. -/
structure FinalityTerms where
  finalityAfter : Nat
  finalityTicks : Nat
  maxMoment : Nat

namespace Finalized

variable {V : Type}

def observe (now : Nat) (value : V) : Observation V :=
  { firstSeen := now, lastSeen := now, blocksSeen := 0, value }

/-- How sure the policy is of a value, from what was seen of it before now. -/
def confidence (policy : FinalityTerms) (seen : Observation V) : Confidence V :=
  if seen.lastSeen < saturatingAdd policy.maxMoment seen.firstSeen policy.finalityAfter then .notSafe seen.value
  else if seen.blocksSeen < policy.finalityTicks then .risky seen.value
  else .safe seen.value

/-- Reading a value is seeing it once more; it counts when the value is old enough and the moment is new. -/
def seeAgain (policy : FinalityTerms) (now : Nat) (seen : Observation V) : Observation V :=
  let ticked := saturatingAdd policy.maxMoment seen.firstSeen policy.finalityAfter ≤ seen.lastSeen ∧
    seen.blocksSeen < policy.finalityTicks ∧ seen.lastSeen < now
  { seen with lastSeen := now, blocksSeen := if ticked then seen.blocksSeen + 1 else seen.blocksSeen }

def get (policy : FinalityTerms) (now : Nat) (cell : Option (Observation V)) :
    Option (Confidence V) × Option (Observation V) :=
  (cell.map (confidence policy), cell.map (seeAgain policy now))

@[simp] theorem value_seeAgain {policy : FinalityTerms} {now : Nat} (seen : Observation V) :
    (seeAgain policy now seen).value = seen.value := rfl

@[simp] theorem value_confidence (policy : FinalityTerms) (seen : Observation V) :
    (confidence policy seen).value = seen.value := by
  unfold confidence
  split
  · rfl
  · split <;> rfl

theorem value_of_safe {policy : FinalityTerms} {seen : Observation V} {v : V}
    (h : confidence policy seen = .safe v) : v = seen.value := by
  rw [← value_confidence policy seen, h]
  rfl

end Finalized

/-- The errors a routine chooses for its finalized values: those of the marker and those of the ledger. -/
structure FinalizedErrors (ε : Type) where
  forks : ForkErrors ε
  decodeFailed : ε
  concurrentMutation : ε
  hangingHash : ε
  hangingValue : ε

/-- What was seen of the values of a key, under their hashes. -/
abbrev Ledger (I V : Type) := StorageMap I (Observation V)

/-- The markers on the forks and the ledgers of the keys. -/
structure FinalizedStorage (H K I V : Type) where
  markers : NodeStorage H K I
  ledgers : K → Slot (Ledger I V)

/-- Which of the two entries of a key another writer changes during a call. -/
structure Contention where
  marker : Bool
  ledger : Bool

namespace FinalizedStorage

variable {H K I V ε : Type} [DecidableEq H] [DecidableEq K] [DecidableEq I]

omit [DecidableEq H] [DecidableEq I] in
def setLedger (s : FinalizedStorage H K I V) (key : K) (slot : Slot (Ledger I V)) : FinalizedStorage H K I V :=
  { s with ledgers := Function.update s.ledgers key slot }

/-- A mutation of the ledger of a key, for a closure that keeps its hands off the rest. -/
def mutateLedger (E : FinalizedErrors ε) (contended : Bool) (key : K)
    (f : Except ε (Option (Ledger I V)) → Except ε (Ledger I V)) (s : FinalizedStorage H K I V) :
    Except ε Unit × FinalizedStorage H K I V :=
  let current :=
    match (s.ledgers key).decode with
    | none => .error E.decodeFailed
    | some ledger => .ok ledger
  match f current with
  | .error e => (.error e, s)
  | .ok ledger =>
    if contended then (.error E.concurrentMutation, s) else (.ok (), s.setLedger key (.stored ledger))

def insert (E : FinalizedErrors ε) (hashOf : V → I) (v : View H) (now : Nat) (c : Contention) (key : K) (value : V)
    (s : FinalizedStorage H K I V) : Except ε Unit × FinalizedStorage H K I V :=
  match s.markers.insert E.forks v key (hashOf value) with
  | (.error e, markers) => (.error e, { s with markers })
  | (.ok _, markers) =>
    { s with markers }.mutateLedger E c.ledger key <| Except.map fun ledger : Option (Ledger I V) =>
      (ledger.getD .empty).insert (hashOf value) (Finalized.observe now value)

/-- Drops a marker that has nothing behind it, and reports that. -/
def dropMarker (E : FinalizedErrors ε) (v : View H) (key : K) (e : ε) (s : FinalizedStorage H K I V) :
    ε × FinalizedStorage H K I V :=
  match s.markers.remove E.forks v key with
  | (.error e', markers) => (e', { s with markers })
  | (.ok _, markers) => (e, { s with markers })

def get (E : FinalizedErrors ε) (policy : FinalityTerms) (v : View H) (now : Nat) (c : Contention) (key : K)
    (s : FinalizedStorage H K I V) : Except ε (Option (Confidence V)) × FinalizedStorage H K I V :=
  match (s.markers.get E.forks v key).1 with
  | .error e => (.error e, s)
  | .ok none => (.ok none, s)
  | .ok (some hash) =>
    -- the mutation of the ledger, whose closure also drops markers
    match (s.ledgers key).decode with
    | none => (.error E.decodeFailed, s)
    | some none => let (e, t) := s.dropMarker E v key E.hangingValue; (.error e, t)
    | some (some ledger) =>
      match ledger.get hash with
      | none => let (e, t) := s.dropMarker E v key E.hangingHash; (.error e, t)
      | some seen =>
        if c.ledger then (.error E.concurrentMutation, s)
        else (.ok (some (Finalized.confidence policy seen)),
          s.setLedger key (.stored (ledger.insert hash (Finalized.seeAgain policy now seen))))

def remove (E : FinalizedErrors ε) (v : View H) (c : Contention) (key : K) (s : FinalizedStorage H K I V) :
    Except ε (Option V) × FinalizedStorage H K I V :=
  match (s.markers.get E.forks v key).1 with
  | .error e => (.error e, s)
  | .ok none => (.ok none, s)
  | .ok (some hash) =>
    match s.markers.remove E.forks v key with
    | (.error e, markers) => (.error e, { s with markers })
    | (.ok _, markers) =>
      let s := { s with markers }
      match (s.ledgers key).decode with
      | none => (.error E.decodeFailed, s)
      | some none => (.error E.hangingValue, s)
      | some (some ledger) =>
        if c.ledger then (.error E.concurrentMutation, s)
        else
          -- an empty ledger is removed as well
          let rest := ledger.remove hash
          (.ok ((ledger.get hash).map Observation.value),
            s.setLedger key (if rest.keys = ∅ then .missing else .stored rest))

/-- What the closure of a mutation of the marker is handed, if it is run. -/
def handed (E : FinalizedErrors ε) (v : View H) (key : K) (s : FinalizedStorage H K I V) :
    Except ε (Except ε (Option I)) :=
  match s.markers.forks.scopeItemExists E.forks v key with
  | .error e => .error e
  | .ok false => .ok (.ok none)
  | .ok true =>
    match (s.markers.items key).decode with
    | none => .ok (.error E.forks.decodeFailed)
    | some hash => .ok (.ok hash)

/-- The value that a marker stands for, as a mutation resolves it. -/
def currentValue (E : FinalizedErrors ε) (key : K) (current : Except ε (Option I)) (s : FinalizedStorage H K I V) :
    Except ε (Option V) :=
  match current with
  | .error e => .error e
  | .ok none => .ok none
  | .ok (some hash) =>
    match (s.ledgers key).decode with
    | none => .error E.decodeFailed
    | some none => .error E.hangingValue
    | some (some ledger) => .ok ((ledger.get hash).map Observation.value)

/-- The ledger without the observation that a mutation replaces. -/
def rest (current : Except ε (Option I)) (ledger : Option (Ledger I V)) : Ledger I V :=
  match current with
  | .ok (some hash) => (ledger.getD .empty).remove hash
  | _ => ledger.getD .empty

/-- The closure of a mutation of the marker: the new value takes the place of the old one in the ledger. -/
def revise (E : FinalizedErrors ε) (hashOf : V → I) (now : Nat) (contended : Bool) (key : K)
    (f : Except ε (Option V) → Except ε V) (current : Except ε (Option I)) (s : FinalizedStorage H K I V) :
    Except ε I × FinalizedStorage H K I V :=
  match s.currentValue E key current with
  | .error e => (.error e, s)
  | .ok value =>
    match f (.ok value) with
    | .error e => (.error e, s)
    | .ok new =>
      let replaced := s.mutateLedger E contended key <| Except.map fun ledger : Option (Ledger I V) =>
        (rest current ledger).insert (hashOf new) (Finalized.observe now new)
      (replaced.1.map fun _ => hashOf new, replaced.2)

def mutate (E : FinalizedErrors ε) [DecidableEq ε] (hashOf : V → I) (v : View H) (now : Nat) (c : Contention) (key : K)
    (f : Except ε (Option V) → Except ε V) (s : FinalizedStorage H K I V) :
    Except ε Unit × FinalizedStorage H K I V :=
  let mutated : Except ε Unit × FinalizedStorage H K I V :=
    match s.handed E v key with
    | .error e => (.error e, s)
    | .ok current =>
      let revised := s.revise E hashOf now c.ledger key f current
      let written := revised.2.markers.mutate E.forks v c.marker key fun _ => revised.1
      (written.1, { revised.2 with markers := written.2 })
  match mutated with
  | (.ok _, t) => (.ok (), t)
  | (.error e, t) =>
    if e = E.hangingValue then let (e, t) := t.dropMarker E v key e; (.error e, t) else (.error e, t)

end FinalizedStorage

/-- A call of the finalized storage. -/
inductive FinalizedOp (K V ε : Type)
  | insert (key : K) (value : V)
  | get (key : K)
  | remove (key : K)
  | mutate (key : K) (f : Except ε (Option V) → Except ε V)

def FinalizedOp.key {K V ε : Type} : FinalizedOp K V ε → K
  | insert key _ => key
  | get key => key
  | remove key => key
  | mutate key _ => key

/-- What the caller gets back. -/
inductive FinalizedReply (V ε : Type)
  | wrote (result : Except ε Unit)
  | read (result : Except ε (Option (Confidence V)))
  | removed (result : Except ε (Option V))

/-- A call by the worker of a block, at a moment. -/
structure FinalizedCall (H K V ε : Type) where
  view : View H
  now : Nat
  contention : Contention
  op : FinalizedOp K V ε

def FinalizedCall.perform {H K I V ε : Type} [DecidableEq H] [DecidableEq K] [DecidableEq I] [DecidableEq ε]
    (E : FinalizedErrors ε) (policy : FinalityTerms) (hashOf : V → I) (s : FinalizedStorage H K I V)
    (call : FinalizedCall H K V ε) : FinalizedReply V ε × FinalizedStorage H K I V :=
  match call.op with
  | .insert key value =>
    let (result, t) := s.insert E hashOf call.view call.now call.contention key value
    (.wrote result, t)
  | .get key =>
    let (result, t) := s.get E policy call.view call.now call.contention key
    (.read result, t)
  | .remove key =>
    let (result, t) := s.remove E call.view call.contention key
    (.removed result, t)
  | .mutate key f =>
    let (result, t) := s.mutate E hashOf call.view call.now call.contention key f
    (.wrote result, t)

end FrameSuite
