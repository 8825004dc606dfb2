import FrameSuite.ForkScope

/-! `ForkAware` keeps one value for each key in storage that all forks share, and the depots of the
branches decide who may see it. On a branch a call is a function of its depot and of that one value. -/

namespace FrameSuite

variable {H K V ε : Type} [DecidableEq H] [DecidableEq K]

/-- What `StorageValueRef::get` gives, or nothing when the entry does not decode. -/
def Slot.decode : Slot V → Option (Option V)
  | .missing => some none
  | .stored value => some (some value)
  | .corrupt => none

theorem Slot.decode_eq_stored {slot : Slot V} {value : V} :
    slot.decode = some (some value) ↔ slot = .stored value := by
  cases slot <;> simp [Slot.decode]

/-- The fork graph of a pallet and the values kept under its item keys. -/
structure NodeStorage (H K V : Type) where
  forks : LocalStorage H (ForkLocalDepot K)
  items : K → Slot V

namespace NodeStorage

def setItem (s : NodeStorage H K V) (key : K) (slot : Slot V) : NodeStorage H K V :=
  { s with items := Function.update s.items key slot }

/-- The storage with one branch and the value of one key written. -/
def settle (s : NodeStorage H K V) (b : BranchKey H) (branch : Branch H (ForkLocalDepot K)) (key : K)
    (slot : Slot V) : NodeStorage H K V :=
  { s with forks := s.forks.putBranch b branch }.setItem key slot

theorem settle_branch {s : NodeStorage H K V} {b : BranchKey H} {branch : Branch H (ForkLocalDepot K)}
    (hbranch : s.forks.branch b = .stored branch) (key : K) (slot : Slot V) :
    s.settle b branch key slot = s.setItem key slot := by
  simp [settle, LocalStorage.putBranch, ← hbranch]

theorem settle_self {s : NodeStorage H K V} {b : BranchKey H} {branch : Branch H (ForkLocalDepot K)}
    (hbranch : s.forks.branch b = .stored branch) (key : K) : s.settle b branch key (s.items key) = s := by
  simp [settle_branch hbranch, setItem]

def insert (E : ForkErrors ε) (v : View H) (key : K) (value : V) (s : NodeStorage H K V) :
    Except ε Unit × NodeStorage H K V :=
  match s.forks.addToScope E v key with
  | .error e => (.error e, s)
  | .ok (scopeKey, forks) => (.ok (), { s with forks }.setItem scopeKey (.stored value))

def get (E : ForkErrors ε) (v : View H) (key : K) (s : NodeStorage H K V) :
    Except ε (Option V) × NodeStorage H K V :=
  match s.forks.scopeItemExists E v key with
  | .error e => (.error e, s)
  | .ok false => (.ok none, s)
  | .ok true =>
    match (s.items key).decode with
    | none => (.error E.decodeFailed, s)
    | some value => (.ok value, s)

def remove (E : ForkErrors ε) (v : View H) (key : K) (s : NodeStorage H K V) :
    Except ε (Option V) × NodeStorage H K V :=
  match s.forks.scopeItemExists E v key with
  | .error e => (.error e, s)
  | .ok false => (.ok none, s)
  | .ok true =>
    match (s.items key).decode with
    | none => (.error E.decodeFailed, s)
    | some existing =>
      let cleared := s.setItem key .missing
      match cleared.forks.removeFromScope E v key with
      | .error e => (.error e, cleared)
      | .ok forks => (.ok existing, { cleared with forks })

def mutate (E : ForkErrors ε) (v : View H) (contended : Bool) (key : K)
    (f : Except ε (Option V) → Except ε V) (s : NodeStorage H K V) :
    Except ε Unit × NodeStorage H K V :=
  match s.forks.scopeItemExists E v key with
  | .error e => (.error e, s)
  | .ok false =>
    match f (.ok none) with
    | .error e => (.error e, s)
    | .ok value => s.insert E v key value
  | .ok true =>
    let current :=
      match (s.items key).decode with
      | none => .error E.decodeFailed
      | some value => .ok value
    match f current with
    | .error e => (.error e, s)
    | .ok value =>
      if contended then (.error E.concurrentMutation, s) else (.ok (), s.setItem key (.stored value))

end NodeStorage

/-- A call of the key-value store. -/
inductive ForkCall (K V ε : Type)
  | insert (key : K) (value : V)
  | get (key : K)
  | remove (key : K)
  | mutate (contended : Bool) (key : K) (f : Except ε (Option V) → Except ε V)

/-- What the caller gets back. -/
inductive Reply (V ε : Type)
  | wrote (result : Except ε Unit)
  | read (result : Except ε (Option V))
deriving DecidableEq

namespace ForkCall

def key : ForkCall K V ε → K
  | insert key _ => key
  | get key => key
  | remove key => key
  | mutate _ key _ => key

def perform (E : ForkErrors ε) (v : View H) (s : NodeStorage H K V) :
    ForkCall K V ε → Reply V ε × NodeStorage H K V
  | insert key value => let (result, t) := s.insert E v key value; (.wrote result, t)
  | get key => let (result, t) := s.get E v key; (.read result, t)
  | remove key => let (result, t) := s.remove E v key; (.read result, t)
  | mutate contended key f => let (result, t) := s.mutate E v contended key f; (.wrote result, t)

/-- What the closure of a mutation is given. -/
def given (E : ForkErrors ε) (depot : ForkLocalDepot K) (key : K) (slot : Slot V) : Except ε (Option V) :=
  if depot.sees key then
    match slot.decode with
    | none => .error E.decodeFailed
    | some value => .ok value
  else .ok none

/-- The call as a function of the depot of its branch and the value of its key. -/
def onBranch (E : ForkErrors ε) (depot : ForkLocalDepot K) (slot : Slot V) :
    ForkCall K V ε → Reply V ε × ForkLocalDepot K × Slot V
  | insert key value => (.wrote (.ok ()), depot.addToLocal key, .stored value)
  | get key => (.read (given E depot key slot), depot, slot)
  | remove key =>
    if depot.sees key ∧ slot.decode.isSome then (.read (given E depot key slot), depot.removeKey key, .missing)
    else (.read (given E depot key slot), depot, slot)
  | mutate contended key f =>
    match f (given E depot key slot) with
    | .error e => (.wrote (.error e), depot, slot)
    | .ok value =>
      if !depot.sees key then (.wrote (.ok ()), depot.addToLocal key, .stored value)
      else if contended then (.wrote (.error E.concurrentMutation), depot, slot)
      else (.wrote (.ok ()), depot, .stored value)

/-- What a call gives back on a block that has a branch key without a branch. -/
def lost (E : ForkErrors ε) : ForkCall K V ε → Reply V ε
  | insert _ _ => .wrote (.error E.inconsistentForks)
  | get _ => .read (.error E.forksNotEnabled)
  | remove _ => .read (.error E.forksNotEnabled)
  | mutate _ _ _ => .wrote (.error E.forksNotEnabled)

section Routed

variable {E : ForkErrors ε} {v : View H} {s : NodeStorage H K V} {b : BranchKey H}
  {branch : Branch H (ForkLocalDepot K)}

theorem perform_of_lost (hroute : s.forks.getBranchHash v.current = some b)
    (hlost : s.forks.getBranch b = none) (call : ForkCall K V ε) :
    call.perform E v s = (call.lost E, s) := by
  have hprev : s.forks.getPrevBlockBranch v = none :=
    (LocalStorage.getPrevBlockBranch_of_routed hroute).trans hlost
  cases call <;>
    simp [perform, lost, NodeStorage.insert, NodeStorage.get, NodeStorage.remove, NodeStorage.mutate,
      LocalStorage.addToScope, LocalStorage.scopeItemExists, hroute, hlost, hprev]

theorem perform_of_routed (hroute : s.forks.getBranchHash v.current = some b)
    (hbranch : s.forks.branch b = .stored branch) (call : ForkCall K V ε) :
    call.perform E v s =
      ((call.onBranch E branch.scope (s.items call.key)).1,
        s.settle b { branch with scope := (call.onBranch E branch.scope (s.items call.key)).2.1 }
          call.key (call.onBranch E branch.scope (s.items call.key)).2.2) := by
  have hexists := LocalStorage.scopeItemExists_of_routed (E := E) hroute hbranch
  have hadd := LocalStorage.addToScope_of_routed (E := E) hroute hbranch
  have hremove := LocalStorage.removeFromScope_of_routed (E := E) hroute hbranch
  have hwrite := NodeStorage.settle_branch hbranch
  cases call with
  | insert key value =>
    simp [perform, onBranch, NodeStorage.insert, hadd, NodeStorage.settle, ForkCall.key]
  | get key =>
    have hself := NodeStorage.settle_self hbranch key
    simp only [perform, onBranch, NodeStorage.get, hexists, given, ForkCall.key, hself]
    cases branch.scope.sees key with
    | false => rfl
    | true => cases (s.items key).decode <;> rfl
  | remove key =>
    have hself := NodeStorage.settle_self hbranch key
    simp only [perform, onBranch, NodeStorage.remove, hexists, given, ForkCall.key]
    cases hsees : branch.scope.sees key with
    | false => simp [hself]
    | true =>
      obtain hslot | ⟨existing, hslot⟩ := (s.items key).decode.eq_none_or_eq_some
      · simp [hslot, hself]
      · simp [hslot, NodeStorage.setItem, hremove, NodeStorage.settle]
  | mutate contended key f =>
    have hself := NodeStorage.settle_self hbranch key
    simp only [perform, onBranch, NodeStorage.mutate, hexists, given, ForkCall.key]
    cases hsees : branch.scope.sees key with
    | false =>
      cases hf : f (.ok none) with
      | error e => simp [hf, hself]
      | ok value => simp [hf, NodeStorage.insert, hadd, NodeStorage.settle]
    | true =>
      obtain hslot | ⟨existing, hslot⟩ := (s.items key).decode.eq_none_or_eq_some
      · cases hf : f (.error E.decodeFailed) with
        | error e => simp [hslot, hf, hself]
        | ok value => cases contended <;> simp [hslot, hf, hself, hwrite]
      · cases hf : f (.ok existing) with
        | error e => simp [hslot, hf, hself]
        | ok value => cases contended <;> simp [hslot, hf, hself, hwrite]

end Routed

end ForkCall

end FrameSuite
