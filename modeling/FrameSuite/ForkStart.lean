import FrameSuite.ForkStorage

/-! `ForksHandler::start`: the block before the executing one joins the branch of its parent,
or a new sibling of it, after whatever was lost on the way has been recovered. -/

namespace FrameSuite

variable {H S : Type} [DecidableEq H] [ForkScopes S]

/-- What the executing block sees of its chain. -/
structure View (H : Type) where
  number : Nat
  hash : Nat → H

namespace View

/-- The block that is resolved in the place of the executing one. -/
def block (v : View H) : Nat := v.number - 1

def current (v : View H) : H := v.hash v.block

def parent (v : View H) : H := v.hash (v.block - 1)

end View

section Recovery

/-- Walks back to the nearest block whose parent still has a branch. -/
def findRecoverer (v : View H) (s : LocalStorage H S) : Nat → Nat → Nat × Option (Branch H S)
  | 0, recoverer => (recoverer, none)
  | attempts + 1, recoverer =>
    if recoverer = 0 then (recoverer, none)
    else
      match s.getBlockBranch (v.hash (recoverer - 1)) with
      | some branch => (recoverer, some branch)
      | none => findRecoverer v s attempts (recoverer - 1)

/-- A root with an empty scope for the parent of the block, anchored at the block before it. -/
def syntheticRoot (v : View H) (block : Nat) (s : LocalStorage H S) : LocalStorage H S :=
  let genesis := v.hash (block - 2)
  let key : BranchKey H := ⟨genesis, []⟩
  let branch : Branch H S :=
    { parent := none, head := block - 1, scope := ForkScopes.default, genesis, counter := [] }
  (s.putBranch key branch).route (v.hash (block - 1)) ⟨v.hash (block - 1), key⟩

/-- The forward rebuild. The first block it restores gets the branch of all of them. -/
def rebuild (v : View H) (recoverer : Nat) (scope : S) :
    Nat → Nat → Option (BranchKey H) → LocalStorage H S → LocalStorage H S
  | 0, _, _, s => s
  | blocks + 1, target, some key, s =>
    rebuild v recoverer scope blocks (target + 1) (some key)
      (s.route (v.hash target) ⟨v.hash (target - 1), key⟩)
  | blocks + 1, target, none, s =>
    let genesis := v.hash (target - 1)
    let key : BranchKey H := ⟨genesis, []⟩
    let branch : Branch H S :=
      { parent := s.getBranchHash (v.hash (recoverer - 1)), head := target, scope, genesis, counter := [] }
    rebuild v recoverer scope blocks (target + 1) (some key)
      ((s.putBranch key branch).route (v.hash target) ⟨v.hash (target - 1), key⟩)

def parentBranchHashUnavailable (F : ForkConfig) (v : View H) (block : Nat) (s : LocalStorage H S) :
    LocalStorage H S :=
  match findRecoverer v s F.maxRecoverTraversal (block - 2) with
  | (recoverer, some branch) =>
    rebuild v recoverer (ForkScopes.accrete branch.scope) (block - (recoverer + 1)) (recoverer + 1) none s
  | (_, none) => syntheticRoot v block s

def parentBranchUnavailable (F : ForkConfig) (v : View H) (block : Nat) (s : LocalStorage H S) :
    LocalStorage H S :=
  match s.getDivider (v.hash (block - 1)) with
  | none => parentBranchHashUnavailable F v block s
  | some divider => parentBranchHashUnavailable F v block (s.clearDivider divider)

def parentDividerUnavailable (F : ForkConfig) (v : View H) (block : Nat) (s : LocalStorage H S) :
    LocalStorage H S :=
  parentBranchHashUnavailable F v block s

def inheritedBranchDecodeError (F : ForkConfig) (v : View H) (block : Nat) (s : LocalStorage H S) :
    LocalStorage H S :=
  parentBranchUnavailable F v block s

end Recovery

section Siblings

def siblingKey (branch : Branch H S) (slot : Nat) : BranchKey H :=
  ⟨branch.genesis, branch.counter ++ [slot]⟩

/-- The first sibling slot without a decodable branch. -/
def nextSlot (F : ForkConfig) (s : LocalStorage H S) (branch : Branch H S) : Option Nat :=
  (List.range (F.maxForks + 1)).find? fun slot => (s.getBranch (siblingKey branch slot)).isNone

/-- The sibling in a free slot, and the current block routed to it. -/
def openSibling (v : View H) (block : Nat) (s : LocalStorage H S) (parentKey : BranchKey H)
    (prev : Branch H S) (slot : Nat) : LocalStorage H S :=
  let key := siblingKey prev slot
  let branch : Branch H S :=
    { parent := some parentKey
      head := block
      scope := ForkScopes.accrete prev.scope
      genesis := prev.genesis
      counter := prev.counter ++ [slot] }
  (s.putBranch key branch).route (v.hash block) ⟨v.hash (block - 1), key⟩

/-- Another writer changed the branch first, so this one moves to a sibling. -/
def inheritedBranchMutationConflict (F : ForkConfig) (v : View H) (block : Nat)
    (s : LocalStorage H S) : Option (LocalStorage H S) :=
  match s.getBranchHash (v.hash (block - 1)) with
  | none => some (parentBranchHashUnavailable F v block s)
  | some key =>
    match s.getBranch key with
    | none => some (parentBranchUnavailable F v block s)
    | some prev =>
      match nextSlot F s prev with
      | none => none
      | some slot => some ((openSibling v block s key prev slot).putHead block)

end Siblings

/-- How one turn of the recovery loop ends: with another turn, with the worker running on the
storage, or without it because no sibling slot is left. -/
inductive Turn (H S : Type)
  | again (s : LocalStorage H S)
  | ran (s : LocalStorage H S)
  | stopped (s : LocalStorage H S)

/-- The known head, which starts just below the block. -/
def settleHead (block : Nat) (s : LocalStorage H S) : Nat × LocalStorage H S :=
  match s.getHead with
  | some head => (head, s)
  | none => (block - 1, s.putHead (block - 1))

def turn (F : ForkConfig) (contended : Bool) (v : View H) (s : LocalStorage H S) : Turn H S :=
  let block := v.block
  let head := (settleHead block s).1
  let s := (settleHead block s).2
  match s.getDivider v.parent with
  | none => .again (parentDividerUnavailable F v block s)
  | some divider =>
    match s.getBranchHash v.parent with
    | none => .again (parentBranchHashUnavailable F v block s)
    | some key =>
      if block ≤ head then
        match s.getBranch key with
        | none => .again (parentBranchUnavailable F v block s)
        | some prev =>
          match nextSlot F s prev with
          | none => .stopped s
          | some slot => .ran (openSibling v block s key prev slot)
      else
        match s.branch key with
        | .corrupt => .again (inheritedBranchDecodeError F v block s)
        | .missing => .again (parentBranchUnavailable F v block s)
        | .stored branch =>
          if contended then
            match inheritedBranchMutationConflict F v block s with
            | some t => .ran t
            | none => .stopped s
          else
            .ran (((s.putBranch key { branch with head := block }).putBlock v.current divider).putHead block)

/-- How `start` ends: before the graph begins, or as its last turn. -/
inductive Outcome (H S : Type)
  | skipped
  | ran (s : LocalStorage H S)
  | stopped (s : LocalStorage H S)

/-- The recovery loop, for at most so many turns. -/
def recoveryLoop (F : ForkConfig) (contended : Bool) (v : View H) :
    Nat → LocalStorage H S → Option (Outcome H S)
  | 0, _ => none
  | turns + 1, s =>
    match turn F contended v s with
    | .again t => recoveryLoop F contended v turns t
    | .ran t => some (.ran t)
    | .stopped t => some (.stopped t)

/-- `start` with its worker left to run on the storage of the outcome `ran`. -/
def start (F : ForkConfig) (contended : Bool) (v : View H) (turns : Nat) (s : LocalStorage H S) :
    Option (Outcome H S) :=
  if v.number - 1 = v.number - 2 then some .skipped else recoveryLoop F contended v turns s

end FrameSuite
