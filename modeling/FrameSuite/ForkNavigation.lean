import FrameSuite.ForkStorage
import Mathlib.Logic.Relation
import Mathlib.Data.List.Basic

/-! `transition`, the walk over the branches of the fork graph, and what makes the graph navigable. -/

namespace FrameSuite

open LocalStorage

variable {H S : Type}

/-- The moves over the branches; the indices are those of sibling slots. -/
inductive ForkAction
  | moveToParentBranchBack (n : Nat)
  | moveToParentBranch
  | moveToChildBranch (index : Nat)
  | moveToNextChildBranch
  | moveToSiblingBranch (index : Nat)
  | moveToNextSiblingBranch
  | moveToPreviousSiblingBranch
  | moveToRootBranch

/-- The greatest value of the type of an index. -/
def maxIndex : Nat := UInt32.size - 1

namespace LocalStorage

def parentOf (s : LocalStorage H S) (branch : Branch H S) : Option (Branch H S) := do
  let key ← branch.parent
  s.getBranch key

def parentBack (s : LocalStorage H S) : Nat → Branch H S → Option (Branch H S)
  | 0, branch => some branch
  | n + 1, branch => do
    let next ← s.parentOf branch
    s.parentBack n next

def childOf (s : LocalStorage H S) (branch : Branch H S) (index : Nat) : Option (Branch H S) :=
  s.getBranch ⟨branch.genesis, branch.counter ++ [index]⟩

/-- A root has its children for siblings. -/
def siblingOf (s : LocalStorage H S) (branch : Branch H S) (index : Nat) : Option (Branch H S) :=
  let counter := if branch.counter = [] then [index] else branch.counter.dropLast ++ [index]
  if counter = branch.counter then none else s.getBranch ⟨branch.genesis, counter⟩

/-- The walk to the root, which ends early where the parent does not decode. It gives nothing if the turns
run out. -/
def rootOf (s : LocalStorage H S) : Nat → Branch H S → Option (Branch H S)
  | 0, _ => none
  | turns + 1, branch =>
    if branch.parent.isNone then some branch
    else
      match s.parentOf branch with
      | some parent => s.rootOf turns parent
      | none => some branch

/-- Where a move leads to, if anywhere. The outer `none` is a walk to the root that is out of turns. -/
def transition (s : LocalStorage H S) (turns : Nat) (branch : Branch H S) :
    ForkAction → Option (Option (Branch H S))
  | .moveToParentBranch => some (s.parentOf branch)
  | .moveToParentBranchBack n => some (s.parentBack n branch)
  | .moveToChildBranch index => some (s.childOf branch index)
  | .moveToNextChildBranch => some (s.childOf branch 0)
  | .moveToSiblingBranch index => some (s.siblingOf branch index)
  | .moveToNextSiblingBranch =>
    some (s.siblingOf branch ((branch.counter.getLast?.map fun k => min (k + 1) maxIndex).getD 0))
  | .moveToPreviousSiblingBranch =>
    some do
      let last ← branch.counter.getLast?
      if last = 0 then none else s.siblingOf branch (last - 1)
  | .moveToRootBranch => (s.rootOf turns branch).map some

/-- One branch is the parent of the other. -/
def ParentOf (s : LocalStorage H S) (parent child : BranchKey H) : Prop :=
  ∃ branch, s.getBranch child = some branch ∧ branch.parent = some parent

end LocalStorage

/-- Every branch knows its key, the children of a branch fill the slots from the first on within the limit,
no branch is its own ancestor, the walk to the root ends, and the parent of a child is where it was found. -/
structure Navigable (limit : Nat) (s : LocalStorage H S) : Prop where
  keyed : ∀ key branch, s.getBranch key = some branch → key = ⟨branch.genesis, branch.counter⟩
  children : ∀ key branch, s.getBranch key = some branch → ∃ n ≤ limit, ∀ index,
    (s.childOf branch index).isSome ↔ index < n
  acyclic : ∀ key, ¬Relation.TransGen s.ParentOf key key
  rooted : ∀ key branch, s.getBranch key = some branch → ∃ turns root,
    s.transition turns branch .moveToRootBranch = some (some root)
  returns : ∀ key branch, s.getBranch key = some branch → ∀ turns index child,
    s.transition turns branch (.moveToChildBranch index) = some (some child) →
      s.transition turns child .moveToParentBranch = some (some branch)

theorem acyclic_of_wellFounded {s : LocalStorage H S} (h : WellFounded s.ParentOf) (key : BranchKey H) :
    ¬Relation.TransGen s.ParentOf key key :=
  fun hcycle => h.transGen.asymmetric _ _ hcycle hcycle

theorem rootOf_ends {s : LocalStorage H S} (h : WellFounded s.ParentOf) {key : BranchKey H} {branch : Branch H S}
    (hbranch : s.getBranch key = some branch) : ∃ turns root, s.rootOf turns branch = some root := by
  induction key using h.induction generalizing branch with
  | _ key ih =>
    cases hparent : branch.parent with
    | none => exact ⟨1, branch, by simp [rootOf, hparent]⟩
    | some parent =>
      cases hget : s.getBranch parent with
      | none => exact ⟨1, branch, by simp [rootOf, parentOf, hparent, hget]⟩
      | some older =>
        obtain ⟨turns, root, hroot⟩ := ih parent ⟨branch, hbranch, hparent⟩ hget
        exact ⟨turns + 1, root, by simp [rootOf, parentOf, hparent, hget, hroot]⟩

end FrameSuite
