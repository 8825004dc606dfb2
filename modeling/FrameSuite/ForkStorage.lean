import Mathlib.Data.Finset.Basic
import Mathlib.Logic.Function.Basic

/-! The node-local storage of the fork graph. Block entries lead to dividers, dividers to
branches, and every entry may be missing or undecodable. Keys are what their hashes are made of. -/

namespace FrameSuite

/-- One entry of the node-local storage. -/
inductive Slot (α : Type)
  | missing
  | corrupt
  | stored (value : α)
deriving DecidableEq

namespace Slot

variable {α : Type}

/-- What decoding the entry gives. -/
def load : Slot α → Option α
  | stored value => some value
  | _ => none

@[simp] theorem load_stored (value : α) : (stored value).load = some value := rfl

@[simp] theorem load_missing : (missing : Slot α).load = none := rfl

@[simp] theorem load_corrupt : (corrupt : Slot α).load = none := rfl

theorem load_eq_some {slot : Slot α} {value : α} : slot.load = some value ↔ slot = stored value := by
  cases slot <;> simp [load]

end Slot

/-- The bounds a pallet chooses for its fork graph. -/
structure ForkConfig where
  maxForks : Nat
  maxRecoverTraversal : Nat

/-- Branch-local state: empty at a root, carried over by a new branch. -/
class ForkScopes (S : Type) where
  default : S
  accrete : S → S

/-- The lineage of a branch from the hash its local root is anchored at. -/
structure BranchKey (H : Type) where
  genesis : H
  counter : List Nat
deriving DecidableEq

structure DividerKey (H : Type) where
  parent : H
  branch : BranchKey H
deriving DecidableEq

structure Branch (H S : Type) where
  parent : Option (BranchKey H)
  head : Nat
  scope : S
  genesis : H
  counter : List Nat

structure LocalStorage (H S : Type) where
  head : Slot Nat
  block : H → Slot (DividerKey H)
  divider : DividerKey H → Slot (BranchKey H)
  branch : BranchKey H → Slot (Branch H S)

namespace LocalStorage

variable {H S : Type}

def empty : LocalStorage H S where
  head := .missing
  block _ := .missing
  divider _ := .missing
  branch _ := .missing

def getHead (s : LocalStorage H S) : Option Nat := s.head.load

def getDivider (s : LocalStorage H S) (hash : H) : Option (DividerKey H) := (s.block hash).load

def getBranchHash (s : LocalStorage H S) (hash : H) : Option (BranchKey H) := do
  let divider ← s.getDivider hash
  (s.divider divider).load

def getBranch (s : LocalStorage H S) (key : BranchKey H) : Option (Branch H S) := (s.branch key).load

def getBlockBranch (s : LocalStorage H S) (hash : H) : Option (Branch H S) := do
  let key ← s.getBranchHash hash
  s.getBranch key

variable [DecidableEq H]

def putHead (s : LocalStorage H S) (head : Nat) : LocalStorage H S := { s with head := .stored head }

def putBlock (s : LocalStorage H S) (hash : H) (divider : DividerKey H) : LocalStorage H S :=
  { s with block := Function.update s.block hash (.stored divider) }

def putDivider (s : LocalStorage H S) (key : DividerKey H) (branch : BranchKey H) : LocalStorage H S :=
  { s with divider := Function.update s.divider key (.stored branch) }

def clearDivider (s : LocalStorage H S) (key : DividerKey H) : LocalStorage H S :=
  { s with divider := Function.update s.divider key .missing }

def putBranch (s : LocalStorage H S) (key : BranchKey H) (branch : Branch H S) : LocalStorage H S :=
  { s with branch := Function.update s.branch key (.stored branch) }

/-- Routes a block through its own divider to a branch. -/
def route (s : LocalStorage H S) (hash : H) (divider : DividerKey H) : LocalStorage H S :=
  (s.putDivider divider divider.branch).putBlock hash divider

end LocalStorage

end FrameSuite
