import FrameSuite.ForkStart

/-! `ForkLocalDepot`, the keys a branch can see, and how the worker of a block reads and writes
the depot of the branch that the block before it was routed to. -/

namespace FrameSuite

variable {H K ε : Type} [DecidableEq K]

structure ForkLocalDepot (K : Type) where
  inheritedKeys : Finset K
  localKeys : Finset K
deriving DecidableEq

namespace ForkLocalDepot

/-- The next generation inherits every key and starts with none of its own. -/
def accrete (depot : ForkLocalDepot K) : ForkLocalDepot K where
  inheritedKeys := depot.inheritedKeys ∪ depot.localKeys
  localKeys := ∅

instance : ForkScopes (ForkLocalDepot K) where
  default := ⟨∅, ∅⟩
  accrete := accrete

def addToLocal (depot : ForkLocalDepot K) (key : K) : ForkLocalDepot K :=
  { depot with localKeys := insert key depot.localKeys }

def existsInLocal (depot : ForkLocalDepot K) (key : K) : Bool := key ∈ depot.localKeys

def existsInInherited (depot : ForkLocalDepot K) (key : K) : Bool := key ∈ depot.inheritedKeys

def removeFromLocal (depot : ForkLocalDepot K) (key : K) : ForkLocalDepot K :=
  { depot with localKeys := depot.localKeys.erase key }

def removeFromInherited (depot : ForkLocalDepot K) (key : K) : ForkLocalDepot K :=
  { depot with inheritedKeys := depot.inheritedKeys.erase key }

/-- A key of either layer. -/
def sees (depot : ForkLocalDepot K) (key : K) : Bool :=
  depot.existsInLocal key || depot.existsInInherited key

theorem sees_iff {depot : ForkLocalDepot K} {key : K} :
    depot.sees key = true ↔ key ∈ depot.localKeys ∨ key ∈ depot.inheritedKeys := by
  simp [sees, existsInLocal, existsInInherited]

@[simp] theorem sees_default (key : K) : (ForkScopes.default : ForkLocalDepot K).sees key = false := by
  simp [ForkScopes.default, sees, existsInLocal, existsInInherited]

@[simp] theorem sees_accrete (depot : ForkLocalDepot K) (key : K) :
    (ForkScopes.accrete depot).sees key = depot.sees key := by
  rw [Bool.eq_iff_iff, sees_iff, sees_iff]
  simp [ForkScopes.accrete, accrete, or_comm]

theorem sees_addToLocal {depot : ForkLocalDepot K} {item key : K} :
    (depot.addToLocal item).sees key = true ↔ key = item ∨ depot.sees key = true := by
  simp [sees_iff, addToLocal, or_assoc]

end ForkLocalDepot

namespace ForkLocalDepot

/-- Drops a key from the layer it is found in first. -/
def removeKey (depot : ForkLocalDepot K) (key : K) : ForkLocalDepot K :=
  if depot.existsInLocal key then depot.removeFromLocal key
  else if !depot.existsInInherited key then depot
  else depot.removeFromInherited key

theorem sees_removeKey_of_ne {depot : ForkLocalDepot K} {item key : K} (h : key ≠ item) :
    (depot.removeKey item).sees key = depot.sees key := by
  rw [Bool.eq_iff_iff, sees_iff, sees_iff]
  unfold removeKey
  split
  · simp [removeFromLocal, h]
  · split
    · exact Iff.rfl
    · simp [removeFromInherited, h]

end ForkLocalDepot

/-- The errors a pallet chooses for its fork graph and for the values it keeps on it. -/
structure ForkErrors (ε : Type) where
  forksNotEnabled : ε
  inconsistentForks : ε
  decodeFailed : ε
  concurrentMutation : ε

namespace LocalStorage

def getPrevBlockBranch (v : View H) (s : LocalStorage H (ForkLocalDepot K)) :
    Option (Branch H (ForkLocalDepot K)) :=
  s.getBlockBranch v.current

omit [DecidableEq K] in
theorem getPrevBlockBranch_of_routed {v : View H} {s : LocalStorage H (ForkLocalDepot K)}
    {key : BranchKey H} (hroute : s.getBranchHash v.current = some key) :
    s.getPrevBlockBranch v = s.getBranch key := by
  simp [getPrevBlockBranch, getBlockBranch, hroute]

def scopeItemExists (E : ForkErrors ε) (v : View H) (key : K) (s : LocalStorage H (ForkLocalDepot K)) :
    Except ε Bool :=
  match s.getPrevBlockBranch v with
  | none => .error E.forksNotEnabled
  | some branch =>
    if branch.scope.existsInLocal key then .ok true
    else if branch.scope.existsInInherited key then .ok true
    else .ok false

theorem scopeItemExists_of_routed {E : ForkErrors ε} {v : View H} {s : LocalStorage H (ForkLocalDepot K)}
    {key : BranchKey H} {branch : Branch H (ForkLocalDepot K)}
    (hroute : s.getBranchHash v.current = some key)
    (hbranch : s.branch key = .stored branch) (item : K) :
    s.scopeItemExists E v item = .ok (branch.scope.sees item) := by
  rw [scopeItemExists, getPrevBlockBranch_of_routed hroute, getBranch, hbranch]
  simp only [Slot.load_stored, ForkLocalDepot.sees]
  cases branch.scope.existsInLocal item <;> cases branch.scope.existsInInherited item <;> rfl

variable [DecidableEq H]

def addToScope (E : ForkErrors ε) (v : View H) (item : K) (s : LocalStorage H (ForkLocalDepot K)) :
    Except ε (K × LocalStorage H (ForkLocalDepot K)) :=
  match s.getBranchHash v.current with
  | none => .error E.forksNotEnabled
  | some key =>
    match s.getBranch key with
    | none => .error E.inconsistentForks
    | some branch => .ok (item, s.putBranch key { branch with scope := branch.scope.addToLocal item })

def removeFromScope (E : ForkErrors ε) (v : View H) (item : K) (s : LocalStorage H (ForkLocalDepot K)) :
    Except ε (LocalStorage H (ForkLocalDepot K)) :=
  match s.getBranchHash v.current with
  | none => .error E.forksNotEnabled
  | some key =>
    match s.getPrevBlockBranch v with
    | none => .error E.inconsistentForks
    | some branch =>
      if branch.scope.existsInLocal item then
        .ok (s.putBranch key { branch with scope := branch.scope.removeFromLocal item })
      else if !branch.scope.existsInInherited item then .ok s
      else .ok (s.putBranch key { branch with scope := branch.scope.removeFromInherited item })

section Routed

variable {E : ForkErrors ε} {v : View H} {s : LocalStorage H (ForkLocalDepot K)} {key : BranchKey H}
  {branch : Branch H (ForkLocalDepot K)}

theorem addToScope_of_routed (hroute : s.getBranchHash v.current = some key)
    (hbranch : s.branch key = .stored branch) (item : K) :
    s.addToScope E v item =
      .ok (item, s.putBranch key { branch with scope := branch.scope.addToLocal item }) := by
  simp [addToScope, hroute, getBranch, hbranch]

theorem removeFromScope_of_routed (hroute : s.getBranchHash v.current = some key)
    (hbranch : s.branch key = .stored branch) (item : K) :
    s.removeFromScope E v item =
      .ok (s.putBranch key { branch with scope := branch.scope.removeKey item }) := by
  have hself : s.putBranch key branch = s := by
    simp [putBranch, ← hbranch]
  simp only [removeFromScope, hroute, getPrevBlockBranch_of_routed hroute, getBranch, hbranch,
    Slot.load_stored, ForkLocalDepot.removeKey]
  split
  · rfl
  · split
    · rw [hself]
    · rfl

end Routed

end LocalStorage

end FrameSuite
