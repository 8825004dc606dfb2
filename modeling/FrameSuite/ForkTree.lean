import FrameSuite.ForkScope

/-! Runs of `start` over a tree of blocks. A worker adds keys to the scope it finds, and what it
added is remembered beside the storage, the latest execution first. -/

namespace FrameSuite

variable {H K ε : Type}

structure BlockTree (H : Type) where
  number : H → Nat
  parent : H → H
  number_parent : ∀ hash, number (parent hash) = number hash - 1

namespace BlockTree

variable (tree : BlockTree H)

/-- The block at a height of the chain of a block. -/
def ancestor (hash : H) (height : Nat) : H := tree.parent^[tree.number hash - height] hash

def view (hash : H) : View H := ⟨tree.number hash, tree.ancestor hash⟩

/-- The first block is the second one or an ancestor of it. -/
def Above (older newer : H) : Prop :=
  tree.number older ≤ tree.number newer ∧ tree.ancestor newer (tree.number older) = older

variable {tree}

theorem ancestor_of_lt {hash : H} {height : Nat} (h : height < tree.number hash) :
    tree.ancestor hash height = tree.ancestor (tree.parent hash) height := by
  have hsucc : tree.number hash - height = tree.number hash - 1 - height + 1 := by omega
  rw [BlockTree.ancestor, BlockTree.ancestor, tree.number_parent, hsucc, Function.iterate_succ_apply]

@[simp] theorem ancestor_self (hash : H) : tree.ancestor hash (tree.number hash) = hash := by
  simp [BlockTree.ancestor]

theorem number_iterate (hash : H) (steps : Nat) :
    tree.number (tree.parent^[steps] hash) = tree.number hash - steps := by
  induction steps generalizing hash with
  | zero => rfl
  | succ steps ih =>
    rw [Function.iterate_succ_apply, ih, tree.number_parent]
    omega

theorem number_ancestor {hash : H} {height : Nat} (h : height ≤ tree.number hash) :
    tree.number (tree.ancestor hash height) = height := by
  rw [BlockTree.ancestor, number_iterate]
  omega

theorem above_refl (hash : H) : tree.Above hash hash := ⟨le_rfl, ancestor_self hash⟩

theorem above_iff {older newer : H} :
    tree.Above older newer ↔
      older = newer ∨ (tree.number older < tree.number newer ∧ tree.Above older (tree.parent newer)) := by
  constructor
  · rintro ⟨hle, hat⟩
    obtain hlt | heq := hle.lt_or_eq
    · refine .inr ⟨hlt, ?_, ?_⟩
      · rw [tree.number_parent]
        omega
      · rwa [← ancestor_of_lt hlt]
    · rw [heq, ancestor_self] at hat
      exact .inl hat.symm
  · rintro (rfl | ⟨hlt, -, hat⟩)
    · exact above_refl older
    · exact ⟨hlt.le, (ancestor_of_lt hlt).trans hat⟩

theorem ancestors_related {hash : H} {low high : Nat} (hle : low ≤ high) (hhigh : high ≤ tree.number hash) :
    tree.Above (tree.ancestor hash low) (tree.ancestor hash high) := by
  refine ⟨?_, ?_⟩
  · rwa [number_ancestor (hle.trans hhigh), number_ancestor hhigh]
  · rw [number_ancestor (hle.trans hhigh), BlockTree.ancestor, number_ancestor hhigh]
    have hsteps : tree.number hash - low = high - low + (tree.number hash - high) := by omega
    rw [BlockTree.ancestor, BlockTree.ancestor, hsteps, Function.iterate_add_apply]

theorem view_current {hash : H} (h : 2 ≤ tree.number hash) : (tree.view hash).current = tree.parent hash := by
  have hlt : tree.number hash - 1 < tree.number hash := by omega
  change tree.ancestor hash (tree.number hash - 1) = _
  rw [ancestor_of_lt hlt, ← tree.number_parent, ancestor_self]

theorem view_parent {hash : H} (h : 2 ≤ tree.number hash) :
    (tree.view hash).parent = tree.parent (tree.parent hash) := by
  have hlt : tree.number hash - 1 - 1 < tree.number hash := by omega
  have hlt' : tree.number hash - 1 - 1 < tree.number (tree.parent hash) := by
    rw [tree.number_parent]
    omega
  change tree.ancestor hash (tree.number hash - 1 - 1) = _
  rw [ancestor_of_lt hlt, ancestor_of_lt hlt', ← tree.number_parent, ← tree.number_parent, ancestor_self]

end BlockTree

/-- A run of the worker at a block and the keys it added to its scope. -/
structure Execution (H K : Type) where
  block : H
  keys : List K

variable [DecidableEq H] [DecidableEq K]

namespace LocalStorage

/-- A worker adds keys to its scope; a failed call leaves the storage as it was. -/
def addKeys (E : ForkErrors ε) (v : View H) (s : LocalStorage H (ForkLocalDepot K)) (keys : List K) :
    LocalStorage H (ForkLocalDepot K) :=
  keys.foldl
    (fun s key =>
      match s.addToScope E v key with
      | .ok (_, t) => t
      | .error _ => s) s

theorem addKeys_of_routed {E : ForkErrors ε} {v : View H} {s : LocalStorage H (ForkLocalDepot K)}
    {key : BranchKey H} {branch : Branch H (ForkLocalDepot K)}
    (hroute : s.getBranchHash v.current = some key) (hbranch : s.branch key = .stored branch)
    (keys : List K) :
    s.addKeys E v keys =
      s.putBranch key { branch with scope := keys.foldl ForkLocalDepot.addToLocal branch.scope } := by
  induction keys generalizing s branch with
  | nil => simp [addKeys, putBranch, ← hbranch]
  | cons item keys ih =>
    have hnext := ih (s := s.putBranch key { branch with scope := branch.scope.addToLocal item })
      hroute (Function.update_self ..)
    simp only [addKeys, List.foldl_cons, addToScope_of_routed hroute hbranch] at hnext ⊢
    rw [hnext]
    simp [putBranch]

end LocalStorage

theorem ForkLocalDepot.sees_foldl_addToLocal {depot : ForkLocalDepot K} {keys : List K} {key : K} :
    (keys.foldl ForkLocalDepot.addToLocal depot).sees key = true ↔ key ∈ keys ∨ depot.sees key = true := by
  induction keys generalizing depot with
  | nil => simp
  | cons item keys ih => rw [List.foldl_cons, ih, ForkLocalDepot.sees_addToLocal, List.mem_cons]; tauto

section Runs

variable (tree : BlockTree H)

/-- The block had its turn after its parent had. Below block 2 `start` does nothing. -/
def FollowsParent (log : List (Execution H K)) (block : H) : Prop :=
  2 < tree.number block → ∃ earlier ∈ log, earlier.block = tree.parent block

/-- Added by a worker at the block or at an ancestor of it. -/
def AddedAbove (log : List (Execution H K)) (block : H) (key : K) : Prop :=
  ∃ e ∈ log, tree.Above e.block block ∧ key ∈ e.keys

/-- The child of a block whose worker ran last. -/
def lastChild (log : List (Execution H K)) (block : H) : Option H :=
  (log.find? fun e => tree.parent e.block = block).map Execution.block

/-- Runs of the workers whose executions meet a condition on what went before. -/
inductive WorkerRun (F : ForkConfig) (E : ForkErrors ε)
    (Q : List (Execution H K) → LocalStorage H (ForkLocalDepot K) → H → Prop) :
    List (Execution H K) → LocalStorage H (ForkLocalDepot K) → Prop
  | empty : WorkerRun F E Q [] LocalStorage.empty
  | execute {log s t} (e : Execution H K) (run : WorkerRun F E Q log s)
      (follows : FollowsParent tree log e.block) (meets : Q log s e.block)
      (ran : start F false (tree.view e.block) 2 s = some (.ran t)) :
      WorkerRun F E Q (e :: log) (t.addKeys E (tree.view e.block) e.keys)

/-- What an execution leaves behind where `start` lets its worker run. -/
def workerStep (F : ForkConfig) (E : ForkErrors ε) (s : LocalStorage H (ForkLocalDepot K))
    (e : Execution H K) : LocalStorage H (ForkLocalDepot K) :=
  match start F false (tree.view e.block) 2 s with
  | some (.ran t) => t.addKeys E (tree.view e.block) e.keys
  | _ => s

variable {tree} in
theorem WorkerRun.step {F : ForkConfig} {E : ForkErrors ε}
    {Q : List (Execution H K) → LocalStorage H (ForkLocalDepot K) → H → Prop} {log : List (Execution H K)}
    {s : LocalStorage H (ForkLocalDepot K)} (run : WorkerRun tree F E Q log s) (e : Execution H K)
    (follows : FollowsParent tree log e.block) (meets : Q log s e.block)
    (ran : ∃ t, start F false (tree.view e.block) 2 s = some (.ran t)) :
    WorkerRun tree F E Q (e :: log) (workerStep tree F E s e) := by
  obtain ⟨t, ht⟩ := ran
  rw [workerStep, ht]
  exact .execute e run follows meets ht

/-- The worker of the block has not run, its parent is the child of its grandparent that ran last,
and the branch of the grandparent ends there. -/
def Continues (log : List (Execution H K)) (s : LocalStorage H (ForkLocalDepot K)) (block : H) : Prop :=
  (∀ e ∈ log, e.block ≠ block) ∧
    (2 < tree.number block →
      lastChild tree log (tree.parent (tree.parent block)) = some (tree.parent block)) ∧
    ∀ branch, s.getBlockBranch (tree.parent (tree.parent block)) = some branch →
      branch.head = tree.number block - 2

end Runs

end FrameSuite
