import FrameSuite.ForkProgress
import FrameSuite.ForkTree

/-! Along runs whose executions continue the branch of their grandparent, the depot a worker finds
holds what was added at its block and above, and nothing else. -/

namespace FrameSuite

open LocalStorage

variable {H K ε : Type} [DecidableEq H]

section Log

variable {tree : BlockTree H} {log : List (Execution H K)}

/-- A block whose turn, if it can have one, was the last among the children of its parent. -/
def Latest (tree : BlockTree H) (log : List (Execution H K)) (block : H) : Prop :=
  tree.number block < 2 ∨ lastChild tree log (tree.parent block) = some block

theorem mem_of_lastChild {parent child : H} (h : lastChild tree log parent = some child) :
    ∃ e ∈ log, e.block = child := by
  obtain ⟨e, hfind, rfl⟩ := Option.map_eq_some_iff.mp h
  exact ⟨e, List.mem_of_find?_eq_some hfind, rfl⟩

theorem lastChild_cons_self (e : Execution H K) (log : List (Execution H K)) :
    lastChild tree (e :: log) (tree.parent e.block) = some e.block := by
  simp [lastChild]

theorem lastChild_cons_of_ne {e : Execution H K} {block : H} (h : tree.parent e.block ≠ block) :
    lastChild tree (e :: log) block = lastChild tree log block := by
  simp [lastChild, h]

theorem executed_of_above (hclosed : ∀ e ∈ log, FollowsParent tree log e.block) {older newer : H}
    (habove : tree.Above older newer) (holder : 2 ≤ tree.number older)
    (hnewer : ∃ e ∈ log, e.block = newer) : ∃ e ∈ log, e.block = older := by
  induction hn : tree.number newer generalizing newer with
  | zero => have := habove.1; omega
  | succ n ih =>
    obtain rfl | ⟨hlt, hparent⟩ := BlockTree.above_iff.mp habove
    · exact hnewer
    · obtain ⟨e, he, rfl⟩ := hnewer
      exact ih hparent (hclosed e he (by omega)) (by rw [tree.number_parent]; omega)

end Log

variable [DecidableEq K]

/-- What the storage holds along a run of workers. -/
structure Traced (tree : BlockTree H) (log : List (Execution H K))
    (s : LocalStorage H (ForkLocalDepot K)) : Prop where
  number : ∀ e ∈ log, 2 ≤ tree.number e.block
  follows : ∀ e ∈ log, FollowsParent tree log e.block
  executed : ∀ e ∈ log, ∃ divider, s.block (tree.parent e.block) = .stored divider
  routed : ∀ hash divider, s.block hash = .stored divider →
    s.divider divider = .stored divider.branch ∧ ∃ branch, s.branch divider.branch = .stored branch
  lineage : ∀ key branch, s.branch key = .stored branch →
    branch.genesis = key.genesis ∧ branch.counter = key.counter ∧
      ∃ divider, s.block key.genesis = .stored divider
  tip : ∀ hash divider branch, s.block hash = .stored divider → s.branch divider.branch = .stored branch →
    tree.number hash ≤ branch.head
  depot : ∀ hash divider branch, s.block hash = .stored divider → s.branch divider.branch = .stored branch →
    branch.head = tree.number hash → ∀ child, tree.parent child = hash → Latest tree log child →
      ∀ key, branch.scope.sees key = true ↔ AddedAbove tree log child key

/-- One block is routed anew and the branch it is routed to is written; nothing else moves. -/
structure Moved (s t : LocalStorage H (ForkLocalDepot K)) (hash : H) (divider : DividerKey H)
    (branch : Branch H (ForkLocalDepot K)) : Prop where
  blocks : t.block = Function.update s.block hash (.stored divider)
  dividers : t.divider = Function.update s.divider divider (.stored divider.branch)
  branches : t.branch = Function.update s.branch divider.branch (.stored branch)

namespace Moved

variable {s t : LocalStorage H (ForkLocalDepot K)} {hash : H} {divider : DividerKey H}
  {branch : Branch H (ForkLocalDepot K)}

omit [DecidableEq K]

theorem block_self (h : Moved s t hash divider branch) : t.block hash = .stored divider := by
  rw [h.blocks, Function.update_self]

theorem block_of_ne (h : Moved s t hash divider branch) {other : H} (hne : other ≠ hash) :
    t.block other = s.block other := by
  rw [h.blocks, Function.update_of_ne hne]

theorem branch_self (h : Moved s t hash divider branch) : t.branch divider.branch = .stored branch := by
  rw [h.branches, Function.update_self]

theorem branch_of_ne (h : Moved s t hash divider branch) {key : BranchKey H} (hne : key ≠ divider.branch) :
    t.branch key = s.branch key := by
  rw [h.branches, Function.update_of_ne hne]

theorem block_stored (h : Moved s t hash divider branch) {other : H} {old : DividerKey H}
    (hold : s.block other = .stored old) : ∃ now, t.block other = .stored now := by
  by_cases heq : other = hash
  · exact ⟨divider, heq ▸ h.block_self⟩
  · exact ⟨old, (h.block_of_ne heq).trans hold⟩

theorem branch_stored (h : Moved s t hash divider branch) {key : BranchKey H}
    {old : Branch H (ForkLocalDepot K)} (hold : s.branch key = .stored old) :
    ∃ now, t.branch key = .stored now := by
  by_cases heq : key = divider.branch
  · exact ⟨branch, heq ▸ h.branch_self⟩
  · exact ⟨old, (h.branch_of_ne heq).trans hold⟩

theorem divider_kept (h : Moved s t hash divider branch) {old : DividerKey H}
    (hold : old = divider ∨ s.divider old = .stored old.branch) : t.divider old = .stored old.branch := by
  rw [h.dividers]
  by_cases heq : old = divider
  · subst heq
    exact Function.update_self ..
  · rw [Function.update_of_ne heq]
    exact hold.resolve_left heq

theorem branch_cases (h : Moved s t hash divider branch) {key : BranchKey H}
    {now : Branch H (ForkLocalDepot K)} (hnow : t.branch key = .stored now) :
    (key = divider.branch ∧ now = branch) ∨ (key ≠ divider.branch ∧ s.branch key = .stored now) := by
  by_cases heq : key = divider.branch
  · subst heq
    exact .inl ⟨rfl, Slot.stored.inj (hnow.symm.trans h.branch_self)⟩
  · exact .inr ⟨heq, (h.branch_of_ne heq).symm.trans hnow⟩

end Moved

section Step

variable {tree : BlockTree H} {log : List (Execution H K)} {s t : LocalStorage H (ForkLocalDepot K)}

theorem Traced.empty (tree : BlockTree H) : Traced (K := K) tree [] LocalStorage.empty where
  number _ h := nomatch h
  follows _ h := nomatch h
  executed _ h := nomatch h
  routed _ _ h := nomatch h
  lineage _ _ h := nomatch h
  tip _ _ _ h := nomatch h
  depot _ _ _ h := nomatch h

theorem Traced.settle (h : Traced tree log s) (block : Nat) : Traced tree log (settleHead block s).2 := by
  unfold settleHead
  split
  · exact h
  · exact ⟨h.number, h.follows, h.executed, h.routed, h.lineage, h.tip, h.depot⟩

omit [DecidableEq H] [DecidableEq K] in
theorem FollowsParent.cons {block : H} (h : FollowsParent tree log block) (e : Execution H K) :
    FollowsParent tree (e :: log) block := fun hnumber => by
  obtain ⟨earlier, hmem, hblock⟩ := h hnumber
  exact ⟨earlier, List.mem_cons_of_mem _ hmem, hblock⟩

omit [DecidableEq H] [DecidableEq K] in
theorem addedAbove_cons_of_not_above {e : Execution H K} {block : H} (h : ¬tree.Above e.block block) {key : K} :
    AddedAbove tree (e :: log) block key ↔ AddedAbove tree log block key := by
  simp [AddedAbove, h]

/-- An execution of a new block leaves the depots of the others as their ancestry wants them. -/
theorem Traced.moved (h : Traced tree log s) {e : Execution H K} {divider : DividerKey H}
    {branch : Branch H (ForkLocalDepot K)} (hmoved : Moved s t (tree.parent e.block) divider branch)
    (hnumber : 2 ≤ tree.number e.block) (hfollows : FollowsParent tree log e.block)
    (hnew : ∀ x ∈ log, x.block ≠ e.block) (hhead : branch.head = tree.number e.block - 1)
    (hkey : branch.genesis = divider.branch.genesis ∧ branch.counter = divider.branch.counter ∧
      ∃ root, s.block divider.branch.genesis = .stored root)
    (hold : ∀ old, s.branch divider.branch = .stored old → old.head = tree.number e.block - 2)
    (hsees : ∀ key, branch.scope.sees key = true ↔ AddedAbove tree (e :: log) e.block key) :
    Traced tree (e :: log) t where
  number x hx := by
    obtain rfl | hx := List.mem_cons.mp hx
    · exact hnumber
    · exact h.number x hx
  follows x hx := by
    obtain rfl | hx := List.mem_cons.mp hx
    · exact hfollows.cons x
    · exact (h.follows x hx).cons e
  executed x hx := by
    obtain rfl | hx := List.mem_cons.mp hx
    · exact ⟨divider, hmoved.block_self⟩
    · obtain ⟨old, hblock⟩ := h.executed x hx
      exact hmoved.block_stored hblock
  routed hash now hnow := by
    by_cases heq : hash = tree.parent e.block
    · subst heq
      obtain rfl := Slot.stored.inj (hmoved.block_self.symm.trans hnow)
      exact ⟨hmoved.divider_kept (.inl rfl), branch, hmoved.branch_self⟩
    · obtain ⟨hdivider, old, hbranch⟩ := h.routed hash now ((hmoved.block_of_ne heq).symm.trans hnow)
      exact ⟨hmoved.divider_kept (.inr hdivider), hmoved.branch_stored hbranch⟩
  lineage key now hnow := by
    obtain ⟨rfl, rfl⟩ | ⟨-, hbranch⟩ := hmoved.branch_cases hnow
    · obtain ⟨hgenesis, hcounter, root, hroot⟩ := hkey
      exact ⟨hgenesis, hcounter, hmoved.block_stored hroot⟩
    · obtain ⟨hgenesis, hcounter, root, hroot⟩ := h.lineage key now hbranch
      exact ⟨hgenesis, hcounter, hmoved.block_stored hroot⟩
  tip hash now found hnow hfound := by
    by_cases heq : hash = tree.parent e.block
    · subst heq
      obtain rfl := Slot.stored.inj (hmoved.block_self.symm.trans hnow)
      obtain rfl := Slot.stored.inj (hmoved.branch_self.symm.trans hfound)
      rw [hhead, tree.number_parent]
    · have hblock := (hmoved.block_of_ne heq).symm.trans hnow
      obtain ⟨hbranch, rfl⟩ | ⟨-, hbranch⟩ := hmoved.branch_cases hfound
      · obtain ⟨-, old, hbefore⟩ := h.routed hash now hblock
        have := h.tip hash now old hblock hbefore
        have := hold old (hbranch ▸ hbefore)
        omega
      · exact h.tip hash now found hblock hbranch
  depot hash now found hnow hfound htip child hparent hlatest key := by
    by_cases heq : hash = tree.parent e.block
    · subst heq
      obtain rfl := Slot.stored.inj (hmoved.block_self.symm.trans hnow)
      obtain rfl := Slot.stored.inj (hmoved.branch_self.symm.trans hfound)
      have hheight : tree.number child = tree.number e.block := by
        have hchild := tree.number_parent child
        have := tree.number_parent e.block
        rw [hparent] at hchild
        omega
      have hlast := hlatest.resolve_left (by omega)
      rw [hparent, lastChild_cons_self] at hlast
      obtain rfl := Option.some.inj hlast
      exact hsees key
    · have hblock := (hmoved.block_of_ne heq).symm.trans hnow
      obtain ⟨hbranch, rfl⟩ | ⟨-, hbranch⟩ := hmoved.branch_cases hfound
      · obtain ⟨-, old, hbefore⟩ := h.routed hash now hblock
        have := h.tip hash now old hblock hbefore
        have := hold old (hbranch ▸ hbefore)
        omega
      · have hlatest' : Latest tree log child :=
          hlatest.imp_right fun hlast => by
            rwa [lastChild_cons_of_ne (fun hsame => heq (hparent.symm.trans hsame.symm))] at hlast
        have hbelow : ¬tree.Above e.block child := fun habove => by
          have := habove.1
          obtain ⟨x, hx, hblock⟩ := executed_of_above h.follows habove hnumber
            (mem_of_lastChild (hlatest'.resolve_left (by omega)))
          exact hnew x hx hblock
        rw [addedAbove_cons_of_not_above hbelow]
        exact h.depot hash now found hblock hbranch htip child hparent hlatest' key

/-- Recovery at the first block that can be executed roots the graph at the first block of all. -/
theorem Traced.rooted (h : Traced tree log s) {hash : H} {branch : Branch H (ForkLocalDepot K)}
    (hmoved : Moved s t hash ⟨hash, ⟨hash, []⟩⟩ branch) (hnumber : tree.number hash = 0)
    (hlost : ∀ divider, s.block hash ≠ .stored divider)
    (hbranch : branch = ⟨none, 0, ForkScopes.default, hash, []⟩) : Traced tree log t := by
  have hfresh : ∀ other now, s.block other = .stored now → now.branch ≠ ⟨hash, []⟩ := by
    intro other now hnow heq
    obtain ⟨-, old, hold⟩ := h.routed other now hnow
    obtain ⟨-, -, root, hroot⟩ := h.lineage now.branch old hold
    rw [heq] at hroot
    exact hlost root hroot
  subst hbranch
  refine ⟨h.number, h.follows, fun x hx => ?_, fun other now hnow => ?_, fun key now hnow => ?_,
    fun other now found hnow hfound => ?_, fun other now found hnow hfound htip child hparent hlatest key => ?_⟩
  · obtain ⟨old, hold⟩ := h.executed x hx
    exact hmoved.block_stored hold
  · by_cases heq : other = hash
    · subst heq
      obtain rfl := Slot.stored.inj (hmoved.block_self.symm.trans hnow)
      exact ⟨hmoved.divider_kept (.inl rfl), _, hmoved.branch_self⟩
    · obtain ⟨hdivider, old, hold⟩ := h.routed other now ((hmoved.block_of_ne heq).symm.trans hnow)
      exact ⟨hmoved.divider_kept (.inr hdivider), hmoved.branch_stored hold⟩
  · obtain ⟨rfl, rfl⟩ | ⟨-, hold⟩ := hmoved.branch_cases hnow
    · exact ⟨rfl, rfl, _, hmoved.block_self⟩
    · obtain ⟨hgenesis, hcounter, root, hroot⟩ := h.lineage key now hold
      exact ⟨hgenesis, hcounter, hmoved.block_stored hroot⟩
  · by_cases heq : other = hash
    · rw [heq, hnumber]
      exact Nat.zero_le _
    · have hblock := (hmoved.block_of_ne heq).symm.trans hnow
      have hold := (hmoved.branch_of_ne (hfresh other now hblock)).symm.trans hfound
      exact h.tip other now found hblock hold
  · by_cases heq : other = hash
    · subst heq
      obtain rfl := Slot.stored.inj (hmoved.block_self.symm.trans hnow)
      obtain rfl := Slot.stored.inj (hmoved.branch_self.symm.trans hfound)
      have hnone : ¬AddedAbove tree log child key := by
        rintro ⟨x, hx, ⟨hle, -⟩, -⟩
        have := h.number x hx
        have := tree.number_parent child
        rw [hparent] at this
        omega
      simp [hnone]
    · have hblock := (hmoved.block_of_ne heq).symm.trans hnow
      have hold := (hmoved.branch_of_ne (hfresh other now hblock)).symm.trans hfound
      exact h.depot other now found hblock hold htip child hparent hlatest key

omit [DecidableEq K] in
theorem moved_extended {v : View H} {divider : DividerKey H} {branch : Branch H (ForkLocalDepot K)}
    (hdivider : s.divider divider = .stored divider.branch) :
    Moved s (extended v s divider divider.branch branch) v.current divider { branch with head := v.block } where
  blocks := rfl
  dividers := (Function.update_eq_self_iff.mpr hdivider.symm).symm
  branches := rfl

theorem moved_openSibling (v : View H) (s : LocalStorage H (ForkLocalDepot K)) (key : BranchKey H)
    (prev : Branch H (ForkLocalDepot K)) (slot : Nat) :
    Moved s (openSibling v v.block s key prev slot) v.current ⟨v.hash (v.block - 1), siblingKey prev slot⟩
      ⟨some key, v.block, ForkScopes.accrete prev.scope, prev.genesis, prev.counter ++ [slot]⟩ where
  blocks := rfl
  dividers := rfl
  branches := rfl

omit [DecidableEq K] in
theorem Continues.latest {block : H} (h : Continues tree log s block) : Latest tree log (tree.parent block) := by
  have := tree.number_parent block
  by_cases hlow : tree.number (tree.parent block) < 2
  · exact .inl hlow
  · exact .inr (h.2.1 (by omega))

omit [DecidableEq H] [DecidableEq K] in
theorem addedAbove_parent_iff {block : H} (hnew : ∀ e ∈ log, e.block ≠ block) (hnumber : 2 ≤ tree.number block)
    {key : K} : AddedAbove tree log (tree.parent block) key ↔ AddedAbove tree log block key := by
  have := tree.number_parent block
  constructor
  · rintro ⟨e, he, habove, hkey⟩
    have := habove.1
    exact ⟨e, he, BlockTree.above_iff.mpr (.inr ⟨by omega, habove⟩), hkey⟩
  · rintro ⟨e, he, habove, hkey⟩
    obtain ⟨-, hparent⟩ := (BlockTree.above_iff.mp habove).resolve_left (hnew e he)
    exact ⟨e, he, hparent, hkey⟩

/-- What an execution that continues its line is handed: a branch that ends at its parent and sees
what was added above. -/
structure Handed (tree : BlockTree H) (log : List (Execution H K)) (u t : LocalStorage H (ForkLocalDepot K))
    (block : H) (divider : DividerKey H) (branch : Branch H (ForkLocalDepot K)) : Prop where
  before : Traced tree log u
  moved : Moved u t (tree.parent block) divider branch
  head : branch.head = tree.number block - 1
  key : branch.genesis = divider.branch.genesis ∧ branch.counter = divider.branch.counter ∧
    ∃ root, u.block divider.branch.genesis = .stored root
  old : ∀ old, u.branch divider.branch = .stored old → old.head = tree.number block - 2
  sees : ∀ key, branch.scope.sees key = true ↔ AddedAbove tree log block key

theorem Traced.turn_ran (h : Traced tree log s) {F : ForkConfig} {block : H}
    (hnumber : 2 ≤ tree.number block) (hcont : Continues tree log s block)
    (hran : turn F false (tree.view block) s = .ran t) :
    ∃ u divider branch, Handed tree log u t block divider branch := by
  obtain ⟨divider, key, branch, hblock, hdivider, hbranch, hend⟩ := turn_ran_cases hran
  have hu := h.settle (tree.view block).block
  have htip := hcont.2.2 branch
  rw [← settleHead_getBlockBranch (tree.view block).block s] at htip
  generalize (settleHead (tree.view block).block s).2 = u at *
  rw [BlockTree.view_parent hnumber] at hblock
  obtain ⟨hroute, -⟩ := hu.routed _ divider hblock
  obtain rfl := Slot.stored.inj (hdivider.symm.trans hroute)
  have hhead : branch.head = tree.number block - 2 :=
    htip (getBlockBranch_eq_some.mpr ⟨_, getBranchHash_eq_some.mpr ⟨divider, hblock, hdivider⟩, hbranch⟩)
  have hheight : tree.number (tree.parent (tree.parent block)) = tree.number block - 2 := by
    rw [tree.number_parent, tree.number_parent]
    omega
  have hsees : ∀ key, branch.scope.sees key = true ↔ AddedAbove tree log block key := fun key =>
    (hu.depot _ divider branch hblock hbranch (hhead.trans hheight.symm) _ rfl hcont.latest key).trans
      (addedAbove_parent_iff hcont.1 hnumber)
  obtain ⟨hgenesis, hcounter, hroot⟩ := hu.lineage _ branch hbranch
  obtain ⟨slot, hslot, rfl⟩ | rfl := hend
  · have hfree := nextSlot_free hslot
    refine ⟨u, _, _, hu, BlockTree.view_current hnumber ▸ moved_openSibling .., rfl, ⟨rfl, rfl, ?_⟩,
      fun old hold => ?_, fun key => ?_⟩
    · simpa [siblingKey, hgenesis] using hroot
    · simp [getBranch, hold] at hfree
    · rw [ForkLocalDepot.sees_accrete]
      exact hsees key
  · refine ⟨u, divider, { branch with head := (tree.view block).block }, hu,
    BlockTree.view_current hnumber ▸ moved_extended hdivider, rfl,
      ⟨hgenesis, hcounter, hroot⟩, fun old hold => ?_, hsees⟩
    rw [← Slot.stored.inj (hbranch.symm.trans hold)]
    exact hhead

theorem turn_at_first {F : ForkConfig} {v : View H} (hblock : v.block = 1)
    (hlost : (settleHead v.block s).2.getDivider v.parent = none) :
    turn F false v s = .again (syntheticRoot v 1 (settleHead v.block s).2) := by
  have hwalk : ∀ attempts, findRecoverer v (settleHead 1 s).2 attempts (1 - 2) = (0, none) := fun attempts => by
    cases attempts <;> rfl
  unfold turn
  simp only [hblock] at hlost ⊢
  simp only [hlost, parentDividerUnavailable, parentBranchHashUnavailable, hwalk]

theorem Traced.first_turn (h : Traced tree log s) (F : ForkConfig) {block : H} (hfirst : tree.number block = 2)
    (hlost : ∀ divider, s.block (tree.parent (tree.parent block)) ≠ .stored divider) :
    ∃ u, turn F false (tree.view block) s = .again u ∧ Traced tree log u ∧
      ∀ branch, u.getBlockBranch (tree.parent (tree.parent block)) = some branch → branch.head = 0 := by
  have hparent : (tree.view block).parent = tree.parent (tree.parent block) := BlockTree.view_parent hfirst.ge
  have hblock : (tree.view block).block = 1 := congrArg (· - 1) hfirst
  have hroot : (tree.view block).hash 0 = tree.parent (tree.parent block) := by
    rw [← hparent, View.parent, hblock]
  have hsettled : ∀ hash, (settleHead (tree.view block).block s).2.block hash = s.block hash := fun hash => by
    unfold settleHead
    split <;> rfl
  have hnone : (settleHead (tree.view block).block s).2.getDivider (tree.view block).parent = none := by
    rw [getDivider, hparent, hsettled]
    cases hslot : s.block (tree.parent (tree.parent block)) with
    | stored divider => exact absurd hslot (hlost divider)
    | missing => rfl
    | corrupt => rfl
  have hmoved : Moved (settleHead (tree.view block).block s).2
      (syntheticRoot (tree.view block) 1 (settleHead (tree.view block).block s).2)
      (tree.parent (tree.parent block))
      ⟨tree.parent (tree.parent block), ⟨tree.parent (tree.parent block), []⟩⟩
      ⟨none, 0, ForkScopes.default, tree.parent (tree.parent block), []⟩ := by
    rw [← hroot]
    exact ⟨rfl, rfl, rfl⟩
  refine ⟨_, turn_at_first hblock hnone, ?_, fun branch hbranch => ?_⟩
  · refine (h.settle _).rooted hmoved ?_ (fun divider => hsettled _ ▸ hlost divider) rfl
    rw [tree.number_parent, tree.number_parent, hfirst]
  · obtain ⟨key, hkey, hstored⟩ := getBlockBranch_eq_some.mp hbranch
    obtain ⟨divider, hdivider, hroute⟩ := getBranchHash_eq_some.mp hkey
    obtain rfl := Slot.stored.inj (hmoved.block_self.symm.trans hdivider)
    obtain rfl := Slot.stored.inj ((hmoved.divider_kept (.inl rfl)).symm.trans hroute)
    rw [← Slot.stored.inj (hmoved.branch_self.symm.trans hstored)]

theorem Traced.start_ran (h : Traced tree log s) {F : ForkConfig} {block : H}
    (hfollows : FollowsParent tree log block) (hcont : Continues tree log s block)
    (hran : start F false (tree.view block) 2 s = some (.ran t)) :
    2 ≤ tree.number block ∧ ∃ u divider branch, Handed tree log u t block divider branch := by
  have hnumber : 2 ≤ tree.number block := by
    by_contra hlow
    have hskip : tree.number block - 1 = tree.number block - 2 := by omega
    simp [start, BlockTree.view, hskip] at hran
  refine ⟨hnumber, ?_⟩
  have hloop : recoveryLoop F false (tree.view block) 2 s = some (.ran t) := by
    have hstart : (tree.view block).number - 1 ≠ (tree.view block).number - 2 := by
      change tree.number block - 1 ≠ tree.number block - 2
      omega
    rwa [start, if_neg hstart] at hran
  rw [recoveryLoop] at hloop
  cases hturn : turn F false (tree.view block) s with
  | stopped u => simp [hturn] at hloop
  | ran u =>
    obtain rfl : u = t := by simpa [hturn] using hloop
    exact h.turn_ran hnumber hcont hturn
  | again u =>
    have hlost : ∀ divider, s.block (tree.parent (tree.parent block)) ≠ .stored divider := by
      intro divider hdivider
      obtain ⟨hroute, branch, hbranch⟩ := h.routed _ divider hdivider
      have hresolves : s.Resolves (tree.view block).parent := by
        rw [BlockTree.view_parent hnumber]
        exact resolves_iff.mpr ⟨divider, hdivider, _, branch, hroute, hbranch⟩
      obtain ⟨out, hout⟩ := turn_outcome_of_resolves F false hresolves
      simp [hturn, Turn.outcome] at hout
    have hfirst : tree.number block = 2 := by
      by_contra hhigh
      obtain ⟨e, he, hblock⟩ := hfollows (by omega)
      obtain ⟨divider, hdivider⟩ := h.executed e he
      exact hlost divider (hblock ▸ hdivider)
    obtain ⟨u', hagain, htraced, htip⟩ := h.first_turn F hfirst hlost
    obtain rfl : u' = u := by simpa [hturn] using hagain.symm
    have hcont' : Continues tree log u' block := ⟨hcont.1, hcont.2.1, fun branch hbranch => by
      rw [htip branch hbranch, hfirst]⟩
    rw [hturn] at hloop
    dsimp only at hloop
    rw [recoveryLoop] at hloop
    cases hnext : turn F false (tree.view block) u' with
    | again w => simp [hnext, recoveryLoop] at hloop
    | stopped w => simp [hnext] at hloop
    | ran w =>
      obtain rfl : w = t := by simpa [hnext] using hloop
      exact htraced.turn_ran hnumber hcont' hnext

section Worker

variable {u : LocalStorage H (ForkLocalDepot K)} {block : H} {divider : DividerKey H}
  {branch : Branch H (ForkLocalDepot K)}

theorem Handed.routed (h : Handed tree log u t block divider branch) (hnumber : 2 ≤ tree.number block) :
    t.getBranchHash (tree.view block).current = some divider.branch := by
  rw [BlockTree.view_current hnumber]
  exact getBranchHash_eq_some.mpr ⟨divider, h.moved.block_self, h.moved.divider_kept (.inl rfl)⟩

theorem Handed.scopeItemExists (h : Handed tree log u t block divider branch)
    (hnumber : 2 ≤ tree.number block) (E : ForkErrors ε) (keys : List K) (key : K) :
    ∃ found, (t.addKeys E (tree.view block) keys).scopeItemExists E (tree.view block) key = .ok found ∧
      (found = true ↔ key ∈ keys ∨ AddedAbove tree log block key) := by
  have hroute := h.routed hnumber
  rw [addKeys_of_routed hroute h.moved.branch_self]
  let after : Branch H (ForkLocalDepot K) :=
    { branch with scope := keys.foldl ForkLocalDepot.addToLocal branch.scope }
  have hafter : (t.putBranch divider.branch after).getBranchHash (tree.view block).current =
      some divider.branch := hroute
  refine ⟨_, scopeItemExists_of_routed hafter (branch_putBranch_self ..) key, ?_⟩
  rw [ForkLocalDepot.sees_foldl_addToLocal, h.sees]

theorem Handed.traced (h : Handed tree log u t block divider branch) (hnumber : 2 ≤ tree.number block)
    (hfollows : FollowsParent tree log block) (hnew : ∀ x ∈ log, x.block ≠ block) (E : ForkErrors ε)
    (keys : List K) : Traced tree (⟨block, keys⟩ :: log) (t.addKeys E (tree.view block) keys) := by
  rw [addKeys_of_routed (h.routed hnumber) h.moved.branch_self]
  let added : Branch H (ForkLocalDepot K) :=
    { branch with scope := keys.foldl ForkLocalDepot.addToLocal branch.scope }
  have hmoved : Moved u (t.putBranch divider.branch added) (tree.parent block) divider added := by
    refine ⟨h.moved.blocks, h.moved.dividers, ?_⟩
    change Function.update t.branch divider.branch _ = _
    rw [h.moved.branches, Function.update_idem]
  refine Traced.moved h.before (show Moved _ _ (tree.parent (⟨block, keys⟩ : Execution H K).block) _ _ from hmoved)
    hnumber hfollows hnew h.head h.key h.old fun key => ?_
  · rw [ForkLocalDepot.sees_foldl_addToLocal, h.sees]
    simp [AddedAbove, BlockTree.above_refl]

end Worker

end Step

section Runs

variable {tree : BlockTree H} {log : List (Execution H K)} {s t : LocalStorage H (ForkLocalDepot K)}
  {F : ForkConfig} {E : ForkErrors ε}

theorem traced_of_run (run : WorkerRun tree F E (Continues tree) log s) : Traced tree log s := by
  induction run with
  | empty => exact Traced.empty tree
  | execute e run follows meets ran ih =>
    obtain ⟨hnumber, u, divider, branch, handed⟩ := ih.start_ran follows meets ran
    exact handed.traced hnumber follows meets.1 E e.keys

/-- In runs whose executions continue the branch of their grandparent, a worker finds the keys that it
added itself or that were added at its block and above before, and no others. -/
theorem scope_follows_ancestry (run : WorkerRun tree F E (Continues tree) log s) {block : H}
    (follows : FollowsParent tree log block) (meets : Continues tree log s block)
    (ran : start F false (tree.view block) 2 s = some (.ran t)) (keys : List K) (key : K) :
    ∃ found, (t.addKeys E (tree.view block) keys).scopeItemExists E (tree.view block) key = .ok found ∧
      (found = true ↔ key ∈ keys ∨ AddedAbove tree log block key) := by
  obtain ⟨hnumber, u, divider, branch, handed⟩ := (traced_of_run run).start_ran follows meets ran
  exact handed.scopeItemExists hnumber E keys key

end Runs

section Examples

/-- Blocks of two forks that part above block 2. -/
def forkTree : BlockTree (Nat × Nat) where
  number block := block.2
  parent block := (if block.2 ≤ 3 then 0 else block.1, block.2 - 1)
  number_parent _ := rfl

def scopeErrors : ForkErrors Nat := ⟨0, 1, 2, 3⟩

/-- Block 2 and then the first block 3, whose worker adds a key. -/
def forkLog : List (Execution (Nat × Nat) Nat) := [⟨(0, 3), [7]⟩, ⟨(0, 2), []⟩]

def forkStorage : LocalStorage (Nat × Nat) (ForkLocalDepot Nat) :=
  forkLog.foldr (fun e s => workerStep forkTree ⟨4, 4⟩ scopeErrors s e) LocalStorage.empty

/-- The competitor of the first block 3 finds the key that was added there. -/
theorem competitor_sees_key :
    WorkerRun forkTree ⟨4, 4⟩ scopeErrors (fun _ _ _ => True) forkLog forkStorage ∧
      FollowsParent forkTree forkLog (1, 3) ∧
      ∃ t, start ⟨4, 4⟩ false (forkTree.view (1, 3)) 2 forkStorage = some (.ran t) ∧
        t.scopeItemExists scopeErrors (forkTree.view (1, 3)) 7 = .ok true ∧
        ¬AddedAbove forkTree forkLog (1, 3) 7 := by
  refine ⟨?_, fun _ => ⟨_, List.mem_cons_of_mem _ (List.mem_cons_self ..), rfl⟩, _, rfl, by decide, ?_⟩
  · refine (WorkerRun.empty.step ⟨(0, 2), []⟩ (fun h => absurd h ?_) trivial ⟨_, rfl⟩).step ⟨(0, 3), [7]⟩
      (fun _ => ⟨_, List.mem_cons_self .., rfl⟩) trivial ⟨_, rfl⟩
    decide
  · rintro ⟨e, he, ⟨-, habove⟩, hkey⟩
    simp only [forkLog, List.mem_cons, List.not_mem_nil, or_false] at he
    obtain rfl | rfl := he
    · exact absurd habove (by decide)
    · exact absurd hkey (by decide)

/-- An undivided line: block 4 finds the key that block 3 below it added. -/
theorem scope_follows_line :
    ∃ t, start ⟨4, 4⟩ false (forkTree.view (0, 4)) 2 forkStorage = some (.ran t) ∧
      ∃ found, (t.addKeys scopeErrors (forkTree.view (0, 4)) []).scopeItemExists scopeErrors
          (forkTree.view (0, 4)) 7 = .ok found ∧
        (found = true ↔ 7 ∈ ([] : List Nat) ∨ AddedAbove forkTree forkLog (0, 4) 7) := by
  have hhead : ∀ {s : LocalStorage (Nat × Nat) (ForkLocalDepot Nat)} {hash : Nat × Nat} {height : Nat},
      (s.getBlockBranch hash).map Branch.head = some height →
        ∀ branch, s.getBlockBranch hash = some branch → branch.head = height := by
    intro s hash height h branch hbranch
    simpa [hbranch] using h
  have hfollows : FollowsParent forkTree ([] : List (Execution (Nat × Nat) Nat)) (0, 2) :=
    fun h => absurd h (by decide)
  have hempty : Continues forkTree ([] : List (Execution (Nat × Nat) Nat)) LocalStorage.empty (0, 2) := by
    refine ⟨by simp, fun h => absurd h (by decide), fun branch h => ?_⟩
    cases h
  have hrun : WorkerRun forkTree ⟨4, 4⟩ scopeErrors (Continues forkTree) forkLog forkStorage := by
    refine (WorkerRun.empty.step ⟨(0, 2), []⟩ hfollows hempty ⟨_, rfl⟩).step ⟨(0, 3), [7]⟩
      (fun _ => ⟨_, List.mem_cons_self .., rfl⟩) ⟨by simp, fun _ => ?_, hhead rfl⟩ ⟨_, rfl⟩
    decide
  have hnext : Continues forkTree forkLog forkStorage (0, 4) :=
    ⟨by simp [forkLog], fun _ => by decide, hhead rfl⟩
  exact ⟨_, rfl, scope_follows_ancestry hrun (fun _ => ⟨_, List.mem_cons_self .., rfl⟩) hnext rfl [] 7⟩

end Examples

end FrameSuite
