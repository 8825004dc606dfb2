import FrameSuite.ForkGap
import FrameSuite.ForkSteps

/-! `start` once more at a block that had its turn. The head is not below the block any more, so the turn
looks for a sibling slot, whether the block is routed or not. -/

namespace FrameSuite

open LocalStorage

variable {H S : Type} [DecidableEq H] [ForkScopes S]

section Recovery

/-- The branch that the recovery of the parent writes. -/
def recoveredBranch (F : ForkConfig) (v : View H) (s : LocalStorage H S) : Branch H S :=
  match findRecoverer v s F.maxRecoverTraversal (v.block - 2) with
  | (recoverer, some branch) => syntheticBranch v recoverer (ForkScopes.accrete branch.scope) s
  | (_, none) => ⟨none, v.block - 1, ForkScopes.default, v.hash (v.block - 2), []⟩

omit [DecidableEq H] [ForkScopes S] in
/-- The dividers that the recovery of the parent writes. -/
def RecoveryDivides (F : ForkConfig) (v : View H) (s : LocalStorage H S) (divider : DividerKey H) : Prop :=
  match findRecoverer v s F.maxRecoverTraversal (v.block - 2) with
  | (recoverer, some _) => ∃ height, recoverer + 1 ≤ height ∧ height < v.block ∧
      divider = ⟨v.hash (height - 1), recoveryKey F v s⟩
  | (_, none) => divider = ⟨v.parent, recoveryKey F v s⟩

/-- All that the recovery of the parent changes. -/
structure Recovers (F : ForkConfig) (v : View H) (s t : LocalStorage H S) : Prop where
  branches : t.branch = Function.update s.branch (recoveryKey F v s) (.stored (recoveredBranch F v s))
  parent : t.getBranchHash v.parent = some (recoveryKey F v s)
  blocks : ∀ hash, (∀ height < v.block, v.hash height ≠ hash) → t.block hash = s.block hash
  divides : ∀ divider, RecoveryDivides F v s divider → t.divider divider = .stored (recoveryKey F v s)
  dividers : ∀ divider, ¬RecoveryDivides F v s divider → t.divider divider = s.divider divider

theorem parentBranchHashUnavailable_recovers (F : ForkConfig) {v : View H} (hblock : 0 < v.block)
    (s : LocalStorage H S) : Recovers F v s (parentBranchHashUnavailable F v v.block s) := by
  cases hfound : findRecoverer v s F.maxRecoverTraversal (v.block - 2) with
  | mk recoverer found =>
    cases found with
    | none =>
      have hkey : recoveryKey F v s = ⟨v.hash (v.block - 2), []⟩ := by
        simp only [recoveryKey, recoveryAnchor, hfound]
      rw [parentBranchHashUnavailable, hfound]
      refine ⟨?_, ?_, fun hash hfresh => ?_, fun divider hdivides => ?_, fun divider hother => ?_⟩
      · simp only [recoveredBranch, hkey, hfound]
        rfl
      · rw [hkey]
        exact getBranchHash_eq_some.mpr ⟨_, Function.update_self .., Function.update_self ..⟩
      · exact Function.update_of_ne (hfresh (v.block - 1) (by omega)).symm ..
      · simp only [RecoveryDivides, hfound, hkey] at hdivides
        rw [hkey, hdivides]
        exact Function.update_self ..
      · simp only [RecoveryDivides, hfound, hkey] at hother
        exact Function.update_of_ne hother ..
    | some branch =>
      have hkey : recoveryKey F v s = ⟨v.hash recoverer, []⟩ := by
        simp only [recoveryKey, recoveryAnchor, hfound]
      obtain ⟨hpos, hle⟩ := findRecoverer_spec hfound
      have hrerouted := parentBranchHashUnavailable_rerouted hfound
      refine ⟨?_, ?_, fun hash hfresh => ?_, fun divider hdivides => ?_, fun divider hother => ?_⟩
      · rw [hrerouted.branches, hkey]
        simp only [recoveredBranch, hfound]
        rfl
      · rw [hkey]
        exact hrerouted.getBranchHash (v.block - 1) (by omega) (by omega)
      · exact hrerouted.outside hash fun height _ hhigh => hfresh height hhigh
      · simp only [RecoveryDivides, hfound, hkey] at hdivides
        obtain ⟨height, hlow, hhigh, rfl⟩ := hdivides
        rw [hkey]
        exact hrerouted.written height hlow hhigh
      · simp only [RecoveryDivides, hfound, hkey] at hother
        exact hrerouted.kept divider fun height hlow hhigh heq => hother ⟨height, hlow, hhigh, heq⟩

end Recovery

section Repeat

/-- The head, the branches and the routing of the block are as they were. -/
structure KeepsGraph (v : View H) (s t : LocalStorage H S) : Prop where
  head : t.head = s.head
  branches : t.branch = s.branch
  routing : t.getBranchHash v.current = s.getBranchHash v.current

/-- The recovery of the parent writes what is there already, and leaves no slot for a sibling. -/
structure RecoveryRepeats (F : ForkConfig) (v : View H) (s : LocalStorage H S) : Prop where
  branch : s.branch (recoveryKey F v s) = .stored (recoveredBranch F v s)
  routed : ∀ divider, s.block v.current = .stored divider → RecoveryDivides F v s divider →
    s.divider divider = .stored (recoveryKey F v s)
  full : SlotsExhausted F s (recoveredBranch F v s)

/-- The branch of the parent has no slot for a sibling. A parent that is lost has its branch yet. -/
def NothingToOpen (F : ForkConfig) (v : View H) (s : LocalStorage H S) : Prop :=
  (∃ branch, s.getBlockBranch v.parent = some branch ∧ SlotsExhausted F s branch) ∨
    (¬s.Resolves v.parent ∧ RecoveryRepeats F v s)

variable {F : ForkConfig} {c : Bool} {v : View H} {s t u : LocalStorage H S} {head : Nat}

omit [DecidableEq H] [ForkScopes S] in
theorem SlotsExhausted.congr (hsame : t.branch = s.branch) {branch : Branch H S} :
    SlotsExhausted F t branch ↔ SlotsExhausted F s branch := by
  simp only [SlotsExhausted, getBranch, hsame]

theorem Recovers.keepsGraph_iff (h : Recovers F v s u) (hhead : u.head = s.head)
    (hfresh : ∀ height < v.block, v.hash height ≠ v.current) :
    KeepsGraph v s u ↔ s.branch (recoveryKey F v s) = .stored (recoveredBranch F v s) ∧
      ∀ divider, s.block v.current = .stored divider → RecoveryDivides F v s divider →
        s.divider divider = .stored (recoveryKey F v s) := by
  have hblock := h.blocks v.current hfresh
  constructor
  · intro hkeeps
    refine ⟨?_, fun divider hcurrent hdivides => ?_⟩
    · rw [← hkeeps.branches, h.branches]
      exact Function.update_self ..
    · have hrouted : u.getBranchHash v.current = some (recoveryKey F v s) :=
        getBranchHash_eq_some.mpr ⟨divider, hblock.trans hcurrent, h.divides divider hdivides⟩
      rw [hkeeps.routing] at hrouted
      obtain ⟨divider', hcurrent', hdivider'⟩ := getBranchHash_eq_some.mp hrouted
      obtain rfl := Slot.stored.inj (hcurrent'.symm.trans hcurrent)
      exact hdivider'
  · rintro ⟨hbranch, hrouted⟩
    refine ⟨hhead, ?_, ?_⟩
    · rw [h.branches, ← hbranch, Function.update_eq_self]
    · rw [getBranchHash, getBranchHash, getDivider, getDivider, hblock]
      cases hcurrent : s.block v.current with
      | missing => rfl
      | corrupt => rfl
      | stored divider =>
        change (u.divider divider).load = (s.divider divider).load
        by_cases hdivides : RecoveryDivides F v s divider
        · rw [h.divides divider hdivides, hrouted divider hcurrent hdivides]
        · rw [h.dividers divider hdivides]

/-- A sibling is a branch that was not there, even before the parent was recovered. -/
theorem not_keepsGraph_openSibling {key : BranchKey H} {branch : Branch H S} {slot : Nat}
    (hfree : nextSlot F u branch = some slot)
    (hsame : u.branch (siblingKey branch slot) = s.branch (siblingKey branch slot)) :
    ¬KeepsGraph v s (openSibling v v.block u key branch slot) := by
  intro hkeeps
  have hnone := nextSlot_free hfree
  have hstored : ∃ sibling, s.branch (siblingKey branch slot) = .stored sibling := by
    rw [← hkeeps.branches]
    exact ⟨_, branch_putBranch_self ..⟩
  obtain ⟨sibling, hstored⟩ := hstored
  rw [getBranch, hsame, hstored] at hnone
  cases hnone

/-- The turn of a block below the known head keeps the graph exactly when it has nothing to open. -/
theorem LastTurn.keepsGraph_iff (hhead : s.head = .stored head) (hle : v.block ≤ head) (hblock : 0 < v.block)
    (hfresh : ∀ height < v.block, v.hash height ≠ v.current) (hready : Prepared F v s u)
    {out : Outcome H S} (hlast : LastTurn F c v head u out) (hout : out.storage = some t) :
    KeepsGraph v s t ↔ NothingToOpen F v s := by
  have hsettled : (settleHead v.block s).2 = s := by rw [settleHead_of_stored hhead]
  rw [Prepared, hsettled] at hready
  have hbranchOf : ∀ {w : LocalStorage H S} {key branch}, w.getBranchHash v.parent = some key →
      w.branch key = .stored branch → w.getBlockBranch v.parent = some branch :=
    fun hkey hbranch => getBlockBranch_eq_some.mpr ⟨_, hkey, hbranch⟩
  obtain ⟨hresolves, rfl⟩ | ⟨hlost, rfl⟩ := hready
  · cases hlast with
    | sibling hkey hbranch hfree _ =>
      cases hout
      refine iff_of_false (not_keepsGraph_openSibling hfree rfl) ?_
      rintro (⟨branch, hother, hfull⟩ | ⟨hlost, -⟩)
      · obtain rfl := Option.some.inj ((hbranchOf hkey hbranch).symm.trans hother)
        rw [nextSlot_eq_none.mpr hfull] at hfree
        cases hfree
      · exact hlost hresolves
    | conflict _ _ _ hlt _ => omega
    | extended _ _ _ hlt _ => omega
    | stopped hkey hbranch hfull =>
      cases hout
      exact iff_of_true ⟨rfl, rfl, rfl⟩ (.inl ⟨_, hbranchOf hkey hbranch, nextSlot_eq_none.mp hfull⟩)
  · have hrecovers := parentBranchHashUnavailable_recovers F hblock s
    have hkept := (parentBranchHashUnavailable_recovered F v s).head
    generalize parentBranchHashUnavailable F v v.block s = u at hrecovers hkept hlast
    have hparent : u.getBlockBranch v.parent = some (recoveredBranch F v s) := by
      refine hbranchOf hrecovers.parent ?_
      rw [hrecovers.branches]
      exact Function.update_self ..
    have hnothing : NothingToOpen F v s ↔ RecoveryRepeats F v s := by
      refine or_iff_right_of_imp ?_ |>.trans (and_iff_right hlost)
      rintro ⟨branch, hbranch, -⟩
      exact absurd (Option.isSome_iff_exists.mpr ⟨branch, hbranch⟩) hlost
    rw [hnothing]
    cases hlast with
    | @sibling key branch slot hkey hbranch hfree _ =>
      cases hout
      obtain rfl := Option.some.inj ((hbranchOf hkey hbranch).symm.trans hparent)
      have hne : siblingKey (recoveredBranch F v s) slot ≠ recoveryKey F v s :=
        fun h => by simpa [siblingKey, recoveryKey] using congrArg BranchKey.counter h
      refine iff_of_false (not_keepsGraph_openSibling hfree ?_) fun hrepeats => ?_
      · rw [hrecovers.branches, Function.update_of_ne hne]
      · have hsame : u.branch = s.branch := by
          rw [hrecovers.branches, ← hrepeats.branch, Function.update_eq_self]
        rw [nextSlot_eq_none.mpr ((SlotsExhausted.congr hsame).mpr hrepeats.full)] at hfree
        cases hfree
    | conflict _ _ _ hlt _ => omega
    | extended _ _ _ hlt _ => omega
    | stopped hkey hbranch hfull =>
      cases hout
      obtain rfl := Option.some.inj ((hbranchOf hkey hbranch).symm.trans hparent)
      rw [hrecovers.keepsGraph_iff hkept hfresh]
      constructor
      · rintro ⟨hwritten, hrouted⟩
        have hsame : t.branch = s.branch := by
          rw [hrecovers.branches, ← hwritten, Function.update_eq_self]
        exact ⟨hwritten, hrouted, (SlotsExhausted.congr hsame).mp (nextSlot_eq_none.mp hfull)⟩
      · exact fun hrepeats => ⟨hrepeats.branch, hrepeats.routed⟩

end Repeat

section Runs

variable {F : ForkConfig} {c : Bool} {v : View H} {s t : LocalStorage H S} {head bound : Nat} {tree : BlockTree H}

/-- The known head after the last turn of a block is not below the block unless the worker was stopped,
and never lower than before. -/
theorem LastTurn.head_grows {out : Outcome H S} (h : LastTurn F c v head s out) (hhead : s.head = .stored head)
    (hout : out.storage = some t) :
    ∃ head', t.head = .stored head' ∧ head ≤ head' ∧ (out = .ran t → v.block ≤ head') := by
  cases h with
  | sibling _ _ _ hle =>
    cases hout
    exact ⟨head, hhead, le_rfl, fun _ => hle⟩
  | conflict _ _ _ hlt _ =>
    cases hout
    exact ⟨v.block, rfl, hlt.le, fun _ => le_rfl⟩
  | extended _ _ _ hlt _ =>
    cases hout
    exact ⟨v.block, rfl, hlt.le, fun _ => le_rfl⟩
  | stopped _ _ _ =>
    cases hout
    exact ⟨head, hhead, le_rfl, nofun⟩

theorem Owned.head_grows (hs : Owned s bound) (hhead : s.head = .stored head) {event : ForkEvent H S}
    (h : event.apply tree F s = .ok t) : ∃ head', t.head = .stored head' ∧ head ≤ head' := by
  cases event with
  | execute block contended =>
    obtain ⟨-, u, out, hready, hlast, -, hout⟩ := ForkEvent.execute_lastTurn (fun _ => hs.branchOf) h
    have hsettled := hready.stored_head
    rw [settleHead_of_stored hhead] at hlast hsettled
    obtain ⟨head', hafter, hle, -⟩ := hlast.head_grows hsettled hout
    exact ⟨head', hafter, hle⟩
  | loseBlock hash =>
    cases h
    exact ⟨head, hhead, le_rfl⟩
  | loseDivider divider =>
    cases h
    exact ⟨head, hhead, le_rfl⟩
  | rescope key scope =>
    simp only [ForkEvent.apply] at h
    split at h
    · cases h
      exact ⟨head, hhead, le_rfl⟩
    · cases h

/-- A storage in which the block had its turn. -/
def HadTurn (tree : BlockTree H) (block : H) (s : LocalStorage H S) : Prop :=
  (∃ bound, Owned s bound) ∧ ∃ head, s.head = .stored head ∧ (tree.view block).block ≤ head

theorem HadTurn.event {block : H} (h : HadTurn tree block s) {event : ForkEvent H S}
    (happly : event.apply tree F s = .ok t) : HadTurn tree block t := by
  obtain ⟨⟨bound, hs⟩, head, hhead, hle⟩ := h
  obtain ⟨head', hafter, hgrows⟩ := hs.head_grows hhead happly
  exact ⟨hs.event happly, head', hafter, hle.trans hgrows⟩

theorem Owned.hadTurn (hs : Owned s bound) {block : H}
    (h : start F c (tree.view block) 2 s = some (.ran t)) : HadTurn tree block t := by
  have happly : ForkEvent.apply tree F s (.execute block c) = .ok t := ForkEvent.execute_iff.mpr ⟨_, h, rfl⟩
  obtain ⟨-, u, out, hready, hlast, hstart, hout⟩ := ForkEvent.execute_lastTurn (fun _ => hs.branchOf) happly
  obtain rfl := Option.some.inj (hstart.symm.trans h)
  obtain ⟨head, hafter, -, hle⟩ := hlast.head_grows hready.stored_head hout
  exact ⟨hs.event happly, head, hafter, hle rfl⟩

omit [DecidableEq H] in
theorem view_hash_ne_current {block : H} {height : Nat} (h : height < (tree.view block).block) :
    (tree.view block).hash height ≠ (tree.view block).current := by
  intro heq
  have hblock : (tree.view block).block = tree.number block - 1 := rfl
  have hnumber := congrArg tree.number heq
  change tree.number (tree.ancestor block height) = tree.number (tree.ancestor block (tree.number block - 1)) at hnumber
  rw [BlockTree.number_ancestor (by omega), BlockTree.number_ancestor (by omega)] at hnumber
  omega

/-- After a completed `start`, whatever the workers did or the storage lost since then, running it once
more at the block keeps the graph exactly when it has nothing to open. -/
theorem repeated_start_iff (tree : BlockTree H) (F : ForkConfig) (earlier later : List (ForkEvent H S)) {block : H}
    {c : Bool} {t : LocalStorage H S}
    (h : start F c (tree.view block) 2 (run (ForkEvent.apply tree F) LocalStorage.empty earlier) = some (.ran t))
    (c' : Bool) :
    (∃ u, ForkEvent.apply tree F (run (ForkEvent.apply tree F) t later) (.execute block c') = .ok u ∧
        KeepsGraph (tree.view block) (run (ForkEvent.apply tree F) t later) u) ↔
      NothingToOpen F (tree.view block) (run (ForkEvent.apply tree F) t later) := by
  have hempty : ∃ bound, Owned (LocalStorage.empty : LocalStorage H S) bound :=
    ⟨0, nofun, nofun, nofun, nofun, nofun⟩
  obtain ⟨bound, howned⟩ := run_invariant (P := fun s => ∃ bound, Owned s bound)
    (fun s event t ⟨_, hs⟩ happly => hs.event happly) hempty earlier
  have hnumber := (ForkEvent.execute_eq_ok (ForkEvent.execute_iff.mpr ⟨_, h, rfl⟩)).1
  obtain ⟨⟨bound', hs⟩, head, hhead, hle⟩ := run_invariant (P := HadTurn tree block)
    (fun s event t hs happly => hs.event happly) (howned.hadTurn h) later
  obtain ⟨u, out, hready, hlast, hstart⟩ := start_lastTurn F c' hnumber fun _ => hs.branchOf
  rw [settleHead_of_stored hhead] at hlast
  obtain ⟨w, hout⟩ : ∃ w, out.storage = some w := by
    cases hlast <;> exact ⟨_, rfl⟩
  have hexecuted := ForkEvent.execute_iff.mpr ⟨out, hstart, hout⟩
  have hblock : (tree.view block).block = tree.number block - 1 := rfl
  rw [← LastTurn.keepsGraph_iff hhead hle (by omega) (fun _ => view_hash_ne_current) hready hlast hout]
  constructor
  · rintro ⟨w', happly, hkeeps⟩
    obtain rfl : w' = w := Except.ok.inj (happly.symm.trans hexecuted)
    exact hkeeps
  · exact fun hkeeps => ⟨w, hexecuted, hkeeps⟩

end Runs

section Examples

/-- Block 3 of a fresh node has had its turn so many times. -/
def startedStorage (F : ForkConfig) (times : Nat) : LocalStorage (Nat × Nat) (ForkLocalDepot Nat) :=
  run (ForkEvent.apply forkTree F) LocalStorage.empty (List.replicate times (.execute (0, 3) false))

/-- Both slots are taken by the second and third start, and the fourth leaves everything. -/
theorem repeated_start_without_slots :
    ∃ u, ForkEvent.apply forkTree ⟨1, 4⟩ (startedStorage ⟨1, 4⟩ 3) (.execute (0, 3) false) = .ok u ∧
      KeepsGraph (forkTree.view (0, 3)) (startedStorage ⟨1, 4⟩ 3) u := by
  have hfull : NothingToOpen ⟨1, 4⟩ (forkTree.view (0, 3)) (startedStorage ⟨1, 4⟩ 3) := by
    refine .inl ⟨_, rfl, fun slot hslot => ?_⟩
    obtain rfl | rfl : slot = 0 ∨ slot = 1 := by
      change slot ≤ 1 at hslot
      omega
    · rfl
    · rfl
  exact (repeated_start_iff (c := false) forkTree ⟨1, 4⟩ [] [.execute (0, 3) false, .execute (0, 3) false] rfl
    false).mpr hfull

/-- The second start at block 3 moves block 2 to a sibling that it opens. -/
theorem repeated_start_opens_sibling :
    ∃ t, start ⟨3, 4⟩ false (forkTree.view (0, 3)) 2 LocalStorage.empty = some (.ran t) ∧
      ∃ u, ForkEvent.apply forkTree ⟨3, 4⟩ t (.execute (0, 3) false) = .ok u ∧
        ¬KeepsGraph (S := ForkLocalDepot Nat) (forkTree.view (0, 3)) t u := by
  refine ⟨_, rfl, _, rfl, fun hkeeps => ?_⟩
  exact absurd hkeeps.routing (by decide)

end Examples

end FrameSuite
