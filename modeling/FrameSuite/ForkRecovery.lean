import FrameSuite.ForkProgress
import FrameSuite.ForkTree

/-! What a turn of `start` writes. Recovery writes one branch, under the key of its anchor, and routes
the blocks between the anchor and the parent to it; a turn whose parent resolves extends the branch of
the parent, opens a sibling of it in a free slot, or stops. -/

namespace FrameSuite

open LocalStorage

variable {H S : Type} [DecidableEq H]

section Recovery

/-- The block whose hash names the branch that recovery writes. -/
def recoveryAnchor (F : ForkConfig) (v : View H) (s : LocalStorage H S) : Nat :=
  match findRecoverer v s F.maxRecoverTraversal (v.block - 2) with
  | (recoverer, some _) => recoverer
  | (_, none) => v.block - 2

def recoveryKey (F : ForkConfig) (v : View H) (s : LocalStorage H S) : BranchKey H :=
  ⟨v.hash (recoveryAnchor F v s), []⟩

/-- The storage after the recovery of the parent: one branch is written, and the blocks that are routed
anew lie on the chain of the executing block and lead to it. -/
structure Rebuilt (v : View H) (key : BranchKey H) (s t : LocalStorage H S) : Prop where
  head : t.head = s.head
  branches : ∃ branch : Branch H S, branch.genesis = key.genesis ∧ branch.counter = key.counter ∧
    branch.head ≤ v.block - 1 ∧ t.branch = Function.update s.branch key (.stored branch)
  blocks : ∀ hash, t.block hash = s.block hash ∨
    ∃ height ≤ v.block - 1, hash = v.hash height ∧ ∃ divider, divider.branch = key ∧ t.block hash = .stored divider
  dividers : ∀ divider, t.divider divider = s.divider divider ∨
    (divider.branch = key ∧ t.divider divider = .stored key)

theorem Rebuilt.route {v : View H} {key : BranchKey H} {s t : LocalStorage H S}
    (h : Rebuilt v key s t) {height : Nat} (hheight : height ≤ v.block - 1) (parent : H) :
    Rebuilt v key s (t.route (v.hash height) ⟨parent, key⟩) where
  head := h.head
  branches := h.branches
  blocks hash := by
    by_cases heq : hash = v.hash height
    · subst heq
      exact .inr ⟨height, hheight, rfl, ⟨parent, key⟩, rfl, Function.update_self ..⟩
    · have hkeep : (t.route (v.hash height) ⟨parent, key⟩).block hash = t.block hash := Function.update_of_ne heq ..
      rw [hkeep]
      exact h.blocks hash
  dividers divider := by
    by_cases heq : divider = ⟨parent, key⟩
    · subst heq
      exact .inr ⟨rfl, Function.update_self ..⟩
    · have hkeep : (t.route (v.hash height) ⟨parent, key⟩).divider divider = t.divider divider :=
        Function.update_of_ne heq ..
      rw [hkeep]
      exact h.dividers divider

theorem Rebuilt.start (v : View H) {key : BranchKey H} (s : LocalStorage H S) {branch : Branch H S}
    (hgenesis : branch.genesis = key.genesis) (hcounter : branch.counter = key.counter)
    (hhead : branch.head ≤ v.block - 1) : Rebuilt v key s (s.putBranch key branch) where
  head := rfl
  branches := ⟨branch, hgenesis, hcounter, hhead, rfl⟩
  blocks _ := .inl rfl
  dividers _ := .inl rfl

theorem Rebuilt.rebuild {v : View H} {key : BranchKey H} {s t : LocalStorage H S} (h : Rebuilt v key s t)
    {recoverer : Nat} {scope : S} {blocks target : Nat} (hend : target + blocks ≤ v.block) :
    Rebuilt v key s (rebuild v recoverer scope blocks target (some key) t) := by
  induction blocks generalizing target t with
  | zero => exact h
  | succ blocks ih => exact ih (h.route (by omega) _) (by omega)

variable [ForkScopes S]

theorem parentBranchHashUnavailable_recovered (F : ForkConfig) (v : View H) (s : LocalStorage H S) :
    Rebuilt v (recoveryKey F v s) s (parentBranchHashUnavailable F v v.block s) := by
  unfold recoveryKey recoveryAnchor
  cases hfound : findRecoverer v s F.maxRecoverTraversal (v.block - 2) with
  | mk recoverer found =>
    cases found with
    | none =>
      rw [parentBranchHashUnavailable, hfound]
      exact (Rebuilt.start v s rfl rfl le_rfl).route le_rfl _
    | some branch =>
      obtain ⟨hpos, hle⟩ := findRecoverer_spec hfound
      rw [parentBranchHashUnavailable_of_found hfound]
      refine Rebuilt.rebuild (Rebuilt.route (Rebuilt.start v s rfl rfl ?_) ?_ _) ?_
      · dsimp only [syntheticBranch]
        omega
      · omega
      · omega

end Recovery

section Turns

omit [DecidableEq H] in
theorem settleHead_of_stored {s : LocalStorage H S} {head : Nat} (h : s.head = .stored head) (block : Nat) :
    settleHead block s = (head, s) := by
  simp [settleHead, getHead, h, Slot.load]

omit [DecidableEq H] in
theorem settleHead_head (block : Nat) (s : LocalStorage H S) :
    (settleHead block s).2.head = .stored (settleHead block s).1 := by
  unfold settleHead
  cases hhead : s.getHead with
  | none => rfl
  | some head => exact Slot.load_eq_some.mp hhead

omit [DecidableEq H] in
theorem settleHead_getBranchHash (block : Nat) (s : LocalStorage H S) (hash : H) :
    (settleHead block s).2.getBranchHash hash = s.getBranchHash hash := by
  unfold settleHead
  split <;> rfl

omit [DecidableEq H] in
theorem settleHead_settled (block : Nat) (s : LocalStorage H S) :
    settleHead block (settleHead block s).2 = settleHead block s := by
  rw [settleHead_of_stored (settleHead_head block s)]

variable [ForkScopes S] {F : ForkConfig} {c : Bool} {v : View H} {s : LocalStorage H S} {head : Nat}

theorem turn_settled (F : ForkConfig) (contended : Bool) (v : View H) (s : LocalStorage H S) :
    turn F contended v (settleHead v.block s).2 = turn F contended v s := by
  simp only [turn, settleHead_settled]

/-- A turn whose parent does not resolve, although routing entries lead to branches, recovers it. -/
theorem turn_of_lost (hhead : s.head = .stored head) (hlost : ¬s.Resolves v.parent)
    (hbranch : ∀ key, s.getBranchHash v.parent = some key → ∃ branch, s.branch key = .stored branch) :
    turn F c v s = .again (parentBranchHashUnavailable F v v.block s) := by
  unfold turn
  simp only [settleHead_of_stored hhead]
  cases hdivider : s.getDivider v.parent with
  | none => rfl
  | some divider =>
    cases hkey : s.getBranchHash v.parent with
    | none => rfl
    | some key =>
      obtain ⟨branch, hb⟩ := hbranch key hkey
      refine absurd ?_ hlost
      rw [Resolves, getBlockBranch_eq_some.mpr ⟨key, hkey, hb⟩]
      rfl

/-- The turn of a block whose parent resolves: its branch is extended past the known head, or gets a
sibling in a free slot, or every slot is taken. -/
theorem turn_of_resolves (F : ForkConfig) (contended : Bool) (hhead : s.head = .stored head)
    (h : s.Resolves v.parent) :
    ∃ divider key branch, s.block v.parent = .stored divider ∧ s.divider divider = .stored key ∧
      s.branch key = .stored branch ∧
      ((∃ slot t, nextSlot F s branch = some slot ∧ turn F contended v s = .ran t ∧
          ((v.block ≤ head ∧ t = openSibling v v.block s key branch slot) ∨
            (head < v.block ∧ contended = true ∧ t = (openSibling v v.block s key branch slot).putHead v.block))) ∨
        (head < v.block ∧ contended = false ∧ turn F contended v s = .ran (extended v s divider key branch)) ∨
        (nextSlot F s branch = none ∧ turn F contended v s = .stopped s)) := by
  obtain ⟨divider, key, branch, hdivider, hkey, hbranch, -⟩ := getDivider_of_resolves h
  have hget : s.getBranch key = some branch := Slot.load_eq_some.mpr hbranch
  have hroute : s.divider divider = .stored key := by
    obtain ⟨route, hstored, hroute⟩ := getBranchHash_eq_some.mp hkey
    rw [Slot.load_eq_some.mp hdivider] at hstored
    rw [Slot.stored.inj hstored, hroute]
  refine ⟨divider, key, branch, Slot.load_eq_some.mp hdivider, hroute, hbranch, ?_⟩
  have hconflict : inheritedBranchMutationConflict F v v.block s =
      (nextSlot F s branch).map fun slot => (openSibling v v.block s key branch slot).putHead v.block := by
    have hkey' : s.getBranchHash (v.hash (v.block - 1)) = some key := hkey
    unfold inheritedBranchMutationConflict
    simp only [hkey', hget]
    cases nextSlot F s branch <;> rfl
  unfold turn
  simp only [settleHead_of_stored hhead, hdivider, hkey, hget, hbranch, hconflict]
  by_cases hle : v.block ≤ head
  · cases hslot : nextSlot F s branch with
    | none => simp [hle]
    | some slot => exact .inl ⟨slot, _, rfl, by simp [hle], .inl ⟨hle, rfl⟩⟩
  · have hlt : head < v.block := by omega
    cases contended with
    | false => exact .inr (.inl ⟨hlt, rfl, by simp [hle, extended]⟩)
    | true =>
      cases hslot : nextSlot F s branch with
      | none => simp [hle]
      | some slot => exact .inl ⟨slot, _, rfl, by simp [hle], .inr ⟨hlt, rfl, rfl⟩⟩

end Turns

end FrameSuite
