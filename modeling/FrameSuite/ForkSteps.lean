import FrameSuite.ForkClobbering

/-! What an execution leaves behind, in any storage whose routing entries lead to branches: the parent is
recovered if it has to be, and then the branch of the parent is extended, gets a sibling, or has no slot
left for one. -/

namespace FrameSuite

open LocalStorage

variable {H S : Type} [DecidableEq H] [ForkScopes S] {F : ForkConfig} {c : Bool} {v : View H}
  {s t : LocalStorage H S} {head bound : Nat}

/-- The last turn of a block, in a storage where the parent leads to a branch. -/
inductive LastTurn (F : ForkConfig) (c : Bool) (v : View H) (head : Nat) (s : LocalStorage H S) : Outcome H S → Prop
  | sibling {key : BranchKey H} {branch : Branch H S} {slot : Nat} (routed : s.getBranchHash v.parent = some key)
      (stored : s.branch key = .stored branch) (free : nextSlot F s branch = some slot) (within : v.block ≤ head) :
      LastTurn F c v head s (.ran (openSibling v v.block s key branch slot))
  | conflict {key : BranchKey H} {branch : Branch H S} {slot : Nat} (routed : s.getBranchHash v.parent = some key)
      (stored : s.branch key = .stored branch) (free : nextSlot F s branch = some slot) (past : head < v.block)
      (contended : c = true) :
      LastTurn F c v head s (.ran ((openSibling v v.block s key branch slot).putHead v.block))
  | extended {divider : DividerKey H} {key : BranchKey H} {branch : Branch H S}
      (block : s.block v.parent = .stored divider) (divides : s.divider divider = .stored key)
      (stored : s.branch key = .stored branch) (past : head < v.block) (undisturbed : c = false) :
      LastTurn F c v head s (.ran (extended v s divider key branch))
  | stopped {key : BranchKey H} {branch : Branch H S} (routed : s.getBranchHash v.parent = some key)
      (stored : s.branch key = .stored branch) (full : nextSlot F s branch = none) :
      LastTurn F c v head s (.stopped s)

/-- The storage that `start` leaves behind. -/
def Outcome.storage : Outcome H S → Option (LocalStorage H S)
  | skipped => none
  | ran t => some t
  | stopped t => some t

theorem lastTurn_of_resolves (F : ForkConfig) (c : Bool) (hhead : s.head = .stored head)
    (h : s.Resolves v.parent) :
    ∃ out, (turn F c v s).outcome = some out ∧ LastTurn F c v head s out := by
  obtain ⟨divider, key, branch, hblock, hdivider, hbranch, hend⟩ := turn_of_resolves F c hhead h
  have hkey : s.getBranchHash v.parent = some key := getBranchHash_eq_some.mpr ⟨divider, hblock, hdivider⟩
  rcases hend with ⟨slot, t, hslot, hturn, ⟨hle, rfl⟩ | ⟨hlt, hc, rfl⟩⟩ | ⟨hlt, hc, hturn⟩ | ⟨hnone, hturn⟩
  · exact ⟨_, by rw [hturn]; rfl, .sibling hkey hbranch hslot hle⟩
  · exact ⟨_, by rw [hturn]; rfl, .conflict hkey hbranch hslot hlt hc⟩
  · exact ⟨_, by rw [hturn]; rfl, .extended hblock hdivider hbranch hlt hc⟩
  · exact ⟨_, by rw [hturn]; rfl, .stopped hkey hbranch hnone⟩

/-- The storage that the last turn of a block starts from. -/
def Prepared (F : ForkConfig) (v : View H) (s u : LocalStorage H S) : Prop :=
  (s.Resolves v.parent ∧ u = (settleHead v.block s).2) ∨
    (¬s.Resolves v.parent ∧ u = parentBranchHashUnavailable F v v.block (settleHead v.block s).2)

theorem Prepared.stored_head {u : LocalStorage H S} (h : Prepared F v s u) :
    u.head = .stored (settleHead v.block s).1 := by
  obtain ⟨-, rfl⟩ | ⟨-, rfl⟩ := h
  · exact settleHead_head v.block s
  · exact (parentBranchHashUnavailable_recovered F v _).head.trans (settleHead_head v.block s)

theorem Prepared.resolves {u : LocalStorage H S} (h : Prepared F v s u) : u.Resolves v.parent := by
  obtain ⟨hresolves, rfl⟩ | ⟨-, rfl⟩ := h
  · exact settleHead_resolves.mpr hresolves
  · exact parentBranchHashUnavailable_resolves F v v.block _

/-- Where routing entries lead to branches, an execution is a recovery, if it needs one, and a last turn. -/
theorem recoveryLoop_lastTurn (F : ForkConfig) (c : Bool)
    (hbranch : ∀ key, s.getBranchHash v.parent = some key → ∃ branch, s.branch key = .stored branch) :
    ∃ u out, Prepared F v s u ∧ LastTurn F c v (settleHead v.block s).1 u out ∧
      recoveryLoop F c v 2 s = some out := by
  by_cases hresolves : s.Resolves v.parent
  · have hready : Prepared F v s (settleHead v.block s).2 := .inl ⟨hresolves, rfl⟩
    obtain ⟨out, hout, hlast⟩ := lastTurn_of_resolves F c hready.stored_head hready.resolves
    rw [turn_settled] at hout
    exact ⟨_, out, hready, hlast, recoveryLoop_of_outcome hout 1⟩
  · have hready : Prepared F v s (parentBranchHashUnavailable F v v.block (settleHead v.block s).2) :=
      .inr ⟨hresolves, rfl⟩
    have hfirst : turn F c v s = .again (parentBranchHashUnavailable F v v.block (settleHead v.block s).2) := by
      rw [← turn_settled]
      refine turn_of_lost (settleHead_head v.block s) (fun h => hresolves (settleHead_resolves.mp h)) fun key hkey => ?_
      rw [settleHead_getBranchHash] at hkey
      have hsame : (settleHead v.block s).2.branch = s.branch := by
        unfold settleHead
        split <;> rfl
      rw [hsame]
      exact hbranch key hkey
    obtain ⟨out, hout, hlast⟩ := lastTurn_of_resolves F c hready.stored_head hready.resolves
    refine ⟨_, out, hready, hlast, ?_⟩
    rw [recoveryLoop, hfirst]
    exact recoveryLoop_of_outcome hout 0

variable {tree : BlockTree H}

theorem ForkEvent.execute_iff {block : H} :
    ForkEvent.apply tree F s (.execute block c) = .ok t ↔
      ∃ out, start F c (tree.view block) 2 s = some out ∧ out.storage = some t := by
  rw [ForkEvent.apply]
  constructor
  · intro h
    split at h
    · rename_i u hstart
      exact ⟨.ran u, hstart, congrArg some (Except.ok.inj h)⟩
    · rename_i u hstart
      exact ⟨.stopped u, hstart, congrArg some (Except.ok.inj h)⟩
    · cases h
  · rintro ⟨out, hstart, hout⟩
    rw [hstart]
    cases out with
    | skipped => cases hout
    | ran u => exact congrArg Except.ok (Option.some.inj hout)
    | stopped u => exact congrArg Except.ok (Option.some.inj hout)

theorem start_lastTurn (F : ForkConfig) (c : Bool) {block : H} (hnumber : 2 ≤ tree.number block)
    (hbranch : ∀ key, s.getBranchHash (tree.view block).parent = some key → ∃ branch, s.branch key = .stored branch) :
    ∃ u out, Prepared F (tree.view block) s u ∧
      LastTurn F c (tree.view block) (settleHead (tree.view block).block s).1 u out ∧
      start F c (tree.view block) 2 s = some out := by
  have hstarts : start F c (tree.view block) 2 s = recoveryLoop F c (tree.view block) 2 s :=
    if_neg (show ¬tree.number block - 1 = tree.number block - 2 by omega)
  rw [hstarts]
  exact recoveryLoop_lastTurn F c hbranch

theorem ForkEvent.execute_lastTurn {block : H}
    (hbranch : ∀ key, s.getBranchHash (tree.view block).parent = some key → ∃ branch, s.branch key = .stored branch)
    (h : ForkEvent.apply tree F s (.execute block c) = .ok t) :
    2 ≤ tree.number block ∧ ∃ u out, Prepared F (tree.view block) s u ∧
      LastTurn F c (tree.view block) (settleHead (tree.view block).block s).1 u out ∧
      start F c (tree.view block) 2 s = some out ∧ out.storage = some t := by
  have hnumber := (ForkEvent.execute_eq_ok h).1
  obtain ⟨u, out, hready, hlast, hstart⟩ := start_lastTurn F c hnumber hbranch
  obtain ⟨out', hstart', hout⟩ := ForkEvent.execute_iff.mp h
  obtain rfl := Option.some.inj (hstart.symm.trans hstart')
  exact ⟨hnumber, u, out, hready, hlast, hstart, hout⟩

section Owned

omit [DecidableEq H] [ForkScopes S] in
theorem settleHead_owned (hs : Owned s bound) (block : Nat) : Owned (settleHead block s).2 bound := by
  unfold settleHead
  split
  · exact hs
  · exact hs.putHead _

theorem Prepared.owned {u : LocalStorage H S} (h : Prepared F v s u) (hs : Owned s bound) :
    Owned u (max bound (v.block - 1)) := by
  have hsettled : Owned (settleHead v.block s).2 (max bound (v.block - 1)) :=
    (settleHead_owned hs v.block).mono (le_max_left _ _)
  obtain ⟨-, rfl⟩ | ⟨-, rfl⟩ := h
  · exact hsettled
  · exact (parentBranchHashUnavailable_recovered F v _).owned hsettled rfl (le_max_right _ _)

theorem LastTurn.owned {out : Outcome H S} (h : LastTurn F c v head s out) (hout : out.storage = some t)
    (hs : Owned s bound) : Owned t (max bound v.block) := by
  have hwide : Owned s (max bound v.block) := hs.mono (le_max_left _ _)
  cases h with
  | sibling _ hbranch _ _ =>
    cases hout
    exact hwide.openSibling hbranch _ (le_max_right _ _)
  | conflict _ hbranch _ _ _ =>
    cases hout
    exact (hwide.openSibling hbranch _ (le_max_right _ _)).putHead _
  | extended _ hdivider hbranch _ _ =>
    cases hout
    exact hwide.extended hdivider hbranch (le_max_right _ _)
  | stopped _ _ _ =>
    cases hout
    exact hwide

/-- Whatever is lost and recovered along a run, routing entries lead to branches that know their keys. -/
theorem Owned.event (hs : Owned s bound) {event : ForkEvent H S} (h : event.apply tree F s = .ok t) :
    ∃ bound', Owned t bound' := by
  cases event with
  | execute block contended =>
    obtain ⟨-, u, out, hready, hlast, -, hout⟩ := ForkEvent.execute_lastTurn (fun _ => hs.branchOf) h
    exact ⟨_, hlast.owned hout (hready.owned hs)⟩
  | loseBlock hash =>
    cases h
    exact ⟨bound, hs.loseBlock hash⟩
  | loseDivider divider =>
    cases h
    exact ⟨bound, hs.loseDivider divider⟩
  | rescope key scope =>
    simp only [ForkEvent.apply] at h
    split at h
    · rename_i branch hbranch
      cases h
      have hstored := Slot.load_eq_some.mp hbranch
      exact ⟨bound, hs.putBranch (hs.keyed key branch hstored) (fun _ => hs.rooted key branch hstored)
        (hs.headed key branch hstored)⟩
    · cases h

end Owned

end FrameSuite
