import FrameSuite.ForkScope

/-! Recovery ends. Every recovery exit leaves the parent with a decodable branch, so the turn after it
runs the worker or finds the sibling slots of that branch taken. -/

namespace FrameSuite

variable {H S : Type}

namespace LocalStorage

/-- A block leads through its divider to a branch that decodes. -/
def Resolves (s : LocalStorage H S) (hash : H) : Prop := (s.getBlockBranch hash).isSome

/-- A divider leads to a branch that decodes. -/
def Leads (s : LocalStorage H S) (divider : DividerKey H) : Prop :=
  ∃ key branch, s.divider divider = .stored key ∧ s.branch key = .stored branch

theorem getBranchHash_eq_some {s : LocalStorage H S} {hash : H} {key : BranchKey H} :
    s.getBranchHash hash = some key ↔
      ∃ divider, s.block hash = .stored divider ∧ s.divider divider = .stored key := by
  simp [getBranchHash, getDivider, Option.bind_eq_some_iff, Slot.load_eq_some]

theorem getBlockBranch_eq_some {s : LocalStorage H S} {hash : H} {branch : Branch H S} :
    s.getBlockBranch hash = some branch ↔
      ∃ key, s.getBranchHash hash = some key ∧ s.branch key = .stored branch := by
  simp [getBlockBranch, getBranch, Option.bind_eq_some_iff, Slot.load_eq_some]

theorem resolves_iff {s : LocalStorage H S} {hash : H} :
    s.Resolves hash ↔ ∃ divider, s.block hash = .stored divider ∧ s.Leads divider := by
  simp only [Resolves, Option.isSome_iff_exists, getBlockBranch_eq_some, getBranchHash_eq_some, Leads]
  constructor
  · rintro ⟨branch, key, ⟨divider, hblock, hdivider⟩, hbranch⟩
    exact ⟨divider, hblock, key, branch, hdivider, hbranch⟩
  · rintro ⟨divider, hblock, key, branch, hdivider, hbranch⟩
    exact ⟨branch, key, ⟨divider, hblock, hdivider⟩, hbranch⟩

theorem getDivider_of_resolves {s : LocalStorage H S} {hash : H} (h : s.Resolves hash) :
    ∃ divider key branch, s.getDivider hash = some divider ∧ s.getBranchHash hash = some key ∧
      s.branch key = .stored branch ∧ s.Leads divider := by
  obtain ⟨divider, hblock, key, branch, hdivider, hbranch⟩ := resolves_iff.mp h
  exact ⟨divider, key, branch, Slot.load_eq_some.mpr hblock,
    getBranchHash_eq_some.mpr ⟨divider, hblock, hdivider⟩, hbranch, key, branch, hdivider, hbranch⟩

variable [DecidableEq H]

@[simp] theorem branch_putBranch_self (s : LocalStorage H S) (key : BranchKey H) (branch : Branch H S) :
    (s.putBranch key branch).branch key = .stored branch := Function.update_self ..

theorem Leads.putBranch {s : LocalStorage H S} {divider : DividerKey H} (h : s.Leads divider)
    (key : BranchKey H) (branch : Branch H S) : (s.putBranch key branch).Leads divider := by
  obtain ⟨target, stored, hdivider, hbranch⟩ := h
  by_cases hkey : target = key
  · subst hkey
    exact ⟨target, branch, hdivider, Function.update_self ..⟩
  · exact ⟨target, stored, hdivider, (Function.update_of_ne hkey ..).trans hbranch⟩

theorem Resolves.putBranch {s : LocalStorage H S} {hash : H} (h : s.Resolves hash)
    (key : BranchKey H) (branch : Branch H S) : (s.putBranch key branch).Resolves hash := by
  obtain ⟨divider, hblock, hleads⟩ := resolves_iff.mp h
  exact resolves_iff.mpr ⟨divider, hblock, hleads.putBranch key branch⟩

theorem Resolves.putBlock {s : LocalStorage H S} {hash : H} (h : s.Resolves hash) {divider : DividerKey H}
    (hleads : s.Leads divider) (target : H) : (s.putBlock target divider).Resolves hash := by
  obtain ⟨old, hblock, hold⟩ := resolves_iff.mp h
  by_cases hhash : hash = target
  · subst hhash
    exact resolves_iff.mpr ⟨divider, Function.update_self .., hleads⟩
  · exact resolves_iff.mpr ⟨old, (Function.update_of_ne hhash ..).trans hblock, hold⟩

theorem resolves_putBlock_self {s : LocalStorage H S} {divider : DividerKey H} (hleads : s.Leads divider)
    (target : H) : (s.putBlock target divider).Resolves target :=
  resolves_iff.mpr ⟨divider, Function.update_self .., hleads⟩

theorem leads_putDivider_self {s : LocalStorage H S} {key : BranchKey H} {branch : Branch H S}
    (hbranch : s.branch key = .stored branch) (divider : DividerKey H) :
    (s.putDivider divider key).Leads divider :=
  ⟨key, branch, Function.update_self .., hbranch⟩

theorem Leads.putDivider {s : LocalStorage H S} {divider : DividerKey H} (h : s.Leads divider)
    {key : BranchKey H} {branch : Branch H S} (hbranch : s.branch key = .stored branch)
    (target : DividerKey H) : (s.putDivider target key).Leads divider := by
  obtain ⟨old, stored, hdivider, hold⟩ := h
  by_cases heq : divider = target
  · subst heq
    exact leads_putDivider_self hbranch divider
  · exact ⟨old, stored, (Function.update_of_ne heq ..).trans hdivider, hold⟩

theorem resolves_route_self {s : LocalStorage H S} {divider : DividerKey H} {branch : Branch H S}
    (hbranch : s.branch divider.branch = .stored branch) (hash : H) :
    (s.route hash divider).Resolves hash :=
  resolves_putBlock_self (leads_putDivider_self hbranch divider) hash

theorem Resolves.route {s : LocalStorage H S} {hash : H} (h : s.Resolves hash) {divider : DividerKey H}
    {branch : Branch H S} (hbranch : s.branch divider.branch = .stored branch) (target : H) :
    (s.route target divider).Resolves hash := by
  obtain ⟨old, hblock, hold⟩ := resolves_iff.mp h
  have hafter : (s.putDivider divider divider.branch).Resolves hash :=
    resolves_iff.mpr ⟨old, hblock, hold.putDivider hbranch divider⟩
  exact hafter.putBlock (leads_putDivider_self hbranch divider) target

end LocalStorage

open LocalStorage

section Recovery

/-- The recovering block is never the first one, and lies no higher than where the walk started. -/
theorem findRecoverer_spec {v : View H} {s : LocalStorage H S} {attempts start recoverer : Nat}
    {branch : Branch H S} (h : findRecoverer v s attempts start = (recoverer, some branch)) :
    0 < recoverer ∧ recoverer ≤ start := by
  induction attempts generalizing start with
  | zero => simp [findRecoverer] at h
  | succ attempts ih =>
    rw [findRecoverer] at h
    split at h
    · simp at h
    · rename_i hpos
      split at h
      · obtain ⟨rfl, -⟩ := Prod.mk.inj h
        omega
      · have := ih h
        omega

variable [DecidableEq H]

theorem syntheticRoot_resolves [ForkScopes S] (v : View H) (block : Nat) (s : LocalStorage H S) :
    (syntheticRoot v block s).Resolves (v.hash (block - 1)) :=
  resolves_route_self (branch_putBranch_self ..) _

theorem rebuild_some_resolves {v : View H} {recoverer : Nat} {scope : S} {key : BranchKey H}
    {branch : Branch H S} {blocks target : Nat} {s : LocalStorage H S}
    (hbranch : s.branch key = .stored branch) (hlast : s.Resolves (v.hash (target - 1))) :
    (rebuild v recoverer scope blocks target (some key) s).Resolves (v.hash (target + blocks - 1)) := by
  induction blocks generalizing target s with
  | zero => exact hlast
  | succ blocks ih =>
    have hstep : (s.route (v.hash target) ⟨v.hash (target - 1), key⟩).Resolves (v.hash (target + 1 - 1)) :=
      resolves_route_self hbranch _
    have hend := ih (show (s.route (v.hash target) ⟨v.hash (target - 1), key⟩).branch key =
      .stored branch from hbranch)
      hstep
    rwa [show target + 1 + blocks - 1 = target + (blocks + 1) - 1 by omega] at hend

theorem rebuild_none_resolves (v : View H) (recoverer : Nat) (scope : S) (blocks target : Nat)
    (s : LocalStorage H S) :
    (rebuild v recoverer scope (blocks + 1) target none s).Resolves (v.hash (target + blocks)) := by
  let key : BranchKey H := ⟨v.hash (target - 1), []⟩
  let branch : Branch H S :=
    ⟨s.getBranchHash (v.hash (recoverer - 1)), target, scope, v.hash (target - 1), []⟩
  let first := (s.putBranch key branch).route (v.hash target) ⟨v.hash (target - 1), key⟩
  have hbranch : first.branch key = .stored branch := branch_putBranch_self s key branch
  have hfirst : first.Resolves (v.hash (target + 1 - 1)) :=
    resolves_route_self (branch_putBranch_self s key branch) _
  have hend : (rebuild v recoverer scope blocks (target + 1) (some key) first).Resolves _ :=
    rebuild_some_resolves hbranch hfirst
  rwa [show target + 1 + blocks - 1 = target + blocks by omega] at hend

variable [ForkScopes S]

/-- The branch that the rebuild writes. -/
def syntheticBranch (v : View H) (recoverer : Nat) (scope : S) (s : LocalStorage H S) : Branch H S where
  parent := s.getBranchHash (v.hash (recoverer - 1))
  head := recoverer + 1
  scope
  genesis := v.hash recoverer
  counter := []

theorem parentBranchHashUnavailable_of_found {F : ForkConfig} {v : View H} {block recoverer : Nat}
    {s : LocalStorage H S} {branch : Branch H S}
    (h : findRecoverer v s F.maxRecoverTraversal (block - 2) = (recoverer, some branch)) :
    parentBranchHashUnavailable F v block s =
      rebuild v recoverer (ForkScopes.accrete branch.scope) (block - (recoverer + 2)) (recoverer + 1 + 1)
        (some ⟨v.hash recoverer, []⟩)
        ((s.putBranch ⟨v.hash recoverer, []⟩ (syntheticBranch v recoverer (ForkScopes.accrete branch.scope) s)).route
          (v.hash (recoverer + 1)) ⟨v.hash recoverer, ⟨v.hash recoverer, []⟩⟩) := by
  obtain ⟨hpos, hle⟩ := findRecoverer_spec h
  have hblocks : block - (recoverer + 1) = block - (recoverer + 2) + 1 := by omega
  rw [parentBranchHashUnavailable, h]
  dsimp only
  rw [hblocks, rebuild, Nat.add_sub_cancel]
  rfl

theorem parentBranchHashUnavailable_resolves (F : ForkConfig) (v : View H) (block : Nat)
    (s : LocalStorage H S) :
    (parentBranchHashUnavailable F v block s).Resolves (v.hash (block - 1)) := by
  rw [parentBranchHashUnavailable]
  split
  · rename_i recoverer branch hfound
    obtain ⟨hpos, hle⟩ := findRecoverer_spec hfound
    have hblocks : block - (recoverer + 1) = block - (recoverer + 2) + 1 := by omega
    have hlast : block - 1 = recoverer + 1 + (block - (recoverer + 2)) := by omega
    rw [hblocks, hlast]
    exact rebuild_none_resolves ..
  · exact syntheticRoot_resolves ..

theorem parentBranchUnavailable_resolves (F : ForkConfig) (v : View H) (block : Nat)
    (s : LocalStorage H S) : (parentBranchUnavailable F v block s).Resolves (v.hash (block - 1)) := by
  rw [parentBranchUnavailable]
  split <;> exact parentBranchHashUnavailable_resolves ..

end Recovery

section Siblings

/-- Every sibling slot of a branch holds a branch that decodes. -/
def SlotsExhausted (F : ForkConfig) (s : LocalStorage H S) (branch : Branch H S) : Prop :=
  ∀ slot ≤ F.maxForks, (s.getBranch (siblingKey branch slot)).isSome

theorem nextSlot_eq_none {F : ForkConfig} {s : LocalStorage H S} {branch : Branch H S} :
    nextSlot F s branch = none ↔ SlotsExhausted F s branch := by
  simp only [nextSlot, List.find?_eq_none, List.mem_range, SlotsExhausted, Option.isNone_iff_eq_none,
    Option.isSome_iff_ne_none, Nat.lt_succ_iff]

theorem nextSlot_free {F : ForkConfig} {s : LocalStorage H S} {branch : Branch H S} {slot : Nat}
    (h : nextSlot F s branch = some slot) : s.getBranch (siblingKey branch slot) = none := by
  unfold nextSlot at h
  simpa using List.find?_some h

variable [DecidableEq H] [ForkScopes S]

theorem openSibling_resolves_self (v : View H) (block : Nat) (s : LocalStorage H S)
    (parentKey : BranchKey H) (prev : Branch H S) (slot : Nat) :
    (openSibling v block s parentKey prev slot).Resolves (v.hash block) :=
  resolves_route_self (branch_putBranch_self ..) _

theorem openSibling_resolves {s : LocalStorage H S} {hash : H} (h : s.Resolves hash) (v : View H)
    (block : Nat) (parentKey : BranchKey H) (prev : Branch H S) (slot : Nat) :
    (openSibling v block s parentKey prev slot).Resolves hash :=
  (h.putBranch ..).route (branch_putBranch_self ..) _

end Siblings

section Turns

@[simp] theorem settleHead_getBlockBranch (block : Nat) (s : LocalStorage H S) (hash : H) :
    (settleHead block s).2.getBlockBranch hash = s.getBlockBranch hash := by
  unfold settleHead
  split <;> rfl

theorem settleHead_resolves {block : Nat} {s : LocalStorage H S} {hash : H} :
    (settleHead block s).2.Resolves hash ↔ s.Resolves hash := by
  rw [Resolves, settleHead_getBlockBranch, Resolves]

variable [DecidableEq H] [ForkScopes S]

theorem turn_again_resolves {F : ForkConfig} {contended : Bool} {v : View H} {s t : LocalStorage H S}
    (h : turn F contended v s = .again t) : t.Resolves v.parent := by
  unfold turn at h
  dsimp only at h
  split at h
  · cases h
    exact parentBranchHashUnavailable_resolves ..
  · split at h
    · cases h
      exact parentBranchHashUnavailable_resolves ..
    · split at h
      · split at h
        · cases h
          exact parentBranchUnavailable_resolves ..
        · split at h <;> cases h
      · split at h
        · cases h
          exact parentBranchUnavailable_resolves ..
        · cases h
          exact parentBranchUnavailable_resolves ..
        · split at h
          · split at h <;> cases h
          · cases h

/-- How a turn ends that does not ask for another one. -/
def Turn.outcome : Turn H S → Option (Outcome H S)
  | .again _ => none
  | .ran t => some (.ran t)
  | .stopped t => some (.stopped t)

theorem recoveryLoop_of_outcome {F : ForkConfig} {contended : Bool} {v : View H} {s : LocalStorage H S}
    {out : Outcome H S} (h : (turn F contended v s).outcome = some out) (turns : Nat) :
    recoveryLoop F contended v (turns + 1) s = some out := by
  unfold recoveryLoop
  cases hturn : turn F contended v s with
  | again t => simp [hturn, Turn.outcome] at h
  | ran t => simpa [hturn, Turn.outcome] using h
  | stopped t => simpa [hturn, Turn.outcome] using h

theorem turn_outcome_of_resolves (F : ForkConfig) (contended : Bool) {v : View H} {s : LocalStorage H S}
    (h : s.Resolves v.parent) : ∃ out, (turn F contended v s).outcome = some out := by
  obtain ⟨divider, key, branch, hdivider, hkey, hbranch, -⟩ :=
    getDivider_of_resolves ((settleHead_resolves : (settleHead v.block s).2.Resolves v.parent ↔ _).mpr h)
  have hget : (settleHead v.block s).2.getBranch key = some branch := Slot.load_eq_some.mpr hbranch
  unfold turn
  simp only [hdivider, hkey, hget, hbranch]
  split
  · split <;> exact ⟨_, rfl⟩
  · split
    · split <;> exact ⟨_, rfl⟩
    · exact ⟨_, rfl⟩

theorem outcome_of_recoveryLoop {F : ForkConfig} {contended : Bool} {v : View H} {turns : Nat}
    {s : LocalStorage H S} {out : Outcome H S} (h : recoveryLoop F contended v turns s = some out) :
    ∃ u, (turn F contended v u).outcome = some out := by
  induction turns generalizing s with
  | zero => cases h
  | succ turns ih =>
    rw [recoveryLoop] at h
    cases hturn : turn F contended v s with
    | again t => exact ih (by simpa [hturn] using h)
    | ran t => exact ⟨s, by simpa [hturn, Turn.outcome] using h⟩
    | stopped t => exact ⟨s, by simpa [hturn, Turn.outcome] using h⟩

theorem recoveryLoop_ends (F : ForkConfig) (contended : Bool) (v : View H) (s : LocalStorage H S) :
    ∃ out, ∀ turns, recoveryLoop F contended v (turns + 2) s = some out := by
  cases hturn : turn F contended v s with
  | ran t => exact ⟨.ran t, fun turns => by rw [recoveryLoop, hturn]⟩
  | stopped t => exact ⟨.stopped t, fun turns => by rw [recoveryLoop, hturn]⟩
  | again t =>
    obtain ⟨out, hout⟩ := turn_outcome_of_resolves F contended (turn_again_resolves hturn)
    refine ⟨out, fun turns => ?_⟩
    rw [recoveryLoop, hturn]
    exact recoveryLoop_of_outcome hout turns

/-- What the storage becomes when the parent's branch is carried over to the current block. -/
def extended (v : View H) (s : LocalStorage H S) (divider : DividerKey H) (key : BranchKey H)
    (branch : Branch H S) : LocalStorage H S :=
  ((s.putBranch key { branch with head := v.block }).putBlock v.current divider).putHead v.block

/-- An undisturbed turn that runs the worker opened a sibling of the parent's branch or extended it. -/
theorem turn_ran_cases {F : ForkConfig} {v : View H} {s t : LocalStorage H S}
    (h : turn F false v s = .ran t) :
    ∃ divider key branch, (settleHead v.block s).2.block v.parent = .stored divider ∧
      (settleHead v.block s).2.divider divider = .stored key ∧
      (settleHead v.block s).2.branch key = .stored branch ∧
      ((∃ slot, nextSlot F (settleHead v.block s).2 branch = some slot ∧
          t = openSibling v v.block (settleHead v.block s).2 key branch slot) ∨
        t = extended v (settleHead v.block s).2 divider key branch) := by
  unfold turn at h
  dsimp only at h
  split at h
  · cases h
  · rename_i divider hdivider
    split at h
    · cases h
    · rename_i key hkey
      obtain ⟨route, hblock, hroute⟩ := getBranchHash_eq_some.mp hkey
      obtain rfl : divider = route := by
        rw [getDivider, hblock] at hdivider
        exact (Option.some.inj hdivider).symm
      split at h
      · split at h
        · cases h
        · rename_i prev hprev
          split at h
          · cases h
          · rename_i slot hslot
            cases h
            exact ⟨divider, key, prev, hblock, hroute, Slot.load_eq_some.mp hprev, .inl ⟨slot, hslot, rfl⟩⟩
      · split at h
        · cases h
        · cases h
        · rename_i branch hbranch
          rw [if_neg Bool.false_ne_true] at h
          cases h
          exact ⟨divider, key, branch, hblock, hroute, hbranch, .inr rfl⟩

/-- A worker that no other writer disturbed runs with its block and the parent resolving. -/
theorem turn_ran_resolves {F : ForkConfig} {v : View H} {s t : LocalStorage H S}
    (h : turn F false v s = .ran t) : t.Resolves v.current ∧ t.Resolves v.parent := by
  obtain ⟨divider, key, branch, hblock, hroute, hbranch, hend⟩ := turn_ran_cases h
  have hleads : (settleHead v.block s).2.Leads divider := ⟨key, branch, hroute, hbranch⟩
  have hparent := resolves_iff.mpr ⟨divider, hblock, hleads⟩
  obtain ⟨slot, -, rfl⟩ | rfl := hend
  · exact ⟨openSibling_resolves_self .., openSibling_resolves hparent ..⟩
  · have hafter := hleads.putBranch key { branch with head := v.block }
    exact ⟨resolves_putBlock_self hafter _, (hparent.putBranch ..).putBlock hafter _⟩

theorem turn_stopped_exhausted {F : ForkConfig} {v : View H} {s t : LocalStorage H S}
    (h : turn F false v s = .stopped t) :
    ∃ branch, t.getBlockBranch v.parent = some branch ∧ SlotsExhausted F t branch := by
  unfold turn at h
  dsimp only at h
  split at h
  · cases h
  · split at h
    · cases h
    · rename_i key hkey
      split at h
      · split at h
        · cases h
        · rename_i prev hprev
          split at h
          · rename_i hslot
            cases h
            exact ⟨prev, getBlockBranch_eq_some.mpr ⟨key, hkey, Slot.load_eq_some.mp hprev⟩,
              nextSlot_eq_none.mp hslot⟩
          · cases h
      · split at h <;> cases h

/-- Whatever was lost, `start` ends within two turns. Undisturbed it runs the worker once, with both
blocks resolving, unless every sibling slot of the parent's branch is taken. -/
theorem start_progress {v : View H} (hnumber : 2 ≤ v.number) (F : ForkConfig) (s : LocalStorage H S) :
    (∀ contended, ∃ out, ∀ turns, start F contended v (turns + 2) s = some out) ∧
      ((∃ t, start F false v 2 s = some (.ran t) ∧ t.Resolves (v.hash (v.number - 1)) ∧
          t.Resolves (v.hash (v.number - 2))) ∨
        ∃ t branch, start F false v 2 s = some (.stopped t) ∧
          t.getBlockBranch (v.hash (v.number - 2)) = some branch ∧ SlotsExhausted F t branch) := by
  have hstart : ∀ contended turns, start F contended v turns s = recoveryLoop F contended v turns s :=
    fun _ _ => if_neg (by omega)
  simp only [hstart]
  refine ⟨fun contended => recoveryLoop_ends F contended v s, ?_⟩
  obtain ⟨out, hout⟩ := recoveryLoop_ends F false v s
  obtain ⟨u, hu⟩ := outcome_of_recoveryLoop (hout 0)
  rw [hout 0]
  cases hturn : turn F false v u with
  | again t => simp [hturn, Turn.outcome] at hu
  | ran t =>
    obtain rfl : Outcome.ran t = out := by simpa [hturn, Turn.outcome] using hu
    exact .inl ⟨t, rfl, turn_ran_resolves hturn⟩
  | stopped t =>
    obtain rfl : Outcome.stopped t = out := by simpa [hturn, Turn.outcome] using hu
    obtain ⟨branch, hbranch, hslots⟩ := turn_stopped_exhausted hturn
    exact .inr ⟨t, branch, rfl, hbranch, hslots⟩

end Turns

/-- A storage with a stale head whose every routing entry is lost. -/
def staleStorage : LocalStorage Nat (ForkLocalDepot Nat) where
  head := .stored 7
  block hash := if hash = 2 then .stored ⟨1, ⟨0, []⟩⟩ else .corrupt
  divider _ := .stored ⟨0, []⟩
  branch _ := .corrupt

theorem start_progress_stale :
    (∀ contended, ∃ out, ∀ turns, start ⟨1, 4⟩ contended ⟨4, id⟩ (turns + 2) staleStorage = some out) ∧
      ((∃ t, start ⟨1, 4⟩ false ⟨4, id⟩ 2 staleStorage = some (.ran t) ∧ t.Resolves 3 ∧ t.Resolves 2) ∨
        ∃ t branch, start ⟨1, 4⟩ false ⟨4, id⟩ 2 staleStorage = some (.stopped t) ∧
          t.getBlockBranch 2 = some branch ∧ SlotsExhausted ⟨1, 4⟩ t branch) :=
  start_progress (by decide) ⟨1, 4⟩ staleStorage

end FrameSuite
