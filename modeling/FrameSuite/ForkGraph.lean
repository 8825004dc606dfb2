import FrameSuite.ForkNavigation
import FrameSuite.ForkRepeat

/-! The shape of the fork graph along runs. A branch either continues the lineage of its parent by one slot,
or is a root anchored above the block its parent was found at. -/

namespace FrameSuite

open LocalStorage

variable {H S : Type}

section Shape

variable {tree : BlockTree H}

/-- A branch has its place: the parent of a root is anchored below it, and a sibling follows the branch it
leaves and the siblings before it. -/
structure Fits (tree : BlockTree H) (s : LocalStorage H S) (key : BranchKey H) (branch : Branch H S) : Prop where
  root : key.counter = [] → ∀ parent, branch.parent = some parent →
    tree.number parent.genesis < tree.number key.genesis
  sibling : ∀ counter slot, key.counter = counter ++ [slot] →
    branch.parent = some ⟨key.genesis, counter⟩ ∧ (s.getBranch ⟨key.genesis, counter⟩).isSome ∧
      ∀ lower < slot, (s.getBranch ⟨key.genesis, counter ++ [lower]⟩).isSome

/-- Every branch has its place, and no block leads to a branch anchored above it. -/
structure Charted (tree : BlockTree H) (s : LocalStorage H S) : Prop where
  branches : ∀ key branch, s.branch key = .stored branch → Fits tree s key branch
  blocks : ∀ hash divider, s.block hash = .stored divider →
    tree.number divider.branch.genesis ≤ tree.number hash
  dividers : ∀ divider key, s.divider divider = .stored key → key = divider.branch

variable {s t : LocalStorage H S} {key : BranchKey H} {branch : Branch H S}

theorem Charted.empty (tree : BlockTree H) : Charted tree (LocalStorage.empty : LocalStorage H S) :=
  ⟨nofun, nofun, nofun⟩

theorem Fits.mono (h : Fits tree s key branch) (hkeep : ∀ k, (s.getBranch k).isSome → (t.getBranch k).isSome) :
    Fits tree t key branch where
  root := h.root
  sibling counter slot hcounter := by
    obtain ⟨hparent, hstored, hlower⟩ := h.sibling counter slot hcounter
    exact ⟨hparent, hkeep _ hstored, fun lower hlt => hkeep _ (hlower lower hlt)⟩

theorem Fits.of_parent {branch' : Branch H S} (h : Fits tree s key branch) (hparent : branch'.parent = branch.parent) :
    Fits tree s key branch' := by
  refine ⟨fun hcounter parent hp => h.root hcounter parent (hparent ▸ hp), fun counter slot hcounter => ?_⟩
  rw [hparent]
  exact h.sibling counter slot hcounter

theorem Charted.putHead (h : Charted tree s) (head : Nat) : Charted tree { s with head := .stored head } :=
  ⟨fun key branch hb => (h.branches key branch hb).mono fun _ hsome => hsome, h.blocks, h.dividers⟩

theorem Charted.settleHead (h : Charted tree s) (block : Nat) : Charted tree (settleHead block s).2 := by
  unfold FrameSuite.settleHead
  split
  · exact h
  · exact h.putHead _

theorem Charted.anchored (h : Charted tree s) {hash : H} (hkey : s.getBranchHash hash = some key) :
    tree.number key.genesis ≤ tree.number hash := by
  obtain ⟨divider, hblock, hdivider⟩ := getBranchHash_eq_some.mp hkey
  rw [h.dividers divider key hdivider]
  exact h.blocks hash divider hblock

variable [DecidableEq H]

theorem isSome_putBranch (s : LocalStorage H S) (key : BranchKey H) (branch : Branch H S) {k : BranchKey H}
    (h : (s.getBranch k).isSome) : ((s.putBranch key branch).getBranch k).isSome := by
  change (Slot.load (Function.update s.branch key (.stored branch) k)).isSome
  by_cases hk : k = key
  · rw [hk, Function.update_self]
    rfl
  · rwa [Function.update_of_ne hk]

theorem Charted.putBranch (h : Charted tree s) (hfits : Fits tree s key branch) :
    Charted tree (s.putBranch key branch) := by
  refine ⟨fun k b hb => ?_, h.blocks, h.dividers⟩
  change Function.update s.branch key (.stored branch) k = _ at hb
  by_cases hk : k = key
  · rw [hk, Function.update_self] at hb
    rw [hk, ← Slot.stored.inj hb]
    exact hfits.mono fun _ => isSome_putBranch s key branch
  · rw [Function.update_of_ne hk] at hb
    exact (h.branches k b hb).mono fun _ => isSome_putBranch s key branch

theorem Charted.putBlock (h : Charted tree s) {hash : H} {divider : DividerKey H}
    (hanchored : tree.number divider.branch.genesis ≤ tree.number hash) : Charted tree (s.putBlock hash divider) := by
  refine ⟨fun key branch hb => (h.branches key branch hb).mono fun _ hsome => hsome, fun x d hd => ?_, h.dividers⟩
  change Function.update s.block hash (.stored divider) x = _ at hd
  by_cases hx : x = hash
  · rw [hx, Function.update_self] at hd
    rw [hx, ← Slot.stored.inj hd]
    exact hanchored
  · rw [Function.update_of_ne hx] at hd
    exact h.blocks x d hd

theorem Charted.route (h : Charted tree s) {hash : H} {divider : DividerKey H}
    (hanchored : tree.number divider.branch.genesis ≤ tree.number hash) : Charted tree (s.route hash divider) := by
  have hdivided : Charted tree (s.putDivider divider divider.branch) := by
    refine ⟨fun key branch hb => (h.branches key branch hb).mono fun _ hsome => hsome, h.blocks, fun d k hd => ?_⟩
    change Function.update s.divider divider _ d = _ at hd
    by_cases hx : d = divider
    · rw [hx, Function.update_self] at hd
      rw [hx, Slot.stored.inj hd]
    · rw [Function.update_of_ne hx] at hd
      exact h.dividers d k hd
  exact hdivided.putBlock hanchored

theorem Charted.loseBlock (h : Charted tree s) (hash : H) :
    Charted tree { s with block := Function.update s.block hash .missing } := by
  refine ⟨fun key branch hb => (h.branches key branch hb).mono fun _ hsome => hsome, fun x d hd => ?_, h.dividers⟩
  dsimp only at hd
  by_cases hx : x = hash
  · rw [hx, Function.update_self] at hd
    cases hd
  · rw [Function.update_of_ne hx] at hd
    exact h.blocks x d hd

theorem Charted.loseDivider (h : Charted tree s) (divider : DividerKey H) : Charted tree (s.clearDivider divider) := by
  refine ⟨fun key branch hb => (h.branches key branch hb).mono fun _ hsome => hsome, h.blocks, fun d k hd => ?_⟩
  change Function.update s.divider divider .missing d = _ at hd
  by_cases hx : d = divider
  · rw [hx, Function.update_self] at hd
    cases hd
  · rw [Function.update_of_ne hx] at hd
    exact h.dividers d k hd

end Shape

section Recovery

variable [DecidableEq H] {tree : BlockTree H} {v : View H} {s : LocalStorage H S}

/-- The heights of a chain up to the block are those of its blocks. -/
def Numbered (tree : BlockTree H) (v : View H) (block : Nat) : Prop :=
  ∀ height ≤ block, tree.number (v.hash height) = height

theorem Charted.rebuild (h : Charted tree s) {key : BranchKey H} {recoverer : Nat} {scope : S} {blocks target : Nat}
    (hanchored : ∀ height, target ≤ height → height < target + blocks →
      tree.number key.genesis ≤ tree.number (v.hash height)) :
    Charted tree (rebuild v recoverer scope blocks target (some key) s) := by
  induction blocks generalizing target s with
  | zero => exact h
  | succ blocks ih =>
    refine ih (h.route (hanchored target le_rfl (by omega))) fun height hlow hhigh => ?_
    exact hanchored height (by omega) (by omega)

variable [ForkScopes S]

theorem Charted.parentBranchHashUnavailable (h : Charted tree s) (F : ForkConfig) {block : Nat}
    (hnumbered : Numbered tree v block) : Charted tree (parentBranchHashUnavailable F v block s) := by
  cases hfound : findRecoverer v s F.maxRecoverTraversal (block - 2) with
  | mk recoverer found =>
    cases found with
    | some branch =>
      obtain ⟨hpos, hle⟩ := findRecoverer_spec hfound
      have hanchor := hnumbered recoverer (by omega)
      rw [parentBranchHashUnavailable_of_found hfound]
      refine Charted.rebuild (Charted.route (h.putBranch ⟨fun _ parent hparent => ?_, ?_⟩) ?_) ?_
      · -- the new root is anchored one block above the block its parent was found at
        have hbelow := h.anchored hparent
        rw [hnumbered (recoverer - 1) (by omega)] at hbelow
        dsimp only [syntheticBranch]
        omega
      · intro counter slot hcounter
        simp at hcounter
      · dsimp only
        rw [hanchor, hnumbered (recoverer + 1) (by omega)]
        omega
      · intro height hlow hhigh
        dsimp only
        rw [hanchor, hnumbered height (by omega)]
        omega
    | none =>
      rw [FrameSuite.parentBranchHashUnavailable, hfound]
      refine (h.putBranch ⟨fun _ parent hparent => ?_, ?_⟩).route ?_
      · cases hparent
      · intro counter slot hcounter
        simp at hcounter
      · dsimp only
        rw [hnumbered (block - 2) (by omega), hnumbered (block - 1) (by omega)]
        omega

end Recovery

section Slots

/-- A sibling slot is found when every slot before it is taken, and lies within the limit. -/
theorem nextSlot_eq_some {F : ForkConfig} {s : LocalStorage H S} {branch : Branch H S} {slot : Nat} :
    nextSlot F s branch = some slot ↔ slot ≤ F.maxForks ∧ s.getBranch (siblingKey branch slot) = none ∧
      ∀ lower < slot, (s.getBranch (siblingKey branch lower)).isSome := by
  rw [nextSlot, List.find?_range_eq_some]
  simp only [Option.isNone_iff_eq_none, List.mem_range, Nat.lt_succ_iff, Bool.not_eq_true', Option.isNone_eq_false_iff]
  tauto

theorem nextSlot_congr {F : ForkConfig} {s t : LocalStorage H S} {branch : Branch H S}
    (h : ∀ slot, t.getBranch (siblingKey branch slot) = s.getBranch (siblingKey branch slot)) :
    nextSlot F t branch = nextSlot F s branch := by
  simp only [nextSlot, h]

end Slots

section Steps

variable [DecidableEq H] [ForkScopes S] {tree : BlockTree H} {F : ForkConfig} {c : Bool} {v : View H}
  {s t : LocalStorage H S} {head bound : Nat}

theorem Charted.openSibling (h : Charted tree s) (hs : Owned s bound) {block : Nat} (hnumbered : Numbered tree v block)
    {key : BranchKey H} {prev : Branch H S} {slot : Nat} (hkey : s.getBranchHash (v.hash (block - 1)) = some key)
    (hprev : s.branch key = .stored prev) (hslot : nextSlot F s prev = some slot) :
    Charted tree (openSibling v block s key prev slot) := by
  obtain ⟨hgenesis, hcounter⟩ := hs.keyed key prev hprev
  obtain ⟨-, -, hlower⟩ := nextSlot_eq_some.mp hslot
  have hself : key = ⟨prev.genesis, prev.counter⟩ := by rw [hgenesis, hcounter]
  have hanchored := h.anchored hkey
  rw [hnumbered (block - 1) (by omega), ← hgenesis] at hanchored
  refine Charted.route (h.putBranch ⟨fun hroot => ?_, fun counter last hsplit => ?_⟩) ?_
  · simp [siblingKey] at hroot
  · obtain ⟨rfl, rfl⟩ : prev.counter = counter ∧ slot = last := by simpa [siblingKey] using hsplit
    refine ⟨congrArg some hself, ?_, hlower⟩
    change (s.getBranch ⟨prev.genesis, prev.counter⟩).isSome
    rw [← hself, getBranch, hprev]
    rfl
  · change tree.number prev.genesis ≤ tree.number (v.hash block)
    rw [hnumbered block le_rfl]
    omega

omit [ForkScopes S] in
theorem Charted.extended (h : Charted tree s) (hnumbered : Numbered tree v v.block) {divider : DividerKey H}
    {key : BranchKey H} {branch : Branch H S} (hblock : s.block v.parent = .stored divider)
    (hbranch : s.branch key = .stored branch) : Charted tree (extended v s divider key branch) := by
  have hanchored := h.blocks v.parent divider hblock
  have hparent : tree.number v.parent = v.block - 1 := hnumbered (v.block - 1) (by omega)
  have hcurrent : tree.number v.current = v.block := hnumbered v.block le_rfl
  have hbelow : tree.number divider.branch.genesis ≤ tree.number v.current := by omega
  have hfits : Fits tree s key { branch with head := v.block } := (h.branches key branch hbranch).of_parent rfl
  exact ((h.putBranch hfits).putBlock hbelow).putHead v.block

theorem Prepared.charted {u : LocalStorage H S} (h : Prepared F v s u) (hs : Charted tree s)
    (hnumbered : Numbered tree v v.block) : Charted tree u := by
  obtain ⟨-, rfl⟩ | ⟨-, rfl⟩ := h
  · exact hs.settleHead v.block
  · exact (hs.settleHead v.block).parentBranchHashUnavailable F hnumbered

theorem LastTurn.charted {out : Outcome H S} (h : LastTurn F c v head s out) (hout : out.storage = some t)
    (hs : Owned s bound) (hcharted : Charted tree s) (hnumbered : Numbered tree v v.block) : Charted tree t := by
  cases h with
  | sibling hkey hbranch hslot _ =>
    cases hout
    exact hcharted.openSibling hs hnumbered hkey hbranch hslot
  | conflict hkey hbranch hslot _ _ =>
    cases hout
    exact (hcharted.openSibling hs hnumbered hkey hbranch hslot).putHead _
  | extended hblock _ hbranch _ _ =>
    cases hout
    exact hcharted.extended hnumbered hblock hbranch
  | stopped _ _ _ =>
    cases hout
    exact hcharted

end Steps

section Limit

/-- No sibling slot from a number on is taken. -/
def Within (limit : Nat) (s : LocalStorage H S) : Prop :=
  ∀ genesis counter slot, (s.getBranch ⟨genesis, counter ++ [slot]⟩).isSome → slot < limit

/-- The branch that the turn of a block ends with: that of the parent, or the one its recovery writes. -/
def parentBranch [ForkScopes S] (F : ForkConfig) (v : View H) (s : LocalStorage H S) : Branch H S :=
  (s.getBlockBranch v.parent).getD (recoveredBranch F v s)

variable [DecidableEq H] {F : ForkConfig} {c : Bool} {v : View H} {s t : LocalStorage H S} {head limit : Nat}

theorem Within.putBranch (h : Within limit s) {key : BranchKey H} {branch : Branch H S}
    (hslot : ∀ counter slot, key.counter = counter ++ [slot] → slot < limit) : Within limit (s.putBranch key branch) := by
  intro genesis counter slot hsome
  change (Slot.load (Function.update s.branch key (.stored branch) _)).isSome at hsome
  by_cases hk : ⟨genesis, counter ++ [slot]⟩ = key
  · exact hslot counter slot (hk ▸ rfl)
  · rw [Function.update_of_ne hk] at hsome
    exact h genesis counter slot hsome

theorem Within.openSibling [ForkScopes S] (h : Within limit s) {block slot : Nat} {key : BranchKey H} {prev : Branch H S}
    (hslot : slot < limit) : Within limit (openSibling v block s key prev slot) := by
  refine h.putBranch fun counter last hsplit => ?_
  obtain ⟨-, rfl⟩ : prev.counter = counter ∧ slot = last := by simpa [siblingKey] using hsplit
  exact hslot

theorem Within.rebuild {recoverer : Nat} {scope : S} {blocks target : Nat} {key : BranchKey H} (h : Within limit s) :
    Within limit (rebuild v recoverer scope blocks target (some key) s) := by
  induction blocks generalizing target s with
  | zero => exact h
  | succ blocks ih =>
    have hroute : Within limit (s.route (v.hash target) ⟨v.hash (target - 1), key⟩) := h
    exact ih hroute

variable [ForkScopes S]

theorem Within.parentBranchHashUnavailable (h : Within limit s) (F : ForkConfig) (block : Nat) :
    Within limit (parentBranchHashUnavailable F v block s) := by
  cases hfound : findRecoverer v s F.maxRecoverTraversal (block - 2) with
  | mk recoverer found =>
    cases found with
    | some branch =>
      rw [parentBranchHashUnavailable_of_found hfound]
      refine Within.rebuild (h.putBranch fun counter slot hcounter => ?_)
      simp at hcounter
    | none =>
      rw [FrameSuite.parentBranchHashUnavailable, hfound]
      refine h.putBranch fun counter slot hcounter => ?_
      simp at hcounter

theorem Prepared.within {u : LocalStorage H S} (h : Prepared F v s u) (hs : Within limit s) : Within limit u := by
  have hsettled : Within limit (settleHead v.block s).2 := by
    unfold settleHead
    split <;> exact hs
  obtain ⟨-, rfl⟩ | ⟨-, rfl⟩ := h
  · exact hsettled
  · exact hsettled.parentBranchHashUnavailable F v.block

omit [DecidableEq H] in
theorem recoveredBranch_settled (F : ForkConfig) (v : View H) (s : LocalStorage H S) :
    recoveredBranch F v (settleHead v.block s).2 = recoveredBranch F v s := by
  unfold recoveredBranch
  rw [findRecoverer_congr fun hash => settleHead_getBlockBranch v.block s hash]
  simp only [syntheticBranch, settleHead_getBranchHash]

/-- The last turn looks for a slot where the branch of the parent has one before the turn. -/
theorem Prepared.nextSlot_eq {u : LocalStorage H S} (h : Prepared F v s u) (hblock : 0 < v.block)
    {key : BranchKey H} {branch : Branch H S} (hkey : u.getBranchHash v.parent = some key)
    (hbranch : u.branch key = .stored branch) : nextSlot F u branch = nextSlot F s (parentBranch F v s) := by
  have hsettled : ∀ key, (settleHead v.block s).2.getBranch key = s.getBranch key := by
    unfold settleHead
    split <;> exact fun _ => rfl
  have hparent := getBlockBranch_eq_some.mpr ⟨key, hkey, hbranch⟩
  obtain ⟨hresolves, rfl⟩ | ⟨hlost, rfl⟩ := h
  · rw [settleHead_getBlockBranch] at hparent
    rw [parentBranch, hparent]
    exact nextSlot_congr fun _ => hsettled _
  · have hrecovers := parentBranchHashUnavailable_recovers F hblock (settleHead v.block s).2
    have hwritten : branch = recoveredBranch F v s := by
      obtain rfl := Option.some.inj (hkey.symm.trans hrecovers.parent)
      rw [hrecovers.branches, Function.update_self, recoveredBranch_settled] at hbranch
      exact (Slot.stored.inj hbranch).symm
    rw [hwritten, parentBranch, Option.not_isSome_iff_eq_none.mp hlost]
    refine nextSlot_congr fun slot => ?_
    have hcounter : (recoveredBranch F v s).counter = [] := by
      unfold recoveredBranch
      split <;> rfl
    have hne : siblingKey (recoveredBranch F v s) slot ≠ recoveryKey F v (settleHead v.block s).2 :=
      fun h => by simpa [siblingKey, recoveryKey] using congrArg BranchKey.counter h
    rw [getBranch, hrecovers.branches, Function.update_of_ne hne]
    exact hsettled _

theorem LastTurn.within {u : LocalStorage H S} {out : Outcome H S} (h : LastTurn F c v head u out)
    (hout : out.storage = some t) (hready : Prepared F v s u) (hblock : 0 < v.block) (hs : Within limit s)
    (hbelow : v.block ≤ head ∨ c = true → ∀ slot, nextSlot F s (parentBranch F v s) = some slot → slot < limit) :
    Within limit t := by
  have hu := hready.within hs
  cases h with
  | sibling hkey hbranch hslot hle =>
    cases hout
    rw [hready.nextSlot_eq hblock hkey hbranch] at hslot
    exact hu.openSibling (hbelow (.inl hle) _ hslot)
  | conflict hkey hbranch hslot _ hc =>
    cases hout
    rw [hready.nextSlot_eq hblock hkey hbranch] at hslot
    exact Within.openSibling (v := v) hu (hbelow (.inr hc) _ hslot)
  | @extended divider key branch _ _ hbranch _ _ =>
    cases hout
    refine hu.putBranch fun counter slot hcounter => ?_
    refine hu key.genesis counter slot ?_
    rw [← hcounter, getBranch, hbranch]
    rfl
  | stopped _ _ _ =>
    cases hout
    exact hu

/-- A sibling past the limit beside the branch it leaves. -/
def Overgrown (F : ForkConfig) (s : LocalStorage H S) : Prop :=
  ∃ key : BranchKey H, (s.getBranch key).isSome ∧ (s.getBranch ⟨key.genesis, key.counter ++ [F.maxForks]⟩).isSome

theorem overgrown_openSibling {key : BranchKey H} {prev : Branch H S} {block : Nat}
    (hkeyed : prev.genesis = key.genesis ∧ prev.counter = key.counter) (hprev : s.branch key = .stored prev) :
    Overgrown F (openSibling v block s key prev F.maxForks) := by
  refine ⟨key, isSome_putBranch s _ _ ?_, ?_⟩
  · rw [getBranch, hprev]
    rfl
  · rw [← hkeyed.1, ← hkeyed.2]
    exact congrArg Option.isSome (congrArg Slot.load (branch_putBranch_self s (siblingKey prev F.maxForks) _))

theorem LastTurn.overgrown {u : LocalStorage H S} {out : Outcome H S} {bound : Nat} (h : LastTurn F c v head u out)
    (hout : out.storage = some t) (hready : Prepared F v s u) (hblock : 0 < v.block) (hs : Owned u bound)
    (hopens : v.block ≤ head ∨ c = true) (hlast : nextSlot F s (parentBranch F v s) = some F.maxForks) :
    Overgrown F t := by
  cases h with
  | sibling hkey hbranch hslot _ =>
    cases hout
    rw [hready.nextSlot_eq hblock hkey hbranch, hlast] at hslot
    cases hslot
    exact overgrown_openSibling (hs.keyed _ _ hbranch) hbranch
  | conflict hkey hbranch hslot _ _ =>
    cases hout
    rw [hready.nextSlot_eq hblock hkey hbranch, hlast] at hslot
    cases hslot
    exact overgrown_openSibling (v := v) (hs.keyed _ _ hbranch) hbranch
  | extended _ _ _ hlt hc =>
    rcases hopens with hle | hcontended
    · omega
    · rw [hc] at hcontended
      cases hcontended
  | stopped hkey hbranch hfull =>
    rw [hready.nextSlot_eq hblock hkey hbranch, hlast] at hfull
    cases hfull

end Limit

section Navigation

variable {tree : BlockTree H} {F : ForkConfig} {s : LocalStorage H S} {bound : Nat}

/-- The anchor of a branch and the length of its lineage fall from a branch to its parent. -/
theorem Charted.wellFounded (h : Charted tree s) : WellFounded s.ParentOf := by
  refine Subrelation.wf (fun {parent child} hparent => ?_)
    (InvImage.wf (fun key : BranchKey H => (tree.number key.genesis, key.counter.length))
      (Prod.lex Nat.lt_wfRel Nat.lt_wfRel).wf)
  obtain ⟨branch, hbranch, hlink⟩ := hparent
  have hfits := h.branches child branch (Slot.load_eq_some.mp hbranch)
  obtain hroot | ⟨counter, slot, hcounter⟩ := List.eq_nil_or_concat child.counter
  · exact Prod.Lex.left _ _ (hfits.root hroot parent hlink)
  · rw [List.concat_eq_append] at hcounter
    obtain rfl := Option.some.inj (hlink.symm.trans (hfits.sibling counter slot hcounter).1)
    refine Prod.Lex.right _ ?_
    rw [hcounter, List.length_append]
    exact Nat.lt_succ_self _

theorem exists_initial_segment {p : Nat → Prop} {limit : Nat} (hdown : ∀ n m, m < n → p n → p m)
    (hbelow : ∀ n, p n → n < limit) : ∃ n ≤ limit, ∀ m, p m ↔ m < n := by
  induction limit with
  | zero => exact ⟨0, le_rfl, fun m => ⟨fun hp => hbelow m hp, fun h => absurd h (Nat.not_lt_zero m)⟩⟩
  | succ limit ih =>
    by_cases hp : p limit
    · refine ⟨limit + 1, le_rfl, fun m => ⟨hbelow m, fun hlt => ?_⟩⟩
      obtain heq | hlt := (Nat.lt_succ_iff.mp hlt).eq_or_lt
      · rwa [heq]
      · exact hdown limit m hlt hp
    · obtain ⟨n, hle, hn⟩ := ih fun n hpn => by
        have hne : n ≠ limit := fun h => hp (h ▸ hpn)
        have := hbelow n hpn
        omega
      exact ⟨n, by omega, hn⟩

theorem Charted.navigable {limit : Nat} (h : Charted tree s) (hs : Owned s bound) (hwithin : Within limit s) :
    Navigable limit s := by
  have hkeyed : ∀ key branch, s.getBranch key = some branch → key = ⟨branch.genesis, branch.counter⟩ := by
    intro key branch hbranch
    obtain ⟨hgenesis, hcounter⟩ := hs.keyed key branch (Slot.load_eq_some.mp hbranch)
    rw [hgenesis, hcounter]
  have hfits : ∀ key branch, s.getBranch key = some branch → Fits tree s key branch :=
    fun key branch hbranch => h.branches key branch (Slot.load_eq_some.mp hbranch)
  refine ⟨hkeyed, fun key branch _ => ?_, acyclic_of_wellFounded h.wellFounded, fun key branch hbranch => ?_,
    fun key branch hbranch turns index child hchild => ?_⟩
  · refine exists_initial_segment (fun slot lower hlt hsome => ?_) fun slot hsome => hwithin _ _ slot hsome
    obtain ⟨child, hchild⟩ := Option.isSome_iff_exists.mp hsome
    exact ((hfits _ child hchild).sibling branch.counter slot rfl).2.2 lower hlt
  · obtain ⟨turns, root, hroot⟩ := rootOf_ends h.wellFounded hbranch
    exact ⟨turns, root, congrArg (Option.map some) hroot⟩
  · have hparent := ((hfits _ child (Option.some.inj hchild)).sibling branch.counter index rfl).1
    have hself := hkeyed key branch hbranch
    simp only [transition, parentOf, hparent]
    exact congrArg some (hself ▸ hbranch)

theorem Overgrown.not_navigable (h : Overgrown F s) : ¬Navigable F.maxForks s := by
  intro hnavigable
  obtain ⟨key, hkey, hlast⟩ := h
  obtain ⟨branch, hbranch⟩ := Option.isSome_iff_exists.mp hkey
  obtain ⟨n, hle, hchildren⟩ := hnavigable.children key branch hbranch
  rw [hnavigable.keyed key branch hbranch] at hlast
  have := (hchildren F.maxForks).mp hlast
  omega

end Navigation

section Runs

variable [DecidableEq H] [ForkScopes S]

/-- What a block sees of its chain up to a height that it resolves. -/
def BlockTree.viewUpTo (tree : BlockTree H) (block : H) (height : Nat) : View H := ⟨height + 1, tree.ancestor block⟩

/-- A turn of a block or what happens to its storage, or a conflict that a block handles by itself at a height
of its chain. -/
inductive GraphEvent (H S : Type)
  | fork (event : ForkEvent H S)
  | conflict (block : H) (height : Nat)

def GraphEvent.apply (tree : BlockTree H) (F : ForkConfig) (s : LocalStorage H S) :
    GraphEvent H S → Except Unit (LocalStorage H S)
  | fork event => event.apply tree F s
  | conflict block height =>
    if height < tree.number block then
      match inheritedBranchMutationConflict F (tree.viewUpTo block height) height s with
      | some t => .ok t
      | none => .error ()
    else .error ()

/-- A start that opens a slot, and a conflict, open this one. -/
def GraphEvent.opens (tree : BlockTree H) (F : ForkConfig) (s : LocalStorage H S) (slot : Nat) : GraphEvent H S → Prop
  | fork (.execute block contended) =>
    ((tree.view block).block ≤ (settleHead (tree.view block).block s).1 ∨ contended = true) ∧
      nextSlot F s (parentBranch F (tree.view block) s) = some slot
  | conflict block height => ∃ branch, s.getBlockBranch (tree.ancestor block (height - 1)) = some branch ∧
      nextSlot F s branch = some slot
  | _ => False

variable {tree : BlockTree H} {F : ForkConfig} {v : View H} {s t : LocalStorage H S} {bound : Nat}

theorem conflict_cases (hs : Owned s bound) {block : Nat} (h : inheritedBranchMutationConflict F v block s = some t) :
    (s.getBlockBranch (v.hash (block - 1)) = none ∧ t = parentBranchHashUnavailable F v block s) ∨
      ∃ key branch slot, s.getBranchHash (v.hash (block - 1)) = some key ∧ s.branch key = .stored branch ∧
        nextSlot F s branch = some slot ∧ t = (openSibling v block s key branch slot).putHead block := by
  unfold inheritedBranchMutationConflict at h
  cases hkey : s.getBranchHash (v.hash (block - 1)) with
  | none =>
    rw [hkey] at h
    refine .inl ⟨?_, (Option.some.inj h).symm⟩
    rw [getBlockBranch, hkey]
    rfl
  | some key =>
    obtain ⟨branch, hbranch⟩ := hs.branchOf hkey
    have hget : s.getBranch key = some branch := Slot.load_eq_some.mpr hbranch
    rw [hkey] at h
    simp only [hget] at h
    cases hslot : nextSlot F s branch with
    | none =>
      rw [hslot] at h
      cases h
    | some slot =>
      rw [hslot] at h
      exact .inr ⟨key, branch, slot, rfl, hbranch, hslot, (Option.some.inj h).symm⟩

omit [DecidableEq H] in
theorem numbered_view (tree : BlockTree H) (block : H) : Numbered tree (tree.view block) (tree.view block).block := by
  intro height hle
  have hblock : (tree.view block).block = tree.number block - 1 := rfl
  exact BlockTree.number_ancestor (by omega)

omit [DecidableEq H] in
theorem numbered_viewUpTo {block : H} {top : Nat} (h : top < tree.number block) :
    Numbered tree (tree.viewUpTo block top) top :=
  fun _ hle => BlockTree.number_ancestor (by omega)

/-- Every branch of the graph knows its key and has its place. -/
def WellGrown (tree : BlockTree H) (s : LocalStorage H S) : Prop := (∃ bound, Owned s bound) ∧ Charted tree s

theorem WellGrown.conflict (h : WellGrown tree s) {block : H} {top : Nat} (htop : top < tree.number block)
    (hconflict : inheritedBranchMutationConflict F (tree.viewUpTo block top) top s = some t) : WellGrown tree t := by
  obtain ⟨⟨bound, hs⟩, hcharted⟩ := h
  obtain ⟨-, rfl⟩ | ⟨key, branch, slot, hkey, hbranch, hslot, rfl⟩ := conflict_cases hs hconflict
  · have hrecovered := parentBranchHashUnavailable_recovered F (tree.viewUpTo block top) s
    have hwide : Owned s (max bound top) := hs.mono (le_max_left _ _)
    exact ⟨⟨_, hrecovered.owned hwide rfl (Nat.sub_le top 1 |>.trans (le_max_right _ _))⟩,
      hcharted.parentBranchHashUnavailable F (numbered_viewUpTo htop)⟩
  · have hwide : Owned s (max bound top) := hs.mono (le_max_left _ _)
    have hopened : Owned (openSibling (tree.viewUpTo block top) top s key branch slot) (max bound top) :=
      Owned.openSibling (v := tree.viewUpTo block top) hwide hbranch slot (le_max_right _ _)
    exact ⟨⟨_, hopened.putHead top⟩, (hcharted.openSibling hs (numbered_viewUpTo htop) hkey hbranch hslot).putHead top⟩

theorem GraphEvent.conflict_eq_ok {block : H} {height : Nat}
    (h : GraphEvent.apply tree F s (.conflict block height) = .ok t) :
    height < tree.number block ∧
      inheritedBranchMutationConflict F (tree.viewUpTo block height) height s = some t := by
  simp only [GraphEvent.apply] at h
  split at h
  · split at h
    · cases h
      exact ⟨‹_›, ‹_›⟩
    · cases h
  · cases h

theorem WellGrown.event (h : WellGrown tree s) {event : GraphEvent H S} (happly : event.apply tree F s = .ok t) :
    WellGrown tree t := by
  obtain ⟨⟨bound, hs⟩, hcharted⟩ := h
  cases event with
  | conflict block height =>
    obtain ⟨htop, hconflict⟩ := GraphEvent.conflict_eq_ok happly
    exact WellGrown.conflict ⟨⟨bound, hs⟩, hcharted⟩ htop hconflict
  | fork event =>
    refine ⟨hs.event happly, ?_⟩
    cases event with
    | execute block contended =>
      obtain ⟨-, u, out, hready, hlast, -, hout⟩ := ForkEvent.execute_lastTurn (fun _ => hs.branchOf) happly
      have hnumbered := numbered_view tree block
      exact hlast.charted hout (hready.owned hs) (hready.charted hcharted hnumbered) hnumbered
    | loseBlock hash =>
      cases happly
      exact hcharted.loseBlock hash
    | loseDivider divider =>
      cases happly
      exact hcharted.loseDivider divider
    | rescope key scope =>
      simp only [GraphEvent.apply, ForkEvent.apply] at happly
      split at happly
      · rename_i branch hbranch
        cases happly
        exact hcharted.putBranch ((hcharted.branches key branch (Slot.load_eq_some.mp hbranch)).of_parent rfl)
      · cases happly

omit [DecidableEq H] in
theorem GraphEvent.opens_le {event : GraphEvent H S} {slot : Nat} (h : event.opens tree F s slot) :
    slot ≤ F.maxForks := by
  cases event with
  | conflict block height =>
    obtain ⟨branch, -, hslot⟩ := h
    exact (nextSlot_eq_some.mp hslot).1
  | fork event =>
    cases event with
    | execute block contended => exact (nextSlot_eq_some.mp h.2).1
    | loseBlock hash => cases h
    | loseDivider divider => cases h
    | rescope key scope => cases h

/-- One step: the slots that are taken stay below a limit that the opened one keeps. -/
theorem WellGrown.within {limit : Nat} (h : WellGrown tree s) (hs : Within limit s) {event : GraphEvent H S}
    (hbelow : ∀ slot, event.opens tree F s slot → slot < limit) (happly : event.apply tree F s = .ok t) :
    Within limit t := by
  obtain ⟨⟨bound, howned⟩, -⟩ := h
  cases event with
  | conflict block height =>
    obtain ⟨-, hconflict⟩ := GraphEvent.conflict_eq_ok happly
    obtain ⟨-, rfl⟩ | ⟨key, branch, slot, hkey, hbranch, hslot, rfl⟩ := conflict_cases howned hconflict
    · exact hs.parentBranchHashUnavailable F height
    · have hlt := hbelow slot ⟨branch, getBlockBranch_eq_some.mpr ⟨key, hkey, hbranch⟩, hslot⟩
      exact Within.openSibling (v := tree.viewUpTo block height) hs hlt
  | fork event =>
    cases event with
    | execute block contended =>
      obtain ⟨hnumber, u, out, hready, hlast, -, hout⟩ :=
        ForkEvent.execute_lastTurn (fun _ => howned.branchOf) happly
      have hblock : (tree.view block).block = tree.number block - 1 := rfl
      exact hlast.within hout hready (by omega) hs fun hopens slot hslot => hbelow slot ⟨hopens, hslot⟩
    | loseBlock hash =>
      cases happly
      exact hs
    | loseDivider divider =>
      cases happly
      exact hs
    | rescope key scope =>
      simp only [GraphEvent.apply, ForkEvent.apply] at happly
      split at happly
      · rename_i branch hbranch
        cases happly
        refine hs.putBranch fun counter slot hcounter => hs key.genesis counter slot ?_
        rw [← hcounter, hbranch]
        rfl
      · cases happly

theorem WellGrown.overgrown (h : WellGrown tree s) {event : GraphEvent H S}
    (hopens : event.opens tree F s F.maxForks) (happly : event.apply tree F s = .ok t) : Overgrown F t := by
  obtain ⟨⟨bound, howned⟩, -⟩ := h
  cases event with
  | conflict block height =>
    obtain ⟨-, hconflict⟩ := GraphEvent.conflict_eq_ok happly
    obtain ⟨branch, hparent, hlast⟩ := hopens
    obtain ⟨hnone, -⟩ | ⟨key, branch', slot, hkey, hbranch, hslot, rfl⟩ := conflict_cases howned hconflict
    · exact absurd (hnone.symm.trans hparent) (by simp)
    · obtain rfl : branch = branch' :=
        Option.some.inj (hparent.symm.trans (getBlockBranch_eq_some.mpr ⟨key, hkey, hbranch⟩))
      obtain rfl := Option.some.inj (hlast.symm.trans hslot)
      exact overgrown_openSibling (v := tree.viewUpTo block height) (howned.keyed key branch hbranch) hbranch
  | fork event =>
    cases event with
    | execute block contended =>
      obtain ⟨hnumber, u, out, hready, hlast, -, hout⟩ :=
        ForkEvent.execute_lastTurn (fun _ => howned.branchOf) happly
      have hblock : (tree.view block).block = tree.number block - 1 := rfl
      exact hlast.overgrown hout hready (by omega) (hready.owned howned) hopens.1 hopens.2
    | loseBlock hash => cases hopens
    | loseDivider divider => cases hopens
    | rescope key scope => cases hopens

omit [DecidableEq H] [ForkScopes S] in
theorem WellGrown.empty (tree : BlockTree H) : WellGrown tree (LocalStorage.empty : LocalStorage H S) :=
  ⟨⟨0, nofun, nofun, nofun, nofun, nofun⟩, Charted.empty tree⟩

omit [DecidableEq H] [ForkScopes S] in
theorem WellGrown.navigable {limit : Nat} (h : WellGrown tree s) (hwithin : Within limit s) : Navigable limit s := by
  obtain ⟨⟨bound, hs⟩, hcharted⟩ := h
  exact hcharted.navigable hs hwithin

/-- After every run the graph is well formed and navigable, with a child in each slot from 0 to the limit at
most. -/
theorem navigable_run (tree : BlockTree H) (F : ForkConfig) (events : List (GraphEvent H S)) :
    Navigable (F.maxForks + 1) (run (GraphEvent.apply tree F) LocalStorage.empty events) := by
  have hstep : ∀ (s : LocalStorage H S) (event : GraphEvent H S) (t : LocalStorage H S),
      WellGrown tree s ∧ Within (F.maxForks + 1) s → event.apply tree F s = .ok t →
        WellGrown tree t ∧ Within (F.maxForks + 1) t := by
    rintro s event t ⟨hgrown, hwithin⟩ happly
    refine ⟨hgrown.event happly, hgrown.within hwithin (fun slot hopens => ?_) happly⟩
    exact Nat.lt_succ_of_le (GraphEvent.opens_le hopens)
  obtain ⟨hgrown, hwithin⟩ := run_invariant hstep ⟨WellGrown.empty tree, nofun⟩ events
  exact hgrown.navigable hwithin

/-- Along every run the children of a branch number no more than the limit exactly as long as no step opens
the slot whose index is the limit itself. -/
theorem navigable_iff (tree : BlockTree H) (F : ForkConfig) (events : List (GraphEvent H S)) :
    (∀ pre, pre <+: events → Navigable F.maxForks (run (GraphEvent.apply tree F) LocalStorage.empty pre)) ↔
      RunMeets (GraphEvent.apply tree F) (fun s event => ¬event.opens tree F s F.maxForks) LocalStorage.empty
        events := by
  refine forall_prefix_iff (I := fun s => WellGrown tree s ∧ Within F.maxForks s) ?_ ?_ ?_
    ⟨WellGrown.empty tree, nofun⟩ events
  · rintro s ⟨hgrown, hwithin⟩
    exact hgrown.navigable hwithin
  · rintro s event t ⟨hgrown, hwithin⟩ hspares happly
    refine ⟨hgrown.event happly, hgrown.within hwithin (fun slot hopens => ?_) happly⟩
    exact (GraphEvent.opens_le hopens).lt_of_ne fun hlast => hspares (hlast ▸ hopens)
  · rintro s event t ⟨hgrown, -⟩ happly hnavigable hopens
    exact (hgrown.overgrown hopens happly).not_navigable hnavigable

end Runs

/-- Three forks leave block 2 where one sibling is allowed, and two siblings are opened. -/
theorem one_sibling_too_many :
    ¬Navigable (S := ForkLocalDepot Nat) 1 (run (GraphEvent.apply forkTree ⟨1, 4⟩) LocalStorage.empty
      [.fork (.execute (0, 3) false), .fork (.execute (0, 4) false), .fork (.execute (1, 4) false),
        .fork (.execute (2, 4) false)]) :=
  Overgrown.not_navigable (F := ⟨1, 4⟩) ⟨⟨(0, 0), []⟩, rfl, rfl⟩

end FrameSuite
