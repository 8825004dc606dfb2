import FrameSuite.ForkAncestry
import FrameSuite.ForkRecovery
import FrameSuite.Run

/-! Along runs of `start` in which routing entries get lost and workers rewrite scopes, the branches of
other forks stay as they are as long as recovery finds no branch under the key it writes. -/

namespace FrameSuite

open LocalStorage

variable {H S : Type}

section Storage

/-- What holds of the storage along a run: routing entries lead to branches that decode, a branch knows
its key, a sibling has the root of its lineage, and no head is past the known one. -/
structure Owned (s : LocalStorage H S) (bound : Nat) : Prop where
  blocks : ∀ hash divider, s.block hash = .stored divider → ∃ branch, s.branch divider.branch = .stored branch
  dividers : ∀ divider key, s.divider divider = .stored key → key = divider.branch
  keyed : ∀ key branch, s.branch key = .stored branch → branch.genesis = key.genesis ∧ branch.counter = key.counter
  rooted : ∀ key branch, s.branch key = .stored branch → ∃ root, s.branch ⟨key.genesis, []⟩ = .stored root
  headed : ∀ key branch, s.branch key = .stored branch → branch.head ≤ bound

/-- No head is past the known one, which is there as soon as there is a branch. -/
def Settled (s : LocalStorage H S) : Prop :=
  ∃ bound, Owned s bound ∧ (s.head = .stored bound ∨ (s.head = .missing ∧ bound = 0))

variable {s t : LocalStorage H S} {bound : Nat}

theorem Owned.mono (h : Owned s bound) {bound' : Nat} (hle : bound ≤ bound') : Owned s bound' :=
  { h with headed := fun key branch hb => (h.headed key branch hb).trans hle }

theorem Owned.putHead (h : Owned s bound) (head : Nat) : Owned (s.putHead head) bound :=
  ⟨h.blocks, h.dividers, h.keyed, h.rooted, h.headed⟩

theorem Owned.branchOf (h : Owned s bound) {hash : H} {key : BranchKey H} (hkey : s.getBranchHash hash = some key) :
    ∃ branch, s.branch key = .stored branch := by
  obtain ⟨divider, hblock, hroute⟩ := getBranchHash_eq_some.mp hkey
  rw [h.dividers divider key hroute]
  exact h.blocks hash divider hblock

theorem findRecoverer_congr {s t : LocalStorage H S} (h : ∀ hash, s.getBlockBranch hash = t.getBlockBranch hash)
    (v : View H) (attempts recoverer : Nat) :
    findRecoverer v s attempts recoverer = findRecoverer v t attempts recoverer := by
  induction attempts generalizing recoverer with
  | zero => rfl
  | succ attempts ih => simp only [findRecoverer, h, ih]

theorem Settled.within_head (hs : Settled s) (block : Nat) :
    ∃ bound, Owned (settleHead block s).2 bound ∧ bound ≤ (settleHead block s).1 := by
  obtain ⟨bound, howned, hhead | ⟨hhead, rfl⟩⟩ := hs
  · rw [settleHead_of_stored hhead]
    exact ⟨bound, howned, le_rfl⟩
  · refine ⟨0, ?_, Nat.zero_le _⟩
    unfold settleHead
    split
    · exact howned
    · exact howned.putHead _

variable [DecidableEq H]

theorem Owned.putBranch (h : Owned s bound) {key : BranchKey H} {branch : Branch H S}
    (hkeyed : branch.genesis = key.genesis ∧ branch.counter = key.counter)
    (hroot : key.counter ≠ [] → ∃ root, s.branch ⟨key.genesis, []⟩ = .stored root) (hhead : branch.head ≤ bound) :
    Owned (s.putBranch key branch) bound := by
  have hstored : ∀ k b, s.branch k = .stored b → ∃ now, (s.putBranch key branch).branch k = .stored now := by
    intro k b hb
    by_cases hk : k = key
    · exact ⟨branch, hk ▸ branch_putBranch_self s key branch⟩
    · exact ⟨b, (Function.update_of_ne hk ..).trans hb⟩
  have hcases : ∀ k b, (s.putBranch key branch).branch k = .stored b →
      (k = key ∧ b = branch) ∨ s.branch k = .stored b := by
    intro k b hb
    by_cases hk : k = key
    · subst hk
      rw [branch_putBranch_self] at hb
      exact .inl ⟨rfl, (Slot.stored.inj hb).symm⟩
    · rw [← Function.update_of_ne hk (Slot.stored branch) s.branch]
      exact .inr hb
  refine ⟨fun hash divider hb => ?_, h.dividers, fun k b hb => ?_, fun k b hb => ?_, fun k b hb => ?_⟩
  · obtain ⟨old, hold⟩ := h.blocks hash divider hb
    exact hstored _ old hold
  · obtain ⟨rfl, rfl⟩ | hold := hcases k b hb
    · exact hkeyed
    · exact h.keyed k b hold
  · obtain ⟨rfl, rfl⟩ | hold := hcases k b hb
    · by_cases hc : k.counter = []
      · exact ⟨b, by rw [← hc]; exact branch_putBranch_self s k b⟩
      · obtain ⟨root, hr⟩ := hroot hc
        exact hstored _ root hr
    · obtain ⟨root, hr⟩ := h.rooted k b hold
      exact hstored _ root hr
  · obtain ⟨rfl, rfl⟩ | hold := hcases k b hb
    · exact hhead
    · exact h.headed k b hold

theorem Owned.loseBlock (h : Owned s bound) (hash : H) :
    Owned { s with block := Function.update s.block hash .missing } bound := by
  refine ⟨fun x d hb => ?_, h.dividers, h.keyed, h.rooted, h.headed⟩
  dsimp only at hb
  by_cases hx : x = hash
  · rw [hx, Function.update_self] at hb
    cases hb
  · rw [Function.update_of_ne hx] at hb
    exact h.blocks x d hb

theorem Owned.loseDivider (h : Owned s bound) (divider : DividerKey H) : Owned (s.clearDivider divider) bound := by
  refine ⟨h.blocks, fun d k hd => ?_, h.keyed, h.rooted, h.headed⟩
  change Function.update s.divider divider .missing d = _ at hd
  by_cases hx : d = divider
  · rw [hx, Function.update_self] at hd
    cases hd
  · rw [Function.update_of_ne hx] at hd
    exact h.dividers d k hd

theorem Owned.route (h : Owned s bound) {divider : DividerKey H} {branch : Branch H S}
    (hbranch : s.branch divider.branch = .stored branch) (hash : H) : Owned (s.route hash divider) bound := by
  have hblock : (s.route hash divider).block = Function.update s.block hash (.stored divider) := rfl
  have hdivider : (s.route hash divider).divider = Function.update s.divider divider (.stored divider.branch) := rfl
  refine ⟨fun x d hb => ?_, fun d k hd => ?_, h.keyed, h.rooted, h.headed⟩
  · rw [hblock] at hb
    by_cases hx : x = hash
    · rw [hx, Function.update_self] at hb
      exact ⟨branch, Slot.stored.inj hb ▸ hbranch⟩
    · rw [Function.update_of_ne hx] at hb
      exact h.blocks x d hb
  · rw [hdivider] at hd
    by_cases hx : d = divider
    · rw [hx, Function.update_self] at hd
      rw [hx, Slot.stored.inj hd]
    · rw [Function.update_of_ne hx] at hd
      exact h.dividers d k hd

theorem Rebuilt.owned {v : View H} {key : BranchKey H} (h : Rebuilt v key s t) (hs : Owned s bound)
    (hroot : key.counter = []) (hbound : v.block - 1 ≤ bound) : Owned t bound := by
  obtain ⟨branch, hgenesis, hcounter, hhead, hbranches⟩ := h.branches
  have hput : Owned (s.putBranch key branch) bound :=
    hs.putBranch ⟨hgenesis, hcounter⟩ (fun hne => absurd hroot hne) (hhead.trans hbound)
  have hsame : t.branch = (s.putBranch key branch).branch := hbranches
  refine ⟨fun hash divider hb => ?_, fun divider k hd => ?_, ?_, ?_, ?_⟩
  · rw [hsame]
    rcases h.blocks hash with hkeep | ⟨height, -, -, new, rfl, hnew⟩
    · exact hput.blocks hash divider (hkeep ▸ hb)
    · obtain rfl := Slot.stored.inj (hnew.symm.trans hb)
      exact ⟨branch, branch_putBranch_self s new.branch branch⟩
  · rcases h.dividers divider with hkeep | ⟨rfl, hnew⟩
    · exact hs.dividers divider k (hkeep ▸ hd)
    · exact (Slot.stored.inj (hnew.symm.trans hd)).symm
  · rw [hsame]
    exact hput.keyed
  · rw [hsame]
    exact hput.rooted
  · rw [hsame]
    exact hput.headed

/-- The blocks that lead to a branch after the recovery led to it before, or lie on the recovered chain. -/
theorem Rebuilt.routes {v : View H} {key k : BranchKey H} {hash : H} (h : Rebuilt v key s t)
    (hs : Owned s bound) (hfree : s.getBranch key = none) (hk : t.getBranchHash hash = some k) :
    s.getBranchHash hash = some k ∨ (k = key ∧ ∃ height ≤ v.block - 1, hash = v.hash height) := by
  obtain ⟨divider, hblock, hdivider⟩ := getBranchHash_eq_some.mp hk
  rcases h.blocks hash with hkeep | ⟨height, hle, rfl, new, hnew, hstored⟩
  · rw [hkeep] at hblock
    obtain ⟨branch, hb⟩ := hs.blocks hash divider hblock
    rcases h.dividers divider with hsame | ⟨hchanged, -⟩
    · exact .inl (getBranchHash_eq_some.mpr ⟨divider, hblock, hsame ▸ hdivider⟩)
    · rw [getBranch, ← hchanged, hb] at hfree
      cases hfree
  · obtain rfl := Slot.stored.inj (hstored.symm.trans hblock)
    refine .inr ⟨?_, height, hle, rfl⟩
    rcases h.dividers new with hsame | ⟨-, hchanged⟩
    · rw [← hnew]
      exact hs.dividers new k (hsame ▸ hdivider)
    · exact (Slot.stored.inj (hchanged.symm.trans hdivider)).symm

end Storage

section Events

variable [DecidableEq H] [ForkScopes S]

/-- A turn of a block, the loss of a routing entry, or a worker rewriting the scope of a branch. -/
inductive ForkEvent (H S : Type)
  | execute (block : H) (contended : Bool)
  | loseBlock (hash : H)
  | loseDivider (divider : DividerKey H)
  | rescope (key : BranchKey H) (scope : S)

def ForkEvent.apply (tree : BlockTree H) (F : ForkConfig) (s : LocalStorage H S) :
    ForkEvent H S → Except Unit (LocalStorage H S)
  | execute block contended =>
    match start F contended (tree.view block) 2 s with
    | some (.ran t) => .ok t
    | some (.stopped t) => .ok t
    | _ => .error ()
  | loseBlock hash => .ok { s with block := Function.update s.block hash .missing }
  | loseDivider divider => .ok (s.clearDivider divider)
  | rescope key scope =>
    match s.getBranch key with
    | some branch => .ok (s.putBranch key { branch with scope })
    | none => .error ()

/-- The storage after the recovery that the turn of a block begins with, if it needs one. -/
def recoveredStorage (F : ForkConfig) (contended : Bool) (v : View H) (s : LocalStorage H S) : LocalStorage H S :=
  match turn F contended v s with
  | .again t => t
  | _ => s

/-- A branch that decodes is left alone, or is the one of the parent and its head moves to the block. -/
def KeepsBranches (v : View H) (s t : LocalStorage H S) : Prop :=
  ∀ key old, s.getBranch key = some old → t.getBranch key = some old ∨
    (t.getBranchHash v.parent = some key ∧ old.head < v.block ∧
      t.getBranch key = some { old with head := v.block })

/-- A block that recovery routed anew is related to every block with the same branch. -/
def RoutesKin (tree : BlockTree H) (s t : LocalStorage H S) : Prop :=
  ∀ block other key, t.getBranchHash block = some key → s.getBranchHash block ≠ some key →
    t.getBranchHash other = some key → tree.Above block other ∨ tree.Above other block

/-- The turn of a block clobbers no branch. -/
def ForkEvent.harmless (tree : BlockTree H) (F : ForkConfig) (s : LocalStorage H S) : ForkEvent H S → Prop
  | execute block contended => ∀ t, ForkEvent.apply tree F s (execute block contended) = .ok t →
      KeepsBranches (tree.view block) s t ∧ RoutesKin tree s (recoveredStorage F contended (tree.view block) s)
  | _ => True

/-- A block whose parent has to be recovered finds no branch that decodes at the anchor. -/
def ForkEvent.anchorsFree (tree : BlockTree H) (F : ForkConfig) (s : LocalStorage H S) : ForkEvent H S → Prop
  | execute block _ =>
    ¬s.Resolves (tree.view block).parent → s.getBranch (recoveryKey F (tree.view block) s) = none
  | _ => True

end Events

section Step

variable [DecidableEq H] {F : ForkConfig} {c : Bool} {v : View H} {s t : LocalStorage H S}
  {bound head : Nat}

theorem route_of_stored {divider : DividerKey H} (h : s.divider divider = .stored divider.branch) (hash : H) :
    s.route hash divider = s.putBlock hash divider := by
  simp [route, putDivider, ← h]

theorem Owned.extended (hs : Owned s bound) {divider : DividerKey H} {key : BranchKey H} {branch : Branch H S}
    (hdivider : s.divider divider = .stored key) (hbranch : s.branch key = .stored branch)
    (hblock : v.block ≤ bound) :
    Owned (extended v s divider key branch) bound := by
  obtain rfl := hs.dividers divider key hdivider
  have hput : Owned (s.putBranch divider.branch { branch with head := v.block }) bound :=
    hs.putBranch (hs.keyed _ branch hbranch) (fun _ => hs.rooted _ branch hbranch) hblock
  have hroute := hput.route (branch_putBranch_self ..) v.current
  rw [route_of_stored (show (s.putBranch _ _).divider divider = _ from hdivider)] at hroute
  exact hroute.putHead v.block

theorem keepsBranches_extended {divider : DividerKey H} {key : BranchKey H}
    {branch : Branch H S} (hblock : s.block v.parent = .stored divider) (hdivider : s.divider divider = .stored key)
    (hbranch : s.branch key = .stored branch) (hhead : branch.head < v.block) :
    KeepsBranches v s (extended v s divider key branch) := by
  have hrouted : (extended v s divider key branch).getBranchHash v.parent = some key := by
    refine getBranchHash_eq_some.mpr ⟨divider, ?_, hdivider⟩
    by_cases hcurrent : v.parent = v.current
    · rw [hcurrent]
      exact Function.update_self ..
    · exact (Function.update_of_ne hcurrent ..).trans hblock
  intro k old hold
  by_cases hk : k = key
  · subst hk
    obtain rfl : branch = old := Slot.stored.inj (hbranch.symm.trans (Slot.load_eq_some.mp hold))
    exact .inr ⟨hrouted, hhead, Slot.load_eq_some.mpr (branch_putBranch_self s k { branch with head := v.block })⟩
  · exact .inl (hold ▸ congrArg Slot.load (Function.update_of_ne hk ..))

/-- The branch of a recovered parent is the one recovery wrote, and its sibling slots are free. -/
theorem Rebuilt.slots_free {key : BranchKey H} (h : Rebuilt v key s t) (hs : Owned s bound)
    (hroot : key.counter = []) (hfree : s.getBranch key = none) (hlost : ¬s.Resolves v.parent)
    {branch : Branch H S} (hbranch : t.getBlockBranch v.parent = some branch) : nextSlot F t branch ≠ none := by
  obtain ⟨k, hk, hstored⟩ := getBlockBranch_eq_some.mp hbranch
  obtain ⟨written, hgenesis, hcounter, -, hbranches⟩ := h.branches
  rcases h.routes hs hfree hk with hold | ⟨rfl, -⟩
  · obtain ⟨old, hb⟩ := hs.branchOf hold
    rw [Resolves, getBlockBranch_eq_some.mpr ⟨k, hold, hb⟩] at hlost
    exact absurd rfl hlost
  · rw [hbranches, Function.update_self] at hstored
    obtain rfl := Slot.stored.inj hstored
    intro hnone
    have hslot := nextSlot_eq_none.mp hnone 0 (Nat.zero_le _)
    have hne : siblingKey written 0 ≠ k := by
      intro heq
      have := congrArg BranchKey.counter heq
      simp [siblingKey, hroot] at this
    rw [getBranch, hbranches, Function.update_of_ne hne, Option.isSome_iff_exists] at hslot
    obtain ⟨sibling, hsibling⟩ := hslot
    obtain ⟨root, hr⟩ := hs.rooted _ sibling (Slot.load_eq_some.mp hsibling)
    have hkey : (⟨(siblingKey written 0).genesis, []⟩ : BranchKey H) = k := by
      rw [← hroot]
      exact congrArg (BranchKey.mk · _) hgenesis
    rw [hkey] at hr
    rw [getBranch, hr] at hfree
    cases hfree

variable [ForkScopes S]

theorem Owned.openSibling (hs : Owned s bound) {key : BranchKey H} {prev : Branch H S}
    (hprev : s.branch key = .stored prev) (slot : Nat) (hblock : v.block ≤ bound) :
    Owned (openSibling v v.block s key prev slot) bound := by
  obtain ⟨hgenesis, -⟩ := hs.keyed key prev hprev
  refine (hs.putBranch ⟨rfl, rfl⟩ (fun _ => ?_) hblock).route (branch_putBranch_self ..) _
  change ∃ root, s.branch ⟨prev.genesis, []⟩ = .stored root
  rw [hgenesis]
  exact hs.rooted key prev hprev

theorem keepsBranches_openSibling {key : BranchKey H} {prev : Branch H S} {slot : Nat}
    (hslot : s.getBranch (siblingKey prev slot) = none) :
    KeepsBranches v s (openSibling v v.block s key prev slot) := by
  intro k old hold
  have hne : k ≠ siblingKey prev slot := by
    rintro rfl
    rw [hslot] at hold
    cases hold
  exact .inl (hold ▸ congrArg Slot.load (Function.update_of_ne hne ..))

/-- A turn whose parent resolves ends, keeps the branches and leaves the heads within the known one. -/
theorem Owned.turn_resolved (hs : Owned s bound) (hhead : s.head = .stored head)
    (hbound : bound ≤ max head (v.block - 1)) (hpos : 0 < v.block) (hresolves : s.Resolves v.parent)
    (hfree : head < bound → ∀ branch, s.getBlockBranch v.parent = some branch → nextSlot F s branch ≠ none) :
    ∃ t, (turn F c v s = .ran t ∨ turn F c v s = .stopped t) ∧ KeepsBranches v s t ∧
      ∃ bound', Owned t bound' ∧ t.head = .stored bound' := by
  obtain ⟨divider, key, branch, hblock, hdivider, hbranch, hend⟩ := turn_of_resolves F c hhead hresolves
  rcases hend with ⟨slot, t, hslot, hturn, ⟨hle, rfl⟩ | ⟨hlt, -, rfl⟩⟩ | ⟨hlt, -, hturn⟩ | ⟨hnone, hturn⟩
  · have hwithin : Owned s head := hs.mono (by omega)
    exact ⟨_, .inl hturn, keepsBranches_openSibling (nextSlot_free hslot), head, hwithin.openSibling hbranch slot hle,
      hhead⟩
  · have hwithin : Owned s v.block := hs.mono (by omega)
    exact ⟨_, .inl hturn, keepsBranches_openSibling (nextSlot_free hslot), v.block,
      (hwithin.openSibling hbranch slot le_rfl).putHead v.block, rfl⟩
  · have hwithin : Owned s v.block := hs.mono (by omega)
    have hold : branch.head < v.block := (hs.headed key branch hbranch).trans_lt (by omega)
    exact ⟨_, .inl hturn, keepsBranches_extended hblock hdivider hbranch hold, v.block,
      hwithin.extended hdivider hbranch le_rfl, rfl⟩
  · have hle : bound ≤ head := by
      by_contra hgt
      exact hfree (by omega) branch
        (getBlockBranch_eq_some.mpr ⟨key, getBranchHash_eq_some.mpr ⟨divider, hblock, hdivider⟩, hbranch⟩) hnone
    exact ⟨s, .inr hturn, fun k old hold => .inl hold, head, hs.mono hle, hhead⟩

variable {tree : BlockTree H}

theorem ForkEvent.execute_eq_ok {block : H} {contended : Bool}
    (h : ForkEvent.apply tree F s (.execute block contended) = .ok t) :
    2 ≤ tree.number block ∧ (recoveryLoop F contended (tree.view block) 2 s = some (.ran t) ∨
      recoveryLoop F contended (tree.view block) 2 s = some (.stopped t)) := by
  simp only [ForkEvent.apply, start] at h
  by_cases hnumber : (tree.view block).number - 1 = (tree.view block).number - 2
  · simp [hnumber] at h
  · rw [if_neg hnumber] at h
    refine ⟨?_, ?_⟩
    · change ¬tree.number block - 1 = tree.number block - 2 at hnumber
      omega
    · split at h
      · cases h
        exact .inl ‹_›
      · cases h
        exact .inr ‹_›
      · cases h

theorem storage_of_turn {turns : Nat} {u : LocalStorage H S}
    (hturn : turn F c v s = .ran u ∨ turn F c v s = .stopped u)
    (hloop : recoveryLoop F c v (turns + 1) s = some (.ran t) ∨
      recoveryLoop F c v (turns + 1) s = some (.stopped t)) : t = u := by
  rcases hturn with hturn | hturn <;> simp only [recoveryLoop, hturn] at hloop
  · simpa [eq_comm] using hloop
  · simpa [eq_comm] using hloop

theorem Settled.execute (hs : Settled s) {block : H}
    (hfree : ¬s.Resolves (tree.view block).parent → s.getBranch (recoveryKey F (tree.view block) s) = none)
    (h : ForkEvent.apply tree F s (.execute block c) = .ok t) :
    Settled t ∧ KeepsBranches (tree.view block) s t ∧
      RoutesKin tree s (recoveredStorage F c (tree.view block) s) := by
  obtain ⟨hnumber, hloop⟩ := ForkEvent.execute_eq_ok h
  have hblock : (tree.view block).block = tree.number block - 1 := rfl
  set v := tree.view block
  have hpos : 0 < v.block := by omega
  obtain ⟨bound, howned, hbound⟩ := hs.within_head v.block
  have hhead := settleHead_head v.block s
  have hsame : (settleHead v.block s).2.branch = s.branch := by
    unfold settleHead
    split <;> rfl
  have hget : ∀ key, (settleHead v.block s).2.getBranch key = s.getBranch key := fun key => by
    rw [getBranch, hsame, getBranch]
  by_cases hresolves : s.Resolves v.parent
  · obtain ⟨u, hturn, hkeep, bound', howned', hhead'⟩ := howned.turn_resolved (F := F) (c := c)
      hhead (by omega) hpos (settleHead_resolves.mpr hresolves) (by omega)
    rw [turn_settled] at hturn
    obtain rfl := storage_of_turn hturn hloop
    have hrecovered : recoveredStorage F c v s = s := by
      rcases hturn with hturn | hturn <;> simp [recoveredStorage, hturn]
    refine ⟨⟨bound', howned', .inl hhead'⟩, fun key old hold => hkeep key old ((hget key).trans hold), ?_⟩
    rw [hrecovered]
    exact fun _ _ _ hnew hold => absurd hnew hold
  · have hlost : ¬(settleHead v.block s).2.Resolves v.parent := fun h => hresolves (settleHead_resolves.mp h)
    have hturn := turn_of_lost (F := F) (c := c) hhead hlost fun key hk => howned.branchOf hk
    rw [turn_settled] at hturn
    have hkey : recoveryKey F v (settleHead v.block s).2 = recoveryKey F v s := by
      unfold recoveryKey recoveryAnchor
      rw [findRecoverer_congr fun hash => settleHead_getBlockBranch v.block s hash]
    have hrec := parentBranchHashUnavailable_recovered F v (settleHead v.block s).2
    have hfree' := (hget _).trans (hfree hresolves)
    rw [hkey] at hrec
    set u := parentBranchHashUnavailable F v v.block (settleHead v.block s).2
    have howned' : Owned u (max bound (v.block - 1)) :=
      hrec.owned (howned.mono (le_max_left _ _)) rfl (le_max_right _ _)
    obtain ⟨w, hnext, hkeep, bound', hfinal, hhead'⟩ := howned'.turn_resolved (F := F) (c := c)
      (hrec.head.trans hhead) (by omega) hpos (turn_again_resolves hturn)
      fun _ branch hb => hrec.slots_free howned rfl hfree' hlost hb
    rw [recoveryLoop, hturn] at hloop
    obtain rfl := storage_of_turn hnext hloop
    refine ⟨⟨bound', hfinal, .inl hhead'⟩, fun key old hold => hkeep key old ?_, ?_⟩
    · obtain ⟨branch, -, -, -, hbranches⟩ := hrec.branches
      have hne : key ≠ recoveryKey F v s := by
        rintro rfl
        rw [hfree hresolves] at hold
        cases hold
      rw [getBranch, hbranches, Function.update_of_ne hne, hsame]
      exact hold
    · have hrecovered : recoveredStorage F c v s = u := by simp [recoveredStorage, hturn]
      rw [hrecovered]
      have hchain : ∀ {x key}, u.getBranchHash x = some key → s.getBranchHash x = some key ∨
          (key = recoveryKey F v s ∧ ∃ height ≤ tree.number block, x = tree.ancestor block height) := by
        intro x key hx
        rcases hrec.routes howned hfree' hx with hold | ⟨rfl, height, hle, rfl⟩
        · exact .inl ((settleHead_getBranchHash v.block s x).symm.trans hold)
        · exact .inr ⟨rfl, height, by omega, rfl⟩
      intro x y key hx hnew hy
      obtain ⟨rfl, low, hlow, rfl⟩ := (hchain hx).resolve_left hnew
      rcases hchain hy with hold | ⟨-, high, hhigh, rfl⟩
      · obtain ⟨branch, hb⟩ := howned.branchOf ((settleHead_getBranchHash v.block s y).trans hold)
        rw [getBranch, hb] at hfree'
        cases hfree'
      · rcases le_total low high with hle | hle
        · exact .inl (BlockTree.ancestors_related hle hhigh)
        · exact .inr (BlockTree.ancestors_related hle hlow)

theorem Settled.event (hs : Settled s) {event : ForkEvent H S} (hfree : event.anchorsFree tree F s)
    (h : event.apply tree F s = .ok t) : Settled t ∧ event.harmless tree F s := by
  cases event with
  | loseBlock hash =>
    cases h
    obtain ⟨bound, howned, hhead⟩ := hs
    exact ⟨⟨bound, howned.loseBlock hash, hhead⟩, trivial⟩
  | loseDivider divider =>
    cases h
    obtain ⟨bound, howned, hhead⟩ := hs
    exact ⟨⟨bound, howned.loseDivider divider, hhead⟩, trivial⟩
  | rescope key scope =>
    refine ⟨?_, trivial⟩
    simp only [ForkEvent.apply] at h
    split at h
    · rename_i branch hbranch
      cases h
      obtain ⟨bound, howned, hhead⟩ := hs
      have hstored := Slot.load_eq_some.mp hbranch
      exact ⟨bound, howned.putBranch (howned.keyed key branch hstored) (fun _ => howned.rooted key branch hstored)
        (howned.headed key branch hstored), hhead⟩
    · cases h
  | execute block contended =>
    obtain ⟨hsettled, hharmless⟩ := hs.execute hfree h
    refine ⟨hsettled, fun u hu => ?_⟩
    obtain rfl : t = u := Except.ok.inj (h.symm.trans hu)
    exact hharmless

/-- In runs where recovery always finds the key of its anchor free, no turn clobbers a branch, and no block
is routed by recovery to a branch of a block it is unrelated to. -/
theorem branches_never_clobbered (tree : BlockTree H) (F : ForkConfig) {events : List (ForkEvent H S)}
    (hfree : RunMeets (ForkEvent.apply tree F) (fun s event => event.anchorsFree tree F s) LocalStorage.empty events) :
    RunMeets (ForkEvent.apply tree F) (fun s event => event.harmless tree F s) LocalStorage.empty events := by
  have hempty : Settled (LocalStorage.empty : LocalStorage H S) :=
    ⟨0, ⟨nofun, nofun, nofun, nofun, nofun⟩, .inr ⟨rfl, rfl⟩⟩
  exact RunMeets.of_invariant (fun s event t hs hq h => hs.event hq h) hempty hfree

end Step

section Examples

/-- A worker of the first fork runs on the recovered branch and adds a key to it. -/
def recoveredFork : List (ForkEvent (Nat × Nat) (ForkLocalDepot Nat)) :=
  [.execute (0, 5) false, .rescope ⟨(0, 2), []⟩ (ForkLocalDepot.addToLocal ForkScopes.default 7)]

def recoveredForkStorage : LocalStorage (Nat × Nat) (ForkLocalDepot Nat) :=
  run (ForkEvent.apply forkTree ⟨4, 4⟩) LocalStorage.empty recoveredFork

/-- The next block of the same fork finds its parent routed. -/
theorem branches_never_clobbered_line :
    RunMeets (ForkEvent.apply forkTree ⟨4, 4⟩) (fun s event => event.harmless forkTree ⟨4, 4⟩ s)
      LocalStorage.empty (recoveredFork ++ [.execute (0, 6) false]) := by
  refine branches_never_clobbered forkTree ⟨4, 4⟩ ⟨fun _ _ _ => rfl, fun _ _ => trivial, fun _ _ hlost => ?_, trivial⟩
  exact absurd (show recoveredForkStorage.Resolves (0, 4) from rfl) hlost

/-- Two forks whose parents have one parent are recovered at the same anchor. The second one empties the
scope of the first one, and the two parents lead to one branch. -/
theorem unrelated_forks_share_anchor :
    ¬RunMeets (ForkEvent.apply forkTree ⟨4, 4⟩) (fun s event => event.harmless forkTree ⟨4, 4⟩ s)
        LocalStorage.empty (recoveredFork ++ [.execute (1, 5) false]) ∧
      ∃ t, ForkEvent.apply forkTree ⟨4, 4⟩ recoveredForkStorage (.execute (1, 5) false) = .ok t ∧
        ¬KeepsBranches (forkTree.view (1, 5)) recoveredForkStorage t ∧
        ¬RoutesKin forkTree recoveredForkStorage
          (recoveredStorage ⟨4, 4⟩ false (forkTree.view (1, 5)) recoveredForkStorage) := by
  have hclobbered : ∀ t, ForkEvent.apply forkTree ⟨4, 4⟩ recoveredForkStorage (.execute (1, 5) false) = .ok t →
      ¬KeepsBranches (forkTree.view (1, 5)) recoveredForkStorage t := by
    intro t ht hkeep
    cases ht
    have hseen := hkeep ⟨(0, 2), []⟩ _ rfl
    rcases hseen with hsame | ⟨-, -, hmoved⟩
    · exact absurd (congrArg (Option.map fun b => b.scope.sees 7) hsame) (by decide)
    · exact absurd (congrArg (Option.map fun b => b.scope.sees 7) hmoved) (by decide)
  refine ⟨fun hmeets => ?_, _, rfl, hclobbered _ rfl, fun hkin => ?_⟩
  · exact hclobbered _ rfl (hmeets.2.2.1 _ rfl _ rfl).1
  · rcases hkin (1, 3) (0, 3) ⟨(0, 2), []⟩ rfl (by decide) rfl with habove | habove
    · exact absurd habove.2 (by decide)
    · exact absurd habove.2 (by decide)

end Examples

end FrameSuite
