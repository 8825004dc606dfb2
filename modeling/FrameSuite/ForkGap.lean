import FrameSuite.ForkClobbering

/-! The gap that recovery closes. The walk back looks for the nearest branch from the block below the
grandparent on, and the rebuild starts two blocks above the block it finds. -/

namespace FrameSuite

open LocalStorage

variable {H S : Type}

section Walk

/-- The highest proper ancestor of the parent of the block that still leads to a branch, within the
traversal bound. -/
structure NearestIntact (F : ForkConfig) (v : View H) (s : LocalStorage H S) (block intact : Nat) : Prop where
  below : intact + 2 ≤ block
  near : block ≤ intact + 1 + F.maxRecoverTraversal
  resolves : s.Resolves (v.hash intact)
  lost : ∀ height, intact < height → height + 2 ≤ block → ¬s.Resolves (v.hash height)

theorem findRecoverer_eq_some {v : View H} {s : LocalStorage H S} {attempts start recoverer : Nat}
    {branch : Branch H S} :
    findRecoverer v s attempts start = (recoverer, some branch) ↔
      0 < recoverer ∧ recoverer ≤ start ∧ start < recoverer + attempts ∧
        s.getBlockBranch (v.hash (recoverer - 1)) = some branch ∧
        ∀ height, recoverer < height → height ≤ start → ¬s.Resolves (v.hash (height - 1)) := by
  induction attempts generalizing start with
  | zero =>
    simp only [findRecoverer]
    constructor
    · intro h
      cases h
    · omega
  | succ attempts ih =>
    rw [findRecoverer]
    by_cases hzero : start = 0
    · rw [if_pos hzero]
      constructor
      · intro h
        cases h
      · omega
    · rw [if_neg hzero]
      cases hstart : s.getBlockBranch (v.hash (start - 1)) with
      | some found =>
        have hresolves : s.Resolves (v.hash (start - 1)) := by
          rw [Resolves, hstart]
          rfl
        dsimp only
        rw [Prod.mk.injEq, Option.some.injEq]
        constructor
        · rintro ⟨rfl, rfl⟩
          exact ⟨Nat.pos_of_ne_zero hzero, le_rfl, by omega, hstart, fun _ hlt hle => by omega⟩
        · rintro ⟨-, hle, -, hbranch, hlost⟩
          obtain heq | hlt := hle.eq_or_lt
          · rw [heq, hstart] at hbranch
            exact ⟨heq.symm, Option.some.inj hbranch⟩
          · exact absurd hresolves (hlost start hlt le_rfl)
      | none =>
        have hnone : ¬s.Resolves (v.hash (start - 1)) := by
          rw [Resolves, hstart]
          exact Bool.false_ne_true
        dsimp only
        rw [ih]
        constructor
        · rintro ⟨hpos, hle, hnear, hbranch, hlost⟩
          refine ⟨hpos, by omega, by omega, hbranch, fun height hlt hheight => ?_⟩
          obtain rfl | hother : height = start ∨ height ≤ start - 1 := by omega
          · exact hnone
          · exact hlost height hlt hother
        · rintro ⟨hpos, hle, hnear, hbranch, hlost⟩
          have hne : recoverer ≠ start := by
            rintro rfl
            rw [hstart] at hbranch
            cases hbranch
          exact ⟨hpos, by omega, by omega, hbranch, fun height hlt hheight => hlost height hlt (by omega)⟩

/-- What the walk finds is the nearest intact ancestor of the grandparent, not of the parent. -/
theorem findRecoverer_nearest {F : ForkConfig} {v : View H} {s : LocalStorage H S} {block recoverer : Nat}
    {branch : Branch H S} :
    findRecoverer v s F.maxRecoverTraversal (block - 2) = (recoverer, some branch) ↔
      0 < recoverer ∧ NearestIntact F v s (block - 1) (recoverer - 1) ∧
        s.getBlockBranch (v.hash (recoverer - 1)) = some branch := by
  rw [findRecoverer_eq_some]
  constructor
  · rintro ⟨hpos, hle, hnear, hbranch, hlost⟩
    refine ⟨hpos, ⟨by omega, by omega, ?_, fun height hlt hheight => ?_⟩, hbranch⟩
    · rw [Resolves, hbranch]
      rfl
    · have := hlost (height + 1) (by omega) (by omega)
      rwa [Nat.add_sub_cancel] at this
  · rintro ⟨hpos, ⟨hbelow, hnear, -, hlost⟩, hbranch⟩
    exact ⟨hpos, by omega, by omega, hbranch, fun height hlt hheight => hlost (height - 1) (by omega) (by omega)⟩

theorem NearestIntact.branch {F : ForkConfig} {v : View H} {s : LocalStorage H S} {block intact : Nat}
    (h : NearestIntact F v s block intact) : ∃ branch, s.getBlockBranch (v.hash intact) = some branch :=
  Option.isSome_iff_exists.mp h.resolves

end Walk

section Rebuild

variable [DecidableEq H]

/-- The blocks of a range of heights are routed to a branch, and nothing else changes. -/
structure Rerouted (v : View H) (key : BranchKey H) (low high : Nat) (s t : LocalStorage H S) : Prop where
  branches : t.branch = s.branch
  inside : ∀ height, low ≤ height → height < high → ∃ last, low ≤ last ∧ last < high ∧
    t.block (v.hash height) = .stored ⟨v.hash (last - 1), key⟩
  outside : ∀ hash, (∀ height, low ≤ height → height < high → v.hash height ≠ hash) → t.block hash = s.block hash
  written : ∀ height, low ≤ height → height < high → t.divider ⟨v.hash (height - 1), key⟩ = .stored key
  kept : ∀ divider, (∀ height, low ≤ height → height < high → divider ≠ ⟨v.hash (height - 1), key⟩) →
    t.divider divider = s.divider divider

variable {v : View H} {key : BranchKey H} {low high : Nat} {s t : LocalStorage H S}

omit [DecidableEq H] in
theorem Rerouted.refl (v : View H) (key : BranchKey H) (low : Nat) (s : LocalStorage H S) :
    Rerouted v key low low s s where
  branches := rfl
  inside _ _ _ := by omega
  outside _ _ := rfl
  written _ _ _ := by omega
  kept _ _ := rfl

theorem Rerouted.route (h : Rerouted v key low high s t) (hle : low ≤ high) :
    Rerouted v key low (high + 1) s (t.route (v.hash high) ⟨v.hash (high - 1), key⟩) where
  branches := h.branches
  inside height hlow hhigh := by
    change ∃ last, _ ∧ _ ∧ Function.update t.block (v.hash high) _ (v.hash height) = _
    by_cases heq : v.hash height = v.hash high
    · rw [heq, Function.update_self]
      exact ⟨high, hle, Nat.lt_succ_self high, rfl⟩
    · have hne : height ≠ high := fun h => heq (h ▸ rfl)
      obtain ⟨last, hl, hh, hblock⟩ := h.inside height hlow (by omega)
      rw [Function.update_of_ne heq]
      exact ⟨last, hl, by omega, hblock⟩
  outside hash hout := by
    have hne : hash ≠ v.hash high := (hout high hle (Nat.lt_succ_self high)).symm
    exact (Function.update_of_ne hne ..).trans (h.outside hash fun i hl hh => hout i hl (by omega))
  written height hlow hhigh := by
    change Function.update t.divider ⟨v.hash (high - 1), key⟩ (.stored key) _ = _
    by_cases heq : (⟨v.hash (height - 1), key⟩ : DividerKey H) = ⟨v.hash (high - 1), key⟩
    · rw [heq, Function.update_self]
    · have hne : height ≠ high := fun h => heq (h ▸ rfl)
      rw [Function.update_of_ne heq]
      exact h.written height hlow (by omega)
  kept divider hout := by
    have hne := hout high hle (Nat.lt_succ_self high)
    exact (Function.update_of_ne hne ..).trans (h.kept divider fun i hl hh => hout i hl (by omega))

theorem Rerouted.rebuild (h : Rerouted v key low high s t) (recoverer : Nat) (scope : S) (blocks : Nat)
    (hle : low ≤ high) :
    Rerouted v key low (high + blocks) s (rebuild v recoverer scope blocks high (some key) t) := by
  induction blocks generalizing high t with
  | zero => exact h
  | succ blocks ih =>
    have hnext := ih (h.route hle) (by omega)
    rwa [show high + 1 + blocks = high + (blocks + 1) by omega] at hnext

omit [DecidableEq H] in
theorem Rerouted.getBranchHash (h : Rerouted v key low high s t) (height : Nat) (hlow : low ≤ height)
    (hhigh : height < high) : t.getBranchHash (v.hash height) = some key := by
  obtain ⟨last, hl, hh, hblock⟩ := h.inside height hlow hhigh
  exact getBranchHash_eq_some.mpr ⟨_, hblock, h.written last hl hh⟩

theorem Rerouted.getBlockBranch {branch : Branch H S}
    (h : Rerouted v key low high (s.putBranch key branch) t) (height : Nat) (hlow : low ≤ height)
    (hhigh : height < high) : t.getBlockBranch (v.hash height) = some branch := by
  refine getBlockBranch_eq_some.mpr ⟨key, h.getBranchHash height hlow hhigh, ?_⟩
  rw [h.branches]
  exact branch_putBranch_self ..

theorem Rerouted.resolves {branch : Branch H S} (h : Rerouted v key low high (s.putBranch key branch) t)
    {height : Nat} (hlow : low ≤ height) (hhigh : height < high) : t.Resolves (v.hash height) := by
  rw [Resolves, h.getBlockBranch height hlow hhigh]
  rfl

variable [ForkScopes S]

theorem parentBranchHashUnavailable_rerouted {F : ForkConfig} {block recoverer : Nat} {branch : Branch H S}
    (h : findRecoverer v s F.maxRecoverTraversal (block - 2) = (recoverer, some branch)) :
    Rerouted v ⟨v.hash recoverer, []⟩ (recoverer + 1) block
      (s.putBranch ⟨v.hash recoverer, []⟩ (syntheticBranch v recoverer (ForkScopes.accrete branch.scope) s))
      (parentBranchHashUnavailable F v block s) := by
  obtain ⟨hpos, hle⟩ := findRecoverer_spec h
  rw [parentBranchHashUnavailable_of_found h]
  have hfirst := (Rerouted.refl v ⟨v.hash recoverer, []⟩ (recoverer + 1)
    (s.putBranch ⟨v.hash recoverer, []⟩ (syntheticBranch v recoverer (ForkScopes.accrete branch.scope) s))).route
    le_rfl
  rw [Nat.add_sub_cancel] at hfirst
  have hall := hfirst.rebuild recoverer (ForkScopes.accrete branch.scope) (block - (recoverer + 2)) (by omega)
  rwa [show recoverer + 1 + 1 + (block - (recoverer + 2)) = block by omega] at hall

theorem syntheticRoot_getBlockBranch (v : View H) (block : Nat) (s : LocalStorage H S) :
    (syntheticRoot v block s).getBlockBranch (v.hash (block - 1)) =
      some ⟨none, block - 1, ForkScopes.default, v.hash (block - 2), []⟩ := by
  refine getBlockBranch_eq_some.mpr ⟨⟨v.hash (block - 2), []⟩, ?_, branch_putBranch_self ..⟩
  exact getBranchHash_eq_some.mpr ⟨_, Function.update_self .., Function.update_self ..⟩

end Rebuild

section Gap

variable [DecidableEq H] [ForkScopes S]

/-- Every block between the intact one and the recovered one leads to a branch, and the branch of the
parent continues the branch of the intact block. -/
structure GapClosed (v : View H) (s t : LocalStorage H S) (block intact : Nat) : Prop where
  resolves : ∀ height, intact < height → height < block → t.Resolves (v.hash height)
  linked : ∃ key branch synthetic, s.getBranchHash (v.hash intact) = some key ∧ s.branch key = .stored branch ∧
    t.getBlockBranch (v.hash (block - 1)) = some synthetic ∧ synthetic.parent = some key ∧
    synthetic.scope = ForkScopes.accrete branch.scope

/-- The block above the intact one, which the rebuild leaves out, leads to the branch it writes all the
same: the hash is that of a rebuilt block, or its old entry leads there. -/
def CarriedAlong (v : View H) (s : LocalStorage H S) (block intact : Nat) : Prop :=
  (∃ height, intact + 2 ≤ height ∧ height < block ∧ v.hash height = v.hash (intact + 1)) ∨
    ∃ divider, s.block (v.hash (intact + 1)) = .stored divider ∧
      ((∃ height, intact + 2 ≤ height ∧ height < block ∧
          divider = ⟨v.hash (height - 1), ⟨v.hash (intact + 1), []⟩⟩) ∨
        s.divider divider = .stored ⟨v.hash (intact + 1), []⟩)

/-- The parent leads to a branch, and so does every block from the second one above the intact block on. In a
gap of more than the parent these lead to one branch, which continues the branch of the intact block, and the
block above the intact one, which is left out, resolves only where it is carried along. -/
structure GapRebuilt (v : View H) (s t : LocalStorage H S) (block intact : Nat) : Prop where
  parent : t.Resolves (v.hash (block - 1))
  resolves : ∀ height, intact + 1 < height → height < block → t.Resolves (v.hash height)
  linked : intact + 3 ≤ block → ∃ key branch synthetic,
    s.getBranchHash (v.hash intact) = some key ∧ s.branch key = .stored branch ∧
      synthetic.parent = some key ∧ synthetic.scope = ForkScopes.accrete branch.scope ∧
      ∀ height, intact + 1 < height → height < block → t.getBlockBranch (v.hash height) = some synthetic
  leftOut : intact + 3 ≤ block → (t.Resolves (v.hash (intact + 1)) ↔ CarriedAlong v s block intact)

variable {F : ForkConfig} {v : View H} {s t : LocalStorage H S} {block intact : Nat}

omit [DecidableEq H] [ForkScopes S] in
theorem NearestIntact.found (h : NearestIntact F v s block intact) (hgap : intact + 3 ≤ block)
    {branch : Branch H S} (hbranch : s.getBlockBranch (v.hash intact) = some branch) :
    findRecoverer v s F.maxRecoverTraversal (block - 2) = (intact + 1, some branch) := by
  refine findRecoverer_nearest.mpr ⟨Nat.succ_pos intact, ⟨?_, ?_, h.resolves, ?_⟩, hbranch⟩
  · omega
  · have := h.near
    omega
  · exact fun height hlt hheight => h.lost height (by omega) (by omega)

omit [ForkScopes S] in
theorem resolves_left_out (hlost : ¬s.Resolves (v.hash (intact + 1))) {synthetic : Branch H S}
    (h : Rerouted v ⟨v.hash (intact + 1), []⟩ (intact + 2) block
      (s.putBranch ⟨v.hash (intact + 1), []⟩ synthetic) t) :
    t.Resolves (v.hash (intact + 1)) ↔ CarriedAlong v s block intact := by
  have hstored : t.branch ⟨v.hash (intact + 1), []⟩ = .stored synthetic := by
    rw [h.branches]
    exact branch_putBranch_self ..
  by_cases hshared : ∃ height, intact + 2 ≤ height ∧ height < block ∧ v.hash height = v.hash (intact + 1)
  · refine iff_of_true ?_ (.inl hshared)
    obtain ⟨height, hlow, hhigh, hheight⟩ := hshared
    rw [Resolves, getBlockBranch_eq_some.mpr ⟨_, hheight ▸ h.getBranchHash _ hlow hhigh, hstored⟩]
    rfl
  · have hkeep : t.block (v.hash (intact + 1)) = s.block (v.hash (intact + 1)) :=
      h.outside _ fun height hlow hhigh heq => hshared ⟨height, hlow, hhigh, heq⟩
    rw [resolves_iff, hkeep, CarriedAlong, or_iff_right hshared]
    refine exists_congr fun divider => and_congr_right fun hblock => ?_
    by_cases hwritten : ∃ height, intact + 2 ≤ height ∧ height < block ∧
        divider = ⟨v.hash (height - 1), ⟨v.hash (intact + 1), []⟩⟩
    · refine iff_of_true ?_ (.inl hwritten)
      obtain ⟨height, hlow, hhigh, rfl⟩ := hwritten
      exact ⟨_, synthetic, h.written height hlow hhigh, hstored⟩
    · have hdivider : t.divider divider = s.divider divider :=
        h.kept divider fun height hlow hhigh heq => hwritten ⟨height, hlow, hhigh, heq⟩
      rw [or_iff_right hwritten, Leads, hdivider]
      constructor
      · rintro ⟨key, branch, hkey, hbranch⟩
        by_cases hsame : key = ⟨v.hash (intact + 1), []⟩
        · rwa [← hsame]
        · -- another branch the block leads to would have led there before
          rw [h.branches] at hbranch
          have hold : s.branch key = .stored branch := (Function.update_of_ne hsame ..).symm.trans hbranch
          exact absurd (resolves_iff.mpr ⟨divider, hblock, key, branch, hkey, hold⟩) hlost
      · exact fun hkey => ⟨_, synthetic, hkey, hstored⟩

/-- All that the recovery of a gap of more than the parent writes: a branch that continues that of the intact
block, and the routes to it. -/
theorem NearestIntact.rerouted (h : NearestIntact F v s block intact) (hgap : intact + 3 ≤ block) :
    ∃ key branch synthetic, s.getBranchHash (v.hash intact) = some key ∧ s.branch key = .stored branch ∧
      synthetic.parent = some key ∧ synthetic.scope = ForkScopes.accrete branch.scope ∧
      Rerouted v ⟨v.hash (intact + 1), []⟩ (intact + 2) block
        (s.putBranch ⟨v.hash (intact + 1), []⟩ synthetic) (parentBranchHashUnavailable F v block s) := by
  obtain ⟨branch, hbranch⟩ := h.branch
  obtain ⟨key, hkey, hstored⟩ := getBlockBranch_eq_some.mp hbranch
  exact ⟨key, branch, _, hkey, hstored, hkey, rfl, parentBranchHashUnavailable_rerouted (h.found hgap hbranch)⟩

theorem gapClosed_iff_carried (h : NearestIntact F v s block intact) (hgap : intact + 3 ≤ block) :
    GapClosed v s (parentBranchHashUnavailable F v block s) block intact ↔ CarriedAlong v s block intact := by
  obtain ⟨key, branch, synthetic, hkey, hstored, hparent, hscope, hrerouted⟩ := h.rerouted hgap
  have hleft := resolves_left_out (h.lost (intact + 1) (by omega) (by omega)) hrerouted
  constructor
  · exact fun hclosed => hleft.mp (hclosed.resolves (intact + 1) (by omega) (by omega))
  · intro hcarried
    refine ⟨fun height hlow hhigh => ?_, key, branch, synthetic, hkey, hstored,
      hrerouted.getBlockBranch _ (by omega) (by omega), hparent, hscope⟩
    obtain rfl | hinside : height = intact + 1 ∨ intact + 2 ≤ height := by omega
    · exact hleft.mpr hcarried
    · exact hrerouted.resolves hinside hhigh

/-- A gap of one block is closed when the walk, which passes over the intact block, ends on a block of
the same branch. -/
theorem gapClosed_iff_one_branch (h : NearestIntact F v s block intact) (hgap : intact + 2 = block) :
    GapClosed v s (parentBranchHashUnavailable F v block s) block intact ↔
      ∃ older, NearestIntact F v s (block - 1) older ∧
        s.getBranchHash (v.hash older) = s.getBranchHash (v.hash intact) := by
  have hparent := parentBranchHashUnavailable_resolves F v block s
  obtain ⟨branch, hbranch⟩ := h.branch
  obtain ⟨key, hkey, hstored⟩ := getBlockBranch_eq_some.mp hbranch
  have hwalk : ∀ older, NearestIntact F v s (block - 1) older →
      ∃ found, findRecoverer v s F.maxRecoverTraversal (block - 2) = (older + 1, some found) := by
    intro older hnear
    obtain ⟨found, hfound⟩ := hnear.branch
    exact ⟨found, findRecoverer_nearest.mpr ⟨Nat.succ_pos older, hnear, hfound⟩⟩
  cases hfound : findRecoverer v s F.maxRecoverTraversal (block - 2) with
  | mk recoverer found =>
    cases found with
    | none =>
      -- the parent gets a root without a parent of its own
      refine iff_of_false (fun hclosed => ?_) ?_
      · obtain ⟨_, _, synthetic, -, -, hsynthetic, hlinked, -⟩ := hclosed.linked
        rw [parentBranchHashUnavailable, hfound] at hsynthetic
        dsimp only at hsynthetic
        rw [syntheticRoot_getBlockBranch] at hsynthetic
        cases hsynthetic
        cases hlinked
      · rintro ⟨older, hnear, -⟩
        obtain ⟨found, hother⟩ := hwalk older hnear
        rw [hfound] at hother
        cases hother
    | some found =>
      obtain ⟨hpos, hnear, hfoundBranch⟩ := findRecoverer_nearest.mp hfound
      have hle := (findRecoverer_spec hfound).2
      have hsynthetic := (parentBranchHashUnavailable_rerouted hfound).getBlockBranch (block - 1) (by omega) (by omega)
      constructor
      · intro hclosed
        obtain ⟨key', _, synthetic, hkey', -, hlast, hlinked, -⟩ := hclosed.linked
        obtain rfl := Option.some.inj (hsynthetic.symm.trans hlast)
        exact ⟨recoverer - 1, hnear, hlinked.trans hkey'.symm⟩
      · rintro ⟨older, holder, hsame⟩
        obtain ⟨other, hother⟩ := hwalk older holder
        obtain rfl : older = recoverer - 1 := by
          have := (Prod.mk.inj (hfound.symm.trans hother)).1
          omega
        refine ⟨fun height hlow hhigh => ?_, key, branch, _, hkey, hstored, hsynthetic, hsame.trans hkey, ?_⟩
        · obtain rfl : height = block - 1 := by omega
          exact hparent
        · obtain ⟨key', hkey', hstored'⟩ := getBlockBranch_eq_some.mp hfoundBranch
          obtain rfl : key' = key := Option.some.inj (hkey'.symm.trans (hsame.trans hkey))
          obtain rfl : found = branch := Slot.stored.inj (hstored'.symm.trans hstored)
          rfl

/-- Recovery closes the gap above the nearest intact ancestor exactly when it is one block wide and the
walk ends on the same branch, or the block it leaves out is carried along. -/
theorem gap_closed_iff (h : NearestIntact F v s block intact) :
    GapClosed v s (parentBranchHashUnavailable F v block s) block intact ↔
      (intact + 2 = block ∧ ∃ older, NearestIntact F v s (block - 1) older ∧
          s.getBranchHash (v.hash older) = s.getBranchHash (v.hash intact)) ∨
        (intact + 3 ≤ block ∧ CarriedAlong v s block intact) := by
  obtain hone | hmore := h.below.eq_or_lt
  · rw [gapClosed_iff_one_branch h hone]
    exact ⟨fun hright => .inl ⟨hone, hright⟩, fun hright => hright.elim And.right fun hlong => by omega⟩
  · rw [gapClosed_iff_carried h hmore]
    exact ⟨fun hright => .inr ⟨hmore, hright⟩, fun hright => hright.elim (fun hshort => by omega) And.right⟩

/-- Recovery rebuilds the gap from the second block above the nearest intact ancestor on. -/
theorem gap_rebuilt (h : NearestIntact F v s block intact) :
    GapRebuilt v s (parentBranchHashUnavailable F v block s) block intact := by
  have hparent := parentBranchHashUnavailable_resolves F v block s
  obtain hone | hmore := h.below.eq_or_lt
  · refine ⟨hparent, fun height hlow hhigh => ?_, fun hlong => ?_, fun hlong => ?_⟩ <;> omega
  · obtain ⟨key, branch, synthetic, hkey, hstored, hlinked, hscope, hrerouted⟩ := h.rerouted hmore
    exact ⟨hparent, fun height hlow hhigh => hrerouted.resolves hlow hhigh,
      fun _ => ⟨key, branch, synthetic, hkey, hstored, hlinked, hscope, hrerouted.getBlockBranch⟩,
      fun _ => resolves_left_out (h.lost (intact + 1) (by omega) (by omega)) hrerouted⟩

end Gap

section Examples

/-- Blocks 1 to 5 of a chain are on one branch. -/
def lineStorage : LocalStorage (Nat × Nat) (ForkLocalDepot Nat) :=
  run (ForkEvent.apply forkTree ⟨4, 4⟩) LocalStorage.empty
    [.execute (0, 3) false, .execute (0, 4) false, .execute (0, 5) false, .execute (0, 6) false]

/-- The line after the entries of some of its blocks are lost. -/
def lostLine (heights : List Nat) : LocalStorage (Nat × Nat) (ForkLocalDepot Nat) :=
  run (ForkEvent.apply forkTree ⟨4, 4⟩) lineStorage (heights.map fun height => .loseBlock (0, height))

/-- The parent of block 5 alone is lost. The walk passes over block 3 and ends on block 2. -/
example :
    GapClosed (forkTree.view (0, 6)) (lostLine [4])
      (parentBranchHashUnavailable ⟨4, 4⟩ (forkTree.view (0, 6)) 5 (lostLine [4])) 5 3 := by
  have hgrandparent : NearestIntact ⟨4, 4⟩ (forkTree.view (0, 6)) (lostLine [4]) 5 3 :=
    ⟨by decide, by decide, rfl, fun height hlow hhigh => by omega⟩
  have holder : NearestIntact ⟨4, 4⟩ (forkTree.view (0, 6)) (lostLine [4]) 4 2 :=
    ⟨by decide, by decide, rfl, fun height hlow hhigh => by omega⟩
  exact (gap_closed_iff hgrandparent).mpr (.inl ⟨rfl, 2, holder, rfl⟩)

/-- The parent of block 5 and its parent are lost. -/
theorem lostLine_nearest : NearestIntact ⟨4, 4⟩ (forkTree.view (0, 6)) (lostLine [3, 4]) 5 2 := by
  refine ⟨by decide, by decide, rfl, fun height hlow hhigh => ?_⟩
  obtain rfl : height = 3 := by omega
  nofun

theorem gap_rebuilt_above_hole :
    GapRebuilt (forkTree.view (0, 6)) (lostLine [3, 4])
      (parentBranchHashUnavailable ⟨4, 4⟩ (forkTree.view (0, 6)) 5 (lostLine [3, 4])) 5 2 :=
  gap_rebuilt lostLine_nearest

/-- The rebuild starts at block 4. -/
theorem gap_leaves_hole :
    NearestIntact ⟨4, 4⟩ (forkTree.view (0, 6)) (lostLine [3, 4]) 5 2 ∧
      ¬(lostLine [3, 4]).Resolves ((forkTree.view (0, 6)).hash 4) ∧
      ¬GapClosed (forkTree.view (0, 6)) (lostLine [3, 4])
        (parentBranchHashUnavailable ⟨4, 4⟩ (forkTree.view (0, 6)) 5 (lostLine [3, 4])) 5 2 := by
  refine ⟨lostLine_nearest, nofun, fun hclosed => ?_⟩
  exact absurd (hclosed.resolves 3 (by decide) (by decide)) nofun

end Examples

end FrameSuite
