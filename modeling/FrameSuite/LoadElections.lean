import FrameSuite.ElectionModels
import FrameSuite.GreedyRanking

/-! The models that balance loads take the first candidate of least load again and again. Which backers
share a load is decided by their order, so the order has to agree with their equality. The models also ask
for a hash of the backers, which the pallet's funders do not have: their order never decides a load. -/

namespace FrameSuite

variable {C B V : Type} [AddCommMonoid V]

section Reference

variable [LinearOrder V]

/-- The largest load of one of the backers once the candidate is chosen. -/
def heaviest (contribution : V → V) (load : B → V) (fairweight : List (B × V)) : V :=
  (fairweight.map fun b => load b.1 + contribution b.2).foldl max 0

/-- The loads after a candidate is chosen, when each backer shares a load with those related to it. -/
def loaded (same : B → B → Prop) [DecidableRel same] (contribution : V → V) (load : B → V)
    (fairweight : List (B × V)) (backer : B) : V :=
  load backer + ((fairweight.filter fun b => same b.1 backer).map fun b => contribution b.2).sum

/-- The first of the candidates that load their backers least is taken, until none is left. -/
def LoadGreedy (same : B → B → Prop) [DecidableRel same] (contribution : V → V) (load : B → V) :
    FairInput C B V → FairInput C B V → Prop :=
  Greedy (fun load c => heaviest contribution load c.2) (fun load c => loaded same contribution load c.2) load

end Reference

section Loads

variable {cmp : B → B → Ordering} {contribution : V → V} {load : LoadMap B V cmp} {held : B → V}

/-- The map holds the load of every backer that it has a key for, and others have none. -/
def Holds (load : LoadMap B V cmp) (held : B → V) : Prop := ∀ b, load[b]?.getD 0 = held b

def Covers (load : LoadMap B V cmp) (input : FairInput C B V) : Prop :=
  ∀ c ∈ input, ∀ b ∈ c.2, b.1 ∈ load

omit [AddCommMonoid V] in
theorem Covers.mono {input input' : FairInput C B V} (h : Covers load input) (hs : input' ⊆ input) :
    Covers load input' :=
  fun c hc => h c (hs hc)

variable [Std.TransCmp cmp]

theorem Holds.get {b : B} (h : Holds load held) (hb : b ∈ load) :
    load[b]? = some (held b) := by
  obtain ⟨v, hv⟩ := Option.isSome_iff_exists.mp (Std.TreeMap.mem_iff_isSome_getElem?.mp hb)
  rw [hv, ← h b, hv]
  rfl

theorem addLoads_holds (contribution : V → V) (h : Holds load held) (fairweight : List (B × V)) :
    Holds (addLoads contribution load fairweight)
      (loaded (fun a b => cmp a b = .eq) contribution held fairweight) := by
  induction fairweight generalizing load held with
  | nil => exact fun b => by simp [addLoads, loaded, h b]
  | cons b fairweight ih =>
    have hstep : Holds (load.alter b.1 fun held => some (held.getD 0 + contribution b.2))
        (loaded (fun a b => cmp a b = .eq) contribution held [b]) := by
      intro k
      rw [Std.TreeMap.getElem?_alter, loaded]
      by_cases hk : cmp b.1 k = .eq
      · have hsame : load[b.1]? = load[k]? := Std.TreeMap.getElem?_congr hk
        simp [hk, hsame, h k]
      · simp [hk, h k]
    intro k
    have hrest := ih hstep k
    rw [addLoads, List.foldl_cons, ← addLoads, hrest]
    by_cases hk : cmp b.1 k = .eq
    · simp [loaded, hk, add_assoc]
    · simp [loaded, hk]

theorem addLoads_covers {input : FairInput C B V} (h : Covers load input) (fairweight : List (B × V)) :
    Covers (addLoads contribution load fairweight) input := by
  induction fairweight generalizing load with
  | nil => exact h
  | cons b fairweight ih =>
    refine ih fun c hc b' hb' => ?_
    rw [Std.TreeMap.mem_alter]
    split
    · rfl
    · exact h c hc b' hb'

theorem emptyLoads_spec (fairweight : List (B × V)) (h : Holds load fun _ => 0) :
    Holds (fairweight.foldl (fun load b => load.insertIfNew b.1 0) load) (fun _ => 0) ∧
      ∀ k, k ∈ fairweight.foldl (fun load b => load.insertIfNew b.1 0) load ↔
        (∃ b ∈ fairweight, cmp b.1 k = .eq) ∨ k ∈ load := by
  induction fairweight generalizing load with
  | nil => exact ⟨h, fun k => by simp⟩
  | cons b fairweight ih =>
    have hstep : Holds (load.insertIfNew b.1 0) fun _ => 0 := by
      intro k
      rw [Std.TreeMap.getElem?_insertIfNew]
      split
      · rfl
      · exact h k
    obtain ⟨hholds, hmem⟩ := ih hstep
    refine ⟨hholds, fun k => ?_⟩
    rw [List.foldl_cons, hmem, Std.TreeMap.mem_insertIfNew, ← or_assoc]
    simp [or_comm]

theorem initialLoads_spec (cmp : B → B → Ordering) [Std.TransCmp cmp] (input : FairInput C B V) :
    Holds (initialLoads cmp input) (fun _ => 0) ∧ Covers (initialLoads cmp input) input := by
  have hall : ∀ load : LoadMap B V cmp, (Holds load fun _ => 0) →
      Holds (input.foldl (fun load c => c.2.foldl (fun load b => load.insertIfNew b.1 0) load) load)
          (fun _ => 0) ∧
        ∀ k, k ∈ load ∨ (∃ c ∈ input, ∃ b ∈ c.2, b.1 = k) →
          k ∈ input.foldl (fun load c => c.2.foldl (fun load b => load.insertIfNew b.1 0) load) load := by
    induction input with
    | nil => exact fun load h => ⟨h, fun k hk => by simpa using hk⟩
    | cons c input ih =>
      intro load h
      obtain ⟨hholds, hmem⟩ := emptyLoads_spec c.2 h
      obtain ⟨hrest, hcovers⟩ := ih _ hholds
      refine ⟨hrest, fun k hk => hcovers k ?_⟩
      rw [hmem]
      rcases hk with hk | ⟨c', hc', b, hb, rfl⟩
      · exact .inl (.inr hk)
      · rcases List.mem_cons.mp hc' with rfl | hc'
        · exact .inl (.inl ⟨b, hb, Std.ReflCmp.compare_self⟩)
        · exact .inr ⟨c', hc', b, hb, rfl⟩
  obtain ⟨hholds, hcovers⟩ := hall ∅ fun k => by simp
  exact ⟨hholds, fun c hc b hb => hcovers b.1 (.inr ⟨c, hc, b, hb, rfl⟩)⟩

variable [LinearOrder V]

theorem maxLoad_eq (contribution : V → V) {fairweight : List (B × V)} (h : Holds load held)
    (hc : ∀ b ∈ fairweight, b.1 ∈ load) :
    maxLoad contribution load fairweight = some (heaviest contribution held fairweight) := by
  have hfold : ∀ most, fairweight.foldlM (fun most b => do
      let held ← load[b.1]?
      let newLoad := held + contribution b.2
      pure (if most < newLoad then newLoad else most)) most =
        some ((fairweight.map fun b => held b.1 + contribution b.2).foldl max most) := by
    induction fairweight with
    | nil => exact fun most => rfl
    | cons b fairweight ih =>
      intro most
      have hb := h.get (hc b (List.mem_cons_self ..))
      have hmax : (if most < held b.1 + contribution b.2 then held b.1 + contribution b.2 else most) =
          max most (held b.1 + contribution b.2) := by
        rw [max_def_lt]
      rw [List.foldlM_cons, hb, List.map_cons, List.foldl_cons,
        ← ih fun b' hb' => hc b' (List.mem_cons_of_mem _ hb'), ← hmax]
      rfl
  rw [maxLoad, hfold, heaviest]

theorem scan_firstLeast {before after rest : FairInput C B V} {best : C × List (B × V)} (h : Holds load held)
    (hc : Covers load rest)
    (hf : FirstLeast (fun c : C × List (B × V) => heaviest contribution held c.2) before best after) :
    ∃ before' best' after', before ++ best :: after ++ rest = before' ++ best' :: after' ∧
      FirstLeast (fun c : C × List (B × V) => heaviest contribution held c.2) before' best' after' ∧
      rest.foldlM (fun best c => do
        let most ← maxLoad contribution load c.2
        match best with
        | none => pure (some (c.1, most))
        | some b => pure (if most < b.2 then some (c.1, most) else some b))
          (some (best.1, heaviest contribution held best.2)) =
        some (some (best'.1, heaviest contribution held best'.2)) := by
  induction rest generalizing before best after with
  | nil => exact ⟨before, best, after, by simp, hf, rfl⟩
  | cons c rest ih =>
    have hcost := maxLoad_eq contribution h (hc c (List.mem_cons_self ..))
    have hrest : Covers load rest := hc.mono (List.subset_cons_self ..)
    rw [List.foldlM_cons, hcost]
    by_cases hlt : heaviest contribution held c.2 < heaviest contribution held best.2
    · obtain ⟨before', best', after', heq, hf', hfold⟩ := ih hrest (hf.replace hlt)
      refine ⟨before', best', after', by simpa using heq, hf', ?_⟩
      rw [← hfold]
      simp [hlt]
    · obtain ⟨before', best', after', heq, hf', hfold⟩ := ih hrest (hf.keep (not_lt.mp hlt))
      refine ⟨before', best', after', by simpa using heq, hf', ?_⟩
      rw [← hfold]
      simp [hlt]

theorem bestCandidate_eq (contribution : V → V) {c : C × List (B × V)} {remaining : FairInput C B V}
    (h : Holds load held) (hc : Covers load (c :: remaining)) :
    ∃ before best after, c :: remaining = before ++ best :: after ∧
      FirstLeast (fun c : C × List (B × V) => heaviest contribution held c.2) before best after ∧
      bestCandidate contribution load (c :: remaining) =
        some (some (best.1, heaviest contribution held best.2)) := by
  have hcost := maxLoad_eq contribution h (hc c (List.mem_cons_self ..))
  have hfirst : FirstLeast (fun c : C × List (B × V) => heaviest contribution held c.2) [] c [] :=
    ⟨by simp, by simp⟩
  obtain ⟨before, best, after, heq, hf, hfold⟩ := scan_firstLeast h (hc.mono (List.subset_cons_self ..)) hfirst
  refine ⟨before, best, after, by simpa using heq, hf, ?_⟩
  rw [bestCandidate, List.foldlM_cons, hcost, ← hfold]
  rfl

theorem rankRemaining_greedy [DecidableEq C] {input : FairInput C B V} {fuel : Nat} (hf : input.length ≤ fuel)
    (hd : (input.map Prod.fst).Nodup) (h : Holds load held) (hc : Covers load input) :
    ∃ ranked, LoadGreedy (fun a b => cmp a b = .eq) contribution held input ranked ∧
      rankRemaining contribution fuel load input = some (ranked.map Prod.fst) := by
  induction fuel generalizing load held input with
  | zero =>
    obtain rfl := List.eq_nil_of_length_eq_zero (Nat.le_zero.mp hf)
    exact ⟨[], .nil, rfl⟩
  | succ fuel ih =>
    cases input with
    | nil => exact ⟨[], .nil, rfl⟩
    | cons c remaining =>
      obtain ⟨before, best, after, heq, hfirst, hbest⟩ := bestCandidate_eq contribution h hc
      have hsub : before ++ after ⊆ c :: remaining := by
        rw [heq]
        exact fun i hi => List.perm_middle.symm.subset (List.mem_cons_of_mem best hi)
      have hnames := hd
      rw [heq, List.map_append, List.map_cons, List.nodup_middle] at hnames
      obtain ⟨hnot, hnodup⟩ := List.nodup_cons.mp hnames
      have hindex : (c :: remaining).findIdx? (fun other => other.1 = best.1) = some before.length := by
        have hnone : before.findIdx? (fun other => other.1 = best.1) = none := by
          refine List.findIdx?_eq_none_iff.mpr fun other ho => decide_eq_false fun he => hnot ?_
          exact List.mem_append_left _ (he ▸ List.mem_map_of_mem ho)
        rw [heq, List.findIdx?_append, hnone, List.findIdx?_cons]
        simp
      have hlength : (before ++ after).length ≤ fuel := by
        have := congrArg List.length heq
        simp at this hf ⊢
        omega
      obtain ⟨ranked, hrest, hrank⟩ := ih hlength (by rwa [List.map_append])
        (addLoads_holds contribution h best.2) (addLoads_covers (hc.mono hsub) best.2)
      refine ⟨best :: ranked, ?_, ?_⟩
      · rw [heq]
        exact .cons hfirst hrest
      · have hget : (c :: remaining)[before.length]? = some best := by simp [heq]
        have herase : (c :: remaining).eraseIdx before.length = before ++ after := by
          rw [heq, List.eraseIdx_append_of_length_le (Nat.le_refl _)]
          simp
        rw [rankRemaining, hbest]
        simp only [Option.bind_eq_bind, Option.bind_some]
        rw [hindex, Option.bind_some, hget, Option.bind_some, herase, hrank]
        rfl

theorem rankByLoad_greedy [DecidableEq C] (cmp : B → B → Ordering) [Std.TransCmp cmp] (contribution : V → V)
    {input : FairInput C B V} (hd : (input.map Prod.fst).Nodup) :
    ∃ ranked, LoadGreedy (fun a b => cmp a b = .eq) contribution (fun _ => 0) input ranked ∧
      rankByLoad cmp contribution input = some (ranked.map Prod.fst) := by
  obtain ⟨hholds, hcovers⟩ := initialLoads_spec cmp input
  exact rankRemaining_greedy (Nat.le_refl _) hd hholds hcovers

end Loads

section Reference

/-- The loads agree on the backers that matter, when these share a load only with themselves. -/
theorem LoadGreedy.of_separated [LinearOrder V] {same same' : B → B → Prop} [DecidableRel same]
    [DecidableRel same'] {backers : Set B} {contribution : V → V} {load : B → V} {input ranked : FairInput C B V}
    (hsame : ∀ a ∈ backers, ∀ b ∈ backers, same a b ↔ same' a b)
    (h : LoadGreedy same contribution load input ranked) (hb : ∀ c ∈ input, ∀ b ∈ c.2, b.1 ∈ backers) :
    LoadGreedy same' contribution load input ranked := by
  refine Greedy.simulate (R := fun load load' : B → V => ∀ b ∈ backers, load b = load' b)
    (Q := fun c => ∀ b ∈ c.2, b.1 ∈ backers) (fun load load' hr i hi j hj => ?_)
    (fun load load' hr i hi b hb => ?_) h (fun _ _ => rfl) hb
  · have hcost : ∀ k : C × List (B × V), (∀ b ∈ k.2, b.1 ∈ backers) →
        heaviest contribution load k.2 = heaviest contribution load' k.2 := by
      intro k hk
      unfold heaviest
      rw [List.map_congr_left fun b hb => by rw [hr b.1 (hk b hb)]]
    rw [hcost i hi, hcost j hj]
  · unfold loaded
    have hfilter : i.2.filter (fun a => decide (same a.1 b)) = i.2.filter fun a => decide (same' a.1 b) :=
      List.filter_congr fun a ha => by rw [decide_eq_decide]; exact hsame a.1 (hi a ha) b hb
    rw [hr b hb, hfilter]

theorem LoadGreedy.scaled {same : B → B → Prop} [DecidableRel same] {scale : Nat} (hs : 0 < scale)
    {input ranked : FairInput C B Nat} (h : LoadGreedy same (· * scale) (fun _ => 0) input ranked) :
    LoadGreedy same id (fun _ => 0) input ranked := by
  refine Greedy.simulate (R := fun load load' : B → Nat => ∀ b, load b = load' b * scale) (Q := fun _ => True)
    (fun load load' hr i _ j _ => ?_) (fun load load' hr i _ b => ?_) h (fun _ => (Nat.zero_mul _).symm)
    fun _ _ => trivial
  · have hcost : ∀ fairweight : List (B × Nat),
        heaviest (· * scale) load fairweight = heaviest id load' fairweight * scale := by
      intro fairweight
      have hfold : ∀ most : Nat, (fairweight.map fun b => load b.1 + b.2 * scale).foldl max (most * scale) =
          (fairweight.map fun b => load' b.1 + b.2).foldl max most * scale := by
        induction fairweight with
        | nil => exact fun most => rfl
        | cons b fairweight ih =>
          intro most
          rw [List.map_cons, List.foldl_cons, List.map_cons, List.foldl_cons, ← ih, hr b.1, ← Nat.add_mul,
            Nat.mul_max_mul_right]
      have hzero := hfold 0
      rwa [Nat.zero_mul] at hzero
    rw [hcost, hcost]
    exact Nat.mul_le_mul_right_iff hs
  · have hsum : ∀ fairweight : List (B × Nat), (fairweight.map fun b => b.2 * scale).sum =
        (fairweight.map fun b => b.2).sum * scale := by
      intro fairweight
      exact List.sum_map_mul_right ..
    unfold loaded
    rw [hr b, hsum, ← Nat.add_mul]
    rfl

end Reference

section Models

/-- Distinct candidates, each with distinct backers. -/
def FairInput.Distinct (input : FairInput C B V) : Prop :=
  (input.map Prod.fst).Nodup ∧ ∀ c ∈ input, (c.2.map Prod.fst).Nodup

/-- The output ranks all candidates greedily, by loads of which equal backers and no others share one. -/
def FollowsReference [DecidableEq B] (contribution : Nat → Nat) (input : FairInput C B Nat)
    (output : Option (List C)) : Prop :=
  ∃ ranked : FairInput C B Nat, output = some (ranked.map Prod.fst) ∧
    (ranked.map Prod.fst).Perm (input.map Prod.fst) ∧
    LoadGreedy (· = ·) contribution (fun _ => 0) input ranked

/-- On all candidates with these backers both models follow the reference, agree without weights, and do not
depend on a scale. -/
def LoadModelsFollow [DecidableEq B] (cmp : B → B → Ordering) (backers : Set B) : Prop :=
  ∀ (C : Type) [DecidableEq C] (input : FairInput C B Nat), input.Distinct →
    (∀ c ∈ input, ∀ b ∈ c.2, b.1 ∈ backers) →
    FollowsReference id input (maxMinLoadModel cmp input) ∧
    (∀ ctx : PhragmenConfig Nat, FollowsReference ctx.contribution input (phragmenModel cmp ctx input)) ∧
    (∀ ctx : PhragmenConfig Nat, ctx.weighted = false →
      phragmenModel cmp ctx input = maxMinLoadModel cmp input) ∧
    ∀ scale, 0 < scale →
      phragmenModel cmp { weighted := true, scale := some scale } input =
        phragmenModel cmp { weighted := true, scale := none } input

theorem phragmen_unweighted [DecidableEq C] (cmp : B → B → Ordering) {ctx : PhragmenConfig Nat}
    (h : ctx.weighted = false) (input : FairInput C B Nat) :
    phragmenModel cmp ctx input = maxMinLoadModel cmp input := by
  have hcontribution : ctx.contribution = id := by
    funext backed
    simp [PhragmenConfig.contribution, h]
  rw [phragmenModel, hcontribution, maxMinLoadModel]

theorem phragmen_scaled [DecidableEq C] (cmp : B → B → Ordering) [Std.TransCmp cmp] {scale : Nat} (hs : 0 < scale)
    {input : FairInput C B Nat} (hd : (input.map Prod.fst).Nodup) :
    phragmenModel cmp { weighted := true, scale := some scale } input =
      phragmenModel cmp { weighted := true, scale := none } input := by
  obtain ⟨ranked, hgreedy, hrank⟩ := rankByLoad_greedy cmp (· * scale) hd
  obtain ⟨plain, hgreedy', hplain⟩ := rankByLoad_greedy cmp id hd
  have hsame := (hgreedy.scaled hs).unique hgreedy'
  have hleft : phragmenModel cmp { weighted := true, scale := some scale } input =
      some (ranked.map Prod.fst) := hrank
  have hright : phragmenModel cmp { weighted := true, scale := none } input = some (plain.map Prod.fst) := hplain
  rw [hleft, hright, hsame]

theorem rankByLoad_follows [DecidableEq B] [DecidableEq C] {cmp : B → B → Ordering} [Std.TransCmp cmp]
    {backers : Set B} (hcmp : ∀ a ∈ backers, ∀ b ∈ backers, cmp a b = .eq → a = b)
    (contribution : Nat → Nat) {input : FairInput C B Nat} (hd : (input.map Prod.fst).Nodup)
    (hb : ∀ c ∈ input, ∀ b ∈ c.2, b.1 ∈ backers) :
    FollowsReference contribution input (rankByLoad cmp contribution input) := by
  obtain ⟨ranked, hgreedy, hrank⟩ := rankByLoad_greedy cmp contribution hd
  refine ⟨ranked, hrank, hgreedy.perm.map Prod.fst, hgreedy.of_separated (fun a ha b hb => ?_) hb⟩
  exact ⟨hcmp a ha b hb, fun he => he ▸ Std.ReflCmp.compare_self⟩

/-- Candidates that tell whether two backers share a load: the second one shares its backer with the first. -/
def sharedTest (a b : B) : FairInput Nat B Nat := [(0, [(a, 1)]), (1, [(a, 3)]), (2, [(b, 3)])]

theorem sharedTest_shared {same : B → B → Prop} [DecidableRel same] {a b : B} (haa : same a a) (hab : same a b) :
    LoadGreedy same id (fun _ => 0) (sharedTest a b) (sharedTest a b) := by
  refine .head ?_ (.head ?_ (.head ?_ .nil))
  · simp [heaviest]
  · simp [heaviest, loaded, haa, hab]
  · simp

theorem sharedTest_apart {same : B → B → Prop} [DecidableRel same] {a b : B} (haa : same a a) (hab : ¬same a b) :
    LoadGreedy same id (fun _ => 0) (sharedTest a b) [(0, [(a, 1)]), (2, [(b, 3)]), (1, [(a, 3)])] := by
  refine .head ?_ ?_
  · simp [heaviest]
  · refine Greedy.cons (show FirstLeast _ [(1, [(a, 3)])] (2, [(b, 3)]) [] from ⟨?_, by simp⟩)
      (.head (by simp) .nil)
    simp [heaviest, loaded, haa, hab]

/-- An order by which two of the backers are equal makes them share a load. -/
theorem LoadModelsFollow.order_separates [DecidableEq B] {cmp : B → B → Ordering} [Std.TransCmp cmp]
    {backers : Set B} (h : LoadModelsFollow cmp backers) {a b : B} (ha : a ∈ backers) (hb : b ∈ backers)
    (he : cmp a b = .eq) : a = b := by
  by_contra hne
  have hdistinct : (sharedTest a b).Distinct := by
    refine ⟨by simp [sharedTest], fun c hc => ?_⟩
    simp only [sharedTest, List.mem_cons, List.not_mem_nil, or_false] at hc
    rcases hc with rfl | rfl | rfl <;> simp
  have hbackers : ∀ c ∈ sharedTest a b, ∀ b' ∈ c.2, b'.1 ∈ backers := by
    intro c hc
    simp only [sharedTest, List.mem_cons, List.not_mem_nil, or_false] at hc
    rcases hc with rfl | rfl | rfl <;> simpa
  obtain ⟨ranked, hrank, -, hreference⟩ := (h Nat (sharedTest a b) hdistinct hbackers).1
  obtain ⟨ranked', hgreedy, hrank'⟩ := rankByLoad_greedy cmp (id : Nat → Nat) hdistinct.1
  have hshared := hgreedy.unique (sharedTest_shared Std.ReflCmp.compare_self he)
  have hapart := hreference.unique (sharedTest_apart rfl hne)
  have hsame : ranked.map Prod.fst = ranked'.map Prod.fst :=
    Option.some.inj (hrank.symm.trans hrank')
  rw [hshared, hapart] at hsame
  simp [sharedTest] at hsame

/-- Both models follow the reference for all backers whose order agrees with their equality. -/
theorem loadModels_follow [DecidableEq B] {cmp : B → B → Ordering} [Std.TransCmp cmp] {backers : Set B}
    (hcmp : ∀ a ∈ backers, ∀ b ∈ backers, cmp a b = .eq → a = b) : LoadModelsFollow cmp backers := by
  intro C _ input hd hb
  exact ⟨rankByLoad_follows hcmp id hd.1 hb, fun ctx => rankByLoad_follows hcmp ctx.contribution hd.1 hb,
    fun ctx hw => phragmen_unweighted cmp hw input, fun scale hs => phragmen_scaled cmp hs hd.1⟩

/-- Backers named by numbers: all of them, and the candidates above, of whom the third bears less than the second. -/
theorem loadModels_follow_numbers :
    LoadModelsFollow (compare : Nat → Nat → Ordering) Set.univ ∧
      maxMinLoadModel compare (sharedTest 3 4) = some [0, 2, 1] :=
  ⟨loadModels_follow fun _ _ _ _ he => Nat.compare_eq_eq.mp he, by decide⟩

end Models

end FrameSuite
