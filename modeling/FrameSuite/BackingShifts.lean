import FrameSuite.LoadElections

/-! How more backing moves a candidate: up by its total, up by total and average unless a new backer lowers
the average too much, and down where the loads of the backers are balanced. -/

namespace FrameSuite

variable {C B : Type}

/-- One backer contributes more, or a new one contributes something. -/
inductive MoreBacking : List (B × Nat) → List (B × Nat) → Prop
  | raised {before after : List (B × Nat)} {backer : B} {x y : Nat} (h : x ≤ y) :
      MoreBacking (before ++ (backer, x) :: after) (before ++ (backer, y) :: after)
  | joined {before after : List (B × Nat)} {backer : B} {x : Nat}
      (hn : backer ∉ (before ++ after).map Prod.fst) (hx : 0 < x) :
      MoreBacking (before ++ after) (before ++ (backer, x) :: after)

def FairInput.withBacking [DecidableEq C] (input : FairInput C B Nat) (candidate : C)
    (fairweight : List (B × Nat)) : FairInput C B Nat :=
  input.map fun c => if c.1 = candidate then (candidate, fairweight) else c

section Input

variable [DecidableEq C] {input : FairInput C B Nat} {c : C} {fairweight fairweight' : List (B × Nat)}

@[simp] theorem withBacking_names (input : FairInput C B Nat) (c : C) (fairweight : List (B × Nat)) :
    (input.withBacking c fairweight).map Prod.fst = input.map Prod.fst := by
  unfold FairInput.withBacking
  rw [List.map_map]
  refine List.map_congr_left fun e _ => ?_
  by_cases h : e.1 = c <;> simp [h]

theorem mem_withBacking_self (h : (c, fairweight) ∈ input) :
    (c, fairweight') ∈ input.withBacking c fairweight' :=
  List.mem_map.mpr ⟨_, h, if_pos rfl⟩

theorem mem_withBacking_of_ne {e : C × List (B × Nat)} (h : e ∈ input) (hne : e.1 ≠ c) :
    e ∈ input.withBacking c fairweight' :=
  List.mem_map.mpr ⟨e, h, if_neg hne⟩

theorem withBacking_eq (fairweight' : List (B × Nat)) (hd : (input.map Prod.fst).Nodup)
    (h : (c, fairweight) ∈ input) :
    ∃ before after, input = before ++ (c, fairweight) :: after ∧
      input.withBacking c fairweight' = before ++ (c, fairweight') :: after ∧
      c ∉ (before ++ after).map Prod.fst := by
  obtain ⟨before, after, rfl⟩ := List.append_of_mem h
  rw [List.map_append, List.map_cons, List.nodup_middle] at hd
  have hnot : c ∉ (before ++ after).map Prod.fst := by
    rw [List.map_append]
    exact (List.nodup_cons.mp hd).1
  have hkeep : ∀ part ⊆ before ++ after,
      part.map (fun e => if e.1 = c then (c, fairweight') else e) = part := by
    intro part hpart
    have hid : part.map (fun e => if e.1 = c then (c, fairweight') else e) = part.map id :=
      List.map_congr_left fun e he => if_neg fun (hc : e.1 = c) => hnot (hc ▸ List.mem_map_of_mem (hpart he))
    rw [hid, List.map_id]
  refine ⟨before, after, rfl, ?_, hnot⟩
  unfold FairInput.withBacking
  rw [List.map_append, List.map_cons, if_pos rfl, hkeep before (List.subset_append_left ..),
    hkeep after (List.subset_append_right ..)]

end Input

section Scores

variable {score : List (B × Nat) → Nat} {input : FairInput C B Nat} {c d : C} {wc wd : List (B × Nat)}

theorem Precedes.of_map {α β : Type} {f : α → β} {ranking : List α} {a b : α} (hd : (ranking.map f).Nodup)
    (ha : a ∈ ranking) (hb : b ∈ ranking) (hne : a ≠ b) (h : Precedes (ranking.map f) (f a) (f b)) :
    Precedes ranking a b := by
  refine (total ha hb hne).resolve_right fun hba => asymm hd h ?_
  exact List.Sublist.map f hba

theorem precedes_rankByScore (hd : (input.map Prod.fst).Nodup) (hc : (c, wc) ∈ input) (hdm : (d, wd) ∈ input)
    (hne : c ≠ d) :
    Precedes (rankByScore score input) c d ↔
      score wd < score wc ∨ score wd = score wc ∧ Precedes (input.map Prod.fst) c d := by
  let larger : C × Nat → C × Nat → Prop := fun a b => b.2 ≤ a.2
  have : Std.Total larger := ⟨fun a b => Nat.le_total b.2 a.2⟩
  have : IsTrans (C × Nat) larger := ⟨fun a b c hab hbc => Nat.le_trans hbc hab⟩
  let items := input.map fun e => (e.1, score e.2)
  let sorted := items.insertionSort larger
  have hnames : items.map Prod.fst = input.map Prod.fst := by simp [items, Function.comp_def]
  have hperm : sorted.Perm items := List.perm_insertionSort ..
  have hnodup : (sorted.map Prod.fst).Nodup := (hperm.map Prod.fst).nodup_iff.mpr (hnames ▸ hd)
  have hx : (c, score wc) ∈ items := List.mem_map.mpr ⟨(c, wc), hc, rfl⟩
  have hy : (d, score wd) ∈ items := List.mem_map.mpr ⟨(d, wd), hdm, rfl⟩
  have hxy : (c, score wc) ≠ (d, score wd) := fun he => hne (congrArg Prod.fst he)
  have hsorted {a b : C × Nat} (h : Precedes sorted a b) : b.2 ≤ a.2 :=
    List.pairwise_iff_forall_sublist.mp (List.pairwise_insertionSort larger items) h
  have hstable {a b : C × Nat} (hab : b.2 ≤ a.2) (h : Precedes items a b) : Precedes sorted a b :=
    List.pair_sublist_insertionSort (r := larger) hab h
  have hnodup' : sorted.Nodup := hnodup.of_map _
  change Precedes (sorted.map Prod.fst) c d ↔ _
  constructor
  · intro h
    have hpair : Precedes sorted (c, score wc) (d, score wd) :=
      Precedes.of_map hnodup (hperm.mem_iff.mpr hx) (hperm.mem_iff.mpr hy) hxy h
    rcases Nat.lt_or_eq_of_le (hsorted hpair) with hlt | heq
    · exact .inl hlt
    · refine .inr ⟨heq, ?_⟩
      rw [← hnames]
      refine List.Sublist.map Prod.fst ((Precedes.total hx hy hxy).resolve_right fun hyx => ?_)
      exact hpair.asymm hnodup' (hstable heq.ge hyx)
  · intro h
    have hpair : Precedes sorted (c, score wc) (d, score wd) := by
      rcases h with hlt | ⟨heq, hpre⟩
      · refine (Precedes.total (hperm.mem_iff.mpr hx) (hperm.mem_iff.mpr hy) hxy).resolve_right fun hyx => ?_
        exact absurd (hsorted hyx) (not_le.mpr hlt)
      · rw [← hnames] at hpre
        exact hstable heq.le (Precedes.of_map (hnames ▸ hd) hx hy hxy hpre)
    exact List.Sublist.map Prod.fst hpair

variable [DecidableEq C]

theorem rankByScore_keeps {wc' : List (B × Nat)} (hd : (input.map Prod.fst).Nodup) (hc : (c, wc) ∈ input)
    (hscore : score wc ≤ score wc') (h : Precedes (rankByScore score input) c d) :
    Precedes (rankByScore score (input.withBacking c wc')) c d := by
  have hperm : (rankByScore score input).Perm (input.map Prod.fst) := by
    refine ((List.perm_insertionSort ..).map Prod.fst).trans (List.Perm.of_eq ?_)
    simp [Function.comp_def]
  have hne : c ≠ d := by
    rintro rfl
    exact h.asymm (hperm.nodup_iff.mpr hd) h
  obtain ⟨e, he, rfl⟩ := List.mem_map.mp (hperm.mem_iff.mp h.right)
  obtain ⟨d, wd⟩ := e
  have hd' : ((input.withBacking c wc').map Prod.fst).Nodup := (withBacking_names input c wc').symm ▸ hd
  have hnew : Precedes (rankByScore score (input.withBacking c wc')) c d ↔ _ :=
    precedes_rankByScore hd' (mem_withBacking_self hc) (mem_withBacking_of_ne he (Ne.symm hne)) hne
  rw [withBacking_names] at hnew
  rcases (precedes_rankByScore hd hc he hne).mp h with hlt | ⟨heq, hpre⟩
  · exact hnew.mpr (.inl (Nat.lt_of_lt_of_le hlt hscore))
  · rcases Nat.lt_or_eq_of_le hscore with hlt | hsame
    · exact hnew.mpr (.inl (heq ▸ hlt))
    · exact hnew.mpr (.inr ⟨heq.trans hsame, hpre⟩)

end Scores

section Totals

variable {fairweight fairweight' : List (B × Nat)}

theorem totalBacked_eq (maxBacked : Nat) (fairweight : List (B × Nat)) :
    totalBacked maxBacked fairweight = min (fairweight.map Prod.snd).sum maxBacked := by
  have hfold : ∀ total ≤ maxBacked, fairweight.foldl (fun total b => saturatingAdd maxBacked total b.2) total =
      min (total + (fairweight.map Prod.snd).sum) maxBacked := by
    induction fairweight with
    | nil => exact fun total h => (Nat.min_eq_left h).symm
    | cons b fairweight ih =>
      intro total h
      rw [List.foldl_cons, ih (saturatingAdd maxBacked total b.2) (Nat.min_le_right ..), List.map_cons, List.sum_cons]
      unfold saturatingAdd
      omega
  rw [totalBacked, hfold 0 (Nat.zero_le _), Nat.zero_add]

theorem MoreBacking.sum_le (h : MoreBacking fairweight fairweight') :
    (fairweight.map Prod.snd).sum ≤ (fairweight'.map Prod.snd).sum := by
  cases h with
  | raised h => simpa using h
  | joined hn hx => simp

theorem MoreBacking.total_le (maxBacked : Nat) (h : MoreBacking fairweight fairweight') :
    totalBacked maxBacked fairweight ≤ totalBacked maxBacked fairweight' := by
  rw [totalBacked_eq, totalBacked_eq]
  exact min_le_min_right maxBacked h.sum_le

theorem balancedScore_le (maxBacked : Nat) (hl : fairweight.length = fairweight'.length)
    (h : totalBacked maxBacked fairweight ≤ totalBacked maxBacked fairweight') :
    balancedScore maxBacked fairweight ≤ balancedScore maxBacked fairweight' := by
  have hempty : fairweight.isEmpty = fairweight'.isEmpty := by
    cases fairweight <;> cases fairweight' <;> simp at hl ⊢
  have hdiv := Nat.div_le_div_right (c := if fairweight'.isEmpty then 1 else fairweight'.length) h
  unfold balancedScore saturatingAdd
  dsimp only
  rw [hempty, hl]
  omega

end Totals

section Loads

variable {contribution : Nat → Nat} {fairweight fairweight' : List (B × Nat)}

theorem heaviest_le_iff {load : B → Nat} {bound : Nat} :
    heaviest contribution load fairweight ≤ bound ↔
      ∀ b ∈ fairweight, load b.1 + contribution b.2 ≤ bound := by
  have hfold : ∀ most, (fairweight.map fun b => load b.1 + contribution b.2).foldl max most ≤ bound ↔
      most ≤ bound ∧ ∀ b ∈ fairweight, load b.1 + contribution b.2 ≤ bound := by
    induction fairweight with
    | nil => simp
    | cons b fairweight ih =>
      intro most
      rw [List.map_cons, List.foldl_cons, ih]
      simp [and_assoc]
  rw [heaviest, hfold]
  simp

theorem MoreBacking.heaviest_le (hmono : Monotone contribution) (load : B → Nat)
    (h : MoreBacking fairweight fairweight') :
    heaviest contribution load fairweight ≤ heaviest contribution load fairweight' := by
  have hbound := heaviest_le_iff.mp (le_refl (heaviest contribution load fairweight'))
  refine heaviest_le_iff.mpr fun b hb => ?_
  cases h with
  | raised h =>
    rcases List.mem_append.mp hb with hb | hb
    · exact hbound b (List.mem_append_left _ hb)
    · rcases List.mem_cons.mp hb with rfl | hb
      · exact le_trans (Nat.add_le_add_left (hmono h) _) (hbound _ (List.mem_append_right _ (List.mem_cons_self ..)))
      · exact hbound b (List.mem_append_right _ (List.mem_cons_of_mem _ hb))
  | joined hn hx =>
    refine hbound b ?_
    rcases List.mem_append.mp hb with hb | hb
    · exact List.mem_append_left _ hb
    · exact List.mem_append_right _ (List.mem_cons_of_mem _ hb)

theorem contribution_mono (ctx : PhragmenConfig Nat) : Monotone ctx.contribution := by
  intro x y h
  unfold PhragmenConfig.contribution
  split
  · cases ctx.scale with
    | none => exact h
    | some scale => exact Nat.mul_le_mul_right scale h
  · exact h

variable [DecidableEq C] {cmp : B → B → Ordering} [Std.TransCmp cmp] {input : FairInput C B Nat} {c : C}

theorem rankByLoad_keeps (hmono : Monotone contribution) (hd : (input.map Prod.fst).Nodup)
    (hc : (c, fairweight) ∈ input) (h : MoreBacking fairweight fairweight') :
    ∃ ranking ranking', rankByLoad cmp contribution input = some ranking ∧
      rankByLoad cmp contribution (input.withBacking c fairweight') = some ranking' ∧
      ∀ d, Precedes ranking d c → Precedes ranking' d c := by
  obtain ⟨before, after, heq, heq', hnot⟩ := withBacking_eq fairweight' hd hc
  obtain ⟨ranked, hgreedy, hrank⟩ := rankByLoad_greedy cmp contribution hd
  have hd' : ((input.withBacking c fairweight').map Prod.fst).Nodup :=
    (withBacking_names input c fairweight').symm ▸ hd
  obtain ⟨ranked', hgreedy', hrank'⟩ := rankByLoad_greedy cmp contribution hd'
  refine ⟨_, _, hrank, hrank', fun d hdc => ?_⟩
  have hcost : ∀ load : B → Nat, heaviest contribution load (c, fairweight).2 ≤
      heaviest contribution load (c, fairweight').2 := fun load => h.heaviest_le hmono load
  have hnodup : (ranked.map Prod.fst).Nodup := (hgreedy.perm.map Prod.fst).nodup_iff.mpr hd
  rw [heq] at hgreedy
  rw [heq'] at hgreedy'
  have hmem : ∀ weights, (c, weights) ∉ before ++ after := fun weights hm => hnot (List.mem_map_of_mem hm)
  have hlast : (c, fairweight') ∈ ranked' := hgreedy'.perm.symm.subset (by simp)
  obtain ⟨first, rest, rest', rfl, rfl, hfirst⟩ := hgreedy.dearer hgreedy' hcost (hmem _) (hmem _)
  rw [List.map_append, List.map_cons] at hdc hnodup
  rw [List.map_append]
  have hrest : (c, fairweight') ∈ rest' := (List.mem_append.mp hlast).resolve_left hfirst
  exact .of_append (hdc.mem_of_append hnodup) (List.mem_map_of_mem hrest)

theorem rankByLoad_unbacked (contribution : Nat → Nat) {d : C} {wd : List (B × Nat)}
    (hd : (input.map Prod.fst).Nodup) (hc : (c, []) ∈ input) (hdm : (d, wd) ∈ input)
    (hpos : ∃ b ∈ wd, 0 < contribution b.2) :
    ∃ ranking, rankByLoad cmp contribution input = some ranking ∧ Precedes ranking c d := by
  obtain ⟨ranked, hgreedy, hrank⟩ := rankByLoad_greedy cmp contribution hd
  refine ⟨_, hrank, ?_⟩
  have hcost : ∀ load : B → Nat, heaviest contribution load (c, []).2 < heaviest contribution load (d, wd).2 := by
    intro load
    obtain ⟨b, hb, hb0⟩ := hpos
    have hle := heaviest_le_iff.mp (le_refl (heaviest contribution load wd)) b hb
    have hzero : heaviest contribution load [] = 0 := rfl
    dsimp only
    omega
  exact List.Sublist.map Prod.fst (hgreedy.precedes hcost hc hdm)

end Loads

section Models

variable [DecidableEq C] {input : FairInput C B Nat} {c d : C} {fairweight fairweight' wd : List (B × Nat)}

/-- In the ranking by load more backing leaves the candidate behind those that preceded it. -/
def KeepsBehind (model : FairInput C B Nat → Option (List C)) (input : FairInput C B Nat) (c : C)
    (fairweight : List (B × Nat)) : Prop :=
  ∃ ranking ranking', model input = some ranking ∧ model (input.withBacking c fairweight) = some ranking' ∧
    ∀ d, Precedes ranking d c → Precedes ranking' d c

/-- The candidate stays ahead of those it preceded. -/
def KeepsAhead (model : FairInput C B Nat → List C) (input : FairInput C B Nat) (c : C)
    (fairweight : List (B × Nat)) : Prop :=
  ∀ d, Precedes (model input) c d → Precedes (model (input.withBacking c fairweight)) c d

/-- More backing keeps a candidate ahead by its total, and by total and average unless a new backer lowers
these; by loads it keeps the candidate behind. One without backers is ahead of another only by the order
of the input where scores are equal, and always where loads are balanced. -/
theorem more_backing_shifts (cmp : B → B → Ordering) [Std.TransCmp cmp] (maxBacked : Nat)
    (ctx : PhragmenConfig Nat) (hd : input.Distinct) (hc : (c, fairweight) ∈ input)
    (hm : MoreBacking fairweight fairweight') :
    KeepsAhead (topDownFairModel maxBacked) input c fairweight' ∧
      (fairweight.length = fairweight'.length ∨
          balancedScore maxBacked fairweight ≤ balancedScore maxBacked fairweight' →
        KeepsAhead (balancedModel maxBacked) input c fairweight') ∧
      KeepsBehind (phragmenModel cmp ctx) input c fairweight' ∧
      KeepsBehind (maxMinLoadModel cmp) input c fairweight' ∧
      ∀ a b wb, (a, []) ∈ input → (b, wb) ∈ input → a ≠ b →
        (Precedes (topDownFairModel maxBacked input) a b →
          totalBacked maxBacked wb = 0 ∧ Precedes (input.map Prod.fst) a b) ∧
        (Precedes (balancedModel maxBacked input) a b →
          balancedScore maxBacked wb = 0 ∧ Precedes (input.map Prod.fst) a b) ∧
        ((∃ x ∈ wb, 0 < ctx.contribution x.2) →
          ∃ ranking, phragmenModel cmp ctx input = some ranking ∧ Precedes ranking a b) ∧
        ((∃ x ∈ wb, 0 < x.2) →
          ∃ ranking, maxMinLoadModel cmp input = some ranking ∧ Precedes ranking a b) := by
  refine ⟨fun d => rankByScore_keeps hd.1 hc (hm.total_le maxBacked), fun hscore d => ?_,
    rankByLoad_keeps (contribution_mono ctx) hd.1 hc hm, rankByLoad_keeps monotone_id hd.1 hc hm,
    fun a b wb ha hb hne => ⟨fun h => ?_, fun h => ?_, rankByLoad_unbacked ctx.contribution hd.1 ha hb,
      rankByLoad_unbacked id hd.1 ha hb⟩⟩
  · refine rankByScore_keeps hd.1 hc ?_
    exact hscore.elim (fun hl => balancedScore_le maxBacked hl (hm.total_le maxBacked)) id
  · rcases (precedes_rankByScore hd.1 ha hb hne).mp h with hlt | ⟨heq, hpre⟩
    · exact absurd hlt (Nat.not_lt_zero _)
    · exact ⟨heq, hpre⟩
  · have hzero : balancedScore maxBacked ([] : List (B × Nat)) = 0 := by
      simp [balancedScore, totalBacked, saturatingAdd]
    rcases (precedes_rankByScore hd.1 ha hb hne).mp h with hlt | ⟨heq, hpre⟩
    · rw [hzero] at hlt
      exact absurd hlt (Nat.not_lt_zero _)
    · exact ⟨heq.trans hzero, hpre⟩

/-- The first candidate with one backer, before the second. -/
def twoCandidates : FairInput Nat Nat Nat := [(0, [(10, 100)]), (1, [(11, 180)])]

theorem twoCandidates_distinct : twoCandidates.Distinct := by
  refine ⟨by decide, fun c hc => ?_⟩
  simp only [twoCandidates, List.mem_cons, List.not_mem_nil, or_false] at hc
  rcases hc with rfl | rfl <;> simp

/-- A second backer of the first candidate leaves it behind the second one in the ranking by load. -/
theorem more_backing_shifts_two :
    KeepsAhead (topDownFairModel 1000) twoCandidates 0 [(10, 100), (12, 1)] ∧
      KeepsBehind (maxMinLoadModel compare) twoCandidates 0 [(10, 100), (12, 1)] := by
  have hm : MoreBacking ([((10 : Nat), 100)] ++ []) ([(10, 100)] ++ (12, 1) :: []) := .joined (by decide) (by decide)
  have h := more_backing_shifts compare 1000 { weighted := false, scale := none } twoCandidates_distinct
    (List.mem_cons_self ..) hm
  exact ⟨h.1, h.2.2.2.1⟩

/-- One more backer, or more from the same one, can put a candidate behind another. -/
theorem more_backing_hurts :
    ¬KeepsAhead (balancedModel 1000) [((0 : Nat), [((10 : Nat), 100)]), (1, [(11, 90)])] 0 [(10, 100), (12, 1)] ∧
      maxMinLoadModel compare twoCandidates = some [0, 1] ∧
      maxMinLoadModel compare (twoCandidates.withBacking 0 [(10, 200)]) = some [1, 0] ∧
      phragmenModel compare { weighted := false, scale := none } twoCandidates = some [0, 1] ∧
      phragmenModel compare { weighted := false, scale := none } (twoCandidates.withBacking 0 [(10, 200)]) =
        some [1, 0] := by
  refine ⟨fun h => ?_, by decide, by decide, by decide, by decide⟩
  have hafter := h 1 (by decide)
  exact absurd hafter (by decide)

end Models

end FrameSuite
