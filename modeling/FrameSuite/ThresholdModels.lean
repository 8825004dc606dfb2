import FrameSuite.BackingShifts
import FrameSuite.Rankings

/-! The models that elect by a flat weight, and those with a threshold. A threshold cuts a ranking: who passes it
are the first ones by their totals. -/

namespace FrameSuite

variable {C B V : Type}

/-- Candidates with one weight each. -/
abbrev FlatInput (C V : Type) := List (C × V)

section Flat

variable [LinearOrder V]

def topDownFlatModel (input : FlatInput C V) : List C :=
  (input.insertionSort fun a b => b.2 ≤ a.2).map Prod.fst

structure ThresholdFlatConfig (V : Type) where
  threshold : V

def thresholdFlatModel (ctx : ThresholdFlatConfig V) (input : FlatInput C V) : List C :=
  (input.filter fun c => ctx.threshold ≤ c.2).map Prod.fst

end Flat

section Fair

structure ThresholdFairConfig (V : Type) where
  threshold : V

/-- The total is not saturated here. -/
def thresholdFairModel [Zero V] [Add V] [LE V] [DecidableLE V] (ctx : ThresholdFairConfig V)
    (input : FairInput C B V) : List C :=
  (input.filter fun c => ctx.threshold ≤ (c.2.map Prod.snd).foldl (· + ·) 0).map Prod.fst

theorem rankByScore_eq (score : List (B × Nat) → Nat) (input : FairInput C B Nat) :
    rankByScore score input = (ranked (fun c => score c.2) input).map Prod.fst := by
  have hmap := List.map_insertionSort (r := fun a b : C × List (B × Nat) => score b.2 ≤ score a.2)
    (s := fun a b : C × Nat => b.2 ≤ a.2) (fun c => (c.1, score c.2)) input fun _ _ _ _ => Iff.rfl
  change ((input.map fun c => (c.1, score c.2)).insertionSort fun a b => b.2 ≤ a.2).map Prod.fst = _
  rw [← hmap, List.map_map]
  rfl

end Fair

section Cuts

/-- The elected of the threshold are the first ones of the ranking, in the order of the input. -/
def CutsRanking (ranking elected : List C) : Prop := ∃ first, first <+: ranking ∧ first.Perm elected

variable [LinearOrder V]

theorem cutsRanking_of_ranked {α : Type} (score : α → V) (threshold : V) (name : α → C) (l : List α) :
    CutsRanking ((ranked score l).map name) ((l.filter fun a => threshold ≤ score a).map name) :=
  ⟨_, (ranked_threshold score threshold l).map name, (ranked_perm score _).map name⟩

/-- Who passes the threshold of the flat model, or of the fair one, are the first candidates of the ranking by flat
weight, or by total backing. -/
theorem threshold_cuts_ranking (flat : ThresholdFlatConfig V) (weights : FlatInput C V) {maxBacked : Nat}
    {fair : ThresholdFairConfig Nat} {input : FairInput C B Nat}
    (hfits : ∀ c ∈ input, (c.2.map Prod.snd).sum ≤ maxBacked) :
    CutsRanking (topDownFlatModel weights) (thresholdFlatModel flat weights) ∧
      CutsRanking (topDownFairModel maxBacked input) (thresholdFairModel fair input) := by
  refine ⟨cutsRanking_of_ranked Prod.snd flat.threshold Prod.fst weights, ?_⟩
  have hcut := cutsRanking_of_ranked (fun c => totalBacked maxBacked c.2) fair.threshold Prod.fst input
  have hsame : (input.filter fun c => fair.threshold ≤ totalBacked maxBacked c.2) =
      input.filter fun c => fair.threshold ≤ (c.2.map Prod.snd).foldl (· + ·) 0 := by
    refine List.filter_congr fun c hc => ?_
    rw [totalBacked_eq, Nat.min_eq_left (hfits c hc), List.sum_eq_foldl]
  rw [hsame] at hcut
  unfold topDownFairModel
  rw [rankByScore_eq]
  exact hcut

/-- Three candidates, one of them below the threshold. -/
def threeCandidates : FairInput Nat Nat Nat := [(0, [(7, 30), (8, 20)]), (1, [(7, 40)]), (2, [(9, 90)])]

theorem threshold_cuts_ranking_three :
    thresholdFairModel ⟨50⟩ threeCandidates = [0, 2] ∧ topDownFairModel 100 threeCandidates = [2, 0, 1] ∧
      CutsRanking (topDownFlatModel [(0, 90), (1, 50), (2, 80)])
        (thresholdFlatModel ⟨60⟩ [(0, 90), (1, 50), (2, 80)]) ∧
        CutsRanking (topDownFairModel 100 threeCandidates) (thresholdFairModel ⟨50⟩ threeCandidates) :=
  ⟨rfl, by decide, threshold_cuts_ranking ⟨60⟩ [(0, 90), (1, 50), (2, 80)] (by decide)⟩

end Cuts

end FrameSuite
