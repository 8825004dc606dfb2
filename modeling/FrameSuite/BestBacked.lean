import FrameSuite.CandidateWeights
import FrameSuite.ElectionCandidates
import FrameSuite.ThresholdModels

/-! Where elections rank by total backing, as the runtime has it, the best backed candidates are the ones that are
elected, and none is left out while there are seats. -/

namespace FrameSuite

variable {A : AuthorConfig} {P : ChainParameters A} {s e : ChainState P.chain} {who : A.AccountId}
  {candidate : A.AccountId × List (Funder A.AccountId × Nat)}

/-- The backing that candidates are ranked by. -/
def backing (A : AuthorConfig) (weights : List (Funder A.AccountId × Nat)) : Nat :=
  totalBacked A.share.maxAsset weights

/-- The author was elected with this backing. Every other candidate of its election is elected as well, unless its
backing is no larger and all seats are taken. -/
structure ElectedOver (past : ChainHistory P) (e : ChainState P.chain) (elected : List A.AccountId)
    (who : A.AccountId) (weights : List (Funder A.AccountId × Nat)) : Prop where
  holds : ∃ runner, HoldsElection past e runner
  candidate : (who, weights) ∈ prepareCandidates e
  best : ∀ candidate ∈ prepareCandidates e, candidate.1 ∉ elected → backing A candidate.2 ≤ backing A weights
  full : (∃ candidate ∈ prepareCandidates e, candidate.1 ∉ elected) →
    e.authors.forceMaxElected = true ∧ e.authors.maxElected ≤ elected.length

def ChainState.BestElected (s : ChainState P.chain) (past : ChainHistory P) : Prop :=
  ∀ who ∈ (reveal s.authors).getD [], ∃ e weights, e.blockNumber = s.authors.recentElectedOn ∧
    ElectedOver past e ((reveal s.authors).getD []) who weights

section Seats

/-- The candidates in the order of their backing, as many as are stored. -/
def seated (e : ChainState P.chain) : Candidates A.AccountId :=
  let order := ranked (fun c => backing A c.2) (prepareCandidates e)
  if e.authors.forceMaxElected then order.take e.authors.maxElected else order

theorem electedIn_eq
    (hmodel : ∀ candidates, A.electionModel candidates = topDownFairModel A.share.maxAsset candidates)
    (e : ChainState P.chain) : electedIn e = (seated e).map Prod.fst := by
  unfold electedIn keptElects seated
  rw [hmodel]
  unfold topDownFairModel
  rw [rankByScore_eq]
  split
  · exact (List.map_take ..).symm
  · rfl

theorem mem_candidates_of_seated (h : candidate ∈ seated e) : candidate ∈ prepareCandidates e := by
  unfold seated at h
  refine (ranked_perm (fun c => backing A c.2) (prepareCandidates e)).mem_iff.mp ?_
  split at h
  · exact List.mem_of_mem_take h
  · exact h

theorem seated_nodup (e : ChainState P.chain) : ((seated e).map Prod.fst).Nodup := by
  have hnodup : ((ranked (fun c => backing A c.2) (prepareCandidates e)).map Prod.fst).Nodup :=
    ((ranked_perm _ _).map Prod.fst).nodup_iff.mpr (prepareCandidates_nodup e)
  unfold seated
  split
  · rw [List.map_take]
    exact (List.take_sublist ..).nodup hnodup
  · exact hnodup

/-- Without a seat there is a limit, and every seat is taken by somebody with as much backing. -/
theorem unseated (hmem : candidate ∈ prepareCandidates e) (h : candidate ∉ seated e) :
    e.authors.forceMaxElected = true ∧ (seated e).length = e.authors.maxElected ∧
      ∀ other ∈ seated e, backing A candidate.2 ≤ backing A other.2 := by
  have hrank := (ranked_perm (fun c => backing A c.2) (prepareCandidates e)).mem_iff.mpr hmem
  unfold seated at h ⊢
  by_cases hforce : e.authors.forceMaxElected = true
  · rw [if_pos hforce] at h ⊢
    refine ⟨hforce, List.length_take_of_le (Nat.le_of_lt (Nat.lt_of_not_le fun hle => h ?_)), fun other hother => ?_⟩
    · rwa [List.take_of_length_le hle]
    · have hbest := ranked_take_best e.authors.maxElected hother hmem h
      exact hbest
  · rw [if_neg hforce] at h
    exact absurd hrank h

end Seats

section Elections

variable {past : ChainHistory P} {elected : List A.AccountId} {runner : A.AccountId}

theorem electedOver_of_seated (hholds : HoldsElection past e runner)
    (hall : ∀ candidate ∈ seated e, candidate.1 ∈ elected) {weights : List (Funder A.AccountId × Nat)}
    (h : (who, weights) ∈ seated e) : ElectedOver past e elected who weights := by
  refine ⟨⟨runner, hholds⟩, mem_candidates_of_seated h, fun candidate hmem hout => ?_, ?_⟩
  · exact (unseated hmem fun hseat => hout (hall candidate hseat)).2.2 _ h
  · rintro ⟨candidate, hmem, hout⟩
    obtain ⟨hforce, hlength, -⟩ := unseated hmem fun hseat => hout (hall candidate hseat)
    have hsubset : (seated e).map Prod.fst ⊆ elected := by
      intro w hw
      obtain ⟨candidate, hseat, rfl⟩ := List.mem_map.mp hw
      exact hall candidate hseat
    refine ⟨hforce, ?_⟩
    rw [← hlength, ← List.length_map Prod.fst]
    exact ((seated_nodup e).subperm hsubset).length_le

/-- In every state of a run each author that is revealed was elected with a backing that no candidate beside the
revealed ones exceeds, and as long as there is such a candidate, as many are revealed as may be elected. -/
theorem best_backed_elected {ledger : A.Ledger} {validators : List A.AccountId} {g : AuthorGenesis} {c : ChainGenesis}
    (hmodel : ∀ candidates, A.electionModel candidates = topDownFairModel A.share.maxAsset candidates)
    (calls : List (ChainCall P.chain)) :
    (ChainState.after (T := P.chain) (AuthorState.genesis ledger g) validators c calls).BestElected
      (history ChainState.apply (ChainState.genesis (T := P.chain) (AuthorState.genesis ledger g) validators c)
        calls) := by
  have hheld := run_history_invariant (P := fun past s => ChainState.Held (P := P) past s)
    (fun _ _ _ _ hs h => hs.apply h) (held_genesis ledger validators g c) calls
  rw [List.nil_append] at hheld
  intro who hw
  obtain ⟨e, runner, hholds, hblock, helected, hall⟩ := hheld.results _ (mem_reveal.mp hw)
  rw [electedIn_eq hmodel] at helected hall
  obtain ⟨⟨w, weights⟩, hseat, rfl⟩ := List.mem_map.mp helected
  exact ⟨e, weights, hblock, electedOver_of_seated hholds
    (fun candidate hc => mem_reveal.mpr (hall _ (List.mem_map_of_mem hc))) hseat⟩

def contested : List (ChainCall chainConfig) :=
  entering ++ [validates 1 11, validates 2 21] ++ blocksBy 2 6 ++ [declares 21 22, declares 11 12, elects 22]

def contestedRun : ChainState chainConfig :=
  ChainState.after (T := chainConfig) (AuthorState.genesis (T := authorConfig) fundedLedger oneSeat) [9] plainChain
    contested

/-- The author that ran the election is not elected itself. -/
theorem best_backed_elected_contested :
    (reveal contestedRun.authors).getD [] = [(1 : Nat)] ∧
      ChainState.BestElected (P := chainParameters) contestedRun
        (history ChainState.apply (ChainState.genesis (T := chainConfig)
          (AuthorState.genesis (T := authorConfig) fundedLedger oneSeat) [9] plainChain) contested) :=
  ⟨by decide +kernel, best_backed_elected (P := chainParameters) (fun _ => rfl) contested⟩

end Elections

end FrameSuite
