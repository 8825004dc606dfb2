import FrameSuite.AuthorElections
import FrameSuite.AuthorRuntime

/-! The results of elections are keys under the number of their block. What is revealed is the last result,
less those removed since, as long as no earlier result of the same block has other elects. -/

namespace FrameSuite

variable {T : AuthorConfig} {s t : AuthorState T}

section Managers

/-! Both kinds of elections have the same code over the same storage. -/

def FlatElection.reveal (s : AuthorState T) : Option (List T.AccountId) := FrameSuite.reveal s

def FlatElection.remove (s : AuthorState T) (who : T.AccountId) : AuthorState T := removeElected s who

def FlatElection.store (s : AuthorState T) (elects : List T.AccountId) : Except AuthorError (AuthorState T) :=
  storeElects s elects

def FairElection.reveal (s : AuthorState T) : Option (List T.AccountId) := FrameSuite.reveal s

def FairElection.remove (s : AuthorState T) (who : T.AccountId) : AuthorState T := removeElected s who

def FairElection.store (s : AuthorState T) (elects : List T.AccountId) : Except AuthorError (AuthorState T) :=
  storeElects s elects

end Managers

/-- What happens to the results: the operations of both managers and all calls of the pallet. -/
inductive ElectionCall (T : AuthorConfig)
  | flatStore (elects : List T.AccountId)
  | fairStore (elects : List T.AccountId)
  | flatRemove (who : T.AccountId)
  | fairRemove (who : T.AccountId)
  | author (call : AuthorCall T)

def ElectionCall.apply (s : AuthorState T) : ElectionCall T → Except AuthorError (AuthorState T)
  | .flatStore elects => FlatElection.store s elects
  | .fairStore elects => FairElection.store s elects
  | .flatRemove who => .ok (FlatElection.remove s who)
  | .fairRemove who => .ok (FairElection.remove s who)
  | .author call => s.apply call

def keptElects (s : AuthorState T) (elects : List T.AccountId) : List T.AccountId :=
  if s.forceMaxElected then elects.take s.maxElected else elects

/-- The elects that a call stores, if it succeeds. -/
def ElectionCall.stores (s : AuthorState T) : ElectionCall T → Option (List T.AccountId)
  | .flatStore elects => (FlatElection.store s elects).toOption.map fun _ => keptElects s elects
  | .fairStore elects => (FairElection.store s elects).toOption.map fun _ => keptElects s elects
  | .author (.prepareElects candidates) =>
    (storeElects s (T.electionModel candidates)).toOption.map fun _ => keptElects s (T.electionModel candidates)
  | _ => none

def ElectionCall.removes : ElectionCall T → Option T.AccountId
  | .flatRemove who => some who
  | .fairRemove who => some who
  | .author (.removeElected who) => some who
  | _ => none

/-- The state beside the elects stored last and not removed since, and the limit they were cut to. -/
structure ElectedTrace (T : AuthorConfig) where
  state : AuthorState T
  last : List T.AccountId
  limit : Option Nat

def ElectedTrace.genesis (ledger : T.Ledger) (g : AuthorGenesis) : ElectedTrace T :=
  { state := AuthorState.genesis ledger g, last := [], limit := none }

def ElectedTrace.step (r : ElectedTrace T) (call : ElectionCall T) : Except AuthorError (ElectedTrace T) := do
  let state ← call.apply r.state
  match call.stores r.state, call.removes with
  | some elects, _ =>
    pure { state, last := elects, limit := if r.state.forceMaxElected then some r.state.maxElected else none }
  | none, some who => pure { r with state, last := r.last.filter (· ≠ who) }
  | none, none => pure { r with state }

/-- What is revealed is the last result, within the limit it was cut to. -/
structure ElectedTrace.Faithful (r : ElectedTrace T) : Prop where
  revealed : ∀ who, who ∈ (reveal r.state).getD [] ↔ who ∈ r.last
  bounded : ∀ most, r.limit = some most → ((reveal r.state).getD []).length ≤ most

/-- A result that is stored has all elects that are stored for the same block already. -/
def ElectionCall.storesFresh (s : AuthorState T) (call : ElectionCall T) : Prop :=
  ∀ elects, call.stores s = some elects →
    ∀ who, s.elected.containsKey (s.blockNumber, who) = true → who ∈ elects

section Steps

theorem storeElects_eq_ok {elects : List T.AccountId} :
    storeElects s elects = .ok t ↔ s.minElected ≤ elects.length ∧
      t = { s with
        elected := (keptElects s elects).foldl (fun m author => m.insert (s.blockNumber, author) ()) s.elected
        recentElectedOn := s.blockNumber } := by
  constructor
  · intro h
    obtain ⟨_, hmin, h⟩ := bind_eq_ok.mp h
    exact ⟨ensure_eq_ok.mp hmin, (pure_eq_ok.mp h).symm⟩
  · rintro ⟨hmin, rfl⟩
    exact bind_eq_ok.mpr ⟨(), ensure_eq_ok.mpr hmin, rfl⟩

/-- What a call does to the results. -/
inductive ElectsStep (s t : AuthorState T) (call : ElectionCall T) : Prop
  | stored {elects : List T.AccountId} (hs : call.stores s = some elects)
      (hm : s.forceMaxElected = true → elects.length ≤ s.maxElected)
      (helected : t.elected = elects.foldl (fun m author => m.insert (s.blockNumber, author) ()) s.elected)
      (hrecent : t.recentElectedOn = s.blockNumber)
  | removed {who : T.AccountId} (hs : call.stores s = none) (hr : call.removes = some who)
      (helected : t.elected = s.elected.remove (s.recentElectedOn, who))
      (hrecent : t.recentElectedOn = s.recentElectedOn)
  | kept (hs : call.stores s = none) (hr : call.removes = none) (h : ElectsKept s t)

theorem ElectsStep.of_store {call : ElectionCall T} {elects : List T.AccountId}
    (hs : call.stores s = (storeElects s elects).toOption.map fun _ => keptElects s elects)
    (h : storeElects s elects = .ok t) : ElectsStep s t call := by
  rw [h] at hs
  obtain ⟨-, rfl⟩ := storeElects_eq_ok.mp h
  refine .stored hs (fun hf => ?_) rfl rfl
  simp [keptElects, hf]

theorem electionCall_step {call : ElectionCall T} (h : call.apply s = .ok t) : ElectsStep s t call := by
  cases call with
  | flatStore elects => exact .of_store rfl h
  | fairStore elects => exact .of_store rfl h
  | flatRemove who =>
    obtain rfl := Except.ok.inj h
    exact .removed rfl rfl rfl rfl
  | fairRemove who =>
    obtain rfl := Except.ok.inj h
    exact .removed rfl rfl rfl rfl
  | author call =>
    by_cases hc : call.holdsElections = true
    · cases call with
      | prepareElects candidates =>
        obtain rfl := Except.ok.inj h
        unfold prepareElects
        cases hstore : storeElects s (T.electionModel candidates) with
        | ok t => exact .of_store rfl hstore
        | error e =>
          refine .kept ?_ rfl ⟨rfl, rfl⟩
          simp [ElectionCall.stores, hstore, Except.toOption]
      | removeElected who =>
        obtain rfl := Except.ok.inj h
        exact .removed rfl rfl rfl rfl
      | _ => cases hc
    · have hkept := apply_elects (Bool.eq_false_iff.mpr hc) h
      cases call <;> first | exact absurd rfl hc | exact .kept rfl rfl hkept

end Steps

section Traces

variable {r r' : ElectedTrace T} {call : ElectionCall T}

theorem nodup_reveal (s : AuthorState T) : ((reveal s).getD []).Nodup := by
  have h : ((s.elected.iterPrefix T.hashOrder s.recentElectedOn).map Prod.fst).Nodup := StorageMap.nodup_iterPrefix
  unfold reveal
  dsimp only
  split
  · exact List.nodup_nil
  · exact h

theorem mem_reveal_of_stored {elects : List T.AccountId} {who : T.AccountId}
    (helected : t.elected = elects.foldl (fun m author => m.insert (s.blockNumber, author) ()) s.elected)
    (hrecent : t.recentElectedOn = s.blockNumber) :
    who ∈ (reveal t).getD [] ↔ s.elected.containsKey (s.blockNumber, who) = true ∨ who ∈ elects := by
  rw [mem_reveal, helected, hrecent, containsKey_foldl_insert]
  simp

theorem mem_reveal_of_removed {gone who : T.AccountId}
    (helected : t.elected = s.elected.remove (s.recentElectedOn, gone))
    (hrecent : t.recentElectedOn = s.recentElectedOn) :
    who ∈ (reveal t).getD [] ↔ who ∈ (reveal s).getD [] ∧ who ≠ gone := by
  rw [mem_reveal, mem_reveal, helected, hrecent]
  by_cases hw : who = gone
  · simp [hw, StorageMap.containsKey]
  · simp [hw, StorageMap.containsKey, StorageMap.get_remove]

/-- The invariant: the last result is within its limit. -/
structure ElectedTrace.Sound (r : ElectedTrace T) : Prop where
  revealed : ∀ who, who ∈ (reveal r.state).getD [] ↔ who ∈ r.last
  limited : ∀ most, r.limit = some most → r.last.length ≤ most

theorem ElectedTrace.Sound.faithful (h : r.Sound) : r.Faithful := by
  refine ⟨h.revealed, fun most hmost => ?_⟩
  have hsub : (reveal r.state).getD [] ⊆ r.last := fun who hw => (h.revealed who).mp hw
  exact ((nodup_reveal r.state).subperm hsub).length_le.trans (h.limited most hmost)

theorem ElectedTrace.step_eq_ok (h : r.step call = .ok r') :
    call.apply r.state = .ok r'.state ∧
      match call.stores r.state, call.removes with
      | some elects, _ => r'.last = elects ∧
          r'.limit = if r.state.forceMaxElected then some r.state.maxElected else none
      | none, some who => r'.last = r.last.filter (· ≠ who) ∧ r'.limit = r.limit
      | none, none => r'.last = r.last ∧ r'.limit = r.limit := by
  obtain ⟨state, hstate, h⟩ := bind_eq_ok.mp h
  split at h
  all_goals
    obtain rfl := pure_eq_ok.mp h
    refine ⟨hstate, ?_⟩
    simp_all

theorem ElectedTrace.Sound.step (hr : r.Sound) (hq : call.storesFresh r.state) (h : r.step call = .ok r') :
    r'.Sound := by
  obtain ⟨happly, hlast⟩ := ElectedTrace.step_eq_ok h
  cases electionCall_step happly with
  | stored hs hm helected hrecent =>
    rw [hs] at hlast
    obtain ⟨rfl, hlimit⟩ := hlast
    refine ⟨fun who => ?_, fun most hmost => ?_⟩
    · rw [mem_reveal_of_stored helected hrecent]
      exact or_iff_right_of_imp fun hold => hq _ hs who hold
    · rw [hlimit] at hmost
      split at hmost
      · rename_i hforce
        exact Option.some.inj hmost ▸ hm hforce
      · cases hmost
  | removed hs hrem helected hrecent =>
    rw [hs, hrem] at hlast
    obtain ⟨hl, hlimit⟩ := hlast
    refine ⟨fun who => ?_, fun most hmost => ?_⟩
    · rw [mem_reveal_of_removed helected hrecent, hl, hr.revealed who]
      simp
    · rw [hl]
      exact (List.length_filter_le ..).trans (hr.limited most (hlimit ▸ hmost))
  | kept hs hrem hkept =>
    rw [hs, hrem] at hlast
    obtain ⟨hl, hlimit⟩ := hlast
    refine ⟨fun who => ?_, fun most hmost => ?_⟩
    · rw [hkept.reveal_eq, hl, hr.revealed who]
    · rw [hl]
      exact hr.limited most (hlimit ▸ hmost)

/-- Elects that a result lacks, but that are stored for its block, are revealed with it. -/
theorem ElectedTrace.fresh_of_faithful (h : r.step call = .ok r') (hr : r'.Faithful) : call.storesFresh r.state := by
  intro elects hs who hwho
  obtain ⟨happly, hlast⟩ := ElectedTrace.step_eq_ok h
  cases electionCall_step happly with
  | stored hs' hm helected hrecent =>
    obtain rfl := Option.some.inj (hs.symm.trans hs')
    rw [hs] at hlast
    rw [← hlast.1, ← hr.revealed who, mem_reveal_of_stored helected hrecent]
    exact .inl hwho
  | removed hs' => rw [hs] at hs'; cases hs'
  | kept hs' => rw [hs] at hs'; cases hs'

theorem ElectedTrace.sound_genesis (ledger : T.Ledger) (g : AuthorGenesis) :
    (ElectedTrace.genesis (T := T) ledger g).Sound := by
  refine ⟨fun who => ?_, fun most h => by cases h⟩
  rw [mem_reveal]
  simp [ElectedTrace.genesis, AuthorState.genesis, StorageMap.containsKey]

theorem electedTrace_state (r : ElectedTrace T) (calls : List (ElectionCall T)) :
    (run ElectedTrace.step r calls).state = run ElectionCall.apply r.state calls := by
  refine run_map (fun r call => ?_) r calls
  unfold ElectedTrace.step
  cases call.apply r.state with
  | error e => rfl
  | ok t => cases call.stores r.state <;> cases call.removes <;> rfl

/-- In every state of a run the last result is revealed, less those removed since and within its limit, if
and only if no result lacks elects that are stored for its block. -/
theorem elected_is_last_stored (ledger : T.Ledger) (g : AuthorGenesis) (calls : List (ElectionCall T)) :
    (∀ pre, pre <+: calls → (run ElectedTrace.step (.genesis ledger g) pre).Faithful) ↔
      RunMeets ElectedTrace.step (fun r call => call.storesFresh r.state) (.genesis ledger g) calls :=
  forall_prefix_iff (fun _ hr => hr.faithful) (fun _ _ _ hr hq h => hr.step hq h)
    (fun _ _ _ _ h hr => ElectedTrace.fresh_of_faithful h hr) (ElectedTrace.sound_genesis ledger g) calls

/-- A second result in a block leaves the elects of the first. -/
theorem second_result_joins_first :
    ¬(run ElectedTrace.step (.genesis fundedLedger { plainGenesis with maxElected := 2, minElected_le := by decide })
      [.flatStore (T := authorConfig) [(1 : Nat), (2 : Nat)], .fairStore [(3 : Nat)]]).Faithful := by
  intro h
  have hlast := (h.revealed (1 : Nat)).mp (by decide +kernel)
  exact absurd hlast (by decide +kernel)

end Traces

end FrameSuite
