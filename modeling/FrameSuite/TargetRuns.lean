import FrameSuite.TargetSafety

/-! Runs of the pallet beside the model each commit was placed under. While placements on indexes
allocate something, the digest of a commit keeps that model and cannot be reaped. -/

namespace FrameSuite

open ShareBalance

variable {T : Config} {p : Prop}

section Calls

/-- New indexes and pools are given digests under which nothing is known. -/
def Call.fresh (s : State T) : Call T → Prop
  | .setIndex reason _ digest => ¬Known s (reason, digest)
  | .setEntryShares reason _ _ _ generated => ¬Known s (reason, generated)
  | .setEntryOfVariant reason _ _ _ _ generated => ¬Known s (reason, generated)
  | .setPool _ reason poolOf _ _ => ¬Known s (reason, poolOf)
  | _ => True

/-- What the call places on an index allocates a whole unit to one of its entries. -/
def Call.allocates (s : State T) : Call T → Prop
  | .placeCommit who reason digest value _ _ => PlaceAllocates s who reason digest value
  | .setCommitVariant who reason variant _ => ∀ info s₁ reDeposit,
      s.commitMap.get (who, reason) = some info → info.variant ≠ variant →
        FrameSuite.resolveCommit s who reason = .ok (s₁, reDeposit) →
          PlaceAllocates s₁ who reason info.digest reDeposit
  | _ => True

variable {s s' : State T}

theorem setIndex_or_kept {reason : T.Reason} {digest : T.AccountId} (hs : Custody p s)
    (hn : ¬Known s (reason, digest)) (h : s' = s ∨ ∃ index, setIndex s reason index digest = .ok s') :
    Kept p s s' := by
  rcases h with rfl | ⟨index, h⟩
  · exact .of_same hs (.of_keys (fun _ => rfl) (fun _ => rfl) fun _ => rfl) rfl
  · exact setIndex_kept hs hn h

theorem slots_kept {loc : Location T} (hs : Custody p s)
    (h : s' = s ∨ Shift s s' loc [] [] fun _ => False) : Kept p s s' := by
  rcases h with rfl | h
  · exact .of_same hs (.of_keys (fun _ => rfl) (fun _ => rfl) fun _ => rfl) rfl
  · exact .of_shift hs h ⟨rfl, rfl, rfl, rfl⟩ h.commits

theorem setCommitVariant_kept {who : T.AccountId} {reason : T.Reason} {variant : T.Position} {q : Directive}
    (hs : Custody p s) (hall : p → Call.allocates s (.setCommitVariant who reason variant q))
    (h : setCommitVariant s who reason variant q = .ok s') : Kept p s s' := by
  obtain ⟨info, hi, ⟨-, rfl⟩ | ⟨hne, s1, reDeposit, amount, h1, h2⟩⟩ := setCommitVariant_cases h
  · exact .of_same hs (.of_keys (fun _ => rfl) (fun _ => rfl) fun _ => rfl) rfl
  · have hres := resolveCommit_resolved hs h1
    have hplaced := placeCommitOfVariant_placed hres.custody (fun hp => hall hp info s1 reDeposit hi hne h1) h2
    obtain ⟨info', hins, hdig⟩ := hplaced.commits
    refine ⟨hplaced.custody, hres.grows.trans_of_known hplaced.grows fun key => (hres.known key).mpr,
      fun key i hk => ?_⟩
    rw [hins, StorageMap.get_insert] at hk
    split at hk
    · rename_i hkey
      obtain rfl := Option.some.inj hk
      exact ⟨info, hkey ▸ hi, hdig.symm⟩
    · exact hres.commits key i hk

theorem apply_kept {call : Call T} (hs : Custody p s) (hf : call.fresh s) (ha : p → call.allocates s)
    (hc : ∀ who reason digest value variant q, call ≠ .placeCommit who reason digest value variant q)
    (h : s.apply call = .ok s') : Kept p s s' := by
  cases call with
  | placeCommit who reason digest value variant q => exact absurd rfl (hc who reason digest value variant q)
  | raiseCommit who reason value q =>
    obtain ⟨⟨s1, v⟩, h1, h⟩ := bind_eq_ok.mp h
    obtain rfl := pure_eq_ok.mp h
    exact raiseCommit_kept hs h1
  | resolveCommit who reason =>
    obtain ⟨⟨s1, v⟩, h1, h⟩ := bind_eq_ok.mp h
    obtain rfl := pure_eq_ok.mp h
    exact (resolveCommit_resolved hs h1).toKept
  | setCommitVariant who reason variant q => exact setCommitVariant_kept hs ha h
  | setDigestValue reason digest value variant =>
    obtain ⟨⟨s1, v⟩, h1, h⟩ := bind_eq_ok.mp h
    obtain rfl := pure_eq_ok.mp h
    obtain ⟨m, hm, hcm, hshift⟩ := setDigestVariantValue_shift hs h1
    exact .of_shift hs hshift hm hcm
  | reapDigest digest reason => exact reapDigest_kept hs h
  | setIndex reason index digest => exact setIndex_kept hs hf h
  | setEntryShares => exact setIndex_or_kept hs hf (setEntryShares_spec h)
  | setEntryOfVariant => exact setIndex_or_kept hs hf (setEntryOfVariant_spec h)
  | reapIndex reason indexOf => exact reapIndex_kept hs h
  | setPool => exact setPool_kept hs hf h
  | setPoolManager reason poolOf manager =>
    obtain rfl := setPoolManager_spec h
    exact .of_same ⟨⟨hs.sound.digests, hs.sound.pools⟩, hs.digests, hs.pools, hs.digestsApart, hs.indexesApart,
      hs.entries, hs.shares_ne, fun hp who r i hi => (hs.anchored hp who r i hi).mono rfl
        (fun _ => id) id id id fun _ => id⟩
      (.of_keys (fun _ => rfl) (fun _ => rfl) fun _ => rfl) rfl
  | setSlotShares => exact slots_kept hs (setSlotShares_shift hs h T.positionDefault)
  | setSlotOfVariant reason poolOf slotOf variant shares =>
    exact slots_kept hs (setSlotOfVariant_shift hs h variant)
  | reapPool reason poolOf => exact reapPool_kept hs h
  | external ledger =>
    obtain rfl := Except.ok.inj h
    exact .of_same (hs.withLedger ledger) (.of_keys (fun _ => rfl) (fun _ => rfl) fun _ => rfl) rfl

theorem apply_custody {call : Call T} (hs : Custody p s) (hf : call.fresh s) (ha : p → call.allocates s)
    (h : s.apply call = .ok s') : Custody p s' := by
  by_cases hc : ∃ who reason digest value variant q, call = .placeCommit who reason digest value variant q
  · obtain ⟨who, reason, digest, value, variant, q, rfl⟩ := hc
    obtain ⟨⟨s1, v⟩, h1, h⟩ := bind_eq_ok.mp h
    obtain rfl := pure_eq_ok.mp h
    exact (placeCommitOfVariant_placed hs ha h1).custody
  · simp only [not_exists] at hc
    exact (apply_kept hs hf ha hc h).custody

end Calls

section Tracking

/-- The pallet beside the model under which each commit was placed. -/
structure Tracked (T : Config) where
  state : State T
  placed : StorageMap (T.AccountId × T.Reason) (DigestVariant T)

def Tracked.genesis (ledger : T.Ledger) : Tracked T := ⟨State.genesis ledger, .empty⟩

def Tracked.record (t : Tracked T) : Call T → StorageMap (T.AccountId × T.Reason) (DigestVariant T)
  | .placeCommit who reason digest _ _ _ => t.placed.insert (who, reason) (digestModel t.state digest reason)
  | _ => t.placed

def Tracked.apply (t : Tracked T) (call : Call T) : Except DispatchError (Tracked T) := do
  let s ← t.state.apply call
  pure ⟨s, t.record call⟩

def Tracked.after (ledger : T.Ledger) (calls : List (Call T)) : Tracked T :=
  run Tracked.apply (Tracked.genesis ledger) calls

theorem Tracked.attempt_state (t : Tracked T) (call : Call T) :
    (attempt Tracked.apply t call).state = attempt State.apply t.state call := by
  unfold attempt Tracked.apply
  cases t.state.apply call <;> rfl

theorem Tracked.run_state (t : Tracked T) (calls : List (Call T)) :
    (run Tracked.apply t calls).state = run State.apply t.state calls := by
  induction calls generalizing t with
  | nil => rfl
  | cons call calls ih => rw [run_cons, run_cons, ih, Tracked.attempt_state]

/-- Every commit has the digest model it was placed under. -/
structure Targeted (t : Tracked T) : Prop where
  custody : Custody True t.state
  targets : ∀ key info, t.state.commitMap.get key = some info →
    ∃ model, t.placed.get key = some model ∧ determineDigest t.state info.digest key.2 = .ok model

theorem targeted_genesis (ledger : T.Ledger) : Targeted (Tracked.genesis (T := T) ledger) :=
  ⟨custody_genesis ledger, fun _ _ hi => nomatch hi⟩

theorem Grows.target {s s' : State T} (hg : Grows s s') (hs : Custody True s) (hs' : Custody True s')
    {key : T.AccountId × T.Reason} {info info' : CommitInfo T} (hi : s.commitMap.get key = some info)
    (hi' : s'.commitMap.get key = some info') (hd : info.digest = info'.digest) :
    determineDigest s' info'.digest key.2 = determineDigest s info.digest key.2 := by
  have hk := (hs.anchored trivial key.1 key.2 info hi).known
  have hk' := (hs'.anchored trivial key.1 key.2 info' hi').known
  rw [← hd] at hk' ⊢
  exact hg.determineDigest_eq hs hs' hk hk'

theorem Targeted.of_kept {t t' : Tracked T} (ht : Targeted t) (hk : Kept True t.state t'.state)
    (hp : t'.placed = t.placed) : Targeted t' := by
  refine ⟨hk.custody, fun key info' hi' => ?_⟩
  obtain ⟨info, hi, hd⟩ := hk.commits key info' hi'
  obtain ⟨model, hm, htarget⟩ := ht.targets key info hi
  exact ⟨model, hp ▸ hm, (hk.grows.target ht.custody hk.custody hi hi' hd).trans htarget⟩

theorem Targeted.of_placed {t : Tracked T} {s' : State T} {who : T.AccountId} {reason : T.Reason}
    {digest : T.AccountId} (ht : Targeted t)
    (hp : Placed True t.state s' who reason digest (digestModel t.state digest reason)) :
    Targeted ⟨s', t.placed.insert (who, reason) (digestModel t.state digest reason)⟩ := by
  refine ⟨hp.custody, fun key info' hi' => ?_⟩
  obtain ⟨info, hins, rfl⟩ := hp.commits
  have hget := hi'
  dsimp only at hget ⊢
  rw [hins, StorageMap.get_insert] at hget
  rw [StorageMap.get_insert]
  split at hget
  · rename_i hkey
    obtain rfl := Option.some.inj hget
    rw [if_pos hkey, hkey]
    exact ⟨_, rfl, hp.target⟩
  · rename_i hkey
    rw [if_neg hkey]
    obtain ⟨model, hm, htarget⟩ := ht.targets key info' hget
    exact ⟨model, hm, (hp.grows.target ht.custody hp.custody hget hi' rfl).trans htarget⟩

theorem Targeted.step {t t' : Tracked T} {call : Call T} (ht : Targeted t) (hf : call.fresh t.state)
    (ha : call.allocates t.state) (h : t.apply call = .ok t') : Targeted t' := by
  obtain ⟨s', h1, h⟩ := bind_eq_ok.mp h
  obtain rfl := pure_eq_ok.mp h
  by_cases hc : ∃ who reason digest value variant q, call = .placeCommit who reason digest value variant q
  · obtain ⟨who, reason, digest, value, variant, q, rfl⟩ := hc
    obtain ⟨⟨s1, v⟩, h2, h1⟩ := bind_eq_ok.mp h1
    obtain rfl := pure_eq_ok.mp h1
    exact ht.of_placed (placeCommitOfVariant_placed ht.custody (fun _ => ha) h2)
  · simp only [not_exists] at hc
    refine ht.of_kept (apply_kept ht.custody hf (fun _ => ha) hc h1) ?_
    cases call <;> first | rfl | exact absurd rfl (hc _ _ _ _ _ _)

/-- Along runs whose placements on indexes allocate something, each commit has a digest of the
model it was placed under, and nothing reaps it. -/
theorem target_stays {ledger : T.Ledger} {calls : List (Call T)}
    (hf : RunMeets Tracked.apply (fun t call => call.fresh t.state) (Tracked.genesis ledger) calls)
    (ha : RunMeets Tracked.apply (fun t call => call.allocates t.state) (Tracked.genesis ledger) calls) :
    (Tracked.after ledger calls).state = State.after ledger calls ∧
      ∀ who reason info, (State.after ledger calls).commitMap.get (who, reason) = some info →
        (∃ model, (Tracked.after ledger calls).placed.get (who, reason) = some model ∧
          determineDigest (State.after ledger calls) info.digest reason = .ok model) ∧
        (reapDigest (State.after ledger calls) info.digest reason).isOk = false ∧
        (reapIndex (State.after ledger calls) reason info.digest).isOk = false ∧
        (reapPool (State.after ledger calls) reason info.digest).isOk = false := by
  have hstate : (Tracked.after ledger calls).state = State.after ledger calls :=
    Tracked.run_state _ calls
  have ht : Targeted (Tracked.after ledger calls) :=
    run_invariant_of_meets (fun _ _ _ h hq ht => h.step hq.1 hq.2 ht) (targeted_genesis ledger) (hf.and ha)
  refine ⟨hstate, fun who reason info hi => ?_⟩
  rw [← hstate] at hi ⊢
  exact ⟨ht.targets (who, reason) info hi,
    isOk_eq_false fun _ h => reapDigest_free ht.custody trivial h hi rfl,
    isOk_eq_false fun _ h => reapIndex_free ht.custody trivial h hi rfl,
    isOk_eq_false fun _ h => reapPool_free ht.custody trivial h hi rfl⟩

def heldIndex : List (Call runtimeConfig) := thirdsPool ++ [place 4 20 9]

theorem target_stays_held_index :
    (reapIndex (State.after fundedLedger heldIndex) (0 : Nat) (20 : Nat)).isOk = false := by
  refine ((@target_stays runtimeConfig fundedLedger heldIndex ?_ ?_).2 (4 : Nat) (0 : Nat) _ rfl).2.2.1
  · exact ⟨fun _ _ => trivial, fun _ _ => trivial, fun _ _ => trivial,
      fun _ _ => not_known_iff.mpr ⟨rfl, rfl, rfl⟩, fun _ _ => not_known_iff.mpr ⟨rfl, rfl, rfl⟩,
      fun _ _ => trivial, trivial⟩
  · refine ⟨fun _ _ => trivial, fun _ _ => trivial, fun _ _ => trivial, fun _ _ => trivial, fun _ _ => trivial,
      fun _ _ info hi => ?_, trivial⟩
    obtain rfl := Option.some.inj ((show _ = some thirdsIndex from rfl).symm.trans hi)
    exact ⟨_, List.mem_cons_self .., _, rfl, by decide +kernel⟩

def pairIndex : IndexInfo runtimeConfig :=
  { principal := 0
    capital := 2
    entries :=
      { list := [unitEntry 11, unitEntry 12]
        nonempty := List.cons_ne_nil _ _
        nodup := by decide }
    capital_eq := rfl }

/-- One unit in halves: no entry is given a unit, the commit is of nothing, and its index is reaped. -/
def reapedTarget : List (Call runtimeConfig) :=
  [place 1 11 5, place 2 12 5, .setIndex (T := runtimeConfig) 0 pairIndex 20, place 4 20 1,
    .reapIndex (T := runtimeConfig) 0 20]

theorem target_reaped :
    ¬∀ (ledger : TokenLedger) (calls : List (Call runtimeConfig)),
      RunMeets Tracked.apply (fun t call => call.fresh t.state) (Tracked.genesis (T := runtimeConfig) ledger)
        calls →
      ∀ (who reason : Nat) (info : CommitInfo runtimeConfig),
        (State.after (T := runtimeConfig) ledger calls).commitMap.get (who, reason) = some info →
        ∃ model, (Tracked.after (T := runtimeConfig) ledger calls).placed.get (who, reason) = some model ∧
          determineDigest (State.after (T := runtimeConfig) ledger calls) info.digest reason = .ok model := by
  intro h
  obtain ⟨model, -, hm⟩ := h fundedLedger reapedTarget
    ⟨fun _ _ => trivial, fun _ _ => trivial, fun _ _ => not_known_iff.mpr ⟨rfl, rfl, rfl⟩, fun _ _ => trivial,
      fun _ _ => trivial, trivial⟩ 4 0 _ rfl
  exact nomatch hm

end Tracking

end FrameSuite
