import FrameSuite.CommitRecords

/-! Runs of the pallet beside the records of its commits. Accounts stay true along every run that gives
new digests unused names, and prices of one stay along runs that leave the value of a digest alone. -/

namespace FrameSuite

open ShareBalance

variable {T : Config} {p : Prop}

section Prices

/-- The balance at the location and the entry receipts bought there have the price of one. -/
structure Whole (l : Location T) (s : State T) : Prop where
  par : AtPar s.digestMap l
  entries : EntriesWhole (entryLocation s.indexMap) l s.entryMap

variable {l : Location T} {s s₁ s' : State T} {who : T.AccountId} {reason : T.Reason} {digest : T.AccountId}
  {info : CommitInfo T} {amount : Nat} {receipt : CommitInstance T}

theorem EntriesWhole.of_sub {at_ at_' : EntryKey T → Location T} {m m' : EntryMap T} (h : EntriesWhole at_ l m)
    (hm : ∀ key commits, m'.get key = some commits → m.get key = some commits ∧ at_' key = at_ key) :
    EntriesWhole at_' l m' := by
  intro key commits hk hl
  obtain ⟨hold, hat⟩ := hm key commits hk
  exact h key commits hold (hat ▸ hl)

theorem Whole.of_same (h : Whole l s) (hd : AtPar s.digestMap l → AtPar s'.digestMap l)
    (he : s'.entryMap = s.entryMap) (hi : s'.indexMap = s.indexMap) : Whole l s' := by
  refine ⟨hd h.par, ?_⟩
  rw [he, hi]
  exact h.entries

theorem Whole.of_maps (h : Whole l s) (hm : SameMaps s s') : Whole l s' :=
  h.of_same (fun hp => hm.digestMap ▸ hp) hm.entryMap hm.indexMap

theorem entryLocation_setBalance {im : StorageMap (T.Reason × T.AccountId) (IndexInfo T)}
    {key : T.Reason × T.AccountId} {index : IndexInfo T} (h : im.get key = some index) (principal : Nat) :
    entryLocation (im.insert key (index.setBalance principal)) = entryLocation im :=
  funext fun _ => entryLocation_congr (indexEntries_setBalance h principal _)

theorem Whole.fund (h : Whole l s) (hf : Funded s s' who reason digest amount receipt) : Whole l s' := by
  cases hf with
  | traded r step => exact h.of_same (step.par l) step.entries step.indexes
  | entries index step =>
    refine ⟨step.par l h.par, ?_⟩
    rw [step.indexes, entryLocation_setBalance step.found]
    exact step.whole _ l h.par h.entries fun entry hm => entryLocation_of_mem step.found hm

theorem Whole.draw {d : AssetDelta} (h : Whole l s) (hd : Drawn s s' who reason digest d) : Whole l s' := by
  cases hd with
  | traded step => exact h.of_same (step.par l) step.entries step.indexes
  | entries index step =>
    refine ⟨step.par l h.par, h.entries.of_sub fun key commits hk => ?_⟩
    rw [step.get] at hk
    split at hk
    · cases hk
    · exact ⟨hk, by rw [step.indexes, entryLocation_setBalance step.found]⟩

theorem Whole.charge (h : Whole l s) (hc : Charged s s' who reason info receipt amount) : Whole l s' := by
  obtain ⟨s₁, hf, hm⟩ := hc.funded
  exact (h.fund hf).of_maps hm

theorem Whole.leave (h : Whole l s) (hl : Left s s' who reason info) : Whole l s' := by
  obtain ⟨s₁, d, hd, hm⟩ := hl.drawn
  exact (h.draw hd).of_maps hm

theorem Whole.setIndex {index : IndexInfo T} (hs : Custody p s) (h : Whole l s)
    (hset : setIndex s reason index digest = .ok s') : Whole l s' := by
  obtain ⟨hnone, rfl⟩ := setIndex_spec hset
  refine ⟨h.par, h.entries.of_sub fun key commits hk => ⟨hk, entryLocation_congr ?_⟩⟩
  have hne : s.entryMap.get key ≠ none := by
    rw [hk]
    exact Option.some_ne_none _
  obtain ⟨i, -, hi, -⟩ := hs.entries key hne
  refine congrArg _ (StorageMap.get_insert_of_ne ?_)
  intro he
  rw [he, hnone] at hi
  cases hi

theorem Whole.reapIndex (hs : Custody p s) (h : Whole l s) (hr : reapIndex s reason digest = .ok s') :
    Whole l s' := by
  obtain ⟨index, hg, hfree, rfl⟩ := reapIndex_spec hr
  refine ⟨h.par, h.entries.of_sub fun key commits hk => ⟨hk, entryLocation_congr ?_⟩⟩
  have hne : s.entryMap.get key ≠ none := by
    rw [hk]
    exact Option.some_ne_none _
  obtain ⟨i, entry, hi, hm, hd⟩ := hs.entries key hne
  refine congrArg _ (StorageMap.get_remove_of_ne fun he => ?_)
  rw [he, hg] at hi
  obtain rfl := Option.some.inj hi
  obtain ⟨h1, h2⟩ := Prod.mk.inj he
  exact hfree entry hm ⟨key, (s.entryMap.mem_keys key).mpr hne, h1, h2, hd.symm⟩

theorem Whole.setDigestValue {value reached : Nat} {variant : T.Position} (h : Whole l s)
    (hv : location reason digest variant = l → getDigestVariantValue s reason digest variant = .ok value)
    (hset : setDigestVariantValue s reason digest value variant = .ok (s', reached)) : Whole l s' := by
  obtain ⟨m, rv, b, b', gain, loss, rfl, ht, hr, hval, -, hk⟩ := setDigestVariantValue_spec hset
  refine h.of_same (fun hp => hp.touch ht fun hl c hc => ?_) rfl rfl
  have hold := hv hl.symm
  rw [getDigestVariantValue_of_touch hk ht.before] at hold
  have hsame := Except.ok.inj hold
  have hvalue := hr.value
  cases hr with
  | minted ha _ => omega
  | reaped ha _ => omega
  | same => exact hp c ((hl ▸ ht.before).trans hc)

end Prices

section Recording

/-- The pallet beside the records of its commits. -/
structure Recorded (T : Config) where
  state : State T
  records : Records T

def Recorded.genesis (ledger : T.Ledger) : Recorded T := ⟨State.genesis ledger, .empty⟩

/-- A placement is recorded with the amount it returns. -/
def recordPlaced (s : State T) (m : Records T) (who : T.AccountId) (reason : T.Reason) (digest : T.AccountId)
    (value : Nat) (variant : T.Position) (q : Directive) : Records T :=
  match placeCommitOfVariant s who reason digest value variant q with
  | .ok (_, amount) => m.insert (who, reason) (digestModel s digest reason, amount)
  | .error _ => m

/-- What a raise returns is added, and a new variant is a new placement. -/
def Recorded.record (t : Recorded T) : Call T → Records T
  | .placeCommit who reason digest value variant q =>
    recordPlaced t.state t.records who reason digest value variant q
  | .raiseCommit who reason value q =>
    match t.records.get (who, reason), raiseCommit t.state who reason value q with
    | some (model, amount), .ok (_, raised) => t.records.insert (who, reason) (model, amount + raised)
    | _, _ => t.records
  | .resolveCommit who reason => t.records.remove (who, reason)
  | .setCommitVariant who reason variant q =>
    match t.state.commitMap.get (who, reason) with
    | none => t.records
    | some info =>
      if info.variant = variant then t.records
      else match resolveCommit t.state who reason with
        | .ok (s, reDeposit) =>
          recordPlaced s (t.records.remove (who, reason)) who reason info.digest reDeposit variant q
        | .error _ => t.records
  | _ => t.records

def Recorded.apply (t : Recorded T) (call : Call T) : Except DispatchError (Recorded T) := do
  let s ← t.state.apply call
  pure ⟨s, t.record call⟩

def Recorded.after (ledger : T.Ledger) (calls : List (Call T)) : Recorded T :=
  run Recorded.apply (Recorded.genesis ledger) calls

theorem Recorded.state_after (ledger : T.Ledger) (calls : List (Call T)) :
    (Recorded.after ledger calls).state = State.after ledger calls := by
  refine run_map (fun t call => ?_) _ calls
  unfold Recorded.apply
  cases t.state.apply call <;> rfl

/-- The call leaves the value at the location what it is. -/
def Call.leaves (l : Location T) (s : State T) : Call T → Prop
  | .setDigestValue reason digest value variant =>
    location reason digest variant = l → getDigestVariantValue s reason digest variant = .ok value
  | _ => True

variable {s s' : State T} {m m' : Records T} {who : T.AccountId} {reason : T.Reason} {digest : T.AccountId}
  {value amount : Nat} {variant : T.Position} {q : Directive} {l : Location T}

theorem placeCommitOfVariant_recorded (hs : Custody p s) (ha : Accounts s m)
    (h : placeCommitOfVariant s who reason digest value variant q = .ok (s', amount)) :
    Accounts s' (recordPlaced s m who reason digest value variant q) ∧ ∀ l, Whole l s → Whole l s' := by
  obtain ⟨hnone, info, receipt, rfl, hc, hmodel⟩ := placeCommitOfVariant_charged hs h
  refine ⟨ha.charge hc (fun key hk => ?_) fun model a hget => ?_, fun _ hw => hw.charge hc⟩
  · simp only [recordPlaced, h]
    exact StorageMap.get_insert_of_ne hk
  · simp only [recordPlaced, h, StorageMap.get_insert_self, Option.some.injEq, Prod.mk.injEq] at hget
    obtain ⟨rfl, rfl⟩ := hget
    refine ⟨0, (Nat.zero_add _).symm, .inr ⟨hnone, rfl, fun indexOf hi => ?_⟩⟩
    obtain ⟨rfl, hr⟩ := hmodel indexOf hi
    exact ⟨rfl, hr⟩

theorem raiseCommit_recorded {t : Recorded T} (hs : Custody p t.state) (ha : Accounts t.state t.records)
    (h : raiseCommit t.state who reason value q = .ok (s', amount)) :
    Accounts s' (t.record (.raiseCommit who reason value q)) ∧ ∀ l, Whole l t.state → Whole l s' := by
  obtain ⟨-, info, receipt, hc⟩ := raiseCommit_charged hs h
  refine ⟨?_, fun _ hw => hw.charge hc⟩
  simp only [Recorded.record, h]
  obtain hnone | ⟨⟨model, before⟩, hget⟩ := (t.records.get (who, reason)).eq_none_or_eq_some
  · rw [hnone]
    exact ha.charge hc (fun _ _ => rfl) fun model a hg => by simp [hnone] at hg
  · rw [hget]
    refine ha.charge hc (fun key hk => StorageMap.get_insert_of_ne hk) fun model' a hg => ?_
    simp only [StorageMap.get_insert_self, Option.some.injEq, Prod.mk.injEq] at hg
    obtain ⟨rfl, rfl⟩ := hg
    exact ⟨before, rfl, .inl hget⟩

theorem resolveCommit_recorded {resolved : Nat} (hs : Custody p s) (ha : Accounts s m)
    (h : resolveCommit s who reason = .ok (s', resolved)) :
    Accounts s' (m.remove (who, reason)) ∧ ∀ l, Whole l s → Whole l s' := by
  obtain ⟨info, hl⟩ := resolveCommit_left hs h
  exact ⟨ha.leave hs hl, fun _ hw => hw.leave hl⟩

theorem setCommitVariant_recorded {t : Recorded T} (hs : Custody False t.state)
    (ha : Accounts t.state t.records) (h : setCommitVariant t.state who reason variant q = .ok s') :
    Accounts s' (t.record (.setCommitVariant who reason variant q)) ∧ ∀ l, Whole l t.state → Whole l s' := by
  obtain ⟨info, hi, ⟨hsame, rfl⟩ | ⟨hne, s₁, reDeposit, amount, h1, h2⟩⟩ := setCommitVariant_cases h
  · simp only [Recorded.record, hi, if_pos hsame]
    exact ⟨ha, fun _ => id⟩
  · simp only [Recorded.record, hi, if_neg hne]
    have hleft := resolveCommit_recorded hs ha h1
    have hplaced := placeCommitOfVariant_recorded (resolveCommit_resolved hs h1).custody hleft.1 h2
    rw [h1]
    exact ⟨hplaced.1, fun l hw => hplaced.2 l (hleft.2 l hw)⟩

theorem Accounts.setIndex_or (hs : Custody p s) (ha : Accounts s m) (hn : ¬Known s (reason, digest))
    (h : s' = s ∨ ∃ index, FrameSuite.setIndex s reason index digest = .ok s') :
    Accounts s' m ∧ ∀ l, Whole l s → Whole l s' := by
  rcases h with rfl | ⟨index, h⟩
  · exact ⟨ha, fun _ => id⟩
  · exact ⟨ha.setIndex hs hn h, fun _ hw => hw.setIndex hs h⟩

theorem Traded.recorded (h : Traded s s') (ha : Accounts s m) : Accounts s' m ∧ ∀ l, Whole l s → Whole l s' :=
  ⟨ha.of_same h.commits h.entries h.indexes, fun l hw => hw.of_same (h.par l) h.entries h.indexes⟩

theorem AtPar.remove {m : DigestMap T} {key : T.Reason × T.AccountId} (h : AtPar m l) : AtPar (m.remove key) l := by
  intro b hb
  refine h b ?_
  by_cases hk : (l.1, l.2.1) = key
  · simp [balanceAt, hk] at hb
  · rwa [balanceAt, StorageMap.get_remove_of_ne hk] at hb

theorem Recorded.step {t : Recorded T} {call : Call T} (hs : Custody False t.state) (hf : call.fresh t.state)
    (ha : Accounts t.state t.records) (h : t.state.apply call = .ok s') :
    Accounts s' (t.record call) ∧ ∀ l, call.leaves l t.state → Whole l t.state → Whole l s' := by
  have hsound := hs.sound
  cases call with
  | placeCommit who reason digest value variant q =>
    obtain ⟨⟨s1, v⟩, h1, h⟩ := bind_eq_ok.mp h
    obtain rfl := pure_eq_ok.mp h
    exact (placeCommitOfVariant_recorded hs ha h1).imp_right fun hw l _ => hw l
  | raiseCommit who reason value q =>
    obtain ⟨⟨s1, v⟩, h1, h⟩ := bind_eq_ok.mp h
    obtain rfl := pure_eq_ok.mp h
    exact (raiseCommit_recorded hs ha h1).imp_right fun hw l _ => hw l
  | resolveCommit who reason =>
    obtain ⟨⟨s1, v⟩, h1, h⟩ := bind_eq_ok.mp h
    obtain rfl := pure_eq_ok.mp h
    exact (resolveCommit_recorded hs ha h1).imp_right fun hw l _ => hw l
  | setCommitVariant who reason variant q => exact (setCommitVariant_recorded hs ha h).imp_right fun hw l _ => hw l
  | setDigestValue reason digest value variant =>
    obtain ⟨⟨s1, v⟩, h1, h⟩ := bind_eq_ok.mp h
    obtain rfl := pure_eq_ok.mp h
    refine ⟨?_, fun _ hl hw => hw.setDigestValue hl h1⟩
    obtain ⟨m, rv, b, b', gain, loss, rfl, -⟩ := setDigestVariantValue_spec h1
    exact ha.of_same rfl rfl rfl
  | reapDigest digest reason =>
    obtain ⟨dinfo, -, -, -, rfl⟩ := reapDigest_spec hsound h
    exact ⟨ha.of_same rfl rfl rfl, fun _ _ hw => hw.of_same AtPar.remove rfl rfl⟩
  | setIndex reason index digest =>
    exact ⟨ha.setIndex hs hf h, fun _ _ hw => hw.setIndex hs h⟩
  | setEntryShares => exact (ha.setIndex_or hs hf (setEntryShares_spec h)).imp_right fun hw l _ => hw l
  | setEntryOfVariant => exact (ha.setIndex_or hs hf (setEntryOfVariant_spec h)).imp_right fun hw l _ => hw l
  | reapIndex reason indexOf => exact ⟨ha.reapIndex h, fun _ _ hw => hw.reapIndex hs h⟩
  | setPool =>
    obtain ⟨index, pool, -, -, -, -, rfl⟩ := setPool_spec h
    exact ⟨ha.of_same rfl rfl rfl, fun _ _ hw => hw.of_same id rfl rfl⟩
  | setPoolManager reason poolOf manager =>
    obtain rfl := setPoolManager_spec h
    exact ⟨ha.of_same rfl rfl rfl, fun _ _ hw => hw.of_same id rfl rfl⟩
  | setSlotShares => exact ((setSlotShares_traded hsound h).recorded ha).imp_right fun hw l _ => hw l
  | setSlotOfVariant => exact ((setSlotOfVariant_traded hsound h).recorded ha).imp_right fun hw l _ => hw l
  | reapPool reason poolOf =>
    obtain ⟨pool, -, -, rfl⟩ := reapPool_spec hsound h
    exact ⟨ha.of_same rfl rfl rfl, fun _ _ hw => hw.of_same id rfl rfl⟩
  | external ledger =>
    obtain rfl := Except.ok.inj h
    exact ⟨ha.of_same rfl rfl rfl, fun _ _ hw => hw.of_same id rfl rfl⟩

/-- What holds along runs that give new digests unused names. -/
structure Audited (t : Recorded T) : Prop where
  custody : Custody False t.state
  accounts : Accounts t.state t.records

theorem Audited.step {t t' : Recorded T} {call : Call T} (ht : Audited t) (hf : call.fresh t.state)
    (h : t.apply call = .ok t') :
    Audited t' ∧ ∀ l, call.leaves l t.state → Whole l t.state → Whole l t'.state := by
  obtain ⟨s', h1, h⟩ := bind_eq_ok.mp h
  obtain rfl := pure_eq_ok.mp h
  obtain ⟨ha, hw⟩ := Recorded.step ht.custody hf ht.accounts h1
  exact ⟨⟨apply_custody ht.custody hf (fun hp => hp.elim) h1, ha⟩, hw⟩

theorem audited_genesis (ledger : T.Ledger) : Audited (Recorded.genesis (T := T) ledger) :=
  ⟨custody_genesis ledger, accounts_genesis ledger⟩

theorem Audited.after {ledger : T.Ledger} {calls : List (Call T)}
    (hf : RunMeets Recorded.apply (fun t call => call.fresh t.state) (Recorded.genesis ledger) calls) :
    Audited (Recorded.after ledger calls) :=
  run_invariant_of_meets (fun _ _ _ ht hq h => (ht.step hq h).1) (audited_genesis ledger) hf

theorem whole_genesis (ledger : T.Ledger) : Whole l (State.genesis (T := T) ledger) :=
  ⟨fun _ hb => (nomatch hb), fun _ _ hk => (nomatch hk)⟩

theorem Whole.after {ledger : T.Ledger} {calls : List (Call T)}
    (hf : RunMeets Recorded.apply (fun t call => call.fresh t.state) (Recorded.genesis ledger) calls)
    (hv : RunMeets Recorded.apply (fun t call => call.leaves l t.state) (Recorded.genesis ledger) calls) :
    Whole l (Recorded.after ledger calls).state :=
  have hstep (t : Recorded T) (call : Call T) (t' : Recorded T) (ht : Audited t ∧ Whole l t.state)
      (hq : call.fresh t.state ∧ call.leaves l t.state) (h : t.apply call = .ok t') :
      Audited t' ∧ Whole l t'.state :=
    (ht.1.step hq.1 h).imp_right fun hw => hw l hq.2 ht.2
  (run_invariant_of_meets hstep ⟨audited_genesis ledger, whole_genesis ledger⟩ (hf.and hv)).2

end Recording

end FrameSuite
