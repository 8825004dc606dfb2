import FrameSuite.RuntimeConfig

/-! Value conservation of the pallet over all reachable states: what accounts hold and
what is committed on digests changes by value updates alone. -/

namespace FrameSuite

open ShareBalance

variable {T : Config}

/-- A new value of a balance: more is minted, less is reaped. -/
inductive Revalued : LazyBalance T → LazyBalance T → Nat → Nat → Prop
  | minted {b after : Balance T.share} {asset : Nat} (ha : asset ≠ 0) (h : Minted b asset after) :
      Revalued (some b) (some after) asset 0
  | reaped {b after : Balance T.share} {asset : Nat} (ha : asset ≠ 0) (h : Reaped b asset after) :
      Revalued (some b) (some after) 0 asset
  | same (b : LazyBalance T) : Revalued b b 0 0

theorem Revalued.value {b b' : LazyBalance T} {gain loss : Nat} (h : Revalued b b' gain loss) :
    totalValue b' + loss = totalValue b + gain := by
  cases h with
  | minted ha h =>
    rw [totalValue_some, totalValue_some, h.totals.1, Nat.add_zero]
  | reaped ha h =>
    have := h.asset_le
    rw [totalValue_some, totalValue_some, h.totals.1]
    omega
  | same => rfl

theorem Revalued.issued {b b' : LazyBalance T} {gain loss : Nat} (h : Revalued b b' gain loss) :
    issuedShares b' = issuedShares b := by
  cases h with
  | minted ha h => exact h.totals.2
  | reaped ha h => exact h.totals.2
  | same => rfl

theorem Revalued.solvent {b b' : LazyBalance T} {gain loss : Nat} (h : Revalued b b' gain loss)
    (hs : ∀ c, b = some c → Solvent c) : ∀ c, b' = some c → Solvent c := by
  cases h with
  | minted ha h => exact fun c hc => Option.some.inj hc ▸ h.solvent (hs _ rfl)
  | reaped ha h => exact fun c hc => Option.some.inj hc ▸ h.solvent (hs _ rfl)
  | same => exact hs

theorem setDigestVariantValue_spec {s s' : State T} {reason : T.Reason} {digest : T.AccountId}
    {value reached : Nat} {variant : T.Position}
    (h : setDigestVariantValue s reason digest value variant = .ok (s', reached)) :
    ∃ m rv b b' gain loss,
      s' = { s with
        digestMap := m
        reasonValue := rv
        assetToIssue := s.assetToIssue + gain
        assetToReap := s.assetToReap + loss } ∧
      Touch s.digestMap m (location reason digest variant) b b' ∧ Revalued b b' gain loss ∧
      totalValue b' = value ∧
      (∀ w, totalReasons w rv + w reason * loss = totalReasons w s.reasonValue + w reason * gain) ∧
      s.digestMap.containsKey (reason, digest) = true := by
  obtain ⟨info, hi, h⟩ := bind_eq_ok.mp h
  rw [okOr_eq_ok] at hi
  obtain ⟨balance, hb, h⟩ := bind_eq_ok.mp h
  rw [okOr_eq_ok] at hb
  have hk : s.digestMap.containsKey (reason, digest) = true := StorageMap.containsKey_iff.mpr ⟨_, hi⟩
  have htouch (b' : LazyBalance T) := (DigestInfo.setBalance_touch hb b').touch hi
  dsimp only at h
  split at h
  · rename_i hlt
    obtain ⟨⟨actual, nb⟩, h1, h⟩ := bind_eq_ok.mp h
    obtain ⟨b, after, rfl, rfl, rfl, hm⟩ := (mint_eq_ok (by omega)).mp (liftShare_eq_ok.mp h1)
    obtain ⟨s2, h2, h⟩ := bind_eq_ok.mp h
    obtain rfl := addAssetToIssue_spec h2
    obtain ⟨s3, h3, h⟩ := bind_eq_ok.mp h
    obtain ⟨rv, rfl, hrv⟩ := addToTotalValue_spec h3
    simp only [pure_eq_ok, Prod.mk.injEq] at h
    obtain ⟨rfl, -⟩ := h
    refine ⟨_, rv, some b, some after, _, 0, rfl, htouch _, .minted (by omega) hm, ?_, hrv, hk⟩
    have := hm.totals.1
    simp only [totalValue_some] at *
    omega
  · split at h
    · rename_i hlt
      obtain ⟨⟨actual, nb⟩, h1, h⟩ := bind_eq_ok.mp h
      obtain ⟨b, after, rfl, rfl, rfl, hr⟩ := (reap_eq_ok (by omega)).mp (liftShare_eq_ok.mp h1)
      obtain ⟨s2, h2, h⟩ := bind_eq_ok.mp h
      obtain rfl := addAssetToReap_spec h2
      obtain ⟨s3, h3, h⟩ := bind_eq_ok.mp h
      obtain ⟨rv, rfl, hrv⟩ := subFromTotalValue_spec h3
      simp only [pure_eq_ok, Prod.mk.injEq] at h
      obtain ⟨rfl, -⟩ := h
      refine ⟨_, rv, some b, some after, 0, _, rfl, htouch _, .reaped (by omega) hr, ?_, hrv, hk⟩
      have := hr.totals.1
      simp only [totalValue_some] at *
      omega
    · simp only [pure_eq_ok, Prod.mk.injEq] at h
      obtain ⟨rfl, -⟩ := h
      have ht := htouch balance
      rw [DigestInfo.setBalance_self hb, StorageMap.insert_of_get hi] at ht
      exact ⟨_, s.reasonValue, balance, balance, 0, 0, rfl, ht, .same _, by omega, fun _ => rfl, hk⟩

theorem setDigestVariantValue_books {s s' : State T} {reason : T.Reason} {digest : T.AccountId}
    {value reached : Nat} {variant : T.Position} (hs : Sound s)
    (h : setDigestVariantValue s reason digest value variant = .ok (s', reached)) : Books s s' 0 := by
  obtain ⟨m, rv, b, b', gain, loss, rfl, ht, hr, -, hrv, -⟩ := setDigestVariantValue_spec h
  have hv := hr.value
  refine ⟨⟨ht.allSolvent hs.digests (hr.solvent fun c hc => hs.digests _ c (ht.before.trans hc)), hs.pools⟩,
    fun w => ?_, ?_⟩
  · have h1 := ht.live w
    have h2 := hrv w
    have h3 := congrArg (fun n => w reason * n) hv
    simp only [Nat.mul_add, location] at h1 h3
    dsimp only at *
    omega
  · have h1 := ht.live fun _ => 1
    simp only [liveValue_one, Nat.one_mul] at h1
    unfold disequilibrium depositsOwed digestsValue
    dsimp only
    omega

/-- Only the indexes differ. -/
def IndexesOnly (s s' : State T) : Prop := ∃ im, s' = { s with indexMap := im }

theorem setIndex_spec {s s' : State T} {reason : T.Reason} {index : IndexInfo T} {digest : T.AccountId}
    (h : setIndex s reason index digest = .ok s') :
    s.indexMap.get (reason, digest) = none ∧
      s' = { s with indexMap := s.indexMap.insert (reason, digest) index } := by
  obtain ⟨_, hn, h⟩ := bind_eq_ok.mp h
  rw [ensure_eq_ok, StorageMap.containsKey_eq_false_iff] at hn
  exact ⟨hn, (pure_eq_ok.mp h).symm⟩

theorem removeIndexEntry_spec {s s' : State T} {reason : T.Reason}
    {indexOf entryOf generated : T.AccountId}
    (h : removeIndexEntry s reason indexOf entryOf generated = .ok s') :
    ∃ index, setIndex s reason index generated = .ok s' := by
  obtain ⟨info, -, h⟩ := bind_eq_ok.mp h
  obtain ⟨entries, -, h⟩ := bind_eq_ok.mp h
  obtain ⟨index, -, h⟩ := bind_eq_ok.mp h
  exact ⟨index, h⟩

theorem setIndexEntry_spec {s s' : State T} {reason : T.Reason}
    {indexOf entryOf generated : T.AccountId} {shares : Nat} {variant : T.Position}
    (h : setIndexEntry s reason indexOf entryOf shares variant generated = .ok s') :
    ∃ index, setIndex s reason index generated = .ok s' := by
  obtain ⟨_, -, h⟩ := bind_eq_ok.mp h
  obtain ⟨info, -, h⟩ := bind_eq_ok.mp h
  obtain ⟨entries, -, h⟩ := bind_eq_ok.mp h
  obtain ⟨entry, -, h⟩ := bind_eq_ok.mp h
  obtain ⟨entries', -, h⟩ := bind_eq_ok.mp h
  obtain ⟨index, -, h⟩ := bind_eq_ok.mp h
  exact ⟨index, h⟩

theorem setEntryShares_spec {s s' : State T} {reason : T.Reason}
    {indexOf entryOf generated : T.AccountId} {shares : Nat}
    (h : setEntryShares s reason indexOf entryOf shares generated = .ok s') :
    s' = s ∨ ∃ index, setIndex s reason index generated = .ok s' := by
  unfold setEntryShares at h
  split at h
  · split at h
    · exact .inr (removeIndexEntry_spec h)
    · exact .inr (setIndexEntry_spec h)
  · split at h
    · exact .inl (pure_eq_ok.mp h).symm
    · obtain ⟨_, -, h⟩ := bind_eq_ok.mp h
      exact .inr (setIndexEntry_spec h)

theorem setEntryOfVariant_spec {s s' : State T} {reason : T.Reason}
    {indexOf entryOf generated : T.AccountId} {variant : T.Position} {shares : Option Nat}
    (h : setEntryOfVariant s reason indexOf entryOf variant shares generated = .ok s') :
    s' = s ∨ ∃ index, setIndex s reason index generated = .ok s' := by
  unfold setEntryOfVariant at h
  split at h
  · split at h
    · exact .inr (removeIndexEntry_spec h)
    · exact .inr (setIndexEntry_spec h)
  · exact .inr (setIndexEntry_spec h)
  · split at h
    · exact .inl (pure_eq_ok.mp h).symm
    · obtain ⟨_, -, h⟩ := bind_eq_ok.mp h
      exact .inr (setIndexEntry_spec h)
  · exact .inl (pure_eq_ok.mp h).symm

theorem reapIndex_spec {s s' : State T} {reason : T.Reason} {indexOf : T.AccountId}
    (h : reapIndex s reason indexOf = .ok s') :
    ∃ info, s.indexMap.get (reason, indexOf) = some info ∧
      (∀ entry ∈ info.entries.list, ¬hasEntryCommits s reason indexOf entry.digest) ∧
      s' = { s with indexMap := s.indexMap.remove (reason, indexOf) } := by
  obtain ⟨info, hi, h⟩ := bind_eq_ok.mp h
  rw [getIndex, okOr_eq_ok] at hi
  obtain ⟨_, -, h⟩ := bind_eq_ok.mp h
  obtain ⟨_, he, h⟩ := bind_eq_ok.mp h
  rw [ensure_eq_ok] at he
  exact ⟨info, hi, he, (pure_eq_ok.mp h).symm⟩

theorem IndexesOnly.settles {s s' : State T} (h : IndexesOnly s s') (hs : Sound s) : Settles s s' 0 := by
  obtain ⟨im, rfl⟩ := h
  exact ⟨⟨⟨hs.digests, hs.pools⟩, fun _ => rfl, (Int.add_zero _).symm⟩,
    (Flow.refl _).of_eq (Int.sub_self _).symm⟩

theorem setIndex_indexesOnly {s s' : State T} {reason : T.Reason} {index : IndexInfo T}
    {digest : T.AccountId} (h : setIndex s reason index digest = .ok s') : IndexesOnly s s' :=
  ⟨_, (setIndex_spec h).2⟩

theorem indexesOnly_of_or {s s' : State T} {reason : T.Reason} {digest : T.AccountId}
    (h : s' = s ∨ ∃ index, setIndex s reason index digest = .ok s') : IndexesOnly s s' := by
  rcases h with rfl | ⟨index, h⟩
  · exact ⟨_, rfl⟩
  · exact setIndex_indexesOnly h

theorem setPoolManager_spec {s s' : State T} {reason : T.Reason} {poolOf manager : T.AccountId}
    (h : setPoolManager s reason poolOf manager = .ok s') :
    s' = { s with poolManager := s.poolManager.insert (reason, poolOf) manager } := by
  obtain ⟨_, -, h⟩ := bind_eq_ok.mp h
  exact (pure_eq_ok.mp h).symm

theorem setPool_spec {s s' : State T} {who : T.AccountId} {reason : T.Reason}
    {poolOf indexOf : T.AccountId} {commission : Commission T}
    (h : setPool s who reason poolOf indexOf commission = .ok s') :
    ∃ info pool, s.poolMap.get (reason, poolOf) = none ∧ s.indexMap.get (reason, indexOf) = some info ∧
      pool.balance = none ∧ pool.slots = info.entries.list.map SlotInfo.ofEntry ∧
      s' = { s with
        poolMap := s.poolMap.insert (reason, poolOf) pool
        poolManager := s.poolManager.insert (reason, poolOf) who } := by
  obtain ⟨_, hn, h⟩ := bind_eq_ok.mp h
  rw [ensure_eq_ok, StorageMap.containsKey_eq_false_iff] at hn
  obtain ⟨info, hi, h⟩ := bind_eq_ok.mp h
  rw [getIndex, okOr_eq_ok] at hi
  obtain ⟨pool, hp, h⟩ := bind_eq_ok.mp h
  obtain ⟨⟨capital, hc⟩, -, hp⟩ := bind_eq_ok.mp hp
  obtain rfl := pure_eq_ok.mp hp
  exact ⟨info, _, hn, hi, rfl, rfl, setPoolManager_spec h⟩

theorem setPool_settles {s s' : State T} {who : T.AccountId} {reason : T.Reason}
    {poolOf indexOf : T.AccountId} {commission : Commission T} (hs : Sound s)
    (h : setPool s who reason poolOf indexOf commission = .ok s') : Settles s s' 0 := by
  obtain ⟨info, pool, -, -, hb, -, rfl⟩ := setPool_spec h
  refine ⟨⟨hs.insertPool hs.digests ?_ rfl rfl, fun _ => rfl, (Int.add_zero _).symm⟩,
    (Flow.refl _).of_eq (Int.sub_self _).symm⟩
  rw [hb]
  exact fun b hb => nomatch hb

/-- What the sheet misses after a call, known before it. -/
def Call.leak (s : State T) : Call T → Int
  | .placeCommit who reason digest value _ _ => placeLeak s who reason digest value
  | .raiseCommit who reason value _ => raiseLeak s who reason value
  | .resolveCommit who reason => leaveLeak s who reason
  | .setCommitVariant who reason variant _ => changeLeak s who reason variant
  | .setSlotShares reason poolOf slotOf shares => slotSharesLeak s reason poolOf slotOf shares
  | .setSlotOfVariant reason poolOf slotOf _ shares => slotVariantLeak s reason poolOf slotOf shares
  | _ => 0

/-- The calls that neither update a digest value nor stand for the fungible itself. -/
def Call.conserves : Call T → Prop
  | .setDigestValue .. => False
  | .external _ => False
  | _ => True

theorem apply_settles {s s' : State T} {call : Call T} (hs : Sound s) (hc : call.conserves)
    (h : s.apply call = .ok s') : Settles s s' (call.leak s) := by
  cases call with
  | placeCommit who reason digest value variant q =>
    obtain ⟨⟨s1, v⟩, h1, h⟩ := bind_eq_ok.mp h
    obtain rfl := pure_eq_ok.mp h
    exact placeCommitOfVariant_settles hs h1
  | raiseCommit who reason value q =>
    obtain ⟨⟨s1, v⟩, h1, h⟩ := bind_eq_ok.mp h
    obtain rfl := pure_eq_ok.mp h
    exact raiseCommit_settles hs h1
  | resolveCommit who reason =>
    obtain ⟨⟨s1, v⟩, h1, h⟩ := bind_eq_ok.mp h
    obtain rfl := pure_eq_ok.mp h
    exact resolveCommit_settles hs h1
  | setCommitVariant who reason variant q => exact setCommitVariant_settles hs h
  | setDigestValue => exact hc.elim
  | reapDigest digest reason => exact reapDigest_settles hs h
  | setIndex reason index digest => exact (setIndex_indexesOnly h).settles hs
  | setEntryShares => exact (indexesOnly_of_or (setEntryShares_spec h)).settles hs
  | setEntryOfVariant => exact (indexesOnly_of_or (setEntryOfVariant_spec h)).settles hs
  | reapIndex reason indexOf =>
    obtain ⟨info, -, -, rfl⟩ := reapIndex_spec h
    exact IndexesOnly.settles ⟨_, rfl⟩ hs
  | setPool => exact setPool_settles hs h
  | setPoolManager reason poolOf manager =>
    obtain rfl := setPoolManager_spec h
    exact ⟨⟨⟨hs.digests, hs.pools⟩, fun _ => rfl, (Int.add_zero _).symm⟩,
      (Flow.refl _).of_eq (Int.sub_self _).symm⟩
  | setSlotShares => exact setSlotShares_settles hs h
  | setSlotOfVariant => exact setSlotOfVariant_settles hs h
  | reapPool => exact reapPool_settles hs h
  | external => exact hc.elim

theorem apply_books {s s' : State T} {call : Call T} (hs : Sound s) (h : s.apply call = .ok s') :
    Books s s' (call.leak s) := by
  cases call with
  | setDigestValue =>
    obtain ⟨⟨s1, v⟩, h1, h⟩ := bind_eq_ok.mp h
    obtain rfl := pure_eq_ok.mp h
    exact setDigestVariantValue_books hs h1
  | external ledger =>
    obtain rfl := Except.ok.inj h
    exact ⟨⟨hs.digests, hs.pools⟩, fun _ => rfl, (Int.add_zero _).symm⟩
  | _ =>
    refine (apply_settles hs ?_ h).toBooks
    exact trivial

theorem sound_genesis (ledger : T.Ledger) : Sound (State.genesis ledger) :=
  ⟨fun _ _ h => (nomatch h), fun _ _ h => (nomatch h)⟩

theorem Reachable.sound {s : State T} (h : Reachable s) : Sound s := by
  obtain ⟨ledger, calls, rfl⟩ := h
  exact run_invariant (fun _ _ _ hs ht => (apply_books hs ht).sound) (sound_genesis ledger) calls

theorem getDigestVariantValue_of_touch {s : State T} {reason : T.Reason} {digest : T.AccountId}
    {variant : T.Position} {b : LazyBalance T}
    (hk : s.digestMap.containsKey (reason, digest) = true)
    (hb : balanceAt s.digestMap (location reason digest variant) = b) :
    getDigestVariantValue s reason digest variant = .ok (totalValue b) := by
  obtain ⟨info, hi⟩ := StorageMap.containsKey_iff.mp hk
  have hat : (info.getBalance variant).getD none = b := by
    rw [← hb]
    simp [balanceAt, location, hi, DigestInfo.at, DigestInfo.getBalance]
  simp [getDigestVariantValue, hi, hat, okOr, bind, Except.bind, pure, Except.pure]

/-- Cash and committed value together are kept by every call but an update of a digest
value, which changes them by the difference of the values. -/
theorem value_conserved (x : ExactMoves T) {s s' : State T} {call : Call T} (hs : Reachable s)
    (h : s.apply call = .ok s') :
    match call with
    | .external _ => True
    | .setDigestValue reason digest _ variant => ∃ old new,
        getDigestVariantValue s reason digest variant = .ok old ∧
        getDigestVariantValue s' reason digest variant = .ok new ∧
        x.cash s'.ledger + digestsValue s' + old = x.cash s.ledger + digestsValue s + new
    | _ => x.cash s'.ledger + digestsValue s' = x.cash s.ledger + digestsValue s := by
  have hsettle (hc : call.conserves) :
      x.cash s'.ledger + digestsValue s' = x.cash s.ledger + digestsValue s := by
    have := x.cash_of_flow (apply_settles hs.sound hc h).flow
    omega
  cases call with
  | external => trivial
  | setDigestValue reason digest value variant =>
    obtain ⟨⟨s1, v⟩, h1, h⟩ := bind_eq_ok.mp h
    obtain rfl := pure_eq_ok.mp h
    obtain ⟨m, rv, b, b', gain, loss, rfl, ht, -, -, -, hk⟩ := setDigestVariantValue_spec h1
    refine ⟨_, _, getDigestVariantValue_of_touch hk ht.before,
      getDigestVariantValue_of_touch (b := b') ((ht.contains _).trans hk) ?_, ?_⟩
    · rw [ht.after, if_pos rfl]
    · have := ht.live fun _ => 1
      simp only [liveValue_one, Nat.one_mul] at this
      unfold digestsValue
      dsimp only
      omega
  | _ => exact hsettle trivial

theorem value_conserved_thirds : ∃ s' : State runtimeConfig,
    (State.after fundedLedger thirdsPool).apply (place 4 30 10) = .ok s' ∧
    tokenMoves.cash s'.ledger + digestsValue s' =
      tokenMoves.cash (State.after fundedLedger thirdsPool).ledger +
        digestsValue (State.after fundedLedger thirdsPool) := by
  obtain ⟨s', h⟩ := exists_eq_ok
    (show ((State.after fundedLedger thirdsPool).apply (place 4 30 10)).isOk = true from rfl)
  exact ⟨s', h, value_conserved tokenMoves ⟨_, _, rfl⟩ h⟩

end FrameSuite
