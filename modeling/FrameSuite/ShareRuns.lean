import FrameSuite.ShareAccounts

/-! Every call of the pallet keeps the accounts of shares, also where digests, indexes and pools are given
the same name, so the accounts stand in every reachable state. -/

namespace FrameSuite

open ShareBalance

variable {T : Config} {s s' : State T} {who : T.AccountId} {reason : T.Reason} {digest : T.AccountId}

section Digests

theorem Accounted.held_of_unissued (h : Accounted s) {key : T.Reason × T.AccountId}
    (hk : s.digestMap.containsKey key = true) (hz : ∀ v, issuedAt s.digestMap (location key.1 key.2 v) = 0) :
    commitHeld (sharesUnder key) s.commitMap = 0 := by
  have hsum : commitHeld (sharesUnder key) s.commitMap = s.commitMap.sum fun _ _ => 0 := by
    refine StorageMap.sum_congr fun k info hi => ?_
    by_cases hkey : (k.2, info.digest) = key
    · subst hkey
      let loc := location k.2 info.digest info.variant
      have hown : directShares s.digestMap loc loc = sharesUnder (k.2, info.digest) loc := by
        rw [directShares_of_known hk]
        funext r
        rw [sharesAt, if_pos rfl, sharesUnder, if_pos (by rfl)]
      have hle : tally (directShares s.digestMap loc) (commitClaims k info) ≤
          commitHeld (directShares s.digestMap loc) s.commitMap :=
        StorageMap.le_sum (f := fun k (info : CommitInfo T) => tally _ (commitClaims k info)) hi
      have hloc := h.digests loc
      have hzero := hz info.variant
      rw [commitClaims, tally_congr hown] at hle
      rw [commitClaims]
      dsimp only [loc] at *
      omega
    · exact tally_eq_zero (sharesUnder_eq_zero hkey) info.commits.receipts
  rw [hsum]
  exact Finset.sum_eq_zero fun k _ => by cases s.commitMap.get k <;> rfl

theorem directShares_held_le {m m' : DigestMap T} (reason : T.Reason) (digest : T.AccountId)
    (h : ∀ k, k ≠ (reason, digest) → m'.containsKey k = m.containsKey k) (cm : CommitMap T) (l : Location T) :
    commitHeld (directShares m' l) cm ≤ commitHeld (directShares m l) cm +
      commitHeld (sharesUnder (reason, digest)) cm := by
  unfold commitHeld
  rw [← StorageMap.sum_add]
  refine StorageMap.sum_le_sum fun k info _ => ?_
  rw [← tally_add]
  refine tally_le_tally fun c _ => ?_
  obtain ⟨loc, r⟩ := c
  unfold directShares sharesUnder
  by_cases hk : (loc.1, loc.2.1) = (reason, digest)
  · rw [if_pos hk]
    split
    · rw [sharesAt]
      split <;> omega
    · exact Nat.zero_le _
  · rw [h _ hk]
    exact Nat.le_add_right _ _

theorem Accounted.initiateDigest (h : Accounted s)
    (hk : s.digestMap.containsKey (reason, digest) = true ∨ ¬Known s (reason, digest)) :
    Accounted (initiateDigest s reason digest) := by
  have hsound := (initiateDigest_settles h.sound reason digest).sound
  unfold FrameSuite.initiateDigest at hsound ⊢
  by_cases hc : s.digestMap.containsKey (reason, digest) = true
  · rw [if_pos hc]
    exact h
  · rw [if_neg hc] at hsound ⊢
    obtain ⟨hd, -, hp⟩ := not_known_iff.mp (hk.resolve_left hc)
    have hunder := h.unknown_held hd hp
    rw [StorageMap.containsKey_eq_false_iff] at hd hp
    refine ⟨hsound, fun l => ?_, fun key hkey => h.pools key ?_, fun key pool hkey hpool => ?_, h.tidy, h.entries⟩
    · have hiss : issuedAt (s.digestMap.insert (reason, digest) DigestInfo.default) l = issuedAt s.digestMap l := by
        rw [issuedAt, (insert_default_spec hd).1, issuedAt]
      have hkeys (k : T.Reason × T.AccountId) (hne : k ≠ (reason, digest)) :
          (s.digestMap.insert (reason, digest) DigestInfo.default).containsKey k = s.digestMap.containsKey k :=
        containsKey_insert_of_ne hne
      have hle := directShares_held_le reason digest hkeys s.commitMap l
      have hl := h.digests l
      have hpos : positioned { s with
        digestMap := s.digestMap.insert (reason, digest) DigestInfo.default } l = positioned s l := rfl
      rw [hpos]
      dsimp only
      omega
    · rw [← Bool.not_eq_true] at hkey ⊢
      exact fun hold => hkey (containsKey_insert.mpr (.inr hold))
    · rcases containsKey_insert.mp hkey with rfl | hold
      · rw [hp] at hpool
        cases hpool
      · exact h.idle key pool hold hpool

theorem Accounted.reapDigest (h : Accounted s) (hr : reapDigest s digest reason = .ok s') : Accounted s' := by
  have hsound := (reapDigest_settles h.sound hr).sound
  obtain ⟨dinfo, hd, -, hz, rfl⟩ := reapDigest_spec h.sound hr
  have hk : s.digestMap.containsKey (reason, digest) = true := StorageMap.containsKey_iff.mpr ⟨dinfo, hd⟩
  have hunder := h.held_of_unissued hk fun v => by simp [issuedAt, balanceAt, location, hd, hz]
  refine ⟨hsound, fun l => ?_, fun key hkey => ?_, fun key pool hkey => h.idle key pool (containsKey_remove hkey),
    h.tidy, h.entries⟩
  · have hiss : issuedAt (s.digestMap.remove (reason, digest)) l = issuedAt s.digestMap l := by
      by_cases hl : (l.1, l.2.1) = (reason, digest)
      · simp [issuedAt, balanceAt, hl, hd, hz]
      · simp only [issuedAt, balanceAt, StorageMap.get_remove_of_ne hl]
    have hkeys (k : T.Reason × T.AccountId) (hne : k ≠ (reason, digest)) :
        (s.digestMap.remove (reason, digest)).containsKey k = s.digestMap.containsKey k :=
      containsKey_remove_of_ne hne
    have hle := directShares_held_le reason digest hkeys s.commitMap l
    have hl := h.digests l
    have hpos : positioned { s with digestMap := s.digestMap.remove (reason, digest) } l = positioned s l := rfl
    rw [hpos]
    dsimp only
    omega
  · by_cases he : key = (reason, digest)
    · rw [he, hunder]
      exact Nat.zero_le _
    · exact h.pools key ((containsKey_remove_of_ne he).symm.trans hkey)

theorem Accounted.setDigestVariantValue {value reached : Nat} {variant : T.Position} (h : Accounted s)
    (hv : setDigestVariantValue s reason digest value variant = .ok (s', reached)) : Accounted s' := by
  obtain ⟨m, hm, hcm, hpost⟩ := setDigestVariantValue_posting h.sound hv
  exact h.post hpost hm hcm

end Digests

section Commits

variable {s₁ : State T} {info : CommitInfo T} {value amount : Nat} {variant : T.Position} {q : Directive}

theorem pool_unknown {poolOf : T.AccountId} (h : digestModel s digest reason = .pool poolOf) :
    s.digestMap.containsKey (reason, digest) = false := by
  rw [← Bool.not_eq_true]
  intro hd
  simp [digestModel, determineDigest, hd] at h

theorem Accounted.place {l : T.Ledger} {receipt : CommitInstance T} (h : Accounted s)
    (hnew : s.commitMap.get (who, reason) = none)
    (hpost : Posting { s with ledger := l } s₁ (location reason digest variant) [receipt] [] fun _ => False)
    (hf : finalizePlaceCommit s₁ who reason digest variant receipt amount = .ok s') : Accounted s' := by
  obtain ⟨info, hc, rfl, rfl, hr⟩ := finalizePlaceCommit_spec hf
  obtain ⟨hm, hins⟩ := hc.sameMaps
  rw [hpost.commits] at hins
  exact (h.withLedger l).extend hpost hm hins (extended_of_new hnew hr)

theorem Accounted.placeCommitOf (h : Accounted s) (hnew : s.commitMap.get (who, reason) = none)
    (hp : placeCommitOf s who reason (digestModel s digest reason) value variant q = .ok (s', amount)) :
    Accounted s' := by
  obtain ⟨s₁, s₂, actual, receipt, h₁, h₂, h₃⟩ := placeCommitOf_steps hp
  obtain ⟨l, rfl, -⟩ := deductBalance_spec h₁
  rcases digestModel_cases s digest reason with ⟨hm, hk⟩ | ⟨hm, -⟩ | ⟨hm, -⟩
  · rw [hm] at h₂ h₃
    have hinit := h.initiateDigest hk
    have hcm := placedFrom_commitMap s reason (.direct digest)
    obtain ⟨r, rfl, -, -, hpost⟩ := depositToDigest_posting (hinit.sound.withLedger l) h₂
    exact hinit.place (hcm ▸ hnew) hpost h₃
  · rw [hm] at h₂ h₃
    obtain ⟨rfl, hpost⟩ := depositToIndex_posting (h.sound.withLedger l) h₂ (location reason digest variant)
    exact h.place hnew hpost h₃
  · have hfree := pool_unknown hm
    rw [hm] at h₂ h₃
    obtain ⟨r, rfl, -, hpost⟩ := depositToPool_posting (h.sound.withLedger l) hfree h₂ variant
    exact h.place hnew hpost h₃

theorem Accounted.placeCommitOfVariant (h : Accounted s)
    (hp : placeCommitOfVariant s who reason digest value variant q = .ok (s', amount)) : Accounted s' := by
  obtain ⟨_, hn, hp⟩ := bind_eq_ok.mp hp
  rw [ensure_eq_ok, StorageMap.containsKey_eq_false_iff] at hn
  obtain ⟨_, -, hp⟩ := bind_eq_ok.mp hp
  exact h.placeCommitOf hn hp

theorem Accounted.raise {l : T.Ledger} {receipt : CommitInstance T} (h : Accounted s)
    (ho : s.commitMap.get (who, reason) = some info)
    (hpost : Posting { s with ledger := l } s₁ (location reason info.digest info.variant) [receipt] []
      fun _ => False)
    (hf : finalizeRaiseCommit s₁ who reason receipt amount = .ok s') : Accounted s' := by
  obtain ⟨old, raised, ho', hc, hd, hv, hr⟩ := finalizeRaiseCommit_spec hf
  rw [hpost.commits] at ho'
  obtain rfl : info = old := Option.some.inj (ho.symm.trans ho')
  obtain ⟨hm, hins⟩ := hc.sameMaps
  rw [hpost.commits] at hins
  rw [← hd, ← hv] at hpost
  exact (h.withLedger l).extend hpost hm hins (.of_raise ho hd hv hr)

theorem Accounted.raiseCommit (h : Accounted s) (hr : raiseCommit s who reason value q = .ok (s', amount)) :
    Accounted s' := by
  obtain ⟨info, hi, hr⟩ := raiseCommit_eq_ok hr
  obtain ⟨variant, s₁, s₂, actual, receipt, hv, h₁, h₂, h₃⟩ := raiseCommitOf_steps hr
  obtain ⟨l, rfl, -⟩ := deductBalance_spec h₁
  rcases digestModel_cases s info.digest reason with ⟨hc, -⟩ | ⟨hc, -⟩ | ⟨hc, -⟩
  · rw [hc] at h₂
    obtain ⟨info', hi', hv⟩ := bind_eq_ok.mp (hv _ hc)
    rw [getCommit, okOr_eq_ok] at hi'
    obtain rfl : info = info' := Option.some.inj (hi.symm.trans hi')
    obtain rfl := pure_eq_ok.mp hv
    obtain ⟨r, rfl, -, -, hpost⟩ := depositToDigest_posting (h.sound.withLedger l) h₂
    exact h.raise hi hpost h₃
  · rw [hc] at h₂
    obtain ⟨rfl, hpost⟩ := depositToIndex_posting (h.sound.withLedger l) h₂ _
    exact h.raise hi hpost h₃
  · have hfree := pool_unknown hc
    rw [hc] at h₂
    obtain ⟨r, rfl, -, hpost⟩ := depositToPool_posting (h.sound.withLedger l) hfree h₂ info.variant
    exact h.raise hi hpost h₃

theorem withdrawFor_posting {d : AssetDelta} (hs : Sound s) (hi : s.commitMap.get (who, reason) = some info)
    (hknown : Known s (reason, info.digest))
    (h : withdrawFor s who reason (digestModel s info.digest reason) = .ok (s', d)) :
    ∃ s₁, SameMaps s₁ s' ∧ s'.commitMap = s₁.commitMap ∧
      Posting s s₁ (location reason info.digest info.variant) [] info.commits.receipts
        fun key => key.2.2.2 = who ∧ key.1 = reason := by
  rcases digestModel_cases s info.digest reason with ⟨hc, hk⟩ | ⟨hc, -⟩ | ⟨hc, -⟩
  · rw [hc] at h
    exact ⟨s', ⟨rfl, rfl, rfl, rfl⟩, rfl,
      withdrawFromDigest_posting hs hi (hk.resolve_right fun hn => hn hknown) h _⟩
  · rw [hc] at h
    exact ⟨s', ⟨rfl, rfl, rfl, rfl⟩, rfl, withdrawFromIndex_posting hs h _ _⟩
  · have hfree := pool_unknown hc
    rw [hc] at h
    exact withdrawFromPool_posting hs hfree hi h _ _

theorem Accounted.resolveCommit {resolved : Nat} (h : Accounted s)
    (hr : resolveCommit s who reason = .ok (s', resolved)) :
    Accounted s' ∧ s'.commitMap.get (who, reason) = none := by
  obtain ⟨info, hi, hm, hr⟩ := resolveCommit_eq_ok hr
  have hknown := known_of_determineDigest hm
  obtain ⟨_, -, hr⟩ := bind_eq_ok.mp hr
  obtain ⟨⟨s1, d⟩, h1, hr⟩ := bind_eq_ok.mp hr
  obtain ⟨s₁, hm₁, hcm₁, hpost⟩ := withdrawFor_posting h.sound hi hknown h1
  obtain ⟨hm₂, hcm₂⟩ := finalizeResolveCommit_maps hr
  have hremoved : s'.commitMap = s.commitMap.remove (who, reason) := by
    rw [hcm₂, hcm₁, hpost.commits]
  refine ⟨h.release hi hpost (hm₁.trans hm₂) hremoved, ?_⟩
  rw [hremoved, StorageMap.get_remove, if_pos rfl]

theorem Accounted.setCommitVariant (h : Accounted s) (hv : setCommitVariant s who reason variant q = .ok s') :
    Accounted s' := by
  obtain ⟨info, -, ⟨-, rfl⟩ | ⟨-, s1, reDeposit, amount, h1, h2⟩⟩ := setCommitVariant_cases hv
  · exact h
  · exact (h.resolveCommit h1).1.placeCommitOfVariant h2

end Commits

section Indexes

theorem Accounted.withIndexes (h : Accounted s) (im : StorageMap (T.Reason × T.AccountId) (IndexInfo T))
    (hsame : ∀ key, s.entryMap.get key ≠ none → im.get (key.1, key.2.1) = s.indexMap.get (key.1, key.2.1)) :
    Accounted { s with indexMap := im } := by
  refine ⟨⟨h.sound.digests, h.sound.pools⟩, fun l => ?_, h.pools, h.idle, h.tidy,
    fun key hk => (h.entries key hk).congr (congrArg _ (hsame key hk))⟩
  have hheld := entryHeld_congr (sharesAt l) fun key hk => entryLocation_congr (congrArg _ (hsame key hk))
  have hd := h.digests l
  unfold positioned at hd ⊢
  dsimp only
  rw [hheld]
  exact hd

theorem Accounted.setIndex {index : IndexInfo T} (h : Accounted s)
    (hi : setIndex s reason index digest = .ok s') : Accounted s' := by
  obtain ⟨hnone, rfl⟩ := setIndex_spec hi
  refine h.withIndexes _ fun key hk => StorageMap.get_insert_of_ne fun he => ?_
  obtain ⟨info, entry, hg, -⟩ := h.entries key hk
  rw [he, hnone] at hg
  cases hg

theorem Accounted.setIndex_or (h : Accounted s)
    (hi : s' = s ∨ ∃ index, FrameSuite.setIndex s reason index digest = .ok s') : Accounted s' := by
  rcases hi with rfl | ⟨index, hi⟩
  · exact h
  · exact h.setIndex hi

theorem Accounted.reapIndex (h : Accounted s) (hr : reapIndex s reason digest = .ok s') : Accounted s' := by
  obtain ⟨iinfo, hg, hnone, rfl⟩ := reapIndex_spec hr
  refine h.withIndexes _ fun key hk => StorageMap.get_remove_of_ne fun he => ?_
  obtain ⟨info, entry, hi, hm, hd⟩ := h.entries key hk
  rw [he, hg] at hi
  obtain rfl := Option.some.inj hi
  obtain ⟨h1, h2⟩ := Prod.mk.inj he
  exact hnone entry hm ⟨key, (s.entryMap.mem_keys key).mpr hk, h1, h2, hd.symm⟩

end Indexes

section Pools

theorem slots_tidy_ofEntry {pool : PoolInfo T} {entries : List (EntryInfo T)}
    (h : pool.slots = entries.map SlotInfo.ofEntry) : pool.Tidy := by
  have hnone : ∀ slot ∈ pool.slots, slot.commit = none := by
    rw [h]
    intro slot hm
    obtain ⟨entry, -, rfl⟩ := List.mem_map.mp hm
    rfl
  exact ⟨fun _ => hnone, fun slot hm r hr => nomatch (hnone slot hm).symm.trans hr⟩

theorem Accounted.setPool {poolOf indexOf : T.AccountId} {commission : Commission T} (h : Accounted s)
    (hp : setPool s who reason poolOf indexOf commission = .ok s') : Accounted s' := by
  have hsound := (setPool_settles h.sound hp).sound
  obtain ⟨info, pool, hnone, -, hbal, hslots, rfl⟩ := setPool_spec hp
  have hcases {key : T.Reason × T.AccountId} {pool' : PoolInfo T}
      (hk : (s.poolMap.insert (reason, poolOf) pool).get key = some pool') :
      pool' = pool ∨ s.poolMap.get key = some pool' := by
    rw [StorageMap.get_insert] at hk
    split at hk
    · exact .inl (Option.some.inj hk).symm
    · exact .inr hk
  refine ⟨hsound, fun l => ?_, fun key hk => ?_, fun key pool' hk hg => ?_, fun key pool' hg => ?_, h.entries⟩
  · have hheld := StorageMap.sum_insert (fun key (pool : PoolInfo T) => tally (sharesAt l)
      (slotClaims key.1 pool.slots))
      s.poolMap (reason, poolOf) pool
    have hd := h.digests l
    rw [hnone, Option.elim_none, hslots, slotClaims_ofEntry, tally_nil] at hheld
    unfold positioned slotHeld at hd ⊢
    dsimp only at hheld ⊢
    omega
  · have hd := h.pools key hk
    refine hd.trans ?_
    by_cases he : key = (reason, poolOf)
    · rw [he, poolShares_of_none hnone]
      exact Nat.zero_le _
    · rw [poolShares, poolShares, StorageMap.get_insert_of_ne he]
  · rcases hcases hg with rfl | hold
    · exact hbal
    · exact h.idle key pool' hk hold
  · rcases hcases hg with rfl | hold
    · exact slots_tidy_ofEntry hslots
    · exact h.tidy key pool' hold

theorem Accounted.reapPool {poolOf : T.AccountId} (h : Accounted s)
    (hr : reapPool s reason poolOf = .ok s') : Accounted s' := by
  have hsound := (reapPool_settles h.sound hr).sound
  obtain ⟨pool, hg, hz, rfl⟩ := reapPool_spec h.sound hr
  refine ⟨hsound, fun l => ?_, fun key hk => ?_,
    fun key pool' hk hp => h.idle key pool' hk (get_of_remove hp),
    fun key pool' hp => h.tidy key pool' (get_of_remove hp), h.entries⟩
  · have hslots := StorageMap.sum_remove (fun key (pool : PoolInfo T) => tally (sharesAt l)
      (slotClaims key.1 pool.slots))
      s.poolMap (reason, poolOf)
    have hd := h.digests l
    unfold positioned slotHeld at hd ⊢
    dsimp only at hslots ⊢
    omega
  · have hd := h.pools key hk
    by_cases he : key = (reason, poolOf)
    · rw [he, poolShares_of_get hg, hz] at hd
      rw [he]
      exact hd.trans (Nat.zero_le _)
    · refine hd.trans ?_
      rw [poolShares, poolShares, StorageMap.get_remove_of_ne he]

theorem Accounted.slots {loc : Location T} (h : Accounted s)
    (hp : s' = s ∨ Posting s s' loc [] [] fun _ => False) : Accounted s' := by
  rcases hp with rfl | hp
  · exact h
  · exact h.post hp ⟨rfl, rfl, rfl, rfl⟩ hp.commits

end Pools

theorem apply_accounted {call : Call T} (h : Accounted s) (ha : s.apply call = .ok s') : Accounted s' := by
  cases call with
  | placeCommit who reason digest value variant q =>
    obtain ⟨⟨s1, v⟩, h1, ha⟩ := bind_eq_ok.mp ha
    obtain rfl := pure_eq_ok.mp ha
    exact h.placeCommitOfVariant h1
  | raiseCommit who reason value q =>
    obtain ⟨⟨s1, v⟩, h1, ha⟩ := bind_eq_ok.mp ha
    obtain rfl := pure_eq_ok.mp ha
    exact h.raiseCommit h1
  | resolveCommit who reason =>
    obtain ⟨⟨s1, v⟩, h1, ha⟩ := bind_eq_ok.mp ha
    obtain rfl := pure_eq_ok.mp ha
    exact (h.resolveCommit h1).1
  | setCommitVariant who reason variant q => exact h.setCommitVariant ha
  | setDigestValue reason digest value variant =>
    obtain ⟨⟨s1, v⟩, h1, ha⟩ := bind_eq_ok.mp ha
    obtain rfl := pure_eq_ok.mp ha
    exact h.setDigestVariantValue h1
  | reapDigest digest reason => exact h.reapDigest ha
  | setIndex reason index digest => exact h.setIndex ha
  | setEntryShares => exact h.setIndex_or (setEntryShares_spec ha)
  | setEntryOfVariant => exact h.setIndex_or (setEntryOfVariant_spec ha)
  | reapIndex reason indexOf => exact h.reapIndex ha
  | setPool => exact h.setPool ha
  | setPoolManager reason poolOf manager =>
    obtain rfl := setPoolManager_spec ha
    exact ⟨⟨h.sound.digests, h.sound.pools⟩, h.digests, h.pools, h.idle, h.tidy, h.entries⟩
  | setSlotShares => exact h.slots (setSlotShares_posting h.sound ha T.positionDefault)
  | setSlotOfVariant reason poolOf slotOf variant shares =>
    exact h.slots (setSlotOfVariant_posting h.sound ha variant)
  | reapPool reason poolOf => exact h.reapPool ha
  | external ledger =>
    obtain rfl := Except.ok.inj ha
    exact h.withLedger ledger

theorem Reachable.accounted (h : Reachable s) : Accounted s := by
  obtain ⟨ledger, calls, rfl⟩ := h
  exact run_invariant (fun _ _ _ hs ht => apply_accounted hs ht) (accounted_genesis ledger) calls

end FrameSuite
