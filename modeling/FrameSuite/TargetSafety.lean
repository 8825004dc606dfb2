import FrameSuite.CommitTargets
import FrameSuite.DirectCommits

/-! New and reaped digests, indexes and pools leave the commits their targets, and so does every
run of the pallet whose placements on indexes allocate something. -/

namespace FrameSuite

open ShareBalance

variable {T : Config} {p : Prop}

section Reaping

variable {s s' : State T} {reason : T.Reason} {digest : T.AccountId}

theorem le_commitHeld {φ : Location T → Receipt T.share → Nat} {m : CommitMap T}
    {key : T.AccountId × T.Reason} {info : CommitInfo T} {r : Receipt T.share} (hi : m.get key = some info)
    (hr : some r ∈ info.commits.receipts) :
    φ (location key.2 info.digest info.variant) r ≤ commitHeld φ m := by
  have hc : (location key.2 info.digest info.variant, r) ∈ commitClaims key info := mem_receiptsAt.mpr hr
  have hle : φ (location key.2 info.digest info.variant) r ≤ tally φ (commitClaims key info) :=
    le_tally hc
  exact hle.trans (StorageMap.le_sum (f := fun key (info : CommitInfo T) => tally φ (commitClaims key info)) hi)

theorem reapDigest_free (hs : Custody p s) (hp : p) (h : reapDigest s digest reason = .ok s') {who : T.AccountId}
    {info : CommitInfo T} (hi : s.commitMap.get (who, reason) = some info) : info.digest ≠ digest := by
  rintro rfl
  obtain ⟨dinfo, hd, -, hz, -⟩ := reapDigest_spec hs.sound h
  have hk : s.digestMap.containsKey (reason, info.digest) = true := StorageMap.containsKey_iff.mpr ⟨dinfo, hd⟩
  have happart := hs.digestsApart _ hk
  cases hs.anchored hp who reason info hi with
  | direct r known receipt =>
    have hle : ownShares s.poolMap (location reason info.digest info.variant)
        (location reason info.digest info.variant) r ≤ commitHeld _ s.commitMap := le_commitHeld hi receipt
    have hdig := hs.digests (location reason info.digest info.variant)
    have hne := hs.shares_ne _ info hi r receipt
    rw [congrFun (ownShares_of_not_pool happart.2) r, sharesAt, if_pos rfl] at hle
    have hiss : issuedAt s.digestMap (location reason info.digest info.variant) = 0 := by
      simp [issuedAt, balanceAt, location, hd, hz]
    omega
  | index entry known held =>
    rw [happart.1] at known
    cases known
  | pool r known receipt =>
    rw [happart.2] at known
    cases known

theorem reapIndex_free (hs : Custody p s) (hp : p) (h : reapIndex s reason digest = .ok s') {who : T.AccountId}
    {info : CommitInfo T} (hi : s.commitMap.get (who, reason) = some info) : info.digest ≠ digest := by
  rintro rfl
  obtain ⟨iinfo, hg, hfree, -⟩ := reapIndex_spec h
  have hk : s.indexMap.containsKey (reason, info.digest) = true := StorageMap.containsKey_iff.mpr ⟨iinfo, hg⟩
  cases hs.anchored hp who reason info hi with
  | direct r known receipt =>
    rw [(hs.digestsApart _ known).1] at hk
    cases hk
  | index entry known held =>
    obtain ⟨iinfo', e, hg', hm, hd⟩ := hs.entries _ held
    obtain rfl := Option.some.inj (hg.symm.trans hg')
    exact hfree e hm ⟨_, (s.entryMap.mem_keys _).mpr held, rfl, rfl, hd.symm⟩
  | pool r known receipt =>
    rw [hs.indexesApart _ hk] at known
    cases known

theorem reapPool_free (hs : Custody p s) (hp : p) (h : reapPool s reason digest = .ok s') {who : T.AccountId}
    {info : CommitInfo T} (hi : s.commitMap.get (who, reason) = some info) : info.digest ≠ digest := by
  rintro rfl
  obtain ⟨pool, hg, hz, -⟩ := reapPool_spec hs.sound h
  have hk : s.poolMap.containsKey (reason, info.digest) = true := StorageMap.containsKey_iff.mpr ⟨pool, hg⟩
  cases hs.anchored hp who reason info hi with
  | direct r known receipt =>
    rw [(hs.digestsApart _ known).2] at hk
    cases hk
  | index entry known held =>
    rw [hs.indexesApart _ known] at hk
    cases hk
  | pool r known receipt =>
    have hle : sharesUnder (reason, info.digest) (location reason info.digest info.variant) r ≤
        commitHeld _ s.commitMap := le_commitHeld hi receipt
    have hpool := hs.pools _ pool hg
    have hne := hs.shares_ne _ info hi r receipt
    unfold sharesUnder at hle
    rw [if_pos (by rfl)] at hle
    unfold sharesUnder at hpool
    omega

/-- A target that no commit of its reason names can go: the other commits keep theirs. -/
theorem containsKey_remove_of_free {α : Type} {m : StorageMap (T.Reason × T.AccountId) α}
    (hfree : ∀ {who : T.AccountId} {info : CommitInfo T},
      s.commitMap.get (who, reason) = some info → info.digest ≠ digest)
    {who : T.AccountId} {r : T.Reason} {info : CommitInfo T} (hi : s.commitMap.get (who, r) = some info)
    (hk : m.containsKey (r, info.digest) = true) :
    (m.remove (reason, digest)).containsKey (r, info.digest) = true := by
  have hne : (r, info.digest) ≠ (reason, digest) := by
    intro he
    obtain ⟨rfl, hdig⟩ := Prod.mk.inj he
    exact hfree hi hdig
  exact (containsKey_remove_of_ne hne).trans hk

theorem reapDigest_kept (hs : Custody p s) (h : reapDigest s digest reason = .ok s') : Kept p s s' := by
  have hfree (hp : p) {who : T.AccountId} {info : CommitInfo T} (hi : s.commitMap.get (who, reason) = some info) :=
    reapDigest_free hs hp h hi
  have hsound := (reapDigest_settles hs.sound h).sound
  obtain ⟨dinfo, hd, -, hz, rfl⟩ := reapDigest_spec hs.sound h
  have hiss (l : Location T) : issuedAt (s.digestMap.remove (reason, digest)) l = issuedAt s.digestMap l := by
    by_cases hl : (l.1, l.2.1) = (reason, digest)
    · simp [issuedAt, balanceAt, hl, hd, hz]
    · simp only [issuedAt, balanceAt, StorageMap.get_remove_of_ne hl]
  refine .of_same ⟨hsound, fun l => ?_, hs.pools, fun key hk => hs.digestsApart key (containsKey_remove hk),
    hs.indexesApart, hs.entries, hs.shares_ne, fun hp who r info hi => ?_⟩
    ⟨fun key hk => .inl (containsKey_remove hk), fun _ hk => .inl hk, fun _ hk => .inl hk⟩ rfl
  · dsimp only
    rw [hiss]
    exact hs.digests l
  · refine (hs.anchored hp who r info hi).mono rfl (fun _ hr => hr) (fun hk => ?_) id id fun _ => id
    exact containsKey_remove_of_free (hfree hp) hi hk

theorem reapIndex_kept (hs : Custody p s) (h : reapIndex s reason digest = .ok s') : Kept p s s' := by
  have hfree (hp : p) {who : T.AccountId} {info : CommitInfo T} (hi : s.commitMap.get (who, reason) = some info) :=
    reapIndex_free hs hp h hi
  obtain ⟨iinfo, hg, hnone, rfl⟩ := reapIndex_spec h
  have hother (key : EntryKey T) (hk : s.entryMap.get key ≠ none) :
      (s.indexMap.remove (reason, digest)).get (key.1, key.2.1) = s.indexMap.get (key.1, key.2.1) := by
    refine StorageMap.get_remove_of_ne fun he => ?_
    obtain ⟨info, entry, hi, hm, hd⟩ := hs.entries key hk
    rw [he, hg] at hi
    obtain rfl := Option.some.inj hi
    obtain ⟨h1, h2⟩ := Prod.mk.inj he
    exact hnone entry hm ⟨key, (s.entryMap.mem_keys key).mpr hk, h1, h2, hd.symm⟩
  refine .of_same ⟨⟨hs.sound.digests, hs.sound.pools⟩, fun l => ?_, hs.pools, fun key hk => ?_,
    fun key hk => hs.indexesApart key (containsKey_remove hk), fun key hk => ?_, hs.shares_ne,
    fun hp who r info hi => ?_⟩
    ⟨fun _ hk => .inl hk, fun key hk => .inl (containsKey_remove hk), fun _ hk => .inl hk⟩ rfl
  · have hheld := entryHeld_congr (sharesAt l) fun key hk => entryLocation_congr (congrArg _ (hother key hk))
    have hd := hs.digests l
    unfold positioned at hd ⊢
    dsimp only
    rw [hheld]
    exact hd
  · have := hs.digestsApart key hk
    refine ⟨?_, this.2⟩
    by_contra hc
    rw [Bool.not_eq_false] at hc
    rw [containsKey_remove hc] at this
    cases this.1
  · exact (hs.entries key hk).congr (congrArg _ (hother key hk))
  · refine (hs.anchored hp who r info hi).mono rfl (fun _ hr => hr) id (fun hk => ?_) id fun _ => id
    exact containsKey_remove_of_free (hfree hp) hi hk

theorem tally_add (φ ψ : Location T → Receipt T.share → Nat) (claims : Claims T) :
    tally (fun loc r => φ loc r + ψ loc r) claims = tally φ claims + tally ψ claims := by
  induction claims with
  | nil => rfl
  | cons c claims ih =>
    obtain ⟨loc, r⟩ := c
    rw [tally_cons, tally_cons, tally_cons, ih]
    omega

theorem ownShares_held_le {pm pm' : StorageMap (T.Reason × T.AccountId) (PoolInfo T)} {key : T.Reason × T.AccountId}
    (h : ∀ k, k ≠ key → pm'.containsKey k = pm.containsKey k) (cm : CommitMap T) (l : Location T) :
    commitHeld (ownShares pm' l) cm ≤ commitHeld (ownShares pm l) cm + commitHeld (sharesUnder key) cm := by
  unfold commitHeld
  rw [← StorageMap.sum_add]
  refine StorageMap.sum_le_sum fun k info _ => ?_
  rw [← tally_add]
  refine tally_le_tally fun c _ => ?_
  obtain ⟨loc, r⟩ := c
  unfold ownShares sharesUnder
  by_cases hk : (loc.1, loc.2.1) = key
  · rw [if_pos hk]
    split
    · exact Nat.zero_le _
    · rw [sharesAt]
      split <;> omega
  · rw [h _ hk]
    exact Nat.le_add_right _ _

theorem reapPool_kept (hs : Custody p s) (h : reapPool s reason digest = .ok s') : Kept p s s' := by
  have hfree (hp : p) {who : T.AccountId} {info : CommitInfo T} (hi : s.commitMap.get (who, reason) = some info) :=
    reapPool_free hs hp h hi
  have hsound := (reapPool_settles hs.sound h).sound
  obtain ⟨pool, hg, hz, rfl⟩ := reapPool_spec hs.sound h
  have hapart {key : T.Reason × T.AccountId} (hk : s.poolMap.containsKey key = false) :
      (s.poolMap.remove (reason, digest)).containsKey key = false := by
    rw [← Bool.not_eq_true]
    intro hc
    rw [containsKey_remove hc] at hk
    cases hk
  refine .of_same ⟨hsound, fun l => ?_, fun key pool' hk => ?_,
    fun key hk => ⟨(hs.digestsApart key hk).1, hapart (hs.digestsApart key hk).2⟩,
    fun key hk => hapart (hs.indexesApart key hk), hs.entries, hs.shares_ne, fun hp who r info hi => ?_⟩
    ⟨fun _ hk => .inl hk, fun _ hk => .inl hk, fun key hk => .inl (containsKey_remove hk)⟩ rfl
  · have hd := hs.digests l
    have hunder := hs.pools _ pool hg
    have hown : commitHeld (ownShares (s.poolMap.remove (reason, digest)) l) s.commitMap ≤
        commitHeld (ownShares s.poolMap l) s.commitMap + commitHeld (sharesUnder (reason, digest)) s.commitMap :=
      ownShares_held_le (fun k hk => containsKey_remove_of_ne hk) _ l
    have hslots := StorageMap.sum_remove (fun key (pool : PoolInfo T) => tally (sharesAt l)
      (slotClaims key.1 pool.slots))
      s.poolMap (reason, digest)
    unfold positioned slotHeld at hd ⊢
    dsimp only at hslots ⊢
    omega
  · dsimp only at hk
    rw [StorageMap.get_remove] at hk
    split at hk
    · cases hk
    · exact hs.pools key pool' hk
  · refine (hs.anchored hp who r info hi).mono rfl (fun _ hr => hr) id id (fun hk => ?_) fun _ => id
    exact containsKey_remove_of_free (hfree hp) hi hk

end Reaping

section Creating

variable {s s' : State T} {reason : T.Reason} {digest : T.AccountId}

theorem not_known_iff {key : T.Reason × T.AccountId} : ¬Known s key ↔
    s.digestMap.containsKey key = false ∧ s.indexMap.containsKey key = false ∧
      s.poolMap.containsKey key = false := by
  simp [Known]

theorem Custody.unknown_held (hs : Custody p s) {key : T.Reason × T.AccountId} (hn : ¬Known s key) :
    commitHeld (sharesUnder key) s.commitMap = 0 := by
  obtain ⟨hd, -, hp⟩ := not_known_iff.mp hn
  have hz : commitHeld (sharesUnder key) s.commitMap = s.commitMap.sum fun _ _ => 0 := by
    refine StorageMap.sum_congr fun k info hi => ?_
    by_cases hk : (k.2, info.digest) = key
    · let loc := location k.2 info.digest info.variant
      have hown : ownShares s.poolMap loc loc = sharesUnder key loc := by
        rw [ownShares_of_not_pool (show s.poolMap.containsKey (loc.1, loc.2.1) = false from hk ▸ hp)]
        funext r
        rw [sharesAt, if_pos rfl, sharesUnder, if_pos (show (loc.1, loc.2.1) = key from hk)]
      have hle : tally (ownShares s.poolMap loc) (commitClaims k info) ≤
          commitHeld (ownShares s.poolMap loc) s.commitMap :=
        StorageMap.le_sum (f := fun k (info : CommitInfo T) => tally _ (commitClaims k info)) hi
      have hiss : issuedAt s.digestMap loc = 0 := by
        rw [StorageMap.containsKey_eq_false_iff, ← hk] at hd
        simp [issuedAt, balanceAt, loc, location, hd]
      have hloc := hs.digests loc
      rw [commitClaims, tally_congr hown] at hle
      rw [commitClaims]
      dsimp only [loc] at *
      omega
    · exact tally_eq_zero (sharesUnder_eq_zero hk) info.commits.receipts
  rw [hz]
  exact Finset.sum_eq_zero fun k _ => by cases s.commitMap.get k <;> rfl

theorem setIndex_kept {index : IndexInfo T} (hs : Custody p s) (hn : ¬Known s (reason, digest))
    (h : setIndex s reason index digest = .ok s') : Kept p s s' := by
  obtain ⟨hnone, rfl⟩ := setIndex_spec h
  have hother (key : EntryKey T) (hk : s.entryMap.get key ≠ none) :
      (s.indexMap.insert (reason, digest) index).get (key.1, key.2.1) = s.indexMap.get (key.1, key.2.1) := by
    obtain ⟨info, entry, hi, -⟩ := hs.entries key hk
    refine StorageMap.get_insert_of_ne fun he => ?_
    rw [he, hnone] at hi
    cases hi
  refine .of_same ⟨⟨hs.sound.digests, hs.sound.pools⟩, fun l => ?_, hs.pools, fun key hk => ?_,
    fun key hk => ?_, fun key hk => ?_, hs.shares_ne, fun hp who r info hi => ?_⟩
    ⟨fun _ hk => .inl hk, fun key hk => ?_, fun _ hk => .inl hk⟩ rfl
  · have hheld := entryHeld_congr (sharesAt l) fun key hk => entryLocation_congr (congrArg _ (hother key hk))
    have hd := hs.digests l
    unfold positioned at hd ⊢
    dsimp only
    rw [hheld]
    exact hd
  · refine ⟨?_, (hs.digestsApart key hk).2⟩
    rw [← (hs.digestsApart key hk).1]
    refine containsKey_insert_of_ne ?_
    rintro rfl
    exact hn (.inl hk)
  · rcases containsKey_insert.mp hk with rfl | hk
    · exact (not_known_iff.mp hn).2.2
    · exact hs.indexesApart key hk
  · exact (hs.entries key hk).congr (congrArg _ (hother key hk))
  · exact (hs.anchored hp who r info hi).mono rfl (fun _ hr => hr) id
      (fun hk => containsKey_insert.mpr (.inr hk)) id fun _ => id
  · rcases containsKey_insert.mp hk with rfl | hk
    · exact .inr hn
    · exact .inl hk

theorem slotClaims_ofEntry (reason : T.Reason) (entries : List (EntryInfo T)) :
    slotClaims reason (entries.map SlotInfo.ofEntry) = [] := by
  rw [slotClaims, List.filterMap_map]
  exact List.filterMap_eq_nil_iff.mpr fun _ _ => rfl

theorem setPool_kept {who : T.AccountId} {indexOf : T.AccountId} {commission : Commission T} (hs : Custody p s)
    (hn : ¬Known s (reason, digest)) (h : setPool s who reason digest indexOf commission = .ok s') :
    Kept p s s' := by
  have hsound := (setPool_settles hs.sound h).sound
  obtain ⟨info, pool, hnone, -, -, hslots, rfl⟩ := setPool_spec h
  have hunder := hs.unknown_held hn
  have hapart {key : T.Reason × T.AccountId} (hk : s.poolMap.containsKey key = false)
      (hkn : Known s key) : (s.poolMap.insert (reason, digest) pool).containsKey key = false := by
    rw [containsKey_insert_of_ne, hk]
    rintro rfl
    exact hn hkn
  refine .of_same ⟨hsound, fun l => ?_, fun key pool' hk => ?_,
    fun key hk => ⟨(hs.digestsApart key hk).1, hapart (hs.digestsApart key hk).2 (.inl hk)⟩,
    fun key hk => hapart (hs.indexesApart key hk) (.inr (.inl hk)), hs.entries, hs.shares_ne,
    fun hp who r info hi => ?_⟩
    ⟨fun _ hk => .inl hk, fun _ hk => .inl hk, fun key hk => ?_⟩ rfl
  · have hd := hs.digests l
    have hown : commitHeld (ownShares (s.poolMap.insert (reason, digest) pool) l) s.commitMap ≤
        commitHeld (ownShares s.poolMap l) s.commitMap + commitHeld (sharesUnder (reason, digest)) s.commitMap :=
      ownShares_held_le (fun k hk => containsKey_insert_of_ne hk) _ l
    have hheld := StorageMap.sum_insert (fun key (pool : PoolInfo T) => tally (sharesAt l)
      (slotClaims key.1 pool.slots))
      s.poolMap (reason, digest) pool
    rw [hnone, Option.elim_none, hslots, slotClaims_ofEntry, tally_nil] at hheld
    unfold positioned slotHeld at hd ⊢
    dsimp only at hheld ⊢
    omega
  · dsimp only at hk
    rw [StorageMap.get_insert] at hk
    split at hk
    · rename_i hkey
      dsimp only
      rw [hkey, hunder]
      exact Nat.zero_le _
    · exact hs.pools key pool' hk
  · exact (hs.anchored hp who r info hi).mono rfl (fun _ hr => hr) id id
      (fun hk => containsKey_insert.mpr (.inr hk)) fun _ => id
  · rcases containsKey_insert.mp hk with rfl | hk
    · exact .inr hn
    · exact .inl hk

end Creating

end FrameSuite
