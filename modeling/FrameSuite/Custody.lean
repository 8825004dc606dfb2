import FrameSuite.Conservation

/-! Who holds the shares of the digests and pools. Commits, index entries and pool slots together
never hold more shares than were issued, and every commit hangs on a digest, an index or a
pool through shares or entries that keep it from being reaped. -/

namespace FrameSuite

open ShareBalance

variable {T : Config} {p : Prop}

section Weights

/-- The shares a receipt has at any variant of a digest. -/
def sharesUnder (key : T.Reason × T.AccountId) (loc : Location T) (r : Receipt T.share) : Nat :=
  if (loc.1, loc.2.1) = key then r.shares else 0

/-- The shares a receipt has at a location, unless its digest is a pool. -/
def ownShares (pm : StorageMap (T.Reason × T.AccountId) (PoolInfo T)) (l loc : Location T)
    (r : Receipt T.share) : Nat :=
  if pm.containsKey (loc.1, loc.2.1) = true then 0 else sharesAt l loc r

/-- The shares held at a location by index entries and by pool slots. -/
def positioned (s : State T) (l : Location T) : Nat :=
  entryHeld (sharesAt l) (entryLocation s.indexMap) s.entryMap + slotHeld (sharesAt l) s.poolMap

theorem tally_congr {φ ψ : Location T → Receipt T.share → Nat} {loc : Location T} (h : φ loc = ψ loc)
    (receipts : List (CommitInstance T)) :
    tally φ (receiptsAt loc receipts) = tally ψ (receiptsAt loc receipts) := by
  unfold tally
  refine congrArg List.sum (List.map_congr_left fun c hc => ?_)
  rw [reason_of_mem_receiptsAt hc, h]

theorem tally_eq_zero {φ : Location T → Receipt T.share → Nat} {loc : Location T} (h : ∀ r, φ loc r = 0)
    (receipts : List (CommitInstance T)) : tally φ (receiptsAt loc receipts) = 0 :=
  List.sum_eq_zero fun v hv => by
    obtain ⟨c, hc, rfl⟩ := List.mem_map.mp hv
    rw [reason_of_mem_receiptsAt hc, h]

theorem ownShares_of_not_pool {pm : StorageMap (T.Reason × T.AccountId) (PoolInfo T)} {l loc : Location T}
    (h : pm.containsKey (loc.1, loc.2.1) = false) : ownShares pm l loc = sharesAt l loc := by
  funext r
  simp [ownShares, h]

theorem ownShares_congr {pm pm' : StorageMap (T.Reason × T.AccountId) (PoolInfo T)}
    (h : ∀ key, pm'.containsKey key = pm.containsKey key) (l : Location T) :
    ownShares pm' l = ownShares pm l := by
  funext loc r
  rw [ownShares, ownShares, h]

end Weights

section Entries

theorem entryLocation_of_mem {im : StorageMap (T.Reason × T.AccountId) (IndexInfo T)}
    {reason : T.Reason} {indexOf who : T.AccountId} {info : IndexInfo T} {entry : EntryInfo T}
    (hi : im.get (reason, indexOf) = some info) (he : entry ∈ info.entries.list) :
    entryLocation im (reason, indexOf, entry.digest, who) = location reason entry.digest entry.variant := by
  simp [entryLocation, entryVariant, location, hi, find?_key info.entries.nodup he]

theorem entryLocation_congr {im im' : StorageMap (T.Reason × T.AccountId) (IndexInfo T)} {key : EntryKey T}
    (h : (im'.get (key.1, key.2.1)).map IndexInfo.entries = (im.get (key.1, key.2.1)).map IndexInfo.entries) :
    entryLocation im' key = entryLocation im key := by
  unfold entryLocation entryVariant
  cases hi : im.get (key.1, key.2.1) <;> cases hi' : im'.get (key.1, key.2.1) <;>
    simp only [hi, hi', Option.map_some, Option.map_none, Option.some.injEq, reduceCtorEq] at h
  · rfl
  · dsimp only
    rw [h]

theorem entryHeld_congr {im im' : StorageMap (T.Reason × T.AccountId) (IndexInfo T)} {m : EntryMap T}
    (φ : Location T → Receipt T.share → Nat)
    (h : ∀ key, m.get key ≠ none → entryLocation im' key = entryLocation im key) :
    entryHeld φ (entryLocation im') m = entryHeld φ (entryLocation im) m :=
  StorageMap.sum_congr fun key commits hk => by
    rw [h key fun hn => nomatch hn.symm.trans hk]

/-- An entry commit belongs to an entry of its index. -/
def EntryValid (im : StorageMap (T.Reason × T.AccountId) (IndexInfo T)) (key : EntryKey T) : Prop :=
  ∃ info entry, im.get (key.1, key.2.1) = some info ∧ entry ∈ info.entries.list ∧ entry.digest = key.2.2.1

theorem EntryValid.congr {im im' : StorageMap (T.Reason × T.AccountId) (IndexInfo T)} {key : EntryKey T}
    (h : (im'.get (key.1, key.2.1)).map IndexInfo.entries = (im.get (key.1, key.2.1)).map IndexInfo.entries)
    (hv : EntryValid im key) : EntryValid im' key := by
  obtain ⟨info, entry, hi, he, hd⟩ := hv
  rw [hi, Option.map_some] at h
  obtain ⟨info', hi', hents⟩ := Option.map_eq_some_iff.mp h
  exact ⟨info', entry, hi', hents ▸ he, hd⟩

end Entries

section Invariant

/-- What holds a commit in place: shares of its digest or pool, or an entry of its index. -/
inductive Anchored (s : State T) (who : T.AccountId) (reason : T.Reason) (info : CommitInfo T) : Prop
  | direct (r : Receipt T.share) (known : s.digestMap.containsKey (reason, info.digest) = true)
      (receipt : some r ∈ info.commits.receipts)
  | index (entry : T.AccountId) (known : s.indexMap.containsKey (reason, info.digest) = true)
      (held : s.entryMap.get (reason, info.digest, entry, who) ≠ none)
  | pool (r : Receipt T.share) (known : s.poolMap.containsKey (reason, info.digest) = true)
      (receipt : some r ∈ info.commits.receipts)

/-- With `p`, every commit is held in place. -/
structure Custody (p : Prop) (s : State T) : Prop where
  sound : Sound s
  digests : ∀ l, commitHeld (ownShares s.poolMap l) s.commitMap + positioned s l ≤ issuedAt s.digestMap l
  pools : ∀ key pool, s.poolMap.get key = some pool →
    commitHeld (sharesUnder key) s.commitMap ≤ issuedShares pool.balance
  digestsApart : ∀ key, s.digestMap.containsKey key = true →
    s.indexMap.containsKey key = false ∧ s.poolMap.containsKey key = false
  indexesApart : ∀ key, s.indexMap.containsKey key = true → s.poolMap.containsKey key = false
  entries : ∀ key, s.entryMap.get key ≠ none → EntryValid s.indexMap key
  shares_ne : ∀ key info, s.commitMap.get key = some info → ∀ r, some r ∈ info.commits.receipts → r.shares ≠ 0
  anchored : p → ∀ who reason info, s.commitMap.get (who, reason) = some info → Anchored s who reason info

theorem custody_genesis (ledger : T.Ledger) : Custody p (State.genesis ledger) where
  sound := sound_genesis ledger
  digests _ := Nat.le_refl 0
  pools _ _ h := nomatch h
  digestsApart _ h := nomatch h
  indexesApart _ h := nomatch h
  entries _ h := absurd rfl h
  shares_ne _ _ h := nomatch h
  anchored _ _ _ _ h := nomatch h

/-- A step that leaves the commits alone. It books the gained receipts at the location before a
commit holds them, and releases the lost ones while their commit still does. -/
structure Shift (s s' : State T) (loc : Location T) (gained lost : List (CommitInstance T))
    (dropped : EntryKey T → Prop) : Prop where
  sound : Sound s'
  commits : s'.commitMap = s.commitMap
  digestKeys : ∀ key, s'.digestMap.containsKey key = s.digestMap.containsKey key
  indexEntries : ∀ key, (s'.indexMap.get key).map IndexInfo.entries = (s.indexMap.get key).map IndexInfo.entries
  poolKeys : ∀ key, s'.poolMap.containsKey key = s.poolMap.containsKey key
  newEntries : ∀ key, s'.entryMap.get key ≠ none → s.entryMap.get key ≠ none ∨ EntryValid s.indexMap key
  oldEntries : ∀ key, s.entryMap.get key ≠ none → dropped key ∨ s'.entryMap.get key ≠ none
  digests : ∀ l, issuedAt s.digestMap l + tally (ownShares s.poolMap l) (receiptsAt loc gained) +
      positioned s' l ≤
    issuedAt s'.digestMap l + tally (ownShares s.poolMap l) (receiptsAt loc lost) + positioned s l
  pools : ∀ key pool', s'.poolMap.get key = some pool' → ∃ pool, s.poolMap.get key = some pool ∧
    issuedShares pool.balance + tally (sharesUnder key) (receiptsAt loc gained) ≤
      issuedShares pool'.balance + tally (sharesUnder key) (receiptsAt loc lost)

theorem Shift.indexKeys {s s' : State T} {loc : Location T} {gained lost : List (CommitInstance T)}
    {dropped : EntryKey T → Prop} (h : Shift s s' loc gained lost dropped) (key : T.Reason × T.AccountId) :
    s'.indexMap.containsKey key = s.indexMap.containsKey key := by
  have he := congrArg Option.isSome (h.indexEntries key)
  simpa [StorageMap.containsKey] using he

theorem Anchored.mono {s s' : State T} {who : T.AccountId} {reason : T.Reason} {info info' : CommitInfo T}
    (h : Anchored s who reason info) (hd : info'.digest = info.digest)
    (hr : ∀ r, some r ∈ info.commits.receipts → some r ∈ info'.commits.receipts)
    (hdm : s.digestMap.containsKey (reason, info.digest) = true →
      s'.digestMap.containsKey (reason, info.digest) = true)
    (him : s.indexMap.containsKey (reason, info.digest) = true →
      s'.indexMap.containsKey (reason, info.digest) = true)
    (hpm : s.poolMap.containsKey (reason, info.digest) = true →
      s'.poolMap.containsKey (reason, info.digest) = true)
    (he : ∀ entry, s.entryMap.get (reason, info.digest, entry, who) ≠ none →
      s'.entryMap.get (reason, info.digest, entry, who) ≠ none) : Anchored s' who reason info' := by
  cases h with
  | direct r hk hm => exact .direct r (hd ▸ hdm hk) (hr r hm)
  | index entry hk hm => exact .index entry (hd ▸ him hk) (hd ▸ he entry hm)
  | pool r hk hm => exact .pool r (hd ▸ hpm hk) (hr r hm)

end Invariant

section Commits

theorem commitHeld_insert (φ : Location T → Receipt T.share → Nat) (m : CommitMap T)
    (key : T.AccountId × T.Reason) (info : CommitInfo T) :
    commitHeld φ (m.insert key info) + (m.get key).elim 0 (fun old => tally φ (commitClaims key old)) =
      commitHeld φ m + tally φ (commitClaims key info) :=
  StorageMap.sum_insert (fun key (info : CommitInfo T) => tally φ (commitClaims key info)) m key info

theorem commitHeld_remove (φ : Location T → Receipt T.share → Nat) (m : CommitMap T)
    (key : T.AccountId × T.Reason) :
    commitHeld φ (m.remove key) + (m.get key).elim 0 (fun old => tally φ (commitClaims key old)) =
      commitHeld φ m :=
  StorageMap.sum_remove (fun key (info : CommitInfo T) => tally φ (commitClaims key info)) m key

/-- A commit placed or raised by one receipt. -/
structure Extended (old : Option (CommitInfo T)) (info : CommitInfo T) (receipt : CommitInstance T) : Prop where
  receipts : info.commits.receipts = (old.elim [] fun o => o.commits.receipts) ++ [receipt]
  place : ∀ o, old = some o → o.digest = info.digest ∧ o.variant = info.variant

theorem Extended.tally {m : CommitMap T} {key : T.AccountId × T.Reason} {info : CommitInfo T}
    {receipt : CommitInstance T} (h : Extended (m.get key) info receipt)
    (φ : Location T → Receipt T.share → Nat) : commitHeld φ (m.insert key info) =
      commitHeld φ m + tally φ (receiptsAt (location key.2 info.digest info.variant) [receipt]) := by
  have hi := commitHeld_insert φ m key info
  have hr := h.receipts
  have hp := h.place
  rw [commitClaims, hr, receiptsAt_append, tally_append] at hi
  cases hg : m.get key with
  | none =>
    rw [hg] at hi
    simp only [Option.elim_none, receiptsAt_nil, tally_nil] at hi
    omega
  | some old =>
    obtain ⟨hd, hv⟩ := hp old hg
    rw [hg] at hi
    simp only [Option.elim_some, commitClaims, hd, hv] at hi
    omega

variable {s s₁ s₂ : State T} {who : T.AccountId} {reason : T.Reason} {info : CommitInfo T}

theorem positioned_congr {s s' : State T} (hi : s'.indexMap = s.indexMap) (he : s'.entryMap = s.entryMap)
    (hp : s'.poolMap = s.poolMap) (l : Location T) : positioned s' l = positioned s l := by
  unfold positioned
  rw [hi, he, hp]

/-- The maps of the two states agree, the commits apart. -/
structure SameMaps (s s' : State T) : Prop where
  digestMap : s'.digestMap = s.digestMap
  indexMap : s'.indexMap = s.indexMap
  entryMap : s'.entryMap = s.entryMap
  poolMap : s'.poolMap = s.poolMap

/-- A shift whose receipts the commits take over keeps the custody. Commits other than those that
hold the receipts are the ones of before, with none of their entries dropped. -/
theorem Custody.settle {loc : Location T} {gained lost : List (CommitInstance T)}
    {dropped : EntryKey T → Prop} (h : Custody p s) (hs : Shift s s₁ loc gained lost dropped)
    (hm : SameMaps s₁ s₂)
    (hheld : ∀ φ, commitHeld φ s₂.commitMap + tally φ (receiptsAt loc lost) =
      commitHeld φ s.commitMap + tally φ (receiptsAt loc gained))
    (hne : ∀ key i, s₂.commitMap.get key = some i → ∀ r, some r ∈ i.commits.receipts → r.shares ≠ 0)
    (ha : ∀ who reason i, s₂.commitMap.get (who, reason) = some i → (p → Anchored s₂ who reason i) ∨
      s.commitMap.get (who, reason) = some i ∧ ∀ entry, ¬dropped (reason, i.digest, entry, who)) :
    Custody p s₂ where
  sound := ⟨hm.digestMap ▸ hs.sound.digests, hm.poolMap ▸ hs.sound.pools⟩
  digests l := by
    have h1 := hs.digests l
    have h2 := h.digests l
    have h3 := hheld (ownShares s.poolMap l)
    rw [hm.poolMap, ownShares_congr hs.poolKeys, hm.digestMap,
      positioned_congr hm.indexMap hm.entryMap hm.poolMap]
    omega
  pools key pool hp := by
    rw [hm.poolMap] at hp
    obtain ⟨pool₀, hp₀, hle⟩ := hs.pools key pool hp
    have h2 := h.pools key pool₀ hp₀
    have h3 := hheld (sharesUnder key)
    omega
  digestsApart key hk := by
    rw [hm.digestMap, hs.digestKeys] at hk
    rw [hm.indexMap, hm.poolMap, hs.indexKeys, hs.poolKeys]
    exact h.digestsApart key hk
  indexesApart key hk := by
    rw [hm.indexMap, hs.indexKeys] at hk
    rw [hm.poolMap, hs.poolKeys]
    exact h.indexesApart key hk
  entries key hk := by
    rw [hm.entryMap] at hk
    rw [hm.indexMap]
    exact ((hs.newEntries key hk).elim (h.entries key) id).congr (hs.indexEntries _)
  shares_ne := hne
  anchored hp who reason i hi := by
    rcases ha who reason i hi with ha | ⟨hi, hd⟩
    · exact ha hp
    · refine (h.anchored hp who reason i hi).mono rfl (fun _ hr => hr) ?_ ?_ ?_ fun entry he => ?_
      · rw [hm.digestMap, hs.digestKeys]
        exact id
      · rw [hm.indexMap, hs.indexKeys]
        exact id
      · rw [hm.poolMap, hs.poolKeys]
        exact id
      · rw [hm.entryMap]
        exact (hs.oldEntries _ he).resolve_left (hd entry)

theorem Custody.shift {loc : Location T} (h : Custody p s) (hs : Shift s s₁ loc [] [] fun _ => False)
    (hm : SameMaps s₁ s₂) (hcm : s₂.commitMap = s.commitMap) : Custody p s₂ :=
  h.settle hs hm (fun _ => by rw [hcm]) (hcm ▸ h.shares_ne) fun _ _ _ hi => .inr ⟨hcm ▸ hi, fun _ hd => hd⟩

theorem Custody.extend {receipt : CommitInstance T} (h : Custody p s)
    (hs : Shift s s₁ (location reason info.digest info.variant) [receipt] [] fun _ => False)
    (hm : SameMaps s₁ s₂) (hcm : s₂.commitMap = s.commitMap.insert (who, reason) info)
    (hx : Extended (s.commitMap.get (who, reason)) info receipt)
    (hne : ∀ r, receipt = some r → r.shares ≠ 0) (ha : p → Anchored s₂ who reason info) : Custody p s₂ := by
  refine h.settle hs hm (fun φ => ?_) (fun key i hi r hr => ?_) fun who' reason' i hi => ?_
  · rw [hcm, hx.tally]
    rfl
  · rw [hcm, StorageMap.get_insert] at hi
    split at hi
    · obtain rfl := Option.some.inj hi
      rw [hx.receipts, List.mem_append, List.mem_singleton] at hr
      rcases hr with hr | hr
      · obtain hg | ⟨old, hg⟩ := (s.commitMap.get (who, reason)).eq_none_or_eq_some
        · simp [hg] at hr
        · exact h.shares_ne _ old hg r (by simpa [hg] using hr)
      · exact hne r hr.symm
    · exact h.shares_ne key i hi r hr
  · rw [hcm, StorageMap.get_insert] at hi
    split at hi
    · rename_i hkey
      obtain ⟨rfl, rfl⟩ := Prod.mk.inj hkey
      obtain rfl := Option.some.inj hi
      exact .inl ha
    · exact .inr ⟨hi, fun _ hd => hd⟩

theorem Custody.release (h : Custody p s) (hi : s.commitMap.get (who, reason) = some info)
    (hs : Shift s s₁ (location reason info.digest info.variant) [] info.commits.receipts
      fun key => key.2.2.2 = who ∧ key.1 = reason)
    (hm : SameMaps s₁ s₂) (hcm : s₂.commitMap = s.commitMap.remove (who, reason)) : Custody p s₂ := by
  refine h.settle hs hm (fun φ => ?_) (fun key i hi' r hr => ?_) fun who' reason' i hi' => ?_
  · have hr := commitHeld_remove φ s.commitMap (who, reason)
    rw [hi, Option.elim_some] at hr
    rw [hcm]
    exact hr
  · rw [hcm, StorageMap.get_remove] at hi'
    split at hi'
    · cases hi'
    · exact h.shares_ne key i hi' r hr
  · rw [hcm, StorageMap.get_remove] at hi'
    split at hi'
    · cases hi'
    · rename_i hkey
      exact .inr ⟨hi', fun entry hd => hkey (Prod.ext hd.1 hd.2)⟩

end Commits

end FrameSuite
