import FrameSuite.Postings

/-! What the deposits, withdrawals and slot changes of the pallet shift between the holders of
shares. -/

namespace FrameSuite

open ShareBalance

variable {T : Config} {p : Prop}

theorem Custody.withLedger {s : State T} (h : Custody p s) (l : T.Ledger) : Custody p { s with ledger := l } where
  sound := h.sound.withLedger l
  digests := h.digests
  pools := h.pools
  digestsApart := h.digestsApart
  indexesApart := h.indexesApart
  entries := h.entries
  shares_ne := h.shares_ne
  anchored hp who reason info hi :=
    (h.anchored hp who reason info hi).mono rfl (fun _ hr => hr) id id id fun _ => id

/-- Where digests, indexes and pools are apart, the shares of known digests are those of no pool. -/
theorem Posting.shift {s s' : State T} {loc : Location T} {gained lost : List (CommitInstance T)}
    {dropped : EntryKey T → Prop} (hs : Custody p s) (h : Posting s s' loc gained lost dropped) :
    Shift s s' loc gained lost dropped where
  sound := h.sound
  commits := h.commits
  digestKeys := h.digestKeys
  indexEntries := h.indexEntries
  poolKeys := h.poolKeys
  newEntries := h.newEntries
  oldEntries := h.oldEntries
  digests l := by
    have hl := h.digests l
    have hgained : tally (ownShares s.poolMap l) (receiptsAt loc gained) ≤
        tally (directShares s.digestMap l) (receiptsAt loc gained) := by
      rcases h.located with hk | hk | hnil
      · rw [tally_congr (ownShares_of_not_pool (hs.digestsApart _ hk).2), tally_congr (directShares_of_known hk)]
      · rw [tally_eq_zero fun r => by simp [ownShares, hk]]
        exact Nat.zero_le _
      · rw [hnil]
        exact le_refl _
    have hlost : tally (directShares s.digestMap l) (receiptsAt loc lost) ≤
        tally (ownShares s.poolMap l) (receiptsAt loc lost) := by
      by_cases hk : s.digestMap.containsKey (loc.1, loc.2.1) = true
      · rw [tally_congr (ownShares_of_not_pool (hs.digestsApart _ hk).2), tally_congr (directShares_of_known hk)]
      · rw [tally_eq_zero (directShares_of_unknown (Bool.not_eq_true _ ▸ hk))]
        exact Nat.zero_le _
    omega
  pools key pool' hp := by
    obtain ⟨pool, hg, hposted⟩ := h.pools key pool' hp
    refine ⟨pool, hg, hposted.issued fun hk => ?_⟩
    have hnot := (hs.digestsApart _ hk).2
    rw [StorageMap.containsKey_iff.mpr ⟨pool, hg⟩] at hnot
    cases hnot

theorem Custody.pool_free {s : State T} {key : T.Reason × T.AccountId} (hs : Custody p s)
    (hk : s.poolMap.containsKey key = true) : s.digestMap.containsKey key = false := by
  rw [← Bool.not_eq_true]
  intro hd
  rw [(hs.digestsApart _ hd).2] at hk
  cases hk

section Digests

theorem depositToDigest_shift {s s' : State T} {reason : T.Reason} {digest : T.AccountId}
    {value amount : Nat} {variant : T.Position} {receipt : CommitInstance T} (hs : Custody p s)
    (h : depositToDigest s reason digest value variant = .ok (s', receipt, amount)) :
    ∃ r, receipt = some r ∧ r.shares ≠ 0 ∧ s.digestMap.containsKey (reason, digest) = true ∧
      Shift s s' (location reason digest variant) [receipt] [] fun _ => False := by
  obtain ⟨r, hr, hne, hk, hpost⟩ := depositToDigest_posting hs.sound h
  exact ⟨r, hr, hne, hk, hpost.shift hs⟩

theorem withdrawFromDigest_shift {s s' : State T} {who : T.AccountId} {reason : T.Reason}
    {digest : T.AccountId} {d : AssetDelta} {info : CommitInfo T} (hs : Custody p s)
    (hi : s.commitMap.get (who, reason) = some info)
    (hk : s.digestMap.containsKey (reason, digest) = true)
    (h : withdrawFromDigest s who reason digest = .ok (s', d)) (dropped : EntryKey T → Prop) :
    Shift s s' (location reason digest info.variant) [] info.commits.receipts dropped :=
  (withdrawFromDigest_posting hs.sound hi hk h dropped).shift hs

theorem setDigestVariantValue_shift {s s' : State T} {reason : T.Reason} {digest : T.AccountId}
    {value reached : Nat} {variant : T.Position} (hs : Custody p s)
    (h : setDigestVariantValue s reason digest value variant = .ok (s', reached)) :
    ∃ m, SameMaps { s with digestMap := m } s' ∧ s'.commitMap = s.commitMap ∧
      Shift s { s with digestMap := m } (location reason digest variant) [] [] fun _ => False := by
  obtain ⟨m, hm, hc, hpost⟩ := setDigestVariantValue_posting hs.sound h
  exact ⟨m, hm, hc, hpost.shift hs⟩

end Digests

section Indexes

/-- Some entry of the index is allocated a whole unit of what is deducted. -/
def Allocates (s : State T) (who : T.AccountId) (reason : T.Reason) (indexOf : T.AccountId)
    (value : Nat) : Prop :=
  ∀ info, s.indexMap.get (reason, indexOf) = some info → ∃ entry ∈ info.entries.list, ∃ part,
    entryDeposit T (deductible s who value) entry.shares info.capital = .ok part ∧
      T.share.rational.div ≤ part.inner

theorem depositToIndex_allocates {s s' : State T} {l : T.Ledger} {who : T.AccountId} {reason : T.Reason}
    {indexOf : T.AccountId} {value amount : Nat} {receipt : CommitInstance T}
    (h : depositToIndex { s with ledger := l } who reason indexOf (deductible s who value) =
      .ok (s', receipt, amount)) (hall : Allocates s who reason indexOf value) :
    ∃ entry, s'.entryMap.get (reason, indexOf, entry, who) ≠ none := by
  obtain ⟨info, hi, -, hnew⟩ := depositToIndex_keys h
  obtain ⟨entry, hm, part, hp, hle⟩ := hall info hi
  exact ⟨entry.digest, hnew entry hm part hp hle⟩

theorem depositToIndex_shift {s s' : State T} {who : T.AccountId} {reason : T.Reason}
    {indexOf : T.AccountId} {value amount : Nat} {receipt : CommitInstance T} (hs : Custody p s)
    (h : depositToIndex s who reason indexOf value = .ok (s', receipt, amount)) (loc : Location T) :
    receipt = none ∧ Shift s s' loc [none] [] fun _ => False := by
  obtain ⟨hnone, hpost⟩ := depositToIndex_posting hs.sound h loc
  exact ⟨hnone, hpost.shift hs⟩

theorem withdrawFromIndex_shift {s s' : State T} {who : T.AccountId} {reason : T.Reason}
    {indexOf : T.AccountId} {d : AssetDelta} (hs : Custody p s)
    (h : withdrawFromIndex s who reason indexOf = .ok (s', d)) (loc : Location T)
    (lost : List (CommitInstance T)) :
    Shift s s' loc [] lost fun key => key.2.2.2 = who ∧ key.1 = reason :=
  (withdrawFromIndex_posting hs.sound h loc lost).shift hs

end Indexes

section Pools

theorem depositToPool_shift {s s' : State T} {reason : T.Reason} {poolOf : T.AccountId}
    {value amount : Nat} {receipt : CommitInstance T} (hs : Custody p s)
    (h : depositToPool s reason poolOf value = .ok (s', receipt, amount)) (variant : T.Position) :
    ∃ r, receipt = some r ∧ r.shares ≠ 0 ∧ s.poolMap.containsKey (reason, poolOf) = true ∧
      Shift s s' (location reason poolOf variant) [receipt] [] fun _ => False := by
  have hk : s.poolMap.containsKey (reason, poolOf) = true := by
    obtain ⟨pool, hg, -⟩ := depositToPool_effect hs.sound h
    exact StorageMap.containsKey_iff.mpr ⟨pool, hg⟩
  obtain ⟨r, hr, hne, hpost⟩ := depositToPool_posting hs.sound (hs.pool_free hk) h variant
  exact ⟨r, hr, hne, hk, hpost.shift hs⟩

theorem withdrawFromPool_shift {s s' : State T} {who : T.AccountId} {reason : T.Reason}
    {poolOf : T.AccountId} {d : AssetDelta} {info : CommitInfo T} (hs : Custody p s)
    (hi : s.commitMap.get (who, reason) = some info)
    (h : withdrawFromPool s who reason poolOf = .ok (s', d)) (variant : T.Position)
    (dropped : EntryKey T → Prop) : ∃ s₁, SameMaps s₁ s' ∧ s'.commitMap = s₁.commitMap ∧
      Shift s s₁ (location reason poolOf variant) [] info.commits.receipts dropped := by
  have hk : s.poolMap.containsKey (reason, poolOf) = true := by
    obtain ⟨_, -, h⟩ := bind_eq_ok.mp h
    obtain ⟨⟨s1, balance⟩, h1, -⟩ := bind_eq_ok.mp h
    obtain ⟨pool, released, claims, m, hrel⟩ := releasePool_spec h1
    exact StorageMap.containsKey_iff.mpr ⟨pool, hrel.found⟩
  obtain ⟨s₁, hm, hc, hpost⟩ := withdrawFromPool_posting hs.sound (hs.pool_free hk) hi h variant dropped
  exact ⟨s₁, hm, hc, hpost.shift hs⟩

theorem setSlotShares_shift {s s' : State T} {reason : T.Reason} {poolOf slotOf : T.AccountId}
    {shares : Nat} (hs : Custody p s) (h : setSlotShares s reason poolOf slotOf shares = .ok s')
    (variant : T.Position) : s' = s ∨ Shift s s' (location reason poolOf variant) [] [] fun _ => False :=
  (setSlotShares_posting hs.sound h variant).imp_right fun hpost => hpost.shift hs

theorem setSlotOfVariant_shift {s s' : State T} {reason : T.Reason} {poolOf slotOf : T.AccountId}
    {slotVariant : T.Position} {shares : Option Nat} (hs : Custody p s)
    (h : setSlotOfVariant s reason poolOf slotOf slotVariant shares = .ok s') (variant : T.Position) :
    s' = s ∨ Shift s s' (location reason poolOf variant) [] [] fun _ => False :=
  (setSlotOfVariant_posting hs.sound h variant).imp_right fun hpost => hpost.shift hs

end Pools

end FrameSuite
