import FrameSuite.TargetSafety
import FrameSuite.Totals

/-! The shares that commits hold of digests and pools, in every reachable state. A digest that is known
keeps a pool of the same name from being funded, so each commit counts at one of the two. -/

namespace FrameSuite

open ShareBalance

variable {T : Config}

/-- The shares issued by the pool under a key, if there is one. -/
def poolShares (pm : StorageMap (T.Reason × T.AccountId) (PoolInfo T)) (key : T.Reason × T.AccountId) : Nat :=
  (pm.get key).elim 0 fun pool => issuedShares pool.balance

structure Accounted (s : State T) : Prop where
  sound : Sound s
  digests : ∀ l, commitHeld (directShares s.digestMap l) s.commitMap + positioned s l ≤ issuedAt s.digestMap l
  pools : ∀ key, s.digestMap.containsKey key = false →
    commitHeld (sharesUnder key) s.commitMap ≤ poolShares s.poolMap key
  idle : ∀ key pool, s.digestMap.containsKey key = true → s.poolMap.get key = some pool → pool.balance = none
  tidy : ∀ key pool, s.poolMap.get key = some pool → pool.Tidy
  entries : ∀ key, s.entryMap.get key ≠ none → EntryValid s.indexMap key

theorem accounted_genesis (ledger : T.Ledger) : Accounted (State.genesis ledger) where
  sound := sound_genesis ledger
  digests _ := Nat.le_refl 0
  pools _ _ := Nat.le_refl 0
  idle _ _ _ h := nomatch h
  tidy _ _ h := nomatch h
  entries _ h := absurd rfl h

theorem directShares_congr {m m' : DigestMap T} (h : ∀ key, m'.containsKey key = m.containsKey key)
    (l : Location T) : directShares m' l = directShares m l := by
  funext loc r
  rw [directShares, directShares, h]

theorem poolShares_of_get {pm : StorageMap (T.Reason × T.AccountId) (PoolInfo T)} {key : T.Reason × T.AccountId}
    {pool : PoolInfo T} (h : pm.get key = some pool) : poolShares pm key = issuedShares pool.balance := by
  simp [poolShares, h]

theorem poolShares_of_none {pm : StorageMap (T.Reason × T.AccountId) (PoolInfo T)} {key : T.Reason × T.AccountId}
    (h : pm.get key = none) : poolShares pm key = 0 := by
  simp [poolShares, h]

namespace Accounted

variable {s s₁ s₂ : State T} {who : T.AccountId} {reason : T.Reason} {info : CommitInfo T} {loc : Location T}

theorem withLedger (h : Accounted s) (l : T.Ledger) : Accounted { s with ledger := l } :=
  ⟨h.sound.withLedger l, h.digests, h.pools, h.idle, h.tidy, h.entries⟩

theorem settle {gained lost : List (CommitInstance T)} {dropped : EntryKey T → Prop} (h : Accounted s)
    (hs : Posting s s₁ loc gained lost dropped) (hm : SameMaps s₁ s₂)
    (hheld : ∀ φ, commitHeld φ s₂.commitMap + tally φ (receiptsAt loc lost) =
      commitHeld φ s.commitMap + tally φ (receiptsAt loc gained)) : Accounted s₂ where
  sound := ⟨hm.digestMap ▸ hs.sound.digests, hm.poolMap ▸ hs.sound.pools⟩
  digests l := by
    have h1 := hs.digests l
    have h2 := h.digests l
    have h3 := hheld (directShares s.digestMap l)
    rw [hm.digestMap, directShares_congr hs.digestKeys, positioned_congr hm.indexMap hm.entryMap hm.poolMap]
    omega
  pools key hk := by
    rw [hm.digestMap, hs.digestKeys] at hk
    have h2 := h.pools key hk
    have h3 := hheld (sharesUnder key)
    rw [hm.poolMap]
    cases hp : s₁.poolMap.get key with
    | none =>
      have hnone : s.poolMap.containsKey key = false := by
        rw [← hs.poolKeys, StorageMap.containsKey_eq_false_iff]
        exact hp
      have hgained : tally (sharesUnder key) (receiptsAt loc gained) = 0 := by
        rcases hs.located with hl | hl | hl
        · refine tally_eq_zero (sharesUnder_eq_zero ?_) _
          rintro rfl
          rw [hk] at hl
          cases hl
        · refine tally_eq_zero (sharesUnder_eq_zero ?_) _
          rintro rfl
          rw [hnone] at hl
          cases hl
        · rw [hl]
          rfl
      rw [StorageMap.containsKey_eq_false_iff] at hnone
      rw [poolShares_of_none hnone] at h2
      rw [poolShares_of_none hp]
      omega
    | some pool' =>
      obtain ⟨pool, hg, hposted⟩ := hs.pools key pool' hp
      have h4 := hposted.issued (by simp [hk])
      rw [poolShares_of_get hg] at h2
      rw [poolShares_of_get hp]
      omega
  idle key pool' hk hp := by
    rw [hm.digestMap, hs.digestKeys] at hk
    rw [hm.poolMap] at hp
    obtain ⟨pool, hg, hposted⟩ := hs.pools key pool' hp
    exact hposted.idle hk (h.idle key pool hk hg)
  tidy key pool' hp := by
    rw [hm.poolMap] at hp
    obtain ⟨pool, hg, hposted⟩ := hs.pools key pool' hp
    exact hposted.tidy (h.tidy key pool hg)
  entries key hk := by
    rw [hm.entryMap] at hk
    rw [hm.indexMap]
    exact ((hs.newEntries key hk).elim (h.entries key) id).congr (hs.indexEntries _)

theorem post (h : Accounted s) (hs : Posting s s₁ loc [] [] fun _ => False) (hm : SameMaps s₁ s₂)
    (hcm : s₂.commitMap = s.commitMap) : Accounted s₂ :=
  h.settle hs hm fun _ => by rw [hcm]

theorem extend {receipt : CommitInstance T} (h : Accounted s)
    (hs : Posting s s₁ (location reason info.digest info.variant) [receipt] [] fun _ => False)
    (hm : SameMaps s₁ s₂) (hcm : s₂.commitMap = s.commitMap.insert (who, reason) info)
    (hx : Extended (s.commitMap.get (who, reason)) info receipt) : Accounted s₂ := by
  refine h.settle hs hm fun φ => ?_
  rw [hcm, hx.tally]
  rfl

theorem release {dropped : EntryKey T → Prop} (h : Accounted s) (hi : s.commitMap.get (who, reason) = some info)
    (hs : Posting s s₁ (location reason info.digest info.variant) [] info.commits.receipts dropped)
    (hm : SameMaps s₁ s₂) (hcm : s₂.commitMap = s.commitMap.remove (who, reason)) : Accounted s₂ := by
  refine h.settle hs hm fun φ => ?_
  have hr := commitHeld_remove φ s.commitMap (who, reason)
  rw [hi, Option.elim_some] at hr
  rw [hcm]
  exact hr

theorem unknown_held (h : Accounted s) {key : T.Reason × T.AccountId} (hd : s.digestMap.containsKey key = false)
    (hp : s.poolMap.containsKey key = false) : commitHeld (sharesUnder key) s.commitMap = 0 := by
  rw [StorageMap.containsKey_eq_false_iff] at hp
  have hle := h.pools key hd
  rw [poolShares_of_none hp] at hle
  omega

end Accounted

end FrameSuite
