import FrameSuite.TargetSafety

/-! What the calls of the commitment pallet leave as it was, in whatever state they are made: funds move
without a change to the digests there are or to the parts of indexes and pools, and a commit changes by
the calls of its proprietor alone. -/

namespace FrameSuite

variable {T : Config}

section Maps

variable {K V W : Type}

theorem map_get_insert [DecidableEq K] {m : StorageMap K V} {f : V → W} {key : K} {v v' : V}
    (hg : m.get key = some v) (hf : f v' = f v) (k : K) : ((m.insert key v').get k).map f = (m.get k).map f := by
  by_cases hk : k = key
  · subst hk
    simp [hg, hf]
  · rw [StorageMap.get_insert_of_ne hk]

theorem containsKey_insert_of_some [DecidableEq K] {m : StorageMap K V} {key : K} {v v' : V}
    (hg : m.get key = some v) (k : K) :
    (m.insert key v').containsKey k = m.containsKey k := by
  by_cases hk : k = key
  · subst hk
    simp [StorageMap.containsKey, hg]
  · exact containsKey_insert_of_ne hk

theorem containsKey_of_map_eq {m m' : StorageMap K V} {f : V → W} {k : K}
    (h : (m'.get k).map f = (m.get k).map f) : m'.containsKey k = m.containsKey k := by
  have := congrArg Option.isSome h
  simpa [StorageMap.containsKey] using this

end Maps

def SameKeys (m m' : DigestMap T) : Prop := ∀ k, m'.containsKey k = m.containsKey k

/-- The same digests, indexes and pools, up to the funds in them. -/
structure SameTargets (s s' : State T) : Prop where
  digests : SameKeys s.digestMap s'.digestMap
  entries : ∀ k, (s'.indexMap.get k).map IndexInfo.entries = (s.indexMap.get k).map IndexInfo.entries
  slots : ∀ k, (s'.poolMap.get k).map (fun p => slotShapes p.slots) =
    (s.poolMap.get k).map fun p => slotShapes p.slots
  managers : s'.poolManager = s.poolManager

namespace SameTargets

variable {s s' s'' : State T}

theorem refl (s : State T) : SameTargets s s := ⟨fun _ => rfl, fun _ => rfl, fun _ => rfl, rfl⟩

theorem trans (h : SameTargets s s') (h' : SameTargets s' s'') : SameTargets s s'' :=
  ⟨fun k => (h'.digests k).trans (h.digests k), fun k => (h'.entries k).trans (h.entries k),
    fun k => (h'.slots k).trans (h.slots k), h'.managers.trans h.managers⟩

theorem of_eq (hd : s'.digestMap = s.digestMap) (hi : s'.indexMap = s.indexMap) (hp : s'.poolMap = s.poolMap)
    (hm : s'.poolManager = s.poolManager) : SameTargets s s' :=
  ⟨fun k => by rw [hd], fun k => by rw [hi], fun k => by rw [hp], hm⟩

theorem indexKeys (h : SameTargets s s') (k : T.Reason × T.AccountId) :
    s'.indexMap.containsKey k = s.indexMap.containsKey k :=
  containsKey_of_map_eq (h.entries k)

theorem poolKeys (h : SameTargets s s') (k : T.Reason × T.AccountId) :
    s'.poolMap.containsKey k = s.poolMap.containsKey k :=
  containsKey_of_map_eq (h.slots k)

end SameTargets

/-- Funds moved, and the commits are those there were. -/
structure FundsMoved (s s' : State T) : Prop extends SameTargets s s' where
  commits : s'.commitMap = s.commitMap

namespace FundsMoved

variable {s s' s'' : State T}

theorem refl (s : State T) : FundsMoved s s := ⟨.refl s, rfl⟩

theorem of_eq (hd : s'.digestMap = s.digestMap) (hi : s'.indexMap = s.indexMap) (hp : s'.poolMap = s.poolMap)
    (hm : s'.poolManager = s.poolManager) (hc : s'.commitMap = s.commitMap) : FundsMoved s s' :=
  ⟨.of_eq hd hi hp hm, hc⟩

theorem trans (h : FundsMoved s s') (h' : FundsMoved s' s'') : FundsMoved s s'' :=
  ⟨h.toSameTargets.trans h'.toSameTargets, h'.commits.trans h.commits⟩

theorem of_digests {m : DigestMap T} (h : SameKeys s.digestMap m) : FundsMoved s { s with digestMap := m } :=
  ⟨⟨h, fun _ => rfl, fun _ => rfl, rfl⟩, rfl⟩

theorem of_digest {reason : T.Reason} {digest : T.AccountId} {info info' : DigestInfo T}
    (h : s.digestMap.get (reason, digest) = some info) :
    FundsMoved s { s with digestMap := s.digestMap.insert (reason, digest) info' } :=
  of_digests (containsKey_insert_of_some h)

theorem of_index {reason : T.Reason} {indexOf : T.AccountId} {info : IndexInfo T} {principal : Nat}
    (h : s.indexMap.get (reason, indexOf) = some info) :
    FundsMoved s { s with indexMap := s.indexMap.insert (reason, indexOf) (info.setBalance principal) } :=
  ⟨⟨fun _ => rfl, map_get_insert h rfl, fun _ => rfl, rfl⟩, rfl⟩

theorem of_pool {reason : T.Reason} {poolOf : T.AccountId} {pool pool' : PoolInfo T}
    (h : s.poolMap.get (reason, poolOf) = some pool) (hs : slotShapes pool'.slots = slotShapes pool.slots) :
    FundsMoved s { s with poolMap := s.poolMap.insert (reason, poolOf) pool' } :=
  ⟨⟨fun _ => rfl, fun _ => rfl, map_get_insert h hs, rfl⟩, rfl⟩

end FundsMoved

section Deposits

variable {s s' : State T} {who : T.AccountId} {reason : T.Reason} {digest : T.AccountId} {value amount : Nat}
  {receipt : CommitInstance T}

theorem unlessZero_moved {op : Except DispatchError (State T)} (hop : ∀ s', op = .ok s' → FundsMoved s s')
    (h : s.unlessZero value op = .ok s') : FundsMoved s s' := by
  unfold State.unlessZero at h
  split at h
  · cases h
    exact .refl s
  · exact hop s' h

theorem onLedger_moved {op : T.Ledger → Except DispatchError T.Ledger} (h : s.onLedger op = .ok s') :
    FundsMoved s s' := by
  obtain ⟨l, -, rfl⟩ := onLedger_eq_ok h
  exact .of_eq rfl rfl rfl rfl rfl

theorem addToTotalValue_moved (h : addToTotalValue s reason value = .ok s') : FundsMoved s s' := by
  obtain ⟨rv, rfl, -⟩ := addToTotalValue_spec h
  exact .of_eq rfl rfl rfl rfl rfl

theorem subFromTotalValue_moved (h : subFromTotalValue s reason value = .ok s') : FundsMoved s s' := by
  obtain ⟨rv, rfl, -⟩ := subFromTotalValue_spec h
  exact .of_eq rfl rfl rfl rfl rfl

theorem resolveImbalance_moved {d : AssetDelta} (h : resolveImbalance s who d = .ok (s', amount)) :
    FundsMoved s s' := by
  obtain ⟨l, issue, reap, rfl⟩ := resolveImbalance_shape h
  exact .of_eq rfl rfl rfl rfl rfl

theorem deductBalance_moved {q : Directive} (h : deductBalance s who value q = .ok (s', amount)) :
    FundsMoved s s' := by
  obtain ⟨l, rfl, -⟩ := deductBalance_spec h
  exact .of_eq rfl rfl rfl rfl rfl

theorem depositToDigest_moved {variant : T.Position}
    (h : depositToDigest s reason digest value variant = .ok (s', receipt, amount)) : FundsMoved s s' := by
  obtain ⟨info, hi, h⟩ := bind_eq_ok.mp h
  rw [okOr_eq_ok] at hi
  obtain ⟨⟨info', deposited, receipt'⟩, -, h⟩ := bind_eq_ok.mp h
  simp only [pure_eq_ok, Prod.mk.injEq] at h
  obtain ⟨rfl, -, -⟩ := h
  exact .of_digest hi

theorem depositToEntries_moved {indexOf : T.AccountId} {capital : Nat} {entries : List (EntryInfo T)} {actual : Nat}
    (h : depositToEntries who reason indexOf value capital entries s actual = .ok (s', amount)) :
    FundsMoved s s' := by
  induction entries generalizing s actual with
  | nil =>
    cases h
    exact .refl _
  | cons entry entries ih =>
    obtain ⟨part, -, h⟩ := bind_eq_ok.mp h
    split at h
    · exact ih h
    · obtain ⟨⟨s1, receipt, amount'⟩, h1, h⟩ := bind_eq_ok.mp h
      obtain ⟨s2, h2, h⟩ := bind_eq_ok.mp h
      obtain ⟨commits, -, h2⟩ := bind_eq_ok.mp h2
      obtain rfl := pure_eq_ok.mp h2
      obtain ⟨total, -, h⟩ := bind_eq_ok.mp h
      have hentry : FundsMoved s1 { s1 with
        entryMap := s1.entryMap.insert (reason, indexOf, entry.digest, who) commits } :=
        .of_eq rfl rfl rfl rfl rfl
      exact (depositToDigest_moved h1).trans (hentry.trans (ih h))

theorem depositToIndex_moved {indexOf : T.AccountId}
    (h : depositToIndex s who reason indexOf value = .ok (s', receipt, amount)) : FundsMoved s s' := by
  obtain ⟨info, hi, h⟩ := bind_eq_ok.mp h
  rw [getIndex, okOr_eq_ok] at hi
  obtain ⟨_, -, h⟩ := bind_eq_ok.mp h
  obtain ⟨⟨s1, actual⟩, h1, h⟩ := bind_eq_ok.mp h
  obtain ⟨s2, h2, h⟩ := bind_eq_ok.mp h
  obtain ⟨principal, -, h⟩ := bind_eq_ok.mp h
  simp only [pure_eq_ok, Prod.mk.injEq] at h
  obtain ⟨rfl, -, -⟩ := h
  have hmoved := (depositToEntries_moved h1).trans (unlessZero_moved (fun _ => onLedger_moved) h2)
  have hentries := hmoved.entries (reason, indexOf)
  rw [hi] at hentries
  cases hi2 : s2.indexMap.get (reason, indexOf) with
  | none =>
    rw [hi2] at hentries
    cases hentries
  | some info2 =>
    rw [hi2] at hentries
    have he : info.entries = info2.entries := (Option.some.inj hentries).symm
    exact hmoved.trans ⟨⟨fun _ => rfl, map_get_insert hi2 he, fun _ => rfl, rfl⟩, rfl⟩

theorem releaseSlots_keys {slots : List (SlotInfo T)} {m m' : DigestMap T} {taken taken' : Nat}
    (h : releaseSlots reason slots m taken = .ok (m', taken')) : SameKeys m m' := by
  induction slots generalizing m taken with
  | nil =>
    cases h
    exact fun _ => rfl
  | cons slot slots ih =>
    rw [releaseSlots] at h
    split at h
    · exact ih h
    · obtain ⟨info, hi, h⟩ := bind_eq_ok.mp h
      rw [okOr_eq_ok] at hi
      obtain ⟨⟨info', take⟩, -, h⟩ := bind_eq_ok.mp h
      obtain ⟨total, -, h⟩ := bind_eq_ok.mp h
      exact fun k => (ih h k).trans (containsKey_insert_of_some hi k)

theorem releasePool_moved {poolOf : T.AccountId} {balance : LazyBalance T}
    (h : releasePool s reason poolOf = .ok (s', balance)) : FundsMoved s s' := by
  obtain ⟨pool, hp, h⟩ := bind_eq_ok.mp h
  rw [getPool, okOr_eq_ok] at hp
  split at h
  · simp only [pure_eq_ok, Prod.mk.injEq] at h
    obtain ⟨rfl, -⟩ := h
    exact .refl s
  · obtain ⟨_, -, h⟩ := bind_eq_ok.mp h
    obtain ⟨⟨m, taken⟩, h1, h⟩ := bind_eq_ok.mp h
    obtain ⟨balance', -, h⟩ := bind_eq_ok.mp h
    simp only [pure_eq_ok, Prod.mk.injEq] at h
    obtain ⟨rfl, -⟩ := h
    have hdigests : FundsMoved s { s with digestMap := m } := .of_digests (releaseSlots_keys h1)
    exact hdigests.trans (.of_pool hp (slotShapes_mapCommits pool _))

theorem setSlotCommit_shapes {pool pool' : PoolInfo T} {commit : CommitInstance T}
    (h : pool.setSlotCommit digest commit = .ok pool') : slotShapes pool'.slots = slotShapes pool.slots := by
  unfold PoolInfo.setSlotCommit at h
  split at h
  · cases h
    exact slotShapes_mapCommits pool _
  · cases h

theorem recoverSlots_shapes {slots : List (SlotInfo T)} {effective taken taken' : Nat} {m m' : DigestMap T}
    {pool pool' : PoolInfo T} (h : recoverSlots reason effective slots m pool taken = .ok (m', pool', taken')) :
    SameKeys m m' ∧ slotShapes pool'.slots = slotShapes pool.slots := by
  induction slots generalizing m pool taken with
  | nil =>
    cases h
    exact ⟨fun _ => rfl, rfl⟩
  | cons slot slots ih =>
    obtain ⟨part, -, h⟩ := bind_eq_ok.mp h
    split at h
    · obtain ⟨pool1, h1, h⟩ := bind_eq_ok.mp h
      obtain ⟨hkeys, hshapes⟩ := ih h
      exact ⟨hkeys, hshapes.trans (setSlotCommit_shapes h1)⟩
    · obtain ⟨info, hi, h⟩ := bind_eq_ok.mp h
      rw [okOr_eq_ok] at hi
      obtain ⟨⟨info', deposited, receipt'⟩, -, h⟩ := bind_eq_ok.mp h
      obtain ⟨_, -, h⟩ := bind_eq_ok.mp h
      obtain ⟨total, -, h⟩ := bind_eq_ok.mp h
      obtain ⟨pool1, h1, h⟩ := bind_eq_ok.mp h
      obtain ⟨hkeys, hshapes⟩ := ih h
      exact ⟨fun k => (hkeys k).trans (containsKey_insert_of_some hi k),
        hshapes.trans (setSlotCommit_shapes h1)⟩

theorem recoverPool_moved {poolOf : T.AccountId} {balance : LazyBalance T}
    (h : recoverPool s reason poolOf balance = .ok s') : FundsMoved s s' := by
  obtain ⟨pool, m, filled, taken, left, l, rv, hp, -, hslots, rfl, -⟩ := recoverPool_cases h
  obtain ⟨hkeys, hshapes⟩ := recoverSlots_shapes hslots
  have hdigests : FundsMoved s { s with digestMap := m } := .of_digests hkeys
  have hset : slotShapes (filled.setBalance left).slots = slotShapes pool.slots := hshapes
  have hpool := FundsMoved.of_pool (s := { s with digestMap := m }) hp hset
  exact hdigests.trans (hpool.trans (.of_eq rfl rfl rfl rfl rfl))

theorem depositToPool_moved {poolOf : T.AccountId}
    (h : depositToPool s reason poolOf value = .ok (s', receipt, amount)) : FundsMoved s s' := by
  obtain ⟨⟨s1, balance⟩, h1, h⟩ := bind_eq_ok.mp h
  obtain ⟨⟨⟨deposited, receipt'⟩, balance'⟩, -, h⟩ := bind_eq_ok.mp h
  obtain ⟨s2, h2, h⟩ := bind_eq_ok.mp h
  simp only [pure_eq_ok, Prod.mk.injEq] at h
  obtain ⟨rfl, -, -⟩ := h
  exact (releasePool_moved h1).trans (recoverPool_moved h2)

end Deposits

section Withdrawals

variable {s s' : State T} {who : T.AccountId} {reason : T.Reason} {d d' : AssetDelta}

theorem withdrawFromDigest_moved {digest : T.AccountId} (h : withdrawFromDigest s who reason digest = .ok (s', d)) :
    FundsMoved s s' := by
  obtain ⟨variant, -, h⟩ := bind_eq_ok.mp h
  obtain ⟨info, hi, h⟩ := bind_eq_ok.mp h
  rw [okOr_eq_ok] at hi
  obtain ⟨balance, -, h⟩ := bind_eq_ok.mp h
  obtain ⟨commit, -, h⟩ := bind_eq_ok.mp h
  obtain ⟨⟨balance', imbalance⟩, -, h⟩ := bind_eq_ok.mp h
  simp only [pure_eq_ok, Prod.mk.injEq] at h
  obtain ⟨rfl, -⟩ := h
  exact .of_digest hi

theorem withdrawEntryReceipts_keys {digest : T.AccountId} {variant : T.Position} {receipts : List (CommitInstance T)}
    {m m' : DigestMap T} (h : withdrawEntryReceipts reason digest variant receipts m d = .ok (m', d')) :
    SameKeys m m' := by
  induction receipts generalizing m d with
  | nil =>
    cases h
    exact fun _ => rfl
  | cons receipt receipts ih =>
    obtain ⟨value, -, h⟩ := bind_eq_ok.mp h
    obtain ⟨given, -, h⟩ := bind_eq_ok.mp h
    obtain ⟨info, hi, h⟩ := bind_eq_ok.mp h
    rw [okOr_eq_ok] at hi
    obtain ⟨⟨info', take⟩, -, h⟩ := bind_eq_ok.mp h
    obtain ⟨taken, -, h⟩ := bind_eq_ok.mp h
    exact fun k => (ih h k).trans (containsKey_insert_of_some hi k)

theorem withdrawEntries_moved {indexOf : T.AccountId} {entries : List (EntryInfo T)}
    (h : withdrawEntries who reason indexOf entries s d = .ok (s', d')) :
    FundsMoved s s' ∧ s'.indexMap = s.indexMap := by
  induction entries generalizing s d with
  | nil =>
    cases h
    exact ⟨.refl _, rfl⟩
  | cons entry entries ih =>
    obtain ⟨commits, -, h⟩ := bind_eq_ok.mp h
    obtain ⟨⟨m1, d1⟩, h1, h⟩ := bind_eq_ok.mp h
    obtain ⟨hmoved, hindex⟩ := ih h
    have hdigests : FundsMoved s { s with digestMap := m1 } := .of_digests (withdrawEntryReceipts_keys h1)
    have hentry : FundsMoved { s with digestMap := m1 } { s with
        digestMap := m1
        entryMap := s.entryMap.remove (reason, indexOf, entry.digest, who) } := .of_eq rfl rfl rfl rfl rfl
    exact ⟨hdigests.trans (hentry.trans hmoved), hindex⟩

theorem withdrawFromIndex_moved {indexOf : T.AccountId}
    (h : withdrawFromIndex s who reason indexOf = .ok (s', d)) : FundsMoved s s' := by
  obtain ⟨info, hi, h⟩ := bind_eq_ok.mp h
  rw [getIndex, okOr_eq_ok] at hi
  obtain ⟨⟨s1, imbalance⟩, h1, h⟩ := bind_eq_ok.mp h
  obtain ⟨hmoved, hindex⟩ := withdrawEntries_moved h1
  obtain ⟨principal, -, h⟩ := bind_eq_ok.mp h
  simp only [pure_eq_ok, Prod.mk.injEq] at h
  obtain ⟨rfl, -⟩ := h
  exact hmoved.trans (.of_index (hindex ▸ hi))

theorem deductFromImbalance_moved {value : Nat} {left payment : AssetDelta}
    (h : deductFromImbalance s d value = .ok (s', left, payment)) : FundsMoved s s' := by
  obtain ⟨reap, rfl⟩ := deductFromImbalance_shape h
  exact .of_eq rfl rfl rfl rfl rfl

theorem payCommission_moved {poolOf : T.AccountId} (h : payCommission s reason poolOf d = .ok (s', d')) :
    FundsMoved s s' := by
  obtain ⟨pool, -, h⟩ := bind_eq_ok.mp h
  split at h
  · simp only [pure_eq_ok, Prod.mk.injEq] at h
    exact h.1 ▸ .refl s
  obtain ⟨payTo, -, h⟩ := bind_eq_ok.mp h
  obtain ⟨toPay, -, h⟩ := bind_eq_ok.mp h
  split at h
  · simp only [pure_eq_ok, Prod.mk.injEq] at h
    exact h.1 ▸ .refl s
  obtain ⟨⟨s1, left, payment⟩, h1, h⟩ := bind_eq_ok.mp h
  obtain ⟨⟨s2, paid⟩, h2, h⟩ := bind_eq_ok.mp h
  obtain ⟨s3, h3, h⟩ := bind_eq_ok.mp h
  simp only [pure_eq_ok, Prod.mk.injEq] at h
  exact h.1 ▸ (deductFromImbalance_moved h1).trans
    ((resolveImbalance_moved h2).trans (subFromTotalValue_moved h3))

theorem withdrawFromPool_moved {poolOf : T.AccountId} (h : withdrawFromPool s who reason poolOf = .ok (s', d)) :
    FundsMoved s s' := by
  obtain ⟨commit, -, h⟩ := bind_eq_ok.mp h
  obtain ⟨⟨s1, balance⟩, h1, h⟩ := bind_eq_ok.mp h
  obtain ⟨⟨balance', imbalance⟩, -, h⟩ := bind_eq_ok.mp h
  obtain ⟨s2, h2, h⟩ := bind_eq_ok.mp h
  exact (releasePool_moved h1).trans ((recoverPool_moved h2).trans (payCommission_moved h))

end Withdrawals

section Commits

variable {s s' : State T} {who : T.AccountId} {reason : T.Reason} {digest : T.AccountId} {value amount : Nat}
  {q : Directive}

/-- The proprietor's commit under the reason was written with this digest. -/
structure CommitWritten (s s' : State T) (who : T.AccountId) (reason : T.Reason) (digest : T.AccountId) :
    Prop extends SameTargets s s' where
  commits : ∃ info : CommitInfo T, info.digest = digest ∧ s'.commitMap = s.commitMap.insert (who, reason) info

theorem FundsMoved.written {s₁ : State T} {total : Nat} {info : CommitInfo T} (hm : FundsMoved s s₁)
    (hc : Credited s₁ s' who reason info total) : CommitWritten s s' who reason info.digest := by
  obtain ⟨l, rv, rfl⟩ := hc.state_eq
  exact ⟨hm.toSameTargets.trans (.of_eq rfl rfl rfl rfl), info, rfl, by rw [hm.commits]⟩

theorem depositFor_moved {model : DigestVariant T} {variant : T.Position} {receipt : CommitInstance T}
    (h : depositFor s who reason value variant model = .ok (s', receipt, amount)) : FundsMoved s s' := by
  cases model with
  | direct digest => exact depositToDigest_moved h
  | index indexOf => exact depositToIndex_moved h
  | pool poolOf => exact depositToPool_moved h

theorem placeCommitOf_written {model : DigestVariant T} {variant : T.Position}
    (h : placeCommitOf s who reason model value variant q = .ok (s', amount)) :
    CommitWritten (placedFrom s reason model) s' who reason model.digest := by
  obtain ⟨s₁, s₂, actual, receipt, h₁, h₂, h₃⟩ := placeCommitOf_steps h
  obtain ⟨info, hc, hd, -⟩ := finalizePlaceCommit_spec h₃
  exact hd ▸ ((deductBalance_moved h₁).trans (depositFor_moved h₂)).written hc

@[simp] theorem initiateDigest_commitMap : (initiateDigest s reason digest).commitMap = s.commitMap := by
  unfold initiateDigest
  split <;> rfl

theorem containsKey_initiateDigest_self (s : State T) (reason : T.Reason) (digest : T.AccountId) :
    (initiateDigest s reason digest).digestMap.containsKey (reason, digest) = true := by
  unfold initiateDigest
  split
  · assumption
  · exact StorageMap.containsKey_iff.mpr ⟨_, StorageMap.get_insert_self ..⟩

theorem containsKey_initiateDigest_of_ne {k : T.Reason × T.AccountId} (h : k ≠ (reason, digest)) :
    (initiateDigest s reason digest).digestMap.containsKey k = s.digestMap.containsKey k := by
  unfold initiateDigest
  split
  · rfl
  · exact containsKey_insert_of_ne h

theorem initiateDigest_of_known (h : s.digestMap.containsKey (reason, digest) = true) :
    initiateDigest s reason digest = s := if_pos h

theorem placeCommit_written (h : placeCommit s who reason digest value q = .ok (s', amount)) :
    s.commitMap.get (who, reason) = none ∧
      (CommitWritten s s' who reason digest ∨
        ¬Known s (reason, digest) ∧ CommitWritten (initiateDigest s reason digest) s' who reason digest) := by
  obtain ⟨_, hn, h⟩ := bind_eq_ok.mp h
  rw [ensure_eq_ok, StorageMap.containsKey_eq_false_iff] at hn
  obtain ⟨_, -, h⟩ := bind_eq_ok.mp h
  refine ⟨hn, ?_⟩
  change placeCommitOf s who reason (digestModel s digest reason) value _ q = _ at h
  rcases digestModel_cases s digest reason with ⟨hm, hk | hk⟩ | ⟨hm, -⟩ | ⟨hm, -⟩
  · rw [hm] at h
    exact .inl (initiateDigest_of_known hk ▸ placeCommitOf_written h)
  · rw [hm] at h
    exact .inr ⟨hk, placeCommitOf_written h⟩
  · rw [hm] at h
    exact .inl (placeCommitOf_written h)
  · rw [hm] at h
    exact .inl (placeCommitOf_written h)

theorem finalizeRaiseCommit_written {s₁ : State T} {receipt : CommitInstance T} {total : Nat} (hm : FundsMoved s s₁)
    (h : finalizeRaiseCommit s₁ who reason receipt total = .ok s') :
    ∃ old : CommitInfo T, s.commitMap.get (who, reason) = some old ∧ CommitWritten s s' who reason old.digest := by
  obtain ⟨old, info, ho, hc, hd, -⟩ := finalizeRaiseCommit_spec h
  rw [hm.commits] at ho
  exact ⟨old, ho, hd ▸ hm.written hc⟩

theorem raiseCommit_written (h : raiseCommit s who reason value q = .ok (s', amount)) :
    ∃ old : CommitInfo T, s.commitMap.get (who, reason) = some old ∧ CommitWritten s s' who reason old.digest := by
  obtain ⟨info, -, h⟩ := raiseCommit_eq_ok h
  obtain ⟨variant, s₁, s₂, actual, receipt, -, h₁, h₂, h₃⟩ := raiseCommitOf_steps h
  exact finalizeRaiseCommit_written ((deductBalance_moved h₁).trans (depositFor_moved h₂)) h₃

/-- The proprietor's commit under the reason is gone. -/
structure CommitRemoved (s s' : State T) (who : T.AccountId) (reason : T.Reason) : Prop extends
  SameTargets s s' where
  commits : s'.commitMap = s.commitMap.remove (who, reason)

theorem finalizeResolveCommit_removed {s₁ : State T} {d : AssetDelta} (hm : FundsMoved s s₁)
    (h : finalizeResolveCommit s₁ who reason d = .ok (s', amount)) : CommitRemoved s s' who reason := by
  obtain ⟨s2, h2, h⟩ := bind_eq_ok.mp h
  obtain ⟨l, -, rfl⟩ := onLedger_eq_ok h2
  obtain ⟨⟨s3, paid⟩, h3, h⟩ := bind_eq_ok.mp h
  obtain ⟨l', issue, reap, rfl⟩ := resolveImbalance_shape h3
  obtain ⟨s4, h4, h⟩ := bind_eq_ok.mp h
  obtain ⟨rv, rfl, -⟩ := subFromTotalValue_spec h4
  simp only [pure_eq_ok, Prod.mk.injEq] at h
  obtain ⟨rfl, -⟩ := h
  exact ⟨hm.toSameTargets.trans (.of_eq rfl rfl rfl rfl), by rw [hm.commits]⟩

theorem resolveCommit_removed (h : resolveCommit s who reason = .ok (s', amount)) :
    s.commitMap.containsKey (who, reason) = true ∧ CommitRemoved s s' who reason := by
  obtain ⟨info, hi, -, h⟩ := resolveCommit_eq_ok h
  obtain ⟨_, -, h⟩ := bind_eq_ok.mp h
  obtain ⟨⟨s1, d⟩, h1, h⟩ := bind_eq_ok.mp h
  refine ⟨StorageMap.containsKey_iff.mpr ⟨info, hi⟩, finalizeResolveCommit_removed ?_ h⟩
  cases hm : digestModel s info.digest reason <;> rw [hm] at h1
  · exact withdrawFromDigest_moved h1
  · exact withdrawFromIndex_moved h1
  · exact withdrawFromPool_moved h1

end Commits

section Parts

variable {s s' : State T} {reason : T.Reason} {shares : Nat}

/-- Only the slots of the pool changed, to these digests, shares and variants. -/
structure SlotsSet (s s' : State T) (reason : T.Reason) (poolOf : T.AccountId)
    (shapes : List (T.AccountId × Nat × T.Position)) : Prop where
  digests : SameKeys s.digestMap s'.digestMap
  entries : ∀ k, (s'.indexMap.get k).map IndexInfo.entries = (s.indexMap.get k).map IndexInfo.entries
  slots : ∀ k, (s'.poolMap.get k).map (fun p => slotShapes p.slots) =
    if k = (reason, poolOf) then some shapes else (s.poolMap.get k).map fun p => slotShapes p.slots
  managers : s'.poolManager = s.poolManager
  commits : s'.commitMap = s.commitMap

theorem Reslotted.slotsSet {s₁ : State T} {poolOf slotOf : T.AccountId}
    {added : List (T.AccountId × Nat × T.Position)} {balance : LazyBalance T} {pool released pool' : PoolInfo T}
    {claims : Claims T} {m : DigestMap T}
    (h : Reslotted s s₁ s' reason poolOf slotOf added balance pool released pool' claims m) :
    SlotsSet s s' reason poolOf ((slotShapes pool.slots).filter (fun t => t.1 ≠ slotOf) ++ added) := by
  have hm := releasePool_moved h.releases
  have hrec := recoverPool_moved h.recovers
  refine ⟨fun k => (hrec.digests k).trans (hm.digests k), fun k => (hrec.entries k).trans (hm.entries k),
    fun k => (hrec.slots k).trans ?_, hrec.managers.trans hm.managers, hrec.commits.trans hm.commits⟩
  dsimp only
  rw [StorageMap.get_insert]
  split
  · rw [Option.map_some, h.shapes]
  · exact hm.slots k

theorem released_shapes {s₁ : State T} {poolOf : T.AccountId} {released : PoolInfo T} (hm : FundsMoved s s₁)
    (h : getPool s₁ reason poolOf = .ok released) :
    ∃ pool, s.poolMap.get (reason, poolOf) = some pool ∧ slotShapes released.slots = slotShapes pool.slots := by
  rw [getPool, okOr_eq_ok] at h
  have hs := hm.slots (reason, poolOf)
  rw [h, Option.map_some] at hs
  obtain ⟨pool, hp, he⟩ := Option.map_eq_some_iff.mp hs.symm
  exact ⟨pool, hp, he.symm⟩

theorem removePoolSlot_slots {poolOf slotOf : T.AccountId} (h : removePoolSlot s reason poolOf slotOf = .ok s') :
    ∃ pool, s.poolMap.get (reason, poolOf) = some pool ∧
      SlotsSet s s' reason poolOf ((slotShapes pool.slots).filter fun t => t.1 ≠ slotOf) := by
  obtain ⟨s₁, balance, pool, released, pool', claims, m, hr⟩ := removePoolSlot_reslotted h
  have hset := hr.slotsSet
  rw [List.append_nil] at hset
  exact ⟨pool, hr.release.found, hset⟩

theorem setPoolSlot_slots {poolOf slotOf : T.AccountId} {variant : T.Position}
    (h : setPoolSlot s reason poolOf slotOf shares variant = .ok s') :
    ∃ pool, s.poolMap.get (reason, poolOf) = some pool ∧
      SlotsSet s s' reason poolOf
        (((slotShapes pool.slots).filter fun t => t.1 ≠ slotOf) ++ [(slotOf, shares, variant)]) := by
  obtain ⟨s₁, balance, pool, released, pool', claims, m, hr⟩ := setPoolSlot_reslotted h
  exact ⟨pool, hr.release.found, hr.slotsSet⟩

/-- The other slots stay; the slot is dropped, or put at the end with its new shares. -/
theorem setSlotShares_slots {poolOf slotOf : T.AccountId} (h : setSlotShares s reason poolOf slotOf shares = .ok s') :
    (findSlot s reason poolOf slotOf = none ∧ shares = 0 ∧ s' = s) ∨
    ∃ pool, s.poolMap.get (reason, poolOf) = some pool ∧
      ((shares = 0 ∧ (findSlot s reason poolOf slotOf).isSome ∧
          SlotsSet s s' reason poolOf ((slotShapes pool.slots).filter fun t => t.1 ≠ slotOf)) ∨
        ∃ variant, ((findSlot s reason poolOf slotOf).isSome ∨ s.digestMap.containsKey (reason, slotOf) = true) ∧
          shares ≠ 0 ∧ SlotsSet s s' reason poolOf
            (((slotShapes pool.slots).filter fun t => t.1 ≠ slotOf) ++ [(slotOf, shares, variant)])) := by
  unfold setSlotShares at h
  split at h
  · rename_i slot hf
    split at h
    · rename_i hz
      obtain ⟨pool, hp, hset⟩ := removePoolSlot_slots h
      exact .inr ⟨pool, hp, .inl ⟨hz, by simp [hf], hset⟩⟩
    · rename_i hz
      obtain ⟨pool, hp, hset⟩ := setPoolSlot_slots h
      exact .inr ⟨pool, hp, .inr ⟨slot.variant, by simp [hf], hz, hset⟩⟩
  · rename_i hf
    split at h
    · rename_i hz
      exact .inl ⟨hf, hz, (pure_eq_ok.mp h).symm⟩
    · rename_i hz
      obtain ⟨_, hk, h⟩ := bind_eq_ok.mp h
      rw [ensure_eq_ok] at hk
      obtain ⟨pool, hp, hset⟩ := setPoolSlot_slots h
      exact .inr ⟨pool, hp, .inr ⟨T.positionDefault, .inr hk, hz, hset⟩⟩

theorem prepareEntries_known {given : List (T.AccountId × Nat × T.Position)} {entries : List (EntryInfo T)}
    (h : prepareEntries s reason given = .ok entries) :
    ∀ entry ∈ entries, s.digestMap.containsKey (reason, entry.digest) = true := by
  induction given generalizing entries with
  | nil =>
    cases h
    exact fun _ he => nomatch he
  | cons e given ih =>
    obtain ⟨digest, n, variant⟩ := e
    rw [prepareEntries] at h
    split at h
    · exact ih h
    · obtain ⟨_, hk, h⟩ := bind_eq_ok.mp h
      rw [ensure_eq_ok] at hk
      obtain ⟨entry, he, h⟩ := bind_eq_ok.mp h
      obtain ⟨rest, hr, h⟩ := bind_eq_ok.mp h
      obtain rfl := pure_eq_ok.mp h
      intro e' he'
      rcases List.mem_cons.mp he' with rfl | he'
      · rwa [(EntryInfo.new_eq_ok he).1]
      · exact ih hr e' he'

theorem entries_of_new {entries : Entries T} {index : IndexInfo T} (h : IndexInfo.new entries = .ok index) :
    index.entries = entries := by
  obtain ⟨⟨capital, hc⟩, -, h⟩ := bind_eq_ok.mp h
  obtain ⟨_, -, h⟩ := bind_eq_ok.mp h
  obtain rfl := pure_eq_ok.mp h
  rfl

theorem prepareIndex_known {given : List (T.AccountId × Nat)} {index : IndexInfo T}
    (h : prepareIndex s reason given = .ok index) :
    ∀ entry ∈ index.entries.list, s.digestMap.containsKey (reason, entry.digest) = true := by
  obtain ⟨list, h1, h⟩ := bind_eq_ok.mp h
  obtain ⟨entries, h2, h⟩ := bind_eq_ok.mp h
  have hlist : entries.list = list := by
    unfold Entries.new at h2
    split at h2
    · cases h2
    split at h2
    · cases h2
    split at h2
    · split at h2
      · cases h2
        rfl
      · cases h2
    · cases h2
  rw [entries_of_new h, hlist]
  exact prepareEntries_known h1

theorem mem_of_removeEntry {entries entries' : Entries T} {entryOf : T.AccountId}
    (h : entries.removeEntry entryOf = .ok entries') : ∀ e ∈ entries'.list, e ∈ entries.list := by
  unfold Entries.removeEntry at h
  split at h
  · dsimp only at h
    split at h
    · cases h
      exact fun e he => (List.eraseIdx_sublist _ _).subset he
    · cases h
  · cases h

theorem mem_of_dropEntry {entries entries' : Entries T} {entryOf : T.AccountId}
    (h : entries.dropEntry entryOf = .ok entries') : ∀ e ∈ entries'.list, e ∈ entries.list := by
  unfold Entries.dropEntry at h
  split at h
  · exact mem_of_removeEntry h
  · cases h
    exact fun _ he => he

theorem mem_of_addEntry {entries entries' : Entries T} {entry : EntryInfo T}
    (h : entries.addEntry entry = .ok entries') : ∀ e ∈ entries'.list, e ∈ entries.list ∨ e = entry := by
  unfold Entries.addEntry at h
  split at h
  · cases h
  split at h
  · cases h
    simp
  · cases h

theorem setEntryShares_parts {indexOf entryOf generated : T.AccountId}
    (h : setEntryShares s reason indexOf entryOf shares generated = .ok s') :
    (findEntry s reason indexOf entryOf = none ∧ shares = 0 ∧ s' = s) ∨
    ∃ index, (findEntry s reason indexOf entryOf ≠ none ∨ shares ≠ 0) ∧ setIndex s reason index generated = .ok s' ∧
      ∀ e ∈ index.entries.list, (e.digest = entryOf ∧ s.digestMap.containsKey (reason, entryOf) = true) ∨
        ∃ info, s.indexMap.get (reason, indexOf) = some info ∧ e.digest ∈ info.entries.list.map EntryInfo.digest := by
  have hremove (h : removeIndexEntry s reason indexOf entryOf generated = .ok s') :
      ∃ index, setIndex s reason index generated = .ok s' ∧ ∀ e ∈ index.entries.list,
        ∃ info, s.indexMap.get (reason, indexOf) = some info ∧ e.digest ∈ info.entries.list.map EntryInfo.digest := by
    obtain ⟨info, hi, h⟩ := bind_eq_ok.mp h
    rw [getIndex, okOr_eq_ok] at hi
    obtain ⟨entries, he, h⟩ := bind_eq_ok.mp h
    obtain ⟨index, hx, h⟩ := bind_eq_ok.mp h
    refine ⟨index, h, fun e hm => ⟨info, hi, List.mem_map_of_mem (mem_of_removeEntry he e ?_)⟩⟩
    rwa [entries_of_new hx] at hm
  have hset {variant : T.Position} (h : setIndexEntry s reason indexOf entryOf shares variant generated = .ok s') :
      ∃ index, setIndex s reason index generated = .ok s' ∧ ∀ e ∈ index.entries.list, e.digest = entryOf ∨
        ∃ info, s.indexMap.get (reason, indexOf) = some info ∧ e.digest ∈ info.entries.list.map EntryInfo.digest := by
    obtain ⟨_, -, h⟩ := bind_eq_ok.mp h
    obtain ⟨info, hi, h⟩ := bind_eq_ok.mp h
    rw [getIndex, okOr_eq_ok] at hi
    obtain ⟨entries, he, h⟩ := bind_eq_ok.mp h
    obtain ⟨entry, hn, h⟩ := bind_eq_ok.mp h
    obtain ⟨entries', ha, h⟩ := bind_eq_ok.mp h
    obtain ⟨index, hx, h⟩ := bind_eq_ok.mp h
    refine ⟨index, h, fun e hm => ?_⟩
    rw [entries_of_new hx] at hm
    rcases mem_of_addEntry ha e hm with hm | rfl
    · exact .inr ⟨info, hi, List.mem_map_of_mem (mem_of_dropEntry he e hm)⟩
    · exact .inl (EntryInfo.new_eq_ok hn).1
  unfold setEntryShares at h
  split at h
  · rename_i entry hf
    obtain ⟨info, hi, hfind⟩ := Option.bind_eq_some_iff.mp hf
    have hmem : entryOf ∈ info.entries.list.map EntryInfo.digest := by
      have hd : entry.digest = entryOf := by simpa using List.find?_some hfind
      exact hd ▸ List.mem_map_of_mem (List.mem_of_find?_eq_some hfind)
    split at h
    · obtain ⟨index, hx, hall⟩ := hremove h
      exact .inr ⟨index, .inl (by simp [hf]), hx, fun e he => .inr (hall e he)⟩
    · obtain ⟨index, hx, hall⟩ := hset h
      refine .inr ⟨index, .inl (by simp [hf]), hx, fun e he => .inr ?_⟩
      rcases hall e he with hd | hold
      · exact ⟨info, hi, hd ▸ hmem⟩
      · exact hold
  · rename_i hf
    split at h
    · exact .inl ⟨hf, ‹_›, (pure_eq_ok.mp h).symm⟩
    · obtain ⟨_, hk, h⟩ := bind_eq_ok.mp h
      rw [ensure_eq_ok] at hk
      obtain ⟨index, hx, hall⟩ := hset h
      exact .inr ⟨index, .inr ‹_›, hx, fun e he => (hall e he).imp (fun hd => ⟨hd, hk⟩) id⟩

end Parts

end FrameSuite
