import FrameSuite.CustodySteps

/-! The digest of a commit stays what it was when the commit was placed, as long as placements on
an index allocate something and new indexes and pools are given fresh digests. -/

namespace FrameSuite

open ShareBalance

variable {T : Config} {p : Prop}

section Models

def Known (s : State T) (key : T.Reason × T.AccountId) : Prop :=
  s.digestMap.containsKey key = true ∨ s.indexMap.containsKey key = true ∨ s.poolMap.containsKey key = true

theorem Anchored.known {s : State T} {who : T.AccountId} {reason : T.Reason} {info : CommitInfo T}
    (h : Anchored s who reason info) : Known s (reason, info.digest) := by
  cases h with
  | direct r hk hm => exact .inl hk
  | index entry hk hm => exact .inr (.inl hk)
  | pool r hk hm => exact .inr (.inr hk)

variable {s s' : State T} {digest : T.AccountId} {reason : T.Reason}

theorem known_of_determineDigest {model : DigestVariant T} (h : determineDigest s digest reason = .ok model) :
    Known s (reason, digest) := by
  unfold determineDigest at h
  split at h
  · exact .inl ‹_›
  · split at h
    · exact .inr (.inl ‹_›)
    · split at h
      · exact .inr (.inr ‹_›)
      · cases h

theorem determineDigest_direct (hk : s.digestMap.containsKey (reason, digest) = true) :
    determineDigest s digest reason = .ok (.direct digest) := by
  simp [determineDigest, hk]

theorem Custody.determineDigest_index (h : Custody p s)
    (hk : s.indexMap.containsKey (reason, digest) = true) :
    determineDigest s digest reason = .ok (.index digest) := by
  have hd : s.digestMap.containsKey (reason, digest) = false := by
    rw [← Bool.not_eq_true]
    intro hd
    rw [(h.digestsApart _ hd).1] at hk
    cases hk
  simp [determineDigest, hd, hk]

theorem Custody.determineDigest_pool (h : Custody p s)
    (hk : s.poolMap.containsKey (reason, digest) = true) :
    determineDigest s digest reason = .ok (.pool digest) := by
  have hd : s.digestMap.containsKey (reason, digest) = false := by
    rw [← Bool.not_eq_true]
    intro hd
    rw [(h.digestsApart _ hd).2] at hk
    cases hk
  have hi : s.indexMap.containsKey (reason, digest) = false := by
    rw [← Bool.not_eq_true]
    intro hi
    rw [h.indexesApart _ hi] at hk
    cases hk
  simp [determineDigest, hd, hi, hk]

theorem digestModel_cases (s : State T) (digest : T.AccountId) (reason : T.Reason) :
    (digestModel s digest reason = .direct digest ∧
      (s.digestMap.containsKey (reason, digest) = true ∨ ¬Known s (reason, digest))) ∨
    (digestModel s digest reason = .index digest ∧ s.indexMap.containsKey (reason, digest) = true) ∨
    (digestModel s digest reason = .pool digest ∧ s.poolMap.containsKey (reason, digest) = true) := by
  unfold digestModel determineDigest Known
  by_cases hd : s.digestMap.containsKey (reason, digest) = true
  · simp [hd]
  · by_cases hi : s.indexMap.containsKey (reason, digest) = true
    · simp [hd, hi]
    · by_cases hp : s.poolMap.containsKey (reason, digest) = true
      · simp [hd, hi, hp]
      · simp [hd, hi, hp]

/-- Every digest of the second state was of the same model in the first or unknown there. -/
structure Grows (s s' : State T) : Prop where
  digests : ∀ key, s'.digestMap.containsKey key = true → s.digestMap.containsKey key = true ∨ ¬Known s key
  indexes : ∀ key, s'.indexMap.containsKey key = true → s.indexMap.containsKey key = true ∨ ¬Known s key
  pools : ∀ key, s'.poolMap.containsKey key = true → s.poolMap.containsKey key = true ∨ ¬Known s key

theorem Grows.of_keys (hd : ∀ key, s'.digestMap.containsKey key = s.digestMap.containsKey key)
    (hi : ∀ key, s'.indexMap.containsKey key = s.indexMap.containsKey key)
    (hp : ∀ key, s'.poolMap.containsKey key = s.poolMap.containsKey key) : Grows s s' :=
  ⟨fun key hk => .inl (hd key ▸ hk), fun key hk => .inl (hi key ▸ hk), fun key hk => .inl (hp key ▸ hk)⟩

theorem Grows.of_ledger {l : T.Ledger} (h : Grows { s with ledger := l } s') : Grows s s' :=
  ⟨h.digests, h.indexes, h.pools⟩

theorem Grows.determineDigest_eq (hg : Grows s s') (h : Custody p s) (h' : Custody p s')
    (hk : Known s (reason, digest)) (hk' : Known s' (reason, digest)) :
    determineDigest s' digest reason = determineDigest s digest reason := by
  rcases hk' with hk' | hk' | hk'
  · rw [determineDigest_direct hk', determineDigest_direct ((hg.digests _ hk').resolve_right (· hk))]
  · rw [h'.determineDigest_index hk', h.determineDigest_index ((hg.indexes _ hk').resolve_right (· hk))]
  · rw [h'.determineDigest_pool hk', h.determineDigest_pool ((hg.pools _ hk').resolve_right (· hk))]

theorem Shift.grows {s₁ : State T} {loc : Location T} {gained lost : List (CommitInstance T)}
    {dropped : EntryKey T → Prop} (h : Shift s s₁ loc gained lost dropped) (hm : SameMaps s₁ s') :
    Grows s s' :=
  .of_keys (fun key => by rw [hm.digestMap, h.digestKeys]) (fun key => by rw [hm.indexMap, h.indexKeys])
    fun key => by rw [hm.poolMap, h.poolKeys]

end Models

section Placements

theorem initiateDigest_custody {s : State T} (hs : Custody p s) {reason : T.Reason} {digest : T.AccountId}
    (hk : s.digestMap.containsKey (reason, digest) = true ∨ ¬Known s (reason, digest)) :
    Custody p (initiateDigest s reason digest) ∧ Grows s (initiateDigest s reason digest) := by
  have hsound := (initiateDigest_settles hs.sound reason digest).sound
  unfold initiateDigest at hsound ⊢
  split
  · exact ⟨hs, .of_keys (fun _ => rfl) (fun _ => rfl) fun _ => rfl⟩
  · rename_i hnot
    rw [if_neg hnot] at hsound
    have hunknown := hk.resolve_left hnot
    rw [Bool.not_eq_true, StorageMap.containsKey_eq_false_iff] at hnot
    have hiss (l : Location T) : issuedAt (s.digestMap.insert (reason, digest) DigestInfo.default) l =
        issuedAt s.digestMap l := by rw [issuedAt, (insert_default_spec hnot).1, issuedAt]
    have hcontains (key : T.Reason × T.AccountId) :
        (s.digestMap.insert (reason, digest) DigestInfo.default).containsKey key = true ↔
          s.digestMap.containsKey key = true ∨ key = (reason, digest) := by
      rw [StorageMap.containsKey, StorageMap.get_insert]
      by_cases hkey : key = (reason, digest) <;> simp [hkey, StorageMap.containsKey]
    refine ⟨⟨hsound, fun l => ?_, hs.pools, fun key hkey => ?_, hs.indexesApart, hs.entries, hs.shares_ne,
      fun hp who r info hi => ?_⟩, fun key hkey => ?_, fun _ hkey => .inl hkey, fun _ hkey => .inl hkey⟩
    · dsimp only
      rw [hiss]
      exact hs.digests l
    · rcases (hcontains key).mp hkey with hkey | rfl
      · exact hs.digestsApart key hkey
      · simp only [Known, not_or, Bool.not_eq_true] at hunknown
        exact hunknown.2
    · exact (hs.anchored hp who r info hi).mono rfl (fun _ hr => hr) (fun hd => (hcontains _).mpr (.inl hd)) id id
        fun _ => id
    · rcases (hcontains key).mp hkey with hkey | rfl
      · exact .inl hkey
      · exact .inr hunknown

theorem Grows.trans_of_known {s s₁ s₂ : State T} (h : Grows s s₁) (h' : Grows s₁ s₂)
    (hk : ∀ key, Known s key → Known s₁ key) : Grows s s₂ where
  digests key hkey := (h'.digests key hkey).elim (h.digests key) fun hn => .inr fun hs => hn (hk key hs)
  indexes key hkey := (h'.indexes key hkey).elim (h.indexes key) fun hn => .inr fun hs => hn (hk key hs)
  pools key hkey := (h'.pools key hkey).elim (h.pools key) fun hn => .inr fun hs => hn (hk key hs)

theorem initiateDigest_known {s : State T} {reason : T.Reason} {digest : T.AccountId}
    {key : T.Reason × T.AccountId} (h : Known s key) : Known (initiateDigest s reason digest) key := by
  unfold initiateDigest
  split
  · exact h
  · refine h.imp_left fun hd => ?_
    dsimp only
    rw [StorageMap.containsKey, StorageMap.get_insert]
    split
    · rfl
    · exact hd

/-- A commit was placed on a digest of the given model. -/
structure Placed (p : Prop) (s s' : State T) (who : T.AccountId) (reason : T.Reason) (digest : T.AccountId)
    (model : DigestVariant T) : Prop where
  custody : Custody p s'
  grows : Grows s s'
  commits : ∃ info, s'.commitMap = s.commitMap.insert (who, reason) info ∧ info.digest = digest
  target : determineDigest s' digest reason = .ok model

variable {s s' : State T} {who : T.AccountId} {reason : T.Reason} {digest : T.AccountId}
  {value amount : Nat} {variant : T.Position} {q : Directive}

theorem Credited.sameMaps {s₁ s₂ : State T} {info : CommitInfo T} {amount : Nat}
    (h : Credited s₁ s₂ who reason info amount) :
    SameMaps s₁ s₂ ∧ s₂.commitMap = s₁.commitMap.insert (who, reason) info := by
  obtain ⟨l, rv, rfl⟩ := h.state_eq
  exact ⟨⟨rfl, rfl, rfl, rfl⟩, rfl⟩

theorem extended_of_new {m : CommitMap T} {key : T.AccountId × T.Reason} {info : CommitInfo T}
    {receipt : CommitInstance T} (hnew : m.get key = none) (hr : info.commits.receipts = [receipt]) :
    Extended (m.get key) info receipt := by
  rw [hnew]
  exact ⟨hr, fun o ho => nomatch ho⟩

theorem placeDigestCommit_placed (hs : Custody p s) (hnew : s.commitMap.get (who, reason) = none)
    (hk : s.digestMap.containsKey (reason, digest) = true ∨ ¬Known s (reason, digest))
    (h : placeCommitOf s who reason (.direct digest) value variant q = .ok (s', amount)) :
    Placed p s s' who reason digest (.direct digest) := by
  obtain ⟨hi, hgrow⟩ := initiateDigest_custody hs hk
  have hcm : (initiateDigest s reason digest).commitMap = s.commitMap := by
    unfold initiateDigest
    split <;> rfl
  obtain ⟨s1, s2, actual, receipt, h1, h2, h3⟩ := placeCommitOf_steps h
  obtain ⟨l, rfl, -⟩ := deductBalance_spec h1
  obtain ⟨r, rfl, hne, hknown, hshift⟩ := depositToDigest_shift (hi.withLedger l) h2
  obtain ⟨info, hc, rfl, rfl, hr⟩ := finalizePlaceCommit_spec h3
  obtain ⟨hm, hins⟩ := hc.sameMaps
  rw [hshift.commits] at hins
  have hdm : s'.digestMap.containsKey (reason, info.digest) = true := by
    rw [hm.digestMap, hshift.digestKeys]
    exact hknown
  have hx : Extended ((initiateDigest s reason info.digest).commitMap.get (who, reason)) info (some r) :=
    extended_of_new (hcm ▸ hnew) hr
  refine ⟨(hi.withLedger l).extend hshift hm hins hx (fun r' hr' => Option.some.inj hr' ▸ hne)
    (fun _ => .direct r hdm (by simp [hr])), ?_, ⟨info, ?_, rfl⟩, determineDigest_direct hdm⟩
  · exact hgrow.trans_of_known (hshift.grows hm).of_ledger fun key => initiateDigest_known
  · rw [hins]
    exact congrArg (StorageMap.insert · _ info) hcm

theorem placeIndexCommit_placed (hs : Custody p s) (hnew : s.commitMap.get (who, reason) = none)
    (hk : s.indexMap.containsKey (reason, digest) = true) (hall : p → Allocates s who reason digest value)
    (h : placeCommitOf s who reason (.index digest) value variant q = .ok (s', amount)) :
    Placed p s s' who reason digest (.index digest) := by
  obtain ⟨s1, s2, actual, receipt, h1, h2, h3⟩ := placeCommitOf_steps h
  obtain rfl := deductBalance_amount h1
  obtain ⟨l, rfl, -⟩ := deductBalance_spec h1
  have hkey (hp : p) := depositToIndex_allocates h2 (hall hp)
  obtain ⟨info, hc, rfl, rfl, hr⟩ := finalizePlaceCommit_spec h3
  obtain ⟨rfl, hshift⟩ := depositToIndex_shift (hs.withLedger l) h2 (location reason info.digest info.variant)
  obtain ⟨hm, hins⟩ := hc.sameMaps
  rw [hshift.commits] at hins
  have him : s'.indexMap.containsKey (reason, info.digest) = true := by
    rw [hm.indexMap, hshift.indexKeys]
    exact hk
  have hcust := (hs.withLedger l).extend hshift hm hins (extended_of_new hnew hr) (fun r' hr' => by cases hr')
    fun hp => by
      obtain ⟨entry, hentry⟩ := hkey hp
      rw [← hm.entryMap] at hentry
      exact .index entry him hentry
  exact ⟨hcust, (hshift.grows hm).of_ledger, ⟨info, hins, rfl⟩, hcust.determineDigest_index him⟩

theorem placePoolCommit_placed (hs : Custody p s) (hnew : s.commitMap.get (who, reason) = none)
    (h : placeCommitOf s who reason (.pool digest) value variant q = .ok (s', amount)) :
    Placed p s s' who reason digest (.pool digest) := by
  obtain ⟨s1, s2, actual, receipt, h1, h2, h3⟩ := placeCommitOf_steps h
  obtain ⟨l, rfl, -⟩ := deductBalance_spec h1
  obtain ⟨info, hc, rfl, rfl, hr⟩ := finalizePlaceCommit_spec h3
  obtain ⟨r, rfl, hne, hknown, hshift⟩ := depositToPool_shift (hs.withLedger l) h2 info.variant
  obtain ⟨hm, hins⟩ := hc.sameMaps
  rw [hshift.commits] at hins
  have hpm : s'.poolMap.containsKey (reason, info.digest) = true := by
    rw [hm.poolMap, hshift.poolKeys]
    exact hknown
  have hcust := (hs.withLedger l).extend hshift hm hins (extended_of_new hnew hr)
    (fun r' hr' => Option.some.inj hr' ▸ hne) fun _ => .pool r hpm (by simp [hr])
  exact ⟨hcust, (hshift.grows hm).of_ledger, ⟨info, hins, rfl⟩, hcust.determineDigest_pool hpm⟩

/-- A placement on an index allocates something. -/
def PlaceAllocates (s : State T) (who : T.AccountId) (reason : T.Reason) (digest : T.AccountId)
    (value : Nat) : Prop :=
  match digestModel s digest reason with
  | .index indexOf => Allocates s who reason indexOf value
  | _ => True

theorem placeCommitOfVariant_placed (hs : Custody p s) (hall : p → PlaceAllocates s who reason digest value)
    (h : placeCommitOfVariant s who reason digest value variant q = .ok (s', amount)) :
    Placed p s s' who reason digest (digestModel s digest reason) := by
  obtain ⟨_, hn, h⟩ := bind_eq_ok.mp h
  rw [ensure_eq_ok, StorageMap.containsKey_eq_false_iff] at hn
  obtain ⟨_, -, h⟩ := bind_eq_ok.mp h
  change placeCommitOf s who reason (digestModel s digest reason) value variant q = .ok (s', amount) at h
  unfold PlaceAllocates at hall
  rcases digestModel_cases s digest reason with ⟨hm, hk⟩ | ⟨hm, hk⟩ | ⟨hm, hk⟩
  · rw [hm] at h ⊢
    exact placeDigestCommit_placed hs hn hk h
  · rw [hm] at h hall ⊢
    exact placeIndexCommit_placed hs hn hk hall h
  · rw [hm] at h ⊢
    exact placePoolCommit_placed hs hn h

end Placements

section Changes

/-- A step that places no new commit: each commit has the digest it had before. -/
structure Kept (p : Prop) (s s' : State T) : Prop where
  custody : Custody p s'
  grows : Grows s s'
  commits : ∀ key info', s'.commitMap.get key = some info' →
    ∃ info, s.commitMap.get key = some info ∧ info.digest = info'.digest

variable {s s₁ s' : State T} {who : T.AccountId} {reason : T.Reason}

theorem Kept.of_same (h : Custody p s') (hg : Grows s s') (hc : s'.commitMap = s.commitMap) : Kept p s s' :=
  ⟨h, hg, fun _ info hi => ⟨info, hc ▸ hi, rfl⟩⟩

theorem Kept.of_shift {loc : Location T} (h : Custody p s) (hs : Shift s s₁ loc [] [] fun _ => False)
    (hm : SameMaps s₁ s') (hcm : s'.commitMap = s.commitMap) : Kept p s s' :=
  .of_same (h.shift hs hm hcm) (hs.grows hm) hcm

theorem Extended.of_raise {m : CommitMap T} {key : T.AccountId × T.Reason} {old info : CommitInfo T}
    {receipt : CommitInstance T} (ho : m.get key = some old) (hd : info.digest = old.digest)
    (hv : info.variant = old.variant) (hr : info.commits.receipts = old.commits.receipts ++ [receipt]) :
    Extended (m.get key) info receipt := by
  rw [ho]
  exact ⟨hr, fun o h => Option.some.inj h ▸ ⟨hd.symm, hv.symm⟩⟩

theorem Custody.raise {s₂ : State T} {l : T.Ledger} {amount : Nat} {old : CommitInfo T} {receipt : CommitInstance T}
    (hs : Custody p s) (ho : s.commitMap.get (who, reason) = some old)
    (hne : ∀ r, receipt = some r → r.shares ≠ 0)
    (hshift : Shift { s with ledger := l } s₁ (location reason old.digest old.variant) [receipt] []
      fun _ => False)
    (h : finalizeRaiseCommit s₁ who reason receipt amount = .ok s₂) : Kept p s s₂ := by
  obtain ⟨old', info, ho', hc, hd, hv, hr⟩ := finalizeRaiseCommit_spec h
  rw [hshift.commits] at ho'
  obtain rfl : old = old' := Option.some.inj (ho.symm.trans ho')
  obtain ⟨hm, hins⟩ := hc.sameMaps
  rw [hshift.commits] at hins
  have hanchor : p → Anchored s₂ who reason info := by
    intro hp
    refine (hs.anchored hp who reason old ho).mono hd ?_ ?_ ?_ ?_ fun entry he => ?_
    · rw [hr]
      exact fun r hm => List.mem_append_left _ hm
    · rw [hm.digestMap, hshift.digestKeys]
      exact id
    · rw [hm.indexMap, hshift.indexKeys]
      exact id
    · rw [hm.poolMap, hshift.poolKeys]
      exact id
    · rw [hm.entryMap]
      exact (hshift.oldEntries _ he).resolve_left id
  rw [← hd, ← hv] at hshift
  refine ⟨(hs.withLedger l).extend hshift hm hins (.of_raise ho hd hv hr) hne hanchor,
    (hshift.grows hm).of_ledger, fun key info' hi => ?_⟩
  rw [hins, StorageMap.get_insert] at hi
  split at hi
  · rename_i hkey
    obtain rfl := Option.some.inj hi
    exact ⟨old, hkey ▸ ho, hd.symm⟩
  · exact ⟨info', hi, rfl⟩

theorem raiseCommit_kept {value amount : Nat} {q : Directive} (hs : Custody p s)
    (h : raiseCommit s who reason value q = .ok (s', amount)) : Kept p s s' := by
  obtain ⟨info, hi, h⟩ := raiseCommit_eq_ok h
  obtain ⟨variant, s₁, s₂, actual, receipt, hv, h₁, h₂, h₃⟩ := raiseCommitOf_steps h
  obtain ⟨l, rfl, -⟩ := deductBalance_spec h₁
  rcases digestModel_cases s info.digest reason with ⟨hc, -⟩ | ⟨hc, -⟩ | ⟨hc, -⟩
  · rw [hc] at h₂
    obtain ⟨info', hi', hv⟩ := bind_eq_ok.mp (hv _ hc)
    rw [getCommit, okOr_eq_ok] at hi'
    obtain rfl : info = info' := Option.some.inj (hi.symm.trans hi')
    obtain rfl := pure_eq_ok.mp hv
    obtain ⟨r, rfl, hne, -, hshift⟩ := depositToDigest_shift (hs.withLedger l) h₂
    exact hs.raise hi (fun r' hr' => Option.some.inj hr' ▸ hne) hshift h₃
  · rw [hc] at h₂
    obtain ⟨rfl, hshift⟩ := depositToIndex_shift (hs.withLedger l) h₂ _
    have hnone : ∀ r : Receipt T.share, none = some r → r.shares ≠ 0 := fun r hr => by simp at hr
    exact hs.raise hi hnone hshift h₃
  · rw [hc] at h₂
    obtain ⟨r, rfl, hne, -, hshift⟩ := depositToPool_shift (hs.withLedger l) h₂ info.variant
    exact hs.raise hi (fun r' hr' => Option.some.inj hr' ▸ hne) hshift h₃

theorem withdrawFor_shift {d : AssetDelta} {info : CommitInfo T} (hs : Custody p s)
    (hi : s.commitMap.get (who, reason) = some info) (hknown : Known s (reason, info.digest))
    (h : withdrawFor s who reason (digestModel s info.digest reason) = .ok (s', d)) :
    ∃ s₁, SameMaps s₁ s' ∧ s'.commitMap = s₁.commitMap ∧
      Shift s s₁ (location reason info.digest info.variant) [] info.commits.receipts
        fun key => key.2.2.2 = who ∧ key.1 = reason := by
  rcases digestModel_cases s info.digest reason with ⟨hc, hk⟩ | ⟨hc, -⟩ | ⟨hc, -⟩
  · rw [hc] at h
    exact ⟨s', ⟨rfl, rfl, rfl, rfl⟩, rfl,
      withdrawFromDigest_shift hs hi (hk.resolve_right fun hn => hn hknown) h _⟩
  · rw [hc] at h
    exact ⟨s', ⟨rfl, rfl, rfl, rfl⟩, rfl, withdrawFromIndex_shift hs h _ _⟩
  · rw [hc] at h
    exact withdrawFromPool_shift hs hi h _ _

theorem SameMaps.trans (h : SameMaps s s₁) (h' : SameMaps s₁ s') : SameMaps s s' :=
  ⟨h'.digestMap.trans h.digestMap, h'.indexMap.trans h.indexMap, h'.entryMap.trans h.entryMap,
    h'.poolMap.trans h.poolMap⟩

theorem unlessZero_ledger {v : Nat} {op : T.Ledger → Except DispatchError T.Ledger}
    (h : s.unlessZero v (s.onLedger op) = .ok s') : ∃ l, s' = { s with ledger := l } := by
  unfold State.unlessZero at h
  split at h
  · cases h
    exact ⟨s.ledger, rfl⟩
  · obtain ⟨l, -, rfl⟩ := onLedger_eq_ok h
    exact ⟨l, rfl⟩

theorem resolveImbalance_shape {d : AssetDelta} {paid : Nat} (h : resolveImbalance s who d = .ok (s', paid)) :
    ∃ l issue reap, s' = { s with ledger := l, assetToIssue := issue, assetToReap := reap } := by
  unfold resolveImbalance at h
  dsimp only at h
  split at h
  · obtain ⟨issue, -, h⟩ := bind_eq_ok.mp h
    obtain ⟨s1, h1, h⟩ := bind_eq_ok.mp h
    obtain ⟨s2, h2, h⟩ := bind_eq_ok.mp h
    simp only [pure_eq_ok, Prod.mk.injEq] at h
    obtain ⟨rfl, -⟩ := h
    obtain ⟨l1, rfl⟩ := unlessZero_ledger h1
    obtain ⟨l2, -, rfl⟩ := onLedger_eq_ok h2
    exact ⟨l2, issue, s.assetToReap, rfl⟩
  · split at h
    · obtain ⟨s1, h1, h⟩ := bind_eq_ok.mp h
      simp only [pure_eq_ok, Prod.mk.injEq] at h
      obtain ⟨rfl, -⟩ := h
      obtain ⟨l, -, rfl⟩ := onLedger_eq_ok h1
      exact ⟨l, s.assetToIssue, s.assetToReap, rfl⟩
    · obtain ⟨reap, -, h⟩ := bind_eq_ok.mp h
      obtain ⟨s1, h1, h⟩ := bind_eq_ok.mp h
      obtain ⟨s2, h2, h⟩ := bind_eq_ok.mp h
      simp only [pure_eq_ok, Prod.mk.injEq] at h
      obtain ⟨rfl, -⟩ := h
      obtain ⟨l1, -, rfl⟩ := onLedger_eq_ok h1
      obtain ⟨l2, rfl⟩ := unlessZero_ledger h2
      exact ⟨l2, s.assetToIssue, reap, rfl⟩

theorem finalizeResolveCommit_maps {d : AssetDelta} {resolved : Nat}
    (h : finalizeResolveCommit s who reason d = .ok (s', resolved)) :
    SameMaps s s' ∧ s'.commitMap = s.commitMap.remove (who, reason) := by
  obtain ⟨s1, h1, h⟩ := bind_eq_ok.mp h
  obtain ⟨l, hl, rfl⟩ := onLedger_eq_ok h1
  obtain ⟨⟨s2, paid⟩, h2, h⟩ := bind_eq_ok.mp h
  obtain ⟨l', issue, reap, rfl⟩ := resolveImbalance_shape h2
  obtain ⟨s3, h3, h⟩ := bind_eq_ok.mp h
  obtain ⟨rv, rfl, -⟩ := subFromTotalValue_spec h3
  simp only [pure_eq_ok, Prod.mk.injEq] at h
  obtain ⟨rfl, -⟩ := h
  exact ⟨⟨rfl, rfl, rfl, rfl⟩, rfl⟩

/-- After a resolution the commit is gone and every digest is known as before. -/
structure Resolved (p : Prop) (s s' : State T) (who : T.AccountId) (reason : T.Reason) : Prop extends
  Kept p s s' where
  removed : s'.commitMap = s.commitMap.remove (who, reason)
  known : ∀ key, Known s' key ↔ Known s key

theorem resolveCommit_resolved {resolved : Nat} (hs : Custody p s)
    (h : resolveCommit s who reason = .ok (s', resolved)) : Resolved p s s' who reason := by
  obtain ⟨info, hi, hm, h⟩ := resolveCommit_eq_ok h
  have hknown := known_of_determineDigest hm
  obtain ⟨_, -, h⟩ := bind_eq_ok.mp h
  obtain ⟨⟨s1, d⟩, h1, h⟩ := bind_eq_ok.mp h
  obtain ⟨s₁, hm₁, hcm₁, hshift⟩ := withdrawFor_shift hs hi hknown h1
  obtain ⟨hm₂, hcm₂⟩ := finalizeResolveCommit_maps h
  have hmaps := hm₁.trans hm₂
  have hremoved : s'.commitMap = s.commitMap.remove (who, reason) := by
    rw [hcm₂, hcm₁, hshift.commits]
  refine ⟨⟨hs.release hi hshift hmaps hremoved, hshift.grows hmaps, fun key info' hi' => ?_⟩, hremoved,
    fun key => ?_⟩
  · rw [hremoved, StorageMap.get_remove] at hi'
    split at hi'
    · cases hi'
    · exact ⟨info', hi', rfl⟩
  · unfold Known
    rw [hmaps.digestMap, hmaps.indexMap, hmaps.poolMap, hshift.digestKeys, hshift.indexKeys, hshift.poolKeys]

end Changes

end FrameSuite
