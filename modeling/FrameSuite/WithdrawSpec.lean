import FrameSuite.PoolSpec

/-! What the withdrawals of the pallet do: the receipts they take back from the vault and
what is paid for them. -/

namespace FrameSuite

open ShareBalance

variable {T : Config}

theorem DigestInfo.getBalance_setBalance {info : DigestInfo T} {variant : T.Position}
    {b : LazyBalance T} (h : info.getBalance variant = some b) (b' : LazyBalance T) :
    (info.setBalance variant b').getBalance variant = some b' := by
  unfold DigestInfo.getBalance at h
  have hlt := (List.getElem?_eq_some_iff.mp h).1
  simp [DigestInfo.getBalance, DigestInfo.setBalance, hlt]

theorem DigestInfo.setBalance_self {info : DigestInfo T} {variant : T.Position} {b : LazyBalance T}
    (h : info.getBalance variant = some b) : info.setBalance variant b = info := by
  unfold DigestInfo.getBalance at h
  obtain ⟨hlt, rfl⟩ := List.getElem?_eq_some_iff.mp h
  simp [DigestInfo.setBalance]

theorem DigestInfo.setBalance_setBalance (info : DigestInfo T) (variant : T.Position)
    (b c : LazyBalance T) :
    (info.setBalance variant b).setBalance variant c = info.setBalance variant c := by
  simp [DigestInfo.setBalance]

theorem receiptDepositValue_eq_ok {receipt : CommitInstance T} {value : Nat}
    (h : (receiptDepositValue receipt).mapError DispatchError.balance = .ok value) :
    ∃ r, receipt = some r ∧ value = r.principal := by
  cases receipt with
  | none => cases h
  | some r =>
    cases h
    exact ⟨r, rfl, rfl⟩

theorem withdrawReceipts_withdraws {receipts : List (CommitInstance T)} {m : DigestMap T}
    {reason : T.Reason} {digest : T.AccountId} {variant : T.Position} {info : DigestInfo T}
    {balance balance' : LazyBalance T} {d d' : AssetDelta} (hi : m.get (reason, digest) = some info)
    (hb : info.getBalance variant = some balance)
    (h : withdrawReceipts receipts balance d = .ok (balance', d')) :
    ∃ t, Withdraws m (receiptsAt (location reason digest variant) receipts) t
        (m.insert (reason, digest) (info.setBalance variant balance')) ∧
      d'.withdraw = d.withdraw + t ∧
      d'.deposit = d.deposit + tally principal (receiptsAt (location reason digest variant) receipts) ∧
      (d.withdraw ≤ T.share.maxAsset → d'.withdraw ≤ T.share.maxAsset) := by
  induction receipts generalizing m info balance d with
  | nil =>
    cases h
    rw [DigestInfo.setBalance_self hb, StorageMap.insert_of_get hi]
    exact ⟨0, .nil _, rfl, rfl, fun h => h⟩
  | cons receipt receipts ih =>
    obtain ⟨value, hv, h⟩ := bind_eq_ok.mp h
    obtain ⟨r, rfl, rfl⟩ := receiptDepositValue_eq_ok hv
    obtain ⟨given, hg, h⟩ := bind_eq_ok.mp h
    rw [okOr_eq_ok, checkedAdd_eq_some] at hg
    obtain ⟨⟨take, nb⟩, hw, h⟩ := bind_eq_ok.mp h
    obtain ⟨b, r, derived, after, rfl, hr, rfl, hwd⟩ := withdraw_eq_ok (liftShare_eq_ok.mp hw)
    obtain rfl := Option.some.inj hr
    obtain ⟨total, ht, h⟩ := bind_eq_ok.mp h
    rw [okOr_eq_ok, checkedAdd_eq_some] at ht
    have htouch := (DigestInfo.setBalance_touch hb (some after)).touch hi
    obtain ⟨t, hws, hwt, hdt, hmax⟩ := ih (StorageMap.get_insert_self m _ _)
      (DigestInfo.getBalance_setBalance hb (some after)) h
    rw [StorageMap.insert_insert, DigestInfo.setBalance_setBalance] at hws
    refine ⟨take + t, .cons htouch hwd hws, ?_, ?_, fun _ => hmax (ht.1.le.trans ht.2)⟩
    · dsimp only at hwt
      omega
    · dsimp only at hdt
      rw [receiptsAt_some, tally_cons, principal]
      omega

theorem withdrawFromDigest_spec {s s' : State T} {who : T.AccountId} {reason : T.Reason}
    {digest : T.AccountId} {d : AssetDelta} (h : withdrawFromDigest s who reason digest = .ok (s', d)) :
    ∃ commit m, s.commitMap.get (who, reason) = some commit ∧ s' = { s with digestMap := m } ∧
      Withdraws s.digestMap
        (receiptsAt (location reason digest commit.variant) commit.commits.receipts) d.withdraw m ∧
      d.deposit = tally principal
        (receiptsAt (location reason digest commit.variant) commit.commits.receipts) ∧
      d.withdraw ≤ T.share.maxAsset := by
  obtain ⟨variant, hv, h⟩ := bind_eq_ok.mp h
  obtain ⟨info, hi, h⟩ := bind_eq_ok.mp h
  rw [okOr_eq_ok] at hi
  obtain ⟨balance, hb, h⟩ := bind_eq_ok.mp h
  rw [okOr_eq_ok] at hb
  obtain ⟨commit, hc, h⟩ := bind_eq_ok.mp h
  obtain ⟨commit', hc', hvar⟩ := bind_eq_ok.mp hv
  obtain rfl := pure_eq_ok.mp hvar
  obtain rfl : commit' = commit := Except.ok.inj (hc'.symm.trans hc)
  rw [getCommit, okOr_eq_ok] at hc
  obtain ⟨⟨nb, d'⟩, hw, h⟩ := bind_eq_ok.mp h
  simp only [pure_eq_ok, Prod.mk.injEq] at h
  obtain ⟨rfl, rfl⟩ := h
  obtain ⟨t, hws, hwt, hdt, hmax⟩ := withdrawReceipts_withdraws hi hb hw
  rw [Nat.zero_add] at hwt hdt
  exact ⟨commit', _, hc, rfl, hwt ▸ hws, hdt, hmax (Nat.zero_le _)⟩

theorem withdrawEntryReceipts_spec {reason : T.Reason} {digest : T.AccountId} {variant : T.Position}
    {receipts : List (CommitInstance T)} {m m' : DigestMap T} {d d' : AssetDelta}
    (h : withdrawEntryReceipts reason digest variant receipts m d = .ok (m', d')) :
    ∃ t, Withdraws m (receiptsAt (location reason digest variant) receipts) t m' ∧
      d'.withdraw = d.withdraw + t ∧
      d'.deposit = d.deposit + tally principal (receiptsAt (location reason digest variant) receipts) ∧
      (d.withdraw ≤ T.share.maxAsset → d'.withdraw ≤ T.share.maxAsset) := by
  induction receipts generalizing m d with
  | nil =>
    cases h
    exact ⟨0, .nil _, rfl, rfl, fun h => h⟩
  | cons receipt receipts ih =>
    obtain ⟨value, hv, h⟩ := bind_eq_ok.mp h
    obtain ⟨r, rfl, rfl⟩ := receiptDepositValue_eq_ok hv
    obtain ⟨given, hg, h⟩ := bind_eq_ok.mp h
    rw [okOr_eq_ok, checkedAdd_eq_some] at hg
    obtain ⟨info, hi, h⟩ := bind_eq_ok.mp h
    rw [okOr_eq_ok] at hi
    obtain ⟨⟨info', take⟩, hw, h⟩ := bind_eq_ok.mp h
    obtain ⟨b, r', derived, after, hat, hr, hwd, hit⟩ := DigestInfo.withdraw_spec hw
    obtain rfl := Option.some.inj hr
    obtain ⟨total, ht, h⟩ := bind_eq_ok.mp h
    rw [okOr_eq_ok, checkedAdd_eq_some] at ht
    obtain ⟨t, hws, hwt, hdt, hmax⟩ := ih h
    refine ⟨take + t, .cons (hit.touch hi) hwd hws, ?_, ?_, fun _ => hmax (ht.1.le.trans ht.2)⟩
    · dsimp only at hwt
      omega
    · dsimp only at hdt
      rw [receiptsAt_some, tally_cons, principal]
      omega

theorem withdrawEntries_spec {who : T.AccountId} {reason : T.Reason} {indexOf : T.AccountId}
    {entries : List (EntryInfo T)} {s s' : State T} {d d' : AssetDelta}
    (h : withdrawEntries who reason indexOf entries s d = .ok (s', d')) :
    ∃ m e claims t, s' = { s with digestMap := m, entryMap := e } ∧
      Withdraws s.digestMap claims t m ∧ (∀ c ∈ claims, c.1.1 = reason) ∧
      d'.withdraw = d.withdraw + t ∧ d'.deposit = d.deposit + tally principal claims ∧
      (d.withdraw ≤ T.share.maxAsset → d'.withdraw ≤ T.share.maxAsset) ∧
      (∀ φ at_, (∀ entry ∈ entries, φ (at_ (reason, indexOf, entry.digest, who)) =
          φ (location reason entry.digest entry.variant)) →
        entryHeld φ at_ e + tally φ claims = entryHeld φ at_ s.entryMap) ∧
      ∀ k, e.get k ≠ none → s.entryMap.get k ≠ none := by
  induction entries generalizing s d with
  | nil =>
    cases h
    exact ⟨_, _, [], 0, rfl, .nil _, by simp, rfl, rfl, fun h => h, by simp, fun k hk => hk⟩
  | cons entry entries ih =>
    obtain ⟨commits, hc, h⟩ := bind_eq_ok.mp h
    rw [okOr_eq_ok] at hc
    obtain ⟨⟨m1, d1⟩, h1, h⟩ := bind_eq_ok.mp h
    obtain ⟨t1, hw1, hwt1, hdt1, hmax1⟩ := withdrawEntryReceipts_spec h1
    obtain ⟨m, e, claims, t, rfl, hw, hr, hwt, hdt, hmax, he, hk⟩ := ih h
    dsimp only at hw he hk
    refine ⟨m, e, _, t1 + t, rfl, hw1.append hw, ?_, ?_, ?_, fun hd => hmax (hmax1 hd), ?_, ?_⟩
    · intro c hm
      rcases List.mem_append.mp hm with hm | hm
      · rw [reason_of_mem_receiptsAt hm]
        rfl
      · exact hr c hm
    · omega
    · rw [tally_append]
      omega
    · intro φ at_ hat
      have hs := StorageMap.sum_remove
        (fun key (commits : Commits T) => tally φ (receiptsAt (at_ key) commits.receipts)) s.entryMap
        (reason, indexOf, entry.digest, who)
      have hev := he φ at_ fun entry hm => hat entry (List.mem_cons_of_mem _ hm)
      have hφ := tally_receiptsAt_congr (hat entry (List.mem_cons_self ..)) commits.receipts
      rw [hc, Option.elim_some, hφ] at hs
      unfold entryHeld at hev ⊢
      rw [tally_append]
      omega
    · intro k hk'
      have := hk k hk'
      rw [StorageMap.get_remove] at this
      split at this
      · exact absurd rfl this
      · exact this

theorem withdrawFromIndex_spec {s s' : State T} {who : T.AccountId} {reason : T.Reason}
    {indexOf : T.AccountId} {d : AssetDelta}
    (h : withdrawFromIndex s who reason indexOf = .ok (s', d)) :
    ∃ info m e claims, s.indexMap.get (reason, indexOf) = some info ∧ d.deposit ≤ info.principal ∧
      s' = { s with
        digestMap := m
        entryMap := e
        indexMap :=
          s.indexMap.insert (reason, indexOf) (info.setBalance (info.principal - d.deposit)) } ∧
      Withdraws s.digestMap claims d.withdraw m ∧ (∀ c ∈ claims, c.1.1 = reason) ∧
      d.deposit = tally principal claims ∧ d.withdraw ≤ T.share.maxAsset ∧
      (∀ φ at_, (∀ entry ∈ info.entries.list, φ (at_ (reason, indexOf, entry.digest, who)) =
          φ (location reason entry.digest entry.variant)) →
        entryHeld φ at_ e + tally φ claims = entryHeld φ at_ s.entryMap) ∧
      ∀ k, e.get k ≠ none → s.entryMap.get k ≠ none := by
  obtain ⟨info, hi, h⟩ := bind_eq_ok.mp h
  rw [getIndex, okOr_eq_ok] at hi
  obtain ⟨⟨s1, d1⟩, h1, h⟩ := bind_eq_ok.mp h
  obtain ⟨m, e, claims, t, rfl, hw, hr, hwt, hdt, hmax, he, hk⟩ := withdrawEntries_spec h1
  obtain ⟨left, hl, h⟩ := bind_eq_ok.mp h
  rw [okOr_eq_ok, checkedSub_eq_some] at hl
  simp only [pure_eq_ok, Prod.mk.injEq] at h
  obtain ⟨rfl, rfl⟩ := h
  rw [Nat.zero_add] at hwt hdt
  refine ⟨info, m, e, claims, hi, hl.1, ?_, hwt ▸ hw, hr, hdt, hmax (Nat.zero_le _), he, hk⟩
  rw [hl.2, Nat.add_sub_cancel]

end FrameSuite
