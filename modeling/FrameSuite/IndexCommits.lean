import FrameSuite.RecordedRuns
import FrameSuite.Totals
import FrameSuite.WholeWithdrawals

/-! Commits on indexes over runs that never set a value of the digests of the entries. They can be valued
and resolved for the amount recorded exactly where every entry was given a part. -/

namespace FrameSuite

open ShareBalance

variable {T : Config}

section Entries

variable {s : State T} {m : Records T} {who : T.AccountId} {reason : T.Reason} {indexOf : T.AccountId}
  {index : IndexInfo T} {entry : EntryInfo T}

/-- What the proprietor deposited on the entry. -/
def depositedOn (s : State T) (who : T.AccountId) (reason : T.Reason) (indexOf : T.AccountId)
    (entry : EntryInfo T) : Nat :=
  (s.entryMap.get (reason, indexOf, entry.digest, who)).elim 0 fun commits => depositValue commits.receipts

/-- The shares of all receipts. -/
def Commits.shares (commits : Commits T) : Nat :=
  (commits.receipts.map fun receipt => receipt.elim 0 fun r => r.shares).sum

/-- The proprietor has a commit on the entry, and if all shares of its digest are in it, they are
worth as many units as they are. -/
def EntrySettles (s : State T) (who : T.AccountId) (reason : T.Reason) (indexOf : T.AccountId)
    (entry : EntryInfo T) : Prop :=
  ∃ commits, s.entryMap.get (reason, indexOf, entry.digest, who) = some commits ∧
    (commits.shares = issuedAt s.digestMap (location reason entry.digest entry.variant) →
      totalValue (balanceAt s.digestMap (location reason entry.digest entry.variant)) = commits.shares)

theorem depositValue_whole {rs : List (Receipt T.share)} (h : ∀ r ∈ rs, WholeReceipt r) :
    depositValue (rs.map some) = outstandingShares rs := by
  induction rs with
  | nil => rfl
  | cons r rs ih =>
    rw [List.map_cons, depositValue_cons, outstandingShares_cons, ih fun t ht => h t (List.mem_cons_of_mem _ ht),
      Option.elim_some, (h r (List.mem_cons_self ..)).shares]

theorem Commits.shares_eq {commits : Commits T} {rs : List (Receipt T.share)} (h : commits.receipts = rs.map some) :
    commits.shares = outstandingShares rs := by
  rw [Commits.shares, h, List.map_map]
  rfl

theorem getBalance_of_balanceAt {m : DigestMap T} {digest : T.AccountId} {variant : T.Position}
    {b : Balance T.share} (h : balanceAt m (location reason digest variant) = some b) :
    ∃ info, m.get (reason, digest) = some info ∧ info.getBalance variant = some (some b) := by
  obtain hnone | ⟨info, hi⟩ := (m.get (reason, digest)).eq_none_or_eq_some
  · simp [balanceAt, location, hnone] at h
  · refine ⟨info, hi, ?_⟩
    simp only [balanceAt, location, hi, DigestInfo.at] at h
    obtain hnone | ⟨x, hx⟩ := (info.balances[T.positionIndex variant]?).eq_none_or_eq_some
    · simp [hnone] at h
    · rw [hx, Option.getD_some] at h
      exact hx.trans (congrArg some h)

theorem Custody.entry_ready {p : Prop} (hs : Custody p s) (hw : Whole (location reason entry.digest entry.variant) s)
    (hi : s.indexMap.get (reason, indexOf) = some index) (he : entry ∈ index.entries.list)
    {commits : Commits T} (hc : s.entryMap.get (reason, indexOf, entry.digest, who) = some commits) :
    ∃ rs b, EntryReady s who reason indexOf entry rs b ∧ commits.receipts = rs.map some ∧
      balanceAt s.digestMap (location reason entry.digest entry.variant) = some b := by
  have hloc : entryLocation s.indexMap (reason, indexOf, entry.digest, who) =
      location reason entry.digest entry.variant := entryLocation_of_mem hi he
  have hwhole := hw.entries _ commits hc hloc
  obtain ⟨rs, hrs⟩ := exists_eq_map_some fun x hx => (hwhole x hx).imp fun _ h => h.1
  have hall : ∀ r ∈ rs, WholeReceipt r := by
    intro r hr
    obtain ⟨r', heq, h⟩ := hwhole (some r) (hrs ▸ List.mem_map_of_mem hr)
    exact Option.some.inj heq ▸ h
  have hheld : outstandingShares rs ≤ issuedAt s.digestMap (location reason entry.digest entry.variant) := by
    have hle := StorageMap.le_sum (f := fun key (commits : Commits T) =>
      tally (sharesAt (location reason entry.digest entry.variant))
        (receiptsAt (entryLocation s.indexMap key) commits.receipts)) hc
    have hcust := hs.digests (location reason entry.digest entry.variant)
    rw [hloc, hrs, tally_receiptsAt_map, sharesAt_self] at hle
    unfold positioned entryHeld at hcust
    unfold outstandingShares
    omega
  have hpos : outstandingShares rs ≠ 0 := by
    obtain ⟨x, hx⟩ := List.exists_mem_of_ne_nil _ commits.nonempty
    rw [hrs] at hx
    obtain ⟨r, hr, -⟩ := List.mem_map.mp hx
    have h1 := (hall r hr).shares_ne
    have h2 := le_outstandingShares hr
    omega
  obtain hnone | ⟨b, hb⟩ := (balanceAt s.digestMap (location reason entry.digest entry.variant)).eq_none_or_eq_some
  · rw [issuedAt, hnone] at hheld
    exact absurd (Nat.le_zero.mp hheld) hpos
  · refine ⟨rs, b, ⟨⟨commits, hc, hrs⟩, getBalance_of_balanceAt hb, hw.par b hb, hs.sound.digests _ b hb, hall, ?_⟩,
      hrs, hb⟩
    rwa [issuedAt, hb] at hheld

theorem Accounts.recorded_eq {p : Prop} {amount : Nat} {model : DigestVariant T} {info : CommitInfo T}
    (ha : Accounts s m) (hs : Custody p s) (hm : m.get (who, reason) = some (model, amount))
    (hc : s.commitMap.get (who, reason) = some info) (hi : s.indexMap.get (reason, info.digest) = some index) :
    amount = (index.entries.list.map (depositedOn s who reason info.digest)).sum ∧
      amount ≤ min index.principal T.share.maxAsset := by
  obtain ⟨info', hc', rfl, -⟩ := ha.amounts _ _ _ hm
  obtain rfl := Option.some.inj (hc.symm.trans hc')
  have hzero : depositValue info.commits.receipts = 0 := by
    refine List.sum_eq_zero fun v hv => ?_
    obtain ⟨x, hx, rfl⟩ := List.mem_map.mp hv
    rw [ha.defaults _ info hc (by simp [hi]) x hx]
    rfl
  have hkey : ∀ key : EntryKey T, s.entryMap.get key ≠ none → ownedBy (who, reason) key ≠ 0 →
      (key.1, key.2.1) = (reason, info.digest) ∧
        key ∈ index.entries.list.map fun entry => (reason, info.digest, entry.digest, who) := by
    intro key hk hown
    have he : (key.2.2.2, key.1) = (who, reason) := by
      by_contra hne
      exact hown (if_neg hne)
    obtain ⟨i, hi', hdig⟩ := ha.owners key hk
    obtain ⟨idx, entry, hidx, hentry, hed⟩ := hs.entries key hk
    obtain ⟨r, indexOf, e, w⟩ := key
    obtain ⟨rfl, rfl⟩ := Prod.mk.inj he
    obtain rfl := Option.some.inj (hc.symm.trans hi')
    dsimp only at hdig hidx hed
    subst hdig hed
    obtain rfl := Option.some.inj (hi.symm.trans hidx)
    exact ⟨rfl, List.mem_map.mpr ⟨entry, hentry, rfl⟩⟩
  have hnd : (index.entries.list.map fun entry => (reason, info.digest, entry.digest, who)).Nodup := by
    refine List.Nodup.of_map (fun key : EntryKey T => key.2.2.1) ?_
    rw [List.map_map]
    exact index.entries.nodup
  rw [hzero, Nat.zero_add]
  constructor
  · unfold entryOwed
    rw [StorageMap.sum_eq_sum_list hnd fun key commits hk hne =>
      (hkey key (by simp [hk]) (Nat.ne_zero_of_mul_ne_zero_left hne)).2,
      List.map_map]
    refine congrArg List.sum (List.map_congr_left fun entry _ => ?_)
    simp [ownedBy, depositedOn]
  · refine le_trans (StorageMap.sum_le_sum fun key commits hk => ?_) (ha.limits _ index hi)
    refine Nat.mul_le_mul_right _ ?_
    by_cases hown : ownedBy (who, reason) key = 0
    · rw [hown]
      exact Nat.zero_le _
    · rw [underIndex, if_pos (hkey key (by simp [hk]) hown).1, ownedBy]
      split <;> omega

/-- What a withdrawal takes from an entry. -/
def takenOn (s : State T) (who : T.AccountId) (reason : T.Reason) (indexOf : T.AccountId)
    (entry : EntryInfo T) : Nat :=
  (balanceAt s.digestMap (location reason entry.digest entry.variant)).elim 0 fun b =>
    takenWith b (depositedOn s who reason indexOf entry)

/-- The entries of an index on which the proprietor has commits. -/
structure EntryHeld (s : State T) (who : T.AccountId) (reason : T.Reason) (indexOf : T.AccountId)
    (entry : EntryInfo T) (commits : Commits T) (rs : List (Receipt T.share)) (b : Balance T.share) : Prop where
  ready : EntryReady s who reason indexOf entry rs b
  found : s.entryMap.get (reason, indexOf, entry.digest, who) = some commits
  balance : balanceAt s.digestMap (location reason entry.digest entry.variant) = some b
  shares : commits.shares = outstandingShares rs
  deposited : depositedOn s who reason indexOf entry = outstandingShares rs
  taken : takenOn s who reason indexOf entry = takenWith b (outstandingShares rs)

theorem Custody.entry_held {p : Prop} (hs : Custody p s) (hw : Whole (location reason entry.digest entry.variant) s)
    (hi : s.indexMap.get (reason, indexOf) = some index) (he : entry ∈ index.entries.list)
    {commits : Commits T} (hc : s.entryMap.get (reason, indexOf, entry.digest, who) = some commits) :
    ∃ rs b, EntryHeld s who reason indexOf entry commits rs b := by
  obtain ⟨rs, b, hready, hrs, hb⟩ := hs.entry_ready hw hi he hc
  have hown : depositedOn s who reason indexOf entry = outstandingShares rs := by
    rw [depositedOn, hc, Option.elim_some, hrs, depositValue_whole hready.whole]
  exact ⟨rs, b, hready, hc, hb, Commits.shares_eq hrs, hown, by rw [takenOn, hb, Option.elim_some, hown]⟩

theorem EntryHeld.settles_iff {commits : Commits T} {rs : List (Receipt T.share)} {b : Balance T.share}
    (h : EntryHeld s who reason indexOf entry commits rs b) : EntrySettles s who reason indexOf entry ↔
      takenOn s who reason indexOf entry = depositedOn s who reason indexOf entry := by
  have hfound := h.found
  have hb := h.balance
  rw [h.taken, h.deposited, takenWith]
  constructor
  · rintro ⟨commits', hc, heven⟩
    obtain rfl := Option.some.inj (hfound.symm.trans hc)
    rw [issuedAt, hb, issuedShares_some, totalValue_some, h.shares] at heven
    split
    · exact heven ‹_›
    · rfl
  · intro heq
    refine ⟨commits, hfound, fun hall => ?_⟩
    rw [issuedAt, hb, issuedShares_some, h.shares] at hall
    rw [hb, totalValue_some, h.shares]
    rwa [if_pos hall] at heq

end Entries

section Resolving

variable {s s' : State T} {m : Records T} {who : T.AccountId} {reason : T.Reason} {amount : Nat} {p : Prop}
  {info : CommitInfo T} {index : IndexInfo T}

/-- The commit can be resolved, valued, and is resolved for the amount. -/
structure Resolves (s : State T) (who : T.AccountId) (reason : T.Reason) (amount : Nat) : Prop where
  can : canResolveCommit s who reason = .ok ()
  value : ∃ v, getCommitValue s who reason = .ok v
  resolved : ∃ s', resolveCommit s who reason = .ok (s', amount)

theorem finalizeResolveCommit_even {v : Nat} (hv : v ≤ getTotalValue s reason)
    (hp : ∃ l l', T.asset.thaw s.ledger reason who = .ok l ∧ T.asset.increaseBalance l who v = .ok l') :
    ∃ s', finalizeResolveCommit s who reason ⟨v, v⟩ = .ok (s', v) := by
  obtain ⟨l, l', ht, hl⟩ := hp
  have hsub : checkedSub (getTotalValue s reason) v = some (getTotalValue s reason - v) := by simp [checkedSub, hv]
  have hsame (cm : CommitMap T) : getTotalValue { s with ledger := l', commitMap := cm } reason =
    getTotalValue s reason := rfl
  simp [finalizeResolveCommit, State.onLedger, ht, resolveImbalance, State.increaseBalance, hl,
    subFromTotalValue, hsame,
    hsub, okOr, bind, Except.bind, pure, Except.pure]

theorem Totalled.withdrawn_le (ht : Totalled s) {indexOf : T.AccountId} {d : AssetDelta}
    (h : withdrawFromIndex s who reason indexOf = .ok (s', d)) : d.withdraw ≤ getTotalValue s reason := by
  obtain ⟨info, m, e, claims, -, -, -, hw, hr, -⟩ := withdrawFromIndex_spec h
  have hlive := hw.live ht.sound.digests hr (weightOf reason)
  rw [← totalReasons_weightOf, ht.totals, ← hlive, weightOf, if_pos rfl]
  omega

theorem withdrawEntries_present {indexOf : T.AccountId} {entries : List (EntryInfo T)} {d d' : AssetDelta}
    (h : withdrawEntries who reason indexOf entries s d = .ok (s', d')) :
    ∀ entry ∈ entries, ∃ commits, s.entryMap.get (reason, indexOf, entry.digest, who) = some commits := by
  induction entries generalizing s d with
  | nil => simp
  | cons e entries ih =>
    obtain ⟨commits, hc, h⟩ := bind_eq_ok.mp h
    rw [okOr_eq_ok] at hc
    obtain ⟨⟨m1, d1⟩, -, h⟩ := bind_eq_ok.mp h
    intro entry he
    rcases List.mem_cons.mp he with rfl | he
    · exact ⟨commits, hc⟩
    · obtain ⟨c, hg⟩ := ih h entry he
      dsimp only at hg
      rw [StorageMap.get_remove] at hg
      split at hg
      · cases hg
      · exact ⟨c, hg⟩

theorem index_resolves (hs : Custody p s) (ht : Totalled s) (ha : Accounts s m) {model : DigestVariant T}
    (hm : m.get (who, reason) = some (model, amount)) (hc : s.commitMap.get (who, reason) = some info)
    (hi : s.indexMap.get (reason, info.digest) = some index)
    (hw : ∀ entry ∈ index.entries.list, Whole (location reason entry.digest entry.variant) s)
    (hp : ∃ l l', T.asset.thaw s.ledger reason who = .ok l ∧ T.asset.increaseBalance l who amount = .ok l')
    (h : ∀ entry ∈ index.entries.list, EntrySettles s who reason info.digest entry) :
    Resolves s who reason amount := by
  obtain ⟨hsum, hmax⟩ := ha.recorded_eq hs hm hc hi
  have hheld : ∀ entry ∈ index.entries.list, ∃ commits rs b, EntryHeld s who reason info.digest entry commits rs b := by
    intro entry he
    obtain ⟨commits, hcom, -⟩ := h entry he
    obtain ⟨rs, b, hh⟩ := hs.entry_held (hw entry he) hi he hcom
    exact ⟨commits, rs, b, hh⟩
  have htaken : index.entries.list.map (takenOn s who reason info.digest) =
      index.entries.list.map (depositedOn s who reason info.digest) := by
    refine List.map_congr_left fun entry he => ?_
    obtain ⟨commits, rs, b, hh⟩ := hheld entry he
    exact hh.settles_iff.mp (h entry he)
  have hdet : determineDigest s info.digest reason = .ok (.index info.digest) :=
    hs.determineDigest_index (StorageMap.containsKey_iff.mpr ⟨index, hi⟩)
  have hdigest : getCommitDigest s who reason = .ok info.digest := by
    simp [getCommitDigest, getCommit, hc, okOr, bind, Except.bind, pure, Except.pure]
  have hget : getIndex s reason info.digest = .ok index := by simp [getIndex, hi, okOr]
  refine ⟨?_, ⟨amount, ?_⟩, ?_⟩
  · have hcan := canResolveEntries_whole fun entry he => by
      obtain ⟨commits, rs, b, hh⟩ := hheld entry he
      exact ⟨rs, b, hh.ready⟩
    simp [canResolveCommit, hdigest, hdet, hget, hcan, bind, Except.bind]
  · have hvalue : entryCommitValues s who reason info.digest index.entries.list 0 =
        .ok (0 + (index.entries.list.map (depositedOn s who reason info.digest)).sum) := by
      refine entryCommitValues_whole (fun entry he => ?_) (by omega)
      obtain ⟨commits, rs, b, hh⟩ := hheld entry he
      have heven := hh.settles_iff.mp (h entry he)
      rw [hh.taken, hh.deposited, takenWith] at heven
      exact ⟨rs, b, hh.ready, hh.deposited, fun hall => by rw [if_pos hall] at heven; omega⟩
    rw [Nat.zero_add, ← hsum] at hvalue
    simp [getCommitValue, hdigest, hdet, commitValueOf, indexCommitValue, hget, hvalue, bind, Except.bind]
  · obtain ⟨s₁, hs₁⟩ := withdrawEntries_whole index.entries.nodup fun entry he => by
      obtain ⟨commits, rs, b, hh⟩ := hheld entry he
      exact ⟨rs, b, hh.ready, hh.deposited, hh.taken⟩
    rw [htaken, ← hsum] at hs₁
    have hwd := (hs₁ ⟨0, 0⟩ (s₁, ⟨amount, amount⟩) (Nat.zero_le _) (Nat.zero_le _)).mpr
      ⟨by simp, by dsimp only; omega, by dsimp only; omega⟩
    obtain ⟨m₁, e₁, claims, t, rfl, -⟩ := withdrawEntries_spec hwd
    have hsub : checkedSub index.principal amount = some (index.principal - amount) := by
      simp [checkedSub, show amount ≤ index.principal by omega]
    obtain ⟨s₂, hs₂, hindex⟩ : ∃ s₂, (s₂.ledger = s.ledger ∧ s₂.reasonValue = s.reasonValue) ∧
        withdrawFromIndex s who reason info.digest = .ok (s₂, ⟨amount, amount⟩) := by
      refine ⟨{ s with
        digestMap := m₁
        entryMap := e₁
        indexMap := s.indexMap.insert (reason, info.digest) (index.setBalance (index.principal - amount)) },
        ⟨rfl, rfl⟩, ?_⟩
      simp [withdrawFromIndex, hget, hwd, hsub, okOr, bind, Except.bind, pure, Except.pure]
    have htotal : getTotalValue s₂ reason = getTotalValue s reason := by rw [getTotalValue, hs₂.2, getTotalValue]
    have hle : amount ≤ getTotalValue s reason := ht.withdrawn_le hindex
    obtain ⟨s₃, hs₃⟩ := finalizeResolveCommit_even (htotal.symm ▸ hle) (hs₂.1.symm ▸ hp)
    refine ⟨s₃, ?_⟩
    simp [resolveCommit, hdigest, hdet, resolveCommitOf, getCommitVariant, getCommit, hc, withdrawFor,
      hindex, hs₃, okOr,
      bind, Except.bind, pure, Except.pure]

theorem withdrawReceipts_some {receipts : List (CommitInstance T)} {balance balance' : LazyBalance T}
    {d d' : AssetDelta} (h : withdrawReceipts receipts balance d = .ok (balance', d')) : none ∉ receipts := by
  induction receipts generalizing balance d with
  | nil => simp
  | cons receipt receipts ih =>
    obtain ⟨value, hv, h⟩ := bind_eq_ok.mp h
    obtain ⟨r, rfl, -⟩ := receiptDepositValue_eq_ok hv
    obtain ⟨given, -, h⟩ := bind_eq_ok.mp h
    obtain ⟨⟨take, nb⟩, -, h⟩ := bind_eq_ok.mp h
    obtain ⟨taken, -, h⟩ := bind_eq_ok.mp h
    simpa using ih h

theorem resolveCommit_index {resolved : Nat} (hc : s.commitMap.get (who, reason) = some info)
    (hd : none ∈ info.commits.receipts) (h : resolveCommit s who reason = .ok (s', resolved)) :
    ∃ index s₁ d, s.indexMap.get (reason, info.digest) = some index ∧
      withdrawFromIndex s who reason info.digest = .ok (s₁, d) ∧
      finalizeResolveCommit s₁ who reason d = .ok (s', resolved) := by
  obtain ⟨info', hc', -, h⟩ := resolveCommit_eq_ok h
  obtain rfl := Option.some.inj (hc.symm.trans hc')
  obtain ⟨_, -, h⟩ := bind_eq_ok.mp h
  obtain ⟨⟨s₁, d⟩, h1, h⟩ := bind_eq_ok.mp h
  have hcommit {i : CommitInfo T} (hi : getCommit s who reason = .ok i) : i = info := by
    rw [getCommit, okOr_eq_ok, hc] at hi
    exact (Option.some.inj hi).symm
  rcases digestModel_cases s info.digest reason with ⟨hmodel, -⟩ | ⟨hmodel, hk⟩ | ⟨hmodel, -⟩
  · rw [hmodel] at h1
    obtain ⟨_, -, h1⟩ := bind_eq_ok.mp h1
    obtain ⟨dinfo, -, h1⟩ := bind_eq_ok.mp h1
    obtain ⟨balance, -, h1⟩ := bind_eq_ok.mp h1
    obtain ⟨i, hi, h1⟩ := bind_eq_ok.mp h1
    obtain ⟨⟨nb, d1⟩, h2, -⟩ := bind_eq_ok.mp h1
    exact absurd (hcommit hi ▸ hd) (withdrawReceipts_some h2)
  · rw [hmodel] at h1
    obtain ⟨index, hi⟩ := StorageMap.containsKey_iff.mp hk
    exact ⟨index, s₁, d, hi, h1, h⟩
  · rw [hmodel] at h1
    obtain ⟨i, hi, h1⟩ := bind_eq_ok.mp h1
    obtain ⟨⟨s2, balance⟩, -, h1⟩ := bind_eq_ok.mp h1
    obtain ⟨⟨nb, d1⟩, h2, -⟩ := bind_eq_ok.mp h1
    exact absurd (hcommit hi ▸ hd) (withdrawReceipts_some h2)

theorem index_settles {resolved : Nat} (hs : Custody p s) (ha : Accounts s m) {model : DigestVariant T}
    (hm : m.get (who, reason) = some (model, amount)) (hc : s.commitMap.get (who, reason) = some info)
    (hd : none ∈ info.commits.receipts)
    (hw : ∀ index, s.indexMap.get (reason, info.digest) = some index → ∀ entry ∈ index.entries.list,
      Whole (location reason entry.digest entry.variant) s)
    (h : resolveCommit s who reason = .ok (s', resolved)) (heq : resolved = amount) :
    ∃ index, s.indexMap.get (reason, info.digest) = some index ∧
      ∀ entry ∈ index.entries.list, EntrySettles s who reason info.digest entry := by
  obtain ⟨index, s₁, d, hi, h1, h⟩ := resolveCommit_index hc hd h
  obtain ⟨hsum, -⟩ := ha.recorded_eq hs hm hc hi
  refine ⟨index, hi, ?_⟩
  obtain ⟨index', hi', h1⟩ := bind_eq_ok.mp h1
  rw [getIndex, okOr_eq_ok, hi] at hi'
  obtain rfl := Option.some.inj hi'
  obtain ⟨⟨s₀, d'⟩, h0, h1⟩ := bind_eq_ok.mp h1
  obtain ⟨_, -, h1⟩ := bind_eq_ok.mp h1
  simp only [pure_eq_ok, Prod.mk.injEq] at h1
  obtain ⟨-, rfl⟩ := h1
  have hheld : ∀ entry ∈ index.entries.list, ∃ commits rs b, EntryHeld s who reason info.digest entry commits rs b := by
    intro entry he
    obtain ⟨commits, hcom⟩ := withdrawEntries_present h0 entry he
    obtain ⟨rs, b, hh⟩ := hs.entry_held (hw index hi entry he) hi he hcom
    exact ⟨commits, rs, b, hh⟩
  obtain ⟨s₂, hs₂⟩ := withdrawEntries_whole index.entries.nodup fun entry he => by
    obtain ⟨commits, rs, b, hh⟩ := hheld entry he
    exact ⟨rs, b, hh.ready, hh.deposited, hh.taken⟩
  obtain ⟨hout, -, hmax⟩ := (hs₂ ⟨0, 0⟩ _ (Nat.zero_le _) (Nat.zero_le _)).mp h0
  obtain ⟨-, rfl⟩ := Prod.mk.inj hout
  obtain ⟨hres, -⟩ := finalizeResolveCommit_spec hmax h
  have hge : ∀ entry ∈ index.entries.list,
      depositedOn s who reason info.digest entry ≤ takenOn s who reason info.digest entry := by
    intro entry he
    obtain ⟨commits, rs, b, hh⟩ := hheld entry he
    rw [hh.deposited, hh.taken]
    exact le_takenWith hh.ready.solvent hh.ready.par _
  have htotal : (index.entries.list.map (takenOn s who reason info.digest)).sum =
      (index.entries.list.map (depositedOn s who reason info.digest)).sum := by
    dsimp only at hres
    omega
  intro entry he
  obtain ⟨commits, rs, b, hh⟩ := hheld entry he
  refine hh.settles_iff.mpr (le_antisymm ?_ (hge entry he))
  by_contra hlt
  have := List.sum_lt_sum _ _ hge ⟨entry, he, not_le.mp hlt⟩
  omega

/-- Along runs that never adjust the values of the entries, a commit on an index can be valued and
resolved for what it was recorded with if and only if the index still has its digest, every entry
got a part, and no gain is left to whoever holds all shares of an entry. -/
theorem index_commit_resolves {ledger : T.Ledger} {calls : List (Call T)}
    (hf : RunMeets Recorded.apply (fun t call => call.fresh t.state) (Recorded.genesis ledger) calls)
    {indexOf : T.AccountId}
    (hm : (Recorded.after ledger calls).records.get (who, reason) = some (.index indexOf, amount))
    (hv : ∀ index, (State.after ledger calls).indexMap.get (reason, indexOf) = some index →
      ∀ entry ∈ index.entries.list, RunMeets Recorded.apply
        (fun t call => call.leaves (location reason entry.digest entry.variant) t.state)
        (Recorded.genesis ledger) calls)
    (hp : ∃ l l', T.asset.thaw (State.after ledger calls).ledger reason who = .ok l ∧
      T.asset.increaseBalance l who amount = .ok l') :
    Resolves (State.after ledger calls) who reason amount ↔
      ∃ index, (State.after ledger calls).indexMap.get (reason, indexOf) = some index ∧
        ∀ entry ∈ index.entries.list, EntrySettles (State.after ledger calls) who reason indexOf entry := by
  have hstate := Recorded.state_after ledger calls
  have haudit := Audited.after hf
  have ht : Totalled (State.after ledger calls) := Reachable.totalled ⟨ledger, calls, rfl⟩
  obtain ⟨hs, ha⟩ := haudit
  rw [hstate] at hs ha
  obtain ⟨info, hc, -, hmodel⟩ := ha.amounts _ _ _ hm
  obtain ⟨rfl, hd⟩ := hmodel indexOf rfl
  have hw (index : IndexInfo T) (hi : (State.after ledger calls).indexMap.get (reason, info.digest) = some index)
      (entry : EntryInfo T) (he : entry ∈ index.entries.list) :
      Whole (location reason entry.digest entry.variant) (State.after ledger calls) :=
    hstate ▸ Whole.after hf (hv index hi entry he)
  constructor
  · rintro ⟨-, -, s', hres⟩
    exact index_settles hs ha hm hc hd hw hres rfl
  · rintro ⟨index, hi, hsettles⟩
    exact index_resolves hs ht ha hm hc hi (hw index hi) hp hsettles

def raisedIndex : List (Call runtimeConfig) :=
  heldIndex ++ [.raiseCommit (T := runtimeConfig) 4 0 7 exactForce]

theorem index_commit_resolves_raised :
    ∃ s', resolveCommit (State.after fundedLedger raisedIndex) (4 : Nat) (0 : Nat) = .ok (s', 12) := by
  refine ((@index_commit_resolves runtimeConfig (4 : Nat) (0 : Nat) 12 fundedLedger raisedIndex ?_ (20 : Nat) rfl ?_
    ⟨_, _, rfl, rfl⟩).mpr ⟨{ thirdsIndex with principal := 12 }, rfl, ?_⟩).resolved
  · exact ⟨fun _ _ => trivial, fun _ _ => trivial, fun _ _ => trivial,
      fun _ _ => not_known_iff.mpr ⟨rfl, rfl, rfl⟩, fun _ _ => not_known_iff.mpr ⟨rfl, rfl, rfl⟩,
      fun _ _ => trivial, fun _ _ => trivial, trivial⟩
  · intro _ _ _ _
    exact ⟨fun _ _ => trivial, fun _ _ => trivial, fun _ _ => trivial, fun _ _ => trivial, fun _ _ => trivial,
      fun _ _ => trivial, fun _ _ => trivial, trivial⟩
  · intro entry he
    obtain rfl | rfl | rfl : entry = unitEntry 11 ∨ entry = unitEntry 12 ∨ entry = unitEntry 13 := by
      simpa [thirdsIndex] using he
    · exact ⟨_, rfl, fun hall => absurd hall (by decide +kernel)⟩
    · exact ⟨_, rfl, fun hall => absurd hall (by decide +kernel)⟩
    · exact ⟨_, rfl, fun hall => absurd hall (by decide +kernel)⟩

/-- One share of a thousand beside the others. -/
def unevenIndex : IndexInfo runtimeConfig :=
  { principal := 0
    capital := 1000
    entries :=
      { list := [unitEntry 11, { unitEntry 12 with shares := 999, shares_ne := by decide }]
        nonempty := List.cons_ne_nil _ _
        nodup := by decide }
    capital_eq := rfl }

/-- Of ten units the entry with one share gets none. -/
def skippedEntry : List (Call runtimeConfig) :=
  [place 1 11 5, place 2 12 5, .setIndex (T := runtimeConfig) 0 unevenIndex 20, place 4 20 10]

theorem skipped_entry_locks_in :
    ¬∀ (ledger : TokenLedger) (calls : List (Call runtimeConfig)),
      RunMeets Recorded.apply (fun t call => call.fresh t.state) (Recorded.genesis (T := runtimeConfig) ledger)
        calls →
      ∀ who reason indexOf amount : Nat,
        (Recorded.after (T := runtimeConfig) ledger calls).records.get (who, reason) = some (.index indexOf, amount) →
        (∀ index, (State.after (T := runtimeConfig) ledger calls).indexMap.get (reason, indexOf) = some index →
          ∀ entry ∈ index.entries.list, RunMeets Recorded.apply
            (fun t call => call.leaves (location reason entry.digest entry.variant) t.state)
            (Recorded.genesis (T := runtimeConfig) ledger) calls) →
        (∃ l l', runtimeConfig.asset.thaw (State.after (T := runtimeConfig) ledger calls).ledger reason who = .ok l ∧
          runtimeConfig.asset.increaseBalance l who amount = .ok l') →
        Resolves (State.after (T := runtimeConfig) ledger calls) who reason amount := by
  intro h
  have hfresh : RunMeets Recorded.apply (fun t call => call.fresh t.state)
      (Recorded.genesis (T := runtimeConfig) fundedLedger) skippedEntry :=
    ⟨fun _ _ => trivial, fun _ _ => trivial, fun _ _ => not_known_iff.mpr ⟨rfl, rfl, rfl⟩,
      fun _ _ => trivial, trivial⟩
  obtain ⟨-, -, s', hs'⟩ := h fundedLedger skippedEntry hfresh 4 0 20 9 rfl
    (fun _ _ _ _ => ⟨fun _ _ => trivial, fun _ _ => trivial, fun _ _ => trivial, fun _ _ => trivial, trivial⟩)
    ⟨_, _, rfl, rfl⟩
  have he : resolveCommit (State.after fundedLedger skippedEntry) (4 : Nat) (0 : Nat) =
      .error .commitNotFoundForEntry := rfl
  cases he.symm.trans hs'

end Resolving

end FrameSuite
