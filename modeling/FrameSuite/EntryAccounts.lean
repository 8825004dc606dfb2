import FrameSuite.Trades

/-! What deposits to an index and withdrawals from it write to the entries: whose commits change, by
how much, and at which price the receipts were bought. -/

namespace FrameSuite

open ShareBalance

variable {T : Config}

section Weights

/-- The deposits of the entry commits, each key weighted. -/
def entryOwed (w : EntryKey T → Nat) (m : EntryMap T) : Nat :=
  m.sum fun key commits => w key * depositValue commits.receipts

theorem entryOwed_eq_zero {w : EntryKey T → Nat} {m : EntryMap T} (h : ∀ key, m.get key ≠ none → w key = 0) :
    entryOwed w m = 0 := by
  refine Finset.sum_eq_zero fun key _ => ?_
  obtain hg | ⟨commits, hg⟩ := (m.get key).eq_none_or_eq_some
  · rw [hg]
    rfl
  · have hz := h key (by simp [hg])
    show (m.get key).elim 0 (fun commits => w key * depositValue commits.receipts) = 0
    rw [hg, Option.elim_some, hz, Nat.zero_mul]

theorem addEntryCommit_entries {s s' : State T} {key : EntryKey T} {receipt : CommitInstance T}
    (h : addEntryCommit s key receipt = .ok s') :
    ∃ commits, s' = { s with entryMap := s.entryMap.insert key commits } ∧
      commits.receipts = ((s.entryMap.get key).elim [] Commits.receipts) ++ [receipt] := by
  obtain ⟨commits, hc, h⟩ := bind_eq_ok.mp h
  exact ⟨commits, (pure_eq_ok.mp h).symm, Commits.extend_receipts hc⟩

theorem entryOwed_extend (w : EntryKey T → Nat) {m : EntryMap T} {key : EntryKey T} {commits : Commits T}
    {r : Receipt T.share} (h : commits.receipts = ((m.get key).elim [] Commits.receipts) ++ [some r]) :
    entryOwed w (m.insert key commits) = entryOwed w m + w key * r.principal := by
  have hs := StorageMap.sum_insert (fun key (commits : Commits T) => w key * depositValue commits.receipts) m key commits
  unfold entryOwed
  rw [h, depositValue_append, depositValue_cons, depositValue_nil, Nat.mul_add, Option.elim_some, Nat.add_zero] at hs
  cases hg : m.get key with
  | none =>
    rw [hg] at hs
    simp only [Option.elim_none, depositValue_nil] at hs
    omega
  | some old =>
    rw [hg] at hs
    simp only [Option.elim_some] at hs
    omega

end Weights

section Deposits

variable {who : T.AccountId} {reason : T.Reason} {indexOf : T.AccountId} {entries : List (EntryInfo T)}
  {s s' : State T}

theorem depositToEntries_owed {w : EntryKey T → Nat} {c value capital actual actual' : Nat}
    (hw : ∀ entry ∈ entries, w (reason, indexOf, entry.digest, who) = c)
    (h : depositToEntries who reason indexOf value capital entries s actual = .ok (s', actual')) :
    entryOwed w s'.entryMap + c * actual = entryOwed w s.entryMap + c * actual' := by
  induction entries generalizing s actual with
  | nil =>
    cases h
    rfl
  | cons entry entries ih =>
    have hrest := fun e hm => hw e (List.mem_cons_of_mem _ hm)
    obtain ⟨part, -, h⟩ := bind_eq_ok.mp h
    split at h
    · exact ih hrest h
    · obtain ⟨⟨s1, receipt, amount⟩, h1, h⟩ := bind_eq_ok.mp h
      obtain ⟨hamount, r, m1, rfl, hp, -, rfl, -⟩ := depositToDigest_spec h1
      obtain ⟨s2, h2, h⟩ := bind_eq_ok.mp h
      obtain ⟨commits, rfl, hc⟩ := addEntryCommit_entries h2
      obtain ⟨act, hact, h⟩ := bind_eq_ok.mp h
      rw [okOr_eq_ok, checkedAdd_eq_some] at hact
      have hrec := ih hrest h
      have hx := entryOwed_extend w hc
      dsimp only at hrec hx
      rw [hx, hw entry (List.mem_cons_self ..), hact.1, hp, hamount, Nat.mul_add] at hrec
      omega

theorem depositToEntries_other {value capital actual actual' : Nat} {key : EntryKey T}
    (hne : ∀ entry ∈ entries, key ≠ (reason, indexOf, entry.digest, who))
    (h : depositToEntries who reason indexOf value capital entries s actual = .ok (s', actual')) :
    s'.entryMap.get key = s.entryMap.get key := by
  induction entries generalizing s actual with
  | nil =>
    cases h
    rfl
  | cons entry entries ih =>
    have hrest := fun e hm => hne e (List.mem_cons_of_mem _ hm)
    obtain ⟨part, -, h⟩ := bind_eq_ok.mp h
    split at h
    · exact ih hrest h
    · obtain ⟨⟨s1, receipt, amount⟩, h1, h⟩ := bind_eq_ok.mp h
      obtain ⟨-, r, m1, -, -, -, rfl, -⟩ := depositToDigest_spec h1
      obtain ⟨s2, h2, h⟩ := bind_eq_ok.mp h
      obtain ⟨commits, rfl, -⟩ := addEntryCommit_entries h2
      obtain ⟨act, -, h⟩ := bind_eq_ok.mp h
      rw [ih hrest h]
      exact StorageMap.get_insert_of_ne (hne entry (List.mem_cons_self ..))

/-- The entry receipts of a location were bought at the price of one. -/
def EntriesWhole (at_ : EntryKey T → Location T) (l : Location T) (m : EntryMap T) : Prop :=
  ∀ key commits, m.get key = some commits → at_ key = l → ∀ receipt ∈ commits.receipts,
    ∃ r, receipt = some r ∧ WholeReceipt r

theorem EntriesWhole.extend {at_ : EntryKey T → Location T} {l : Location T} {m : EntryMap T} {key : EntryKey T}
    {commits : Commits T} {r : Receipt T.share} (h : EntriesWhole at_ l m)
    (hc : commits.receipts = ((m.get key).elim [] Commits.receipts) ++ [some r])
    (hr : at_ key = l → WholeReceipt r) : EntriesWhole at_ l (m.insert key commits) := by
  intro k c hk hl receipt hm
  rw [StorageMap.get_insert] at hk
  split at hk
  · rename_i he
    subst he
    obtain rfl := Option.some.inj hk
    rw [hc, List.mem_append, List.mem_singleton] at hm
    rcases hm with hm | rfl
    · obtain hg | ⟨old, hg⟩ := (m.get k).eq_none_or_eq_some
      · simp [hg] at hm
      · exact h k old hg hl receipt (by simpa [hg] using hm)
    · exact ⟨r, rfl, hr hl⟩
  · exact h k c hk hl receipt hm

theorem depositToEntries_whole {at_ : EntryKey T → Location T} {l : Location T}
    {value capital actual actual' : Nat} (hp : AtPar s.digestMap l) (hw : EntriesWhole at_ l s.entryMap)
    (hat : ∀ entry ∈ entries, at_ (reason, indexOf, entry.digest, who) =
      location reason entry.digest entry.variant)
    (h : depositToEntries who reason indexOf value capital entries s actual = .ok (s', actual')) :
    AtPar s'.digestMap l ∧ EntriesWhole at_ l s'.entryMap := by
  induction entries generalizing s actual with
  | nil =>
    cases h
    exact ⟨hp, hw⟩
  | cons entry entries ih =>
    have hrest := fun e hm => hat e (List.mem_cons_of_mem _ hm)
    obtain ⟨part, -, h⟩ := bind_eq_ok.mp h
    split at h
    · exact ih hp hw hrest h
    · obtain ⟨⟨s1, receipt, amount⟩, h1, h⟩ := bind_eq_ok.mp h
      obtain ⟨-, r, m1, rfl, hpr, -, rfl, hd⟩ := depositToDigest_spec h1
      obtain ⟨s2, h2, h⟩ := bind_eq_ok.mp h
      obtain ⟨commits, rfl, hc⟩ := addEntryCommit_entries h2
      obtain ⟨act, -, h⟩ := bind_eq_ok.mp h
      refine ih (hp.deposits hd) (hw.extend hc fun hl => ?_) hrest h
      rw [hat entry (List.mem_cons_self ..)] at hl
      cases hd with
      | cons touch deposited rest =>
        refine deposited.wholeReceipt (hl ▸ hp).fresh ?_
        rw [hpr]
        exact part.toInteger_mul_le.trans part.inner_le

/-- A deposit to an index: entries of the proprietor are extended by as much as the index. -/
structure IndexDeposited (s s' : State T) (who : T.AccountId) (reason : T.Reason) (indexOf : T.AccountId)
    (amount : Nat) (info : IndexInfo T) : Prop where
  found : s.indexMap.get (reason, indexOf) = some info
  indexes : s'.indexMap = s.indexMap.insert (reason, indexOf) (info.setBalance (info.principal + amount))
  commits : s'.commitMap = s.commitMap
  principal_le : info.principal + amount ≤ T.share.maxAsset
  par : ∀ l, AtPar s.digestMap l → AtPar s'.digestMap l
  owed : ∀ w c, (∀ entry ∈ info.entries.list, w (reason, indexOf, entry.digest, who) = c) →
    entryOwed w s'.entryMap = entryOwed w s.entryMap + c * amount
  other : ∀ key, (∀ entry ∈ info.entries.list, key ≠ (reason, indexOf, entry.digest, who)) →
    s'.entryMap.get key = s.entryMap.get key
  whole : ∀ at_ l, AtPar s.digestMap l → EntriesWhole at_ l s.entryMap →
    (∀ entry ∈ info.entries.list, at_ (reason, indexOf, entry.digest, who) =
      location reason entry.digest entry.variant) → EntriesWhole at_ l s'.entryMap

theorem depositToIndex_deposited {value amount : Nat} {receipt : CommitInstance T}
    (h : depositToIndex s who reason indexOf value = .ok (s', receipt, amount)) :
    receipt = none ∧ ∃ info, IndexDeposited s s' who reason indexOf amount info := by
  obtain ⟨info, hi, h⟩ := bind_eq_ok.mp h
  rw [getIndex, okOr_eq_ok] at hi
  obtain ⟨_, -, h⟩ := bind_eq_ok.mp h
  obtain ⟨⟨s1, actual⟩, h1, h⟩ := bind_eq_ok.mp h
  obtain ⟨m, e, claims, rfl, hd, -⟩ := depositToEntries_spec h1
  obtain ⟨s2, h2, h⟩ := bind_eq_ok.mp h
  obtain ⟨l, rfl, -⟩ := unlessZero_increase_spec h2
  obtain ⟨total, ht, h⟩ := bind_eq_ok.mp h
  rw [okOr_eq_ok, checkedAdd_eq_some] at ht
  simp only [pure_eq_ok, Prod.mk.injEq] at h
  obtain ⟨rfl, rfl, rfl⟩ := h
  have hother : ∀ key, (∀ entry ∈ info.entries.list, key ≠ (reason, indexOf, entry.digest, who)) →
      e.get key = s.entryMap.get key := fun _ hk => depositToEntries_other hk h1
  have hwhole : ∀ at_ loc, AtPar s.digestMap loc → EntriesWhole at_ loc s.entryMap →
      (∀ entry ∈ info.entries.list, at_ (reason, indexOf, entry.digest, who) =
        location reason entry.digest entry.variant) → EntriesWhole at_ loc e :=
    fun _ _ hp hw hat => (depositToEntries_whole hp hw hat h1).2
  refine ⟨rfl, info, hi, ?_, rfl, ht.1 ▸ ht.2, fun _ hl => hl.deposits hd, fun w c hw => ?_, hother, hwhole⟩
  · rw [ht.1]
  · have := depositToEntries_owed hw h1
    simpa using this

end Deposits

section Withdrawals

variable {who : T.AccountId} {reason : T.Reason} {indexOf : T.AccountId} {entries : List (EntryInfo T)}
  {s s' : State T} {d d' : AssetDelta}

theorem withdrawEntries_owed {w : EntryKey T → Nat} {c : Nat}
    (hw : ∀ entry ∈ entries, w (reason, indexOf, entry.digest, who) = c)
    (h : withdrawEntries who reason indexOf entries s d = .ok (s', d')) :
    entryOwed w s'.entryMap + c * d'.deposit = entryOwed w s.entryMap + c * d.deposit := by
  induction entries generalizing s d with
  | nil =>
    cases h
    rfl
  | cons entry entries ih =>
    obtain ⟨commits, hc, h⟩ := bind_eq_ok.mp h
    rw [okOr_eq_ok] at hc
    obtain ⟨⟨m1, d1⟩, h1, h⟩ := bind_eq_ok.mp h
    obtain ⟨t, -, -, hdt, -⟩ := withdrawEntryReceipts_spec h1
    rw [tally_principal_receiptsAt] at hdt
    have hrec := ih (fun e hm => hw e (List.mem_cons_of_mem _ hm)) h
    have hs := StorageMap.sum_remove (fun key (commits : Commits T) => w key * depositValue commits.receipts)
      s.entryMap (reason, indexOf, entry.digest, who)
    dsimp only at hrec hs
    rw [hc, Option.elim_some, hw entry (List.mem_cons_self ..)] at hs
    rw [hdt, Nat.mul_add] at hrec
    unfold entryOwed at hrec ⊢
    omega

theorem withdrawEntries_get (h : withdrawEntries who reason indexOf entries s d = .ok (s', d'))
    (key : EntryKey T) : s'.entryMap.get key =
      if key ∈ entries.map (fun entry => (reason, indexOf, entry.digest, who)) then none
      else s.entryMap.get key := by
  induction entries generalizing s d with
  | nil =>
    cases h
    rfl
  | cons entry entries ih =>
    obtain ⟨commits, -, h⟩ := bind_eq_ok.mp h
    obtain ⟨⟨m1, d1⟩, -, h⟩ := bind_eq_ok.mp h
    rw [ih h]
    simp only [List.map_cons, List.mem_cons]
    by_cases hk : key = (reason, indexOf, entry.digest, who)
    · simp [hk]
    · simp [hk, StorageMap.get_remove_of_ne hk]

/-- A withdrawal from an index: the entries of the proprietor are removed. -/
structure IndexWithdrawn (s s' : State T) (who : T.AccountId) (reason : T.Reason) (indexOf : T.AccountId)
    (d : AssetDelta) (info : IndexInfo T) : Prop where
  found : s.indexMap.get (reason, indexOf) = some info
  indexes : s'.indexMap = s.indexMap.insert (reason, indexOf) (info.setBalance (info.principal - d.deposit))
  commits : s'.commitMap = s.commitMap
  par : ∀ l, AtPar s.digestMap l → AtPar s'.digestMap l
  owed : ∀ w c, (∀ entry ∈ info.entries.list, w (reason, indexOf, entry.digest, who) = c) →
    entryOwed w s'.entryMap + c * d.deposit = entryOwed w s.entryMap
  get : ∀ key, s'.entryMap.get key =
    if key ∈ info.entries.list.map (fun entry => (reason, indexOf, entry.digest, who)) then none
    else s.entryMap.get key

theorem withdrawFromIndex_withdrawn (h : withdrawFromIndex s who reason indexOf = .ok (s', d)) :
    ∃ info, IndexWithdrawn s s' who reason indexOf d info := by
  obtain ⟨info, hi, h⟩ := bind_eq_ok.mp h
  rw [getIndex, okOr_eq_ok] at hi
  obtain ⟨⟨s1, d1⟩, h1, h⟩ := bind_eq_ok.mp h
  obtain ⟨m, e, claims, t, rfl, hw, -⟩ := withdrawEntries_spec h1
  obtain ⟨left, hl, h⟩ := bind_eq_ok.mp h
  rw [okOr_eq_ok, checkedSub_eq_some] at hl
  simp only [pure_eq_ok, Prod.mk.injEq] at h
  obtain ⟨rfl, rfl⟩ := h
  have hget := withdrawEntries_get h1
  refine ⟨info, hi, ?_, rfl, fun _ hl => hl.withdraws hw, fun w c hw => ?_, hget⟩
  · rw [hl.2, Nat.add_sub_cancel]
  · simpa using withdrawEntries_owed hw h1

end Withdrawals

end FrameSuite
