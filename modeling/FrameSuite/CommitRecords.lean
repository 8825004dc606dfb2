import FrameSuite.CommitAccounts

/-! The amounts recorded for the commits when they were placed and raised. Along every run the receipts
of a commit and of its entries were bought for the recorded amount, and no index owes more to its
entries than it holds. -/

namespace FrameSuite

open ShareBalance

variable {T : Config} {p : Prop}

/-- The model and the amount recorded for each commit. -/
abbrev Records (T : Config) := StorageMap (T.AccountId × T.Reason) (DigestVariant T × Nat)

/-- Counts the entries of a proprietor. -/
def ownedBy (key : T.AccountId × T.Reason) (k : EntryKey T) : Nat := if (k.2.2.2, k.1) = key then 1 else 0

/-- Counts the entries of an index. -/
def underIndex (key : T.Reason × T.AccountId) (k : EntryKey T) : Nat := if (k.1, k.2.1) = key then 1 else 0

structure Accounts (s : State T) (m : Records T) : Prop where
  owners : ∀ key, s.entryMap.get key ≠ none →
    ∃ info, s.commitMap.get (key.2.2.2, key.1) = some info ∧ info.digest = key.2.1
  limits : ∀ key info, s.indexMap.get key = some info →
    entryOwed (underIndex key) s.entryMap ≤ min info.principal T.share.maxAsset
  defaults : ∀ key info, s.commitMap.get key = some info → s.indexMap.get (key.2, info.digest) ≠ none →
    ∀ receipt ∈ info.commits.receipts, receipt = none
  amounts : ∀ key model amount, m.get key = some (model, amount) → ∃ info, s.commitMap.get key = some info ∧
    amount = depositValue info.commits.receipts + entryOwed (ownedBy key) s.entryMap ∧
    ∀ indexOf, model = .index indexOf → info.digest = indexOf ∧ none ∈ info.commits.receipts

theorem accounts_genesis (ledger : T.Ledger) : Accounts (State.genesis (T := T) ledger) .empty where
  owners _ h := absurd rfl h
  limits _ _ h := nomatch h
  defaults _ _ h := nomatch h
  amounts _ _ _ h := nomatch h

section Steps

variable {s s₁ s' : State T} {m m' : Records T} {who : T.AccountId} {reason : T.Reason} {digest : T.AccountId}
  {info : CommitInfo T} {amount : Nat} {receipt : CommitInstance T}

theorem Accounts.unowned (h : Accounts s m) {key : T.AccountId × T.Reason} (hn : s.commitMap.get key = none) :
    entryOwed (ownedBy key) s.entryMap = 0 := by
  refine entryOwed_eq_zero fun k hk => if_neg ?_
  rintro rfl
  obtain ⟨info, hi, -⟩ := h.owners k hk
  rw [hn] at hi
  cases hi

theorem Accounts.of_same (h : Accounts s m) (hc : s'.commitMap = s.commitMap) (he : s'.entryMap = s.entryMap)
    (hi : s'.indexMap = s.indexMap) : Accounts s' m := by
  refine ⟨?_, ?_, ?_, ?_⟩
  · rw [he, hc]
    exact h.owners
  · rw [hi, he]
    exact h.limits
  · rw [hc, hi]
    exact h.defaults
  · rw [hc, he]
    exact h.amounts

theorem ownedBy_entry (key : T.AccountId × T.Reason) (reason : T.Reason) (indexOf entry who : T.AccountId) :
    ownedBy (T := T) key (reason, indexOf, entry, who) = if (who, reason) = key then 1 else 0 := rfl

theorem underIndex_entry (key : T.Reason × T.AccountId) (reason : T.Reason) (indexOf entry who : T.AccountId) :
    underIndex (T := T) key (reason, indexOf, entry, who) = if (reason, indexOf) = key then 1 else 0 := rfl

/-- What a deposit adds to what is owed for a commit, in receipts of the commit or of its entries. -/
theorem Funded.owed (h : Funded s s' who reason digest amount receipt) (key : T.AccountId × T.Reason) :
    ∃ part, depositValue [receipt] + part = amount ∧ entryOwed (ownedBy key) s'.entryMap =
      entryOwed (ownedBy key) s.entryMap + if (who, reason) = key then part else 0 := by
  cases h with
  | traded r step hp hn =>
    refine ⟨0, by simp [hp], ?_⟩
    rw [step.entries]
    simp
  | entries info step =>
    refine ⟨amount, by simp, ?_⟩
    rw [step.owed _ _ fun entry _ => ownedBy_entry key reason digest entry.digest who]
    by_cases hk : (who, reason) = key
    · simp [hk]
    · simp [hk]

theorem Funded.limits (h : Funded s s' who reason digest amount receipt) (ha : Accounts s m)
    {key : T.Reason × T.AccountId} {index : IndexInfo T} (hi : s'.indexMap.get key = some index) :
    entryOwed (underIndex key) s'.entryMap ≤ min index.principal T.share.maxAsset := by
  cases h with
  | traded r step hp hn =>
    rw [step.indexes] at hi
    rw [step.entries]
    exact ha.limits key index hi
  | entries info step =>
    rw [step.owed _ _ fun entry _ => underIndex_entry key reason digest entry.digest who]
    rw [step.indexes, StorageMap.get_insert] at hi
    by_cases hk : key = (reason, digest)
    · subst hk
      rw [if_pos rfl] at hi
      obtain rfl := Option.some.inj hi
      have hold := ha.limits _ info step.found
      have hle := step.principal_le
      simp only [if_true, Nat.one_mul, IndexInfo.setBalance]
      omega
    · rw [if_neg hk] at hi
      rw [if_neg (Ne.symm hk), Nat.zero_mul, Nat.add_zero]
      exact ha.limits key index hi

theorem Funded.indexKeys (h : Funded s s' who reason digest amount receipt) (key : T.Reason × T.AccountId) :
    s'.indexMap.get key ≠ none ↔ s.indexMap.get key ≠ none := by
  cases h with
  | traded r step => rw [step.indexes]
  | entries info step =>
    rw [step.indexes, StorageMap.get_insert]
    by_cases hk : key = (reason, digest)
    · simp [hk, step.found]
    · simp [hk]

theorem Funded.newEntries (h : Funded s s' who reason digest amount receipt) {key : EntryKey T}
    (hk : s'.entryMap.get key ≠ none) :
    s.entryMap.get key ≠ none ∨ (key.2.2.2, key.1) = (who, reason) ∧ key.2.1 = digest := by
  cases h with
  | traded r step =>
    rw [step.entries] at hk
    exact .inl hk
  | entries info step =>
    by_cases hnew : ∃ entry ∈ info.entries.list, key = (reason, digest, entry.digest, who)
    · obtain ⟨entry, -, rfl⟩ := hnew
      exact .inr ⟨rfl, rfl⟩
    · rw [step.other key fun entry hm he => hnew ⟨entry, hm, he⟩] at hk
      exact .inl hk

theorem Accounts.charge (h : Accounts s m) (hc : Charged s s' who reason info receipt amount)
    (hother : ∀ key, key ≠ (who, reason) → m'.get key = m.get key)
    (hown : ∀ model a, m'.get (who, reason) = some (model, a) → ∃ before, a = before + amount ∧
      (m.get (who, reason) = some (model, before) ∨ s.commitMap.get (who, reason) = none ∧ before = 0 ∧
        ∀ indexOf, model = .index indexOf → info.digest = indexOf ∧ receipt = none)) : Accounts s' m' := by
  obtain ⟨s₁, hf, hm⟩ := hc.funded
  have hr := hc.extended.receipts
  have hplace := hc.extended.place
  have hget (key : T.AccountId × T.Reason) : s'.commitMap.get key =
      if key = (who, reason) then some info else s.commitMap.get key := by
    rw [hc.commits, StorageMap.get_insert]
  refine ⟨fun key hk => ?_, fun key index hi => ?_, fun key i hi hk => ?_, fun key model a ha => ?_⟩
  · rw [hm.entryMap] at hk
    rw [hget]
    rcases hf.newEntries hk with hk | ⟨he, hd⟩
    · obtain ⟨old, ho, hd⟩ := h.owners key hk
      by_cases he : (key.2.2.2, key.1) = (who, reason)
      · rw [he] at ho
        exact ⟨info, if_pos he, (hplace old ho).1.symm.trans hd⟩
      · exact ⟨old, (if_neg he).trans ho, hd⟩
    · exact ⟨info, if_pos he, hd.symm⟩
  · rw [hm.indexMap] at hi
    rw [hm.entryMap]
    exact hf.limits h hi
  · rw [hm.indexMap, hf.indexKeys] at hk
    rw [hget] at hi
    by_cases he : key = (who, reason)
    · subst he
      rw [if_pos rfl] at hi
      obtain rfl := Option.some.inj hi
      intro x hx
      rw [hr, List.mem_append, List.mem_singleton] at hx
      rcases hx with hx | rfl
      · obtain hnone | ⟨old, ho⟩ := (s.commitMap.get (who, reason)).eq_none_or_eq_some
        · simp [hnone] at hx
        · rw [ho] at hx
          exact h.defaults _ old ho ((hplace old ho).1 ▸ hk) x hx
      · cases hf with
        | traded r step hp hn => exact absurd hn hk
        | entries => rfl
    · rw [if_neg he] at hi
      exact h.defaults key i hi hk
  · obtain ⟨part, hpart, howed⟩ := hf.owed key
    rw [hget, hm.entryMap, howed]
    by_cases he : key = (who, reason)
    · subst he
      obtain ⟨before, rfl, hb⟩ := hown model a ha
      refine ⟨info, if_pos rfl, ?_⟩
      rw [hr, depositValue_append, if_pos rfl]
      rcases hb with hb | ⟨hnone, rfl, hmodel⟩
      · obtain ⟨old, ho, rfl, hd⟩ := h.amounts _ model before hb
        rw [ho, Option.elim_some]
        refine ⟨by omega, fun indexOf hi => ?_⟩
        exact ⟨(hplace old ho).1.symm.trans (hd indexOf hi).1, List.mem_append_left _ (hd indexOf hi).2⟩
      · rw [hnone, Option.elim_none, h.unowned hnone]
        refine ⟨by simp only [depositValue_nil]; omega, fun indexOf hi => ?_⟩
        obtain ⟨hd, rfl⟩ := hmodel indexOf hi
        exact ⟨hd, List.mem_append_right _ (List.mem_singleton_self _)⟩
    · rw [if_neg he, if_neg (Ne.symm he), Nat.add_zero]
      exact h.amounts key model a (hother key he ▸ ha)

theorem Accounts.leave (hs : Custody p s) (h : Accounts s m) (hl : Left s s' who reason info) :
    Accounts s' (m.remove (who, reason)) := by
  obtain ⟨s₁, d, hd, hm⟩ := hl.drawn
  have hget {key : T.AccountId × T.Reason} (hk : key ≠ (who, reason)) :
      s'.commitMap.get key = s.commitMap.get key := by
    rw [hl.commits, StorageMap.get_remove_of_ne hk]
  have hgone : s'.commitMap.get (who, reason) = none := by
    rw [hl.commits, StorageMap.get_remove_self]
  have howners : ∀ key, s'.entryMap.get key ≠ none →
      (key.2.2.2, key.1) ≠ (who, reason) ∧ s.entryMap.get key ≠ none := by
    intro key hk
    rw [hm.entryMap] at hk
    have hvalid (he : (key.2.2.2, key.1) = (who, reason)) (hold : s.entryMap.get key ≠ none) :
        ∃ index entry, s.indexMap.get (reason, info.digest) = some index ∧ entry ∈ index.entries.list ∧
          key = (reason, info.digest, entry.digest, who) := by
      obtain ⟨i, hi, hdig⟩ := h.owners key hold
      obtain ⟨index, entry, hindex, hentry, hed⟩ := hs.entries key hold
      obtain ⟨r, indexOf, e, w⟩ := key
      obtain ⟨rfl, rfl⟩ := Prod.mk.inj he
      obtain rfl := Option.some.inj (hl.found.symm.trans hi)
      dsimp only at hdig hindex hed
      subst hdig hed
      exact ⟨index, entry, hindex, hentry, rfl⟩
    cases hd with
    | traded step hn =>
      rw [step.entries] at hk
      refine ⟨fun he => ?_, hk⟩
      obtain ⟨index, -, hindex, -⟩ := hvalid he hk
      rw [hn] at hindex
      cases hindex
    | entries index step =>
      rw [step.get] at hk
      split at hk
      · exact absurd rfl hk
      · rename_i hnot
        refine ⟨fun he => hnot ?_, hk⟩
        obtain ⟨index', entry, hindex, hentry, rfl⟩ := hvalid he hk
        obtain rfl := Option.some.inj (step.found.symm.trans hindex)
        exact List.mem_map.mpr ⟨entry, hentry, rfl⟩
  refine ⟨fun key hk => ?_, fun key index hi => ?_, fun key i hi hk => ?_, fun key model a ha => ?_⟩
  · obtain ⟨hne, hold⟩ := howners key hk
    rw [hget hne]
    exact h.owners key hold
  · rw [hm.indexMap] at hi
    rw [hm.entryMap]
    cases hd with
    | traded step hn =>
      rw [step.indexes] at hi
      rw [step.entries]
      exact h.limits key index hi
    | entries index' step =>
      have howed := step.owed _ _ fun entry _ => underIndex_entry key reason info.digest entry.digest who
      rw [step.indexes, StorageMap.get_insert] at hi
      by_cases hk : key = (reason, info.digest)
      · subst hk
        rw [if_pos rfl] at hi howed
        obtain rfl := Option.some.inj hi
        have hold := h.limits _ index' step.found
        simp only [IndexInfo.setBalance]
        omega
      · rw [if_neg hk] at hi
        have hold := h.limits key index hi
        omega
  · have hne : key ≠ (who, reason) := by
      rintro rfl
      rw [hgone] at hi
      cases hi
    rw [hget hne] at hi
    refine h.defaults key i hi ?_
    rw [hm.indexMap] at hk
    cases hd with
    | traded step => rwa [step.indexes] at hk
    | entries index step =>
      rw [step.indexes, StorageMap.get_insert] at hk
      split at hk
      · rename_i he
        simp [he, step.found]
      · exact hk
  · rw [StorageMap.get_remove] at ha
    split at ha
    · cases ha
    · rename_i hne
      rw [hget hne, hm.entryMap]
      cases hd with
      | traded step =>
        rw [step.entries]
        exact h.amounts key model a ha
      | entries index step =>
        have howed := step.owed _ _ fun entry _ => ownedBy_entry key reason info.digest entry.digest who
        rw [if_neg (Ne.symm hne), Nat.zero_mul, Nat.add_zero] at howed
        rw [howed]
        exact h.amounts key model a ha

theorem Accounts.setIndex {index : IndexInfo T} (hs : Custody p s) (h : Accounts s m)
    (hn : ¬Known s (reason, digest)) (hset : setIndex s reason index digest = .ok s') : Accounts s' m := by
  obtain ⟨hnone, rfl⟩ := setIndex_spec hset
  refine ⟨h.owners, fun key i hi => ?_, fun key i hi hk => ?_, h.amounts⟩
  · dsimp only at hi
    rw [StorageMap.get_insert] at hi
    by_cases hk : key = (reason, digest)
    · have hz : entryOwed (underIndex key) s.entryMap = 0 := by
        refine entryOwed_eq_zero fun k hg => if_neg fun he => ?_
        obtain ⟨i, -, hi, -⟩ := hs.entries k hg
        rw [he, hk, hnone] at hi
        cases hi
      rw [hz]
      exact Nat.zero_le _
    · rw [if_neg hk] at hi
      exact h.limits key i hi
  · dsimp only at hi hk
    by_cases he : (key.2, i.digest) = (reason, digest)
    · intro x hx
      cases x with
      | none => rfl
      | some r =>
        have hle : sharesUnder (reason, digest) (location key.2 i.digest i.variant) r ≤ commitHeld _ s.commitMap :=
          le_commitHeld hi hx
        have hunder : sharesUnder (reason, digest) (location key.2 i.digest i.variant) r = r.shares := if_pos he
        rw [hs.unknown_held hn, hunder] at hle
        exact absurd (Nat.le_zero.mp hle) (hs.shares_ne key i hi r hx)
    · rw [StorageMap.get_insert_of_ne he] at hk
      exact h.defaults key i hi hk

theorem Accounts.reapIndex (h : Accounts s m) (hr : reapIndex s reason digest = .ok s') : Accounts s' m := by
  obtain ⟨info, -, -, rfl⟩ := reapIndex_spec hr
  have hsub {key : T.Reason × T.AccountId} {i : IndexInfo T}
      (hi : (s.indexMap.remove (reason, digest)).get key = some i) : s.indexMap.get key = some i := by
    rw [StorageMap.get_remove] at hi
    split at hi
    · cases hi
    · exact hi
  refine ⟨h.owners, fun key i hi => h.limits key i (hsub hi), fun key i hi hk => ?_, h.amounts⟩
  obtain ⟨index, hindex⟩ := Option.ne_none_iff_exists'.mp hk
  exact h.defaults key i hi (by simp [hsub hindex])

end Steps

end FrameSuite
