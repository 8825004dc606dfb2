import FrameSuite.DirectResolve
import FrameSuite.EntryAccounts
import FrameSuite.TargetRuns

/-! A commit is charged when it is placed or raised and left when it is resolved. Either way a
deposit or a withdrawal of its digest's model comes with a change of the commit alone. -/

namespace FrameSuite

open ShareBalance

variable {T : Config} {p : Prop}

section Charges

/-- A deposit for the holder of a commit on the digest. -/
inductive Funded (s s' : State T) (who : T.AccountId) (reason : T.Reason) (digest : T.AccountId) (amount : Nat) :
    CommitInstance T → Prop
  | traded (r : Receipt T.share) (step : Traded s s') (principal_eq : r.principal = amount)
      (not_index : s.indexMap.get (reason, digest) = none) : Funded s s' who reason digest amount (some r)
  | entries (info : IndexInfo T) (step : IndexDeposited s s' who reason digest amount info) :
      Funded s s' who reason digest amount none

/-- The commit is placed or raised by one receipt, the deposit of the amount. -/
structure Charged (s s' : State T) (who : T.AccountId) (reason : T.Reason) (info : CommitInfo T)
    (receipt : CommitInstance T) (amount : Nat) : Prop where
  funded : ∃ s₁, Funded s s₁ who reason info.digest amount receipt ∧ SameMaps s₁ s'
  commits : s'.commitMap = s.commitMap.insert (who, reason) info
  extended : Extended (s.commitMap.get (who, reason)) info receipt

variable {s s₁ s' : State T} {who : T.AccountId} {reason : T.Reason} {digest : T.AccountId}
  {value amount : Nat} {variant : T.Position} {q : Directive} {receipt : CommitInstance T}

theorem Funded.commits (h : Funded s s' who reason digest amount receipt) : s'.commitMap = s.commitMap := by
  cases h with
  | traded r step => exact step.commits
  | entries info step => exact step.commits

theorem Funded.of_traded (ht : Traded s s₁) (h : Funded s₁ s' who reason digest amount receipt) :
    Funded s s' who reason digest amount receipt := by
  cases h with
  | traded r step hp hn => exact .traded r (ht.trans step) hp (ht.indexes ▸ hn)
  | entries info step =>
    refine .entries info ⟨ht.indexes ▸ step.found, ?_, step.commits.trans ht.commits, step.principal_le,
      fun l hl => step.par l (ht.par l hl), fun w c hw => ?_, fun key hk => ?_, fun at_ l hp hw hat => ?_⟩
    · rw [step.indexes, ht.indexes]
    · rw [step.owed w c hw, ht.entries]
    · rw [step.other key hk, ht.entries]
    · exact step.whole at_ l (ht.par l hp) (ht.entries ▸ hw) hat

theorem withLedger_traded (s : State T) (l : T.Ledger) : Traded s { s with ledger := l } :=
  ⟨fun _ h => h, rfl, rfl, rfl⟩

theorem initiateDigest_traded (s : State T) (reason : T.Reason) (digest : T.AccountId) :
    Traded s (initiateDigest s reason digest) := by
  obtain ⟨m, hm, hb, -⟩ := initiateDigest_spec s reason digest
  rw [hm]
  refine ⟨fun l hl b hb' => hl b ?_, rfl, rfl, rfl⟩
  dsimp only at hb'
  rwa [hb] at hb'

theorem depositToDigest_funded (hn : s.indexMap.get (reason, digest) = none)
    (h : depositToDigest s reason digest value variant = .ok (s', receipt, amount)) :
    Funded s s' who reason digest amount receipt := by
  obtain ⟨ht, r, rfl, hp⟩ := depositToDigest_traded h
  exact .traded r ht hp hn

theorem depositToPool_funded (hs : Sound s) (hn : s.indexMap.get (reason, digest) = none)
    (h : depositToPool s reason digest value = .ok (s', receipt, amount)) :
    Funded s s' who reason digest amount receipt := by
  obtain ⟨ht, r, rfl, hp⟩ := depositToPool_traded hs h
  exact .traded r ht hp hn

theorem depositToIndex_funded (h : depositToIndex s who reason digest value = .ok (s', receipt, amount)) :
    Funded s s' who reason digest amount receipt := by
  obtain ⟨rfl, info, hd⟩ := depositToIndex_deposited h
  exact .entries info hd

theorem Charged.of_place {s₂ : State T} (hnew : s.commitMap.get (who, reason) = none)
    (hf : Funded s s₁ who reason digest amount receipt)
    (h : finalizePlaceCommit s₁ who reason digest variant receipt amount = .ok s₂) :
    ∃ info, info.digest = digest ∧ Charged s s₂ who reason info receipt amount := by
  obtain ⟨info, hc, rfl, -, hr⟩ := finalizePlaceCommit_spec h
  obtain ⟨hm, hins⟩ := hc.sameMaps
  exact ⟨info, rfl, ⟨s₁, hf, hm⟩, by rw [hins, hf.commits], extended_of_new hnew hr⟩

theorem Charged.of_raise {s₂ : State T} {old : CommitInfo T} (ho : s.commitMap.get (who, reason) = some old)
    (hf : Funded s s₁ who reason old.digest amount receipt)
    (h : finalizeRaiseCommit s₁ who reason receipt amount = .ok s₂) :
    ∃ info, Charged s s₂ who reason info receipt amount := by
  obtain ⟨old', info, ho', hc, hd, hv, hr⟩ := finalizeRaiseCommit_spec h
  rw [hf.commits] at ho'
  obtain rfl : old = old' := Option.some.inj (ho.symm.trans ho')
  obtain ⟨hm, hins⟩ := hc.sameMaps
  exact ⟨info, ⟨s₁, hd ▸ hf, hm⟩, by rw [hins, hf.commits], .of_raise ho hd hv hr⟩

theorem Custody.not_index (hs : Custody p s) {key : T.Reason × T.AccountId}
    (h : (s.digestMap.containsKey key = true ∨ ¬Known s key) ∨ s.poolMap.containsKey key = true) :
    s.indexMap.get key = none := by
  rw [← StorageMap.containsKey_eq_false_iff]
  rcases h with (h | h) | h
  · exact (hs.digestsApart key h).1
  · exact (not_known_iff.mp h).2.1
  · by_contra hc
    rw [Bool.not_eq_false] at hc
    rw [hs.indexesApart key hc] at h
    cases h

theorem placeCommitOfVariant_charged (hs : Custody p s)
    (h : placeCommitOfVariant s who reason digest value variant q = .ok (s', amount)) :
    s.commitMap.get (who, reason) = none ∧ ∃ info receipt, info.digest = digest ∧
      Charged s s' who reason info receipt amount ∧
      (∀ indexOf, digestModel s digest reason = .index indexOf → indexOf = digest ∧ receipt = none) := by
  obtain ⟨_, hn, h⟩ := bind_eq_ok.mp h
  rw [ensure_eq_ok, StorageMap.containsKey_eq_false_iff] at hn
  obtain ⟨_, -, h⟩ := bind_eq_ok.mp h
  change placeCommitOf s who reason (digestModel s digest reason) value variant q = .ok (s', amount) at h
  obtain ⟨s₁, s₂, actual, receipt, h₁, h₂, h₃⟩ := placeCommitOf_steps h
  obtain ⟨l, rfl, -⟩ := deductBalance_spec h₁
  refine ⟨hn, ?_⟩
  rcases digestModel_cases s digest reason with ⟨hm, hk⟩ | ⟨hm, -⟩ | ⟨hm, hk⟩
  · rw [hm] at h₂ h₃ ⊢
    have hi := hs.not_index (.inl hk)
    have ht := (initiateDigest_traded s reason digest).trans (withLedger_traded _ l)
    have hf : Funded _ s₂ who reason digest amount receipt := depositToDigest_funded (ht.indexes ▸ hi) h₂
    obtain ⟨info, hd, hc⟩ := Charged.of_place hn (hf.of_traded ht) h₃
    exact ⟨info, receipt, hd, hc, fun _ he => by cases he⟩
  · rw [hm] at h₂ h₃ ⊢
    obtain ⟨hr, -⟩ := depositToIndex_deposited h₂
    obtain ⟨info, hd, hc⟩ := Charged.of_place hn ((depositToIndex_funded h₂).of_traded (withLedger_traded s l)) h₃
    refine ⟨info, receipt, hd, hc, fun indexOf he => ⟨?_, hr⟩⟩
    exact (DigestVariant.index.inj he).symm
  · rw [hm] at h₂ h₃ ⊢
    have hi := hs.not_index (.inr hk)
    have hf : Funded s s₂ who reason digest amount receipt :=
      (depositToPool_funded (hs.sound.withLedger l) hi h₂).of_traded (withLedger_traded s l)
    obtain ⟨info, hd, hc⟩ := Charged.of_place hn hf h₃
    exact ⟨info, receipt, hd, hc, fun _ he => by cases he⟩

theorem raiseCommit_charged (hs : Custody p s) (h : raiseCommit s who reason value q = .ok (s', amount)) :
    s.commitMap.get (who, reason) ≠ none ∧ ∃ info receipt, Charged s s' who reason info receipt amount := by
  obtain ⟨old, ho, h⟩ := raiseCommit_eq_ok h
  obtain ⟨variant, s₁, s₂, actual, receipt, -, h₁, h₂, h₃⟩ := raiseCommitOf_steps h
  obtain ⟨l, rfl, -⟩ := deductBalance_spec h₁
  have ht := withLedger_traded s l
  refine ⟨by simp [ho], ?_⟩
  have hf : Funded s s₂ who reason old.digest amount receipt := by
    rcases digestModel_cases s old.digest reason with ⟨hc, hk⟩ | ⟨hc, -⟩ | ⟨hc, hk⟩
    · rw [hc] at h₂
      have hi := hs.not_index (.inl hk)
      exact (depositToDigest_funded (ht.indexes ▸ hi) h₂).of_traded ht
    · rw [hc] at h₂
      exact (depositToIndex_funded h₂).of_traded ht
    · rw [hc] at h₂
      have hi := hs.not_index (.inr hk)
      exact (depositToPool_funded (hs.sound.withLedger l) hi h₂).of_traded ht
  obtain ⟨info, hc⟩ := Charged.of_raise ho hf h₃
  exact ⟨info, receipt, hc⟩

end Charges

section Resolutions

/-- A withdrawal for the holder of a commit on the digest. -/
inductive Drawn (s s' : State T) (who : T.AccountId) (reason : T.Reason) (digest : T.AccountId) (d : AssetDelta) :
    Prop
  | traded (step : Traded s s') (not_index : s.indexMap.get (reason, digest) = none)
  | entries (info : IndexInfo T) (step : IndexWithdrawn s s' who reason digest d info)

/-- The commit is resolved. -/
structure Left (s s' : State T) (who : T.AccountId) (reason : T.Reason) (info : CommitInfo T) : Prop where
  found : s.commitMap.get (who, reason) = some info
  drawn : ∃ s₁ d, Drawn s s₁ who reason info.digest d ∧ SameMaps s₁ s'
  commits : s'.commitMap = s.commitMap.remove (who, reason)

variable {s s' : State T} {who : T.AccountId} {reason : T.Reason} {digest : T.AccountId}

theorem Drawn.commits {d : AssetDelta} (h : Drawn s s' who reason digest d) : s'.commitMap = s.commitMap := by
  cases h with
  | traded step => exact step.commits
  | entries info step => exact step.commits

theorem withdrawFor_drawn {d : AssetDelta} (hs : Custody p s)
    (h : withdrawFor s who reason (digestModel s digest reason) = .ok (s', d)) :
    Drawn s s' who reason digest d := by
  rcases digestModel_cases s digest reason with ⟨hm, hk⟩ | ⟨hm, -⟩ | ⟨hm, hk⟩
  · rw [hm] at h
    exact .traded (withdrawFromDigest_traded h) (hs.not_index (.inl hk))
  · rw [hm] at h
    obtain ⟨info, hw⟩ := withdrawFromIndex_withdrawn h
    exact .entries info hw
  · rw [hm] at h
    exact .traded (withdrawFromPool_traded hs.sound h) (hs.not_index (.inr hk))

theorem resolveCommit_left {resolved : Nat} (hs : Custody p s)
    (h : resolveCommit s who reason = .ok (s', resolved)) : ∃ info, Left s s' who reason info := by
  obtain ⟨info, hi, -, h⟩ := resolveCommit_eq_ok h
  obtain ⟨_, -, h⟩ := bind_eq_ok.mp h
  obtain ⟨⟨s1, d⟩, h1, h⟩ := bind_eq_ok.mp h
  have hdrawn := withdrawFor_drawn hs h1
  obtain ⟨hm₂, hcm₂⟩ := finalizeResolveCommit_maps h
  exact ⟨info, hi, ⟨s1, d, hdrawn, hm₂⟩, by rw [hcm₂, hdrawn.commits]⟩

end Resolutions

end FrameSuite
