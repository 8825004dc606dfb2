import FrameSuite.CommitFrame
import FrameSuite.TotalSteps

/-! Two bounds that hold in every reachable state: the total of a reason fits the asset type, and
there are commits only where the runtime allows an account any. -/

namespace FrameSuite

open ShareBalance

variable {T : Config} {s s' : State T} {who : T.AccountId} {reason : T.Reason}

structure Bounded (s : State T) : Prop where
  totals : ∀ r, getTotalValue s r ≤ T.share.maxAsset
  commits : T.maxCommits = 0 → ∀ key, s.commitMap.get key = none

theorem bounded_genesis (ledger : T.Ledger) : Bounded (State.genesis ledger) where
  totals _ := Nat.zero_le _
  commits _ _ := rfl

namespace Bounded

theorem falls (h : Bounded s) (hf : ∀ r, getTotalValue s' r ≤ getTotalValue s r)
    (hc : s'.commitMap = s.commitMap) : Bounded s' := by
  refine ⟨fun r => (hf r).trans (h.totals r), fun hz key => ?_⟩
  rw [hc]
  exact h.commits hz key

theorem of_eq (h : Bounded s) (hr : s'.reasonValue = s.reasonValue) (hc : s'.commitMap = s.commitMap) :
    Bounded s' := by
  refine h.falls (fun r => ?_) hc
  rw [getTotalValue, getTotalValue, hr]

theorem maxCommits_ne (h : Bounded s) {key : T.AccountId × T.Reason} {info : CommitInfo T}
    (hi : s.commitMap.get key = some info) : T.maxCommits ≠ 0 := by
  intro hz
  rw [h.commits hz key] at hi
  cases hi

end Bounded

section Commits

variable {digest : T.AccountId} {value amount : Nat} {variant : T.Position} {q : Directive}
  {receipt : CommitInstance T}

theorem addToTotalValue_le (h : addToTotalValue s reason value = .ok s') (r : T.Reason) :
    getTotalValue s' r ≤ max (getTotalValue s r) T.share.maxAsset := by
  obtain ⟨total, hsum, h⟩ := bind_eq_ok.mp h
  obtain rfl := pure_eq_ok.mp h
  rw [okOr_eq_ok, checkedAdd_eq_some] at hsum
  rw [getTotalValue_setTotalValue]
  split <;> omega

theorem Bounded.finalizePlaceCommit (h : Bounded s)
    (hp : finalizePlaceCommit s who reason digest variant receipt value = .ok s') : Bounded s' := by
  obtain ⟨s₁, h₁, hp⟩ := bind_eq_ok.mp hp
  obtain ⟨l, -, rfl⟩ := onLedger_eq_ok h₁
  obtain ⟨info, hinfo, hp⟩ := bind_eq_ok.mp hp
  have hmax : T.maxCommits ≠ 0 := by
    intro hz
    obtain ⟨commits, hnew, -⟩ := bind_eq_ok.mp hinfo
    rw [Commits.new, if_pos hz] at hnew
    cases hnew
  exact ⟨fun r => (addToTotalValue_le hp r).trans (max_le (h.totals r) le_rfl), fun hz => absurd hz hmax⟩

theorem Bounded.finalizeRaiseCommit (h : Bounded s)
    (hr : finalizeRaiseCommit s who reason receipt value = .ok s') : Bounded s' := by
  obtain ⟨s₁, h₁, hr⟩ := bind_eq_ok.mp hr
  obtain ⟨l, -, rfl⟩ := onLedger_eq_ok h₁
  obtain ⟨old, hold, hr⟩ := bind_eq_ok.mp hr
  rw [getCommit, okOr_eq_ok] at hold
  obtain ⟨info, -, hr⟩ := bind_eq_ok.mp hr
  exact ⟨fun r => (addToTotalValue_le hr r).trans (max_le (h.totals r) le_rfl),
    fun hz => absurd hz (h.maxCommits_ne hold)⟩

theorem Bounded.deductBalance (h : Bounded s) (hd : deductBalance s who value q = .ok (s', amount)) :
    Bounded s' :=
  h.falls ((deductBalance_subtracts who value q).falls s _ hd) (deductBalance_moved hd).commits

theorem depositFor_falls {model : DigestVariant T}
    (h : depositFor s who reason value variant model = .ok (s', receipt, amount)) (r : T.Reason) :
    getTotalValue s' r ≤ getTotalValue s r := by
  cases model with
  | direct digest => exact (depositToDigest_subtracts reason digest value variant).falls s _ h r
  | index indexOf => exact (depositToIndex_subtracts who reason indexOf value).falls s _ h r
  | pool poolOf => exact (depositToPool_subtracts reason poolOf value).falls s _ h r

theorem Bounded.depositFor {model : DigestVariant T} (h : Bounded s)
    (hd : depositFor s who reason value variant model = .ok (s', receipt, amount)) : Bounded s' :=
  h.falls (depositFor_falls hd) (depositFor_moved hd).commits

theorem Bounded.placedFrom (h : Bounded s) (model : DigestVariant T) : Bounded (placedFrom s reason model) := by
  cases model with
  | direct digest =>
    unfold FrameSuite.placedFrom initiateDigest
    dsimp only
    split
    · exact h
    · exact h.of_eq rfl rfl
  | _ => exact h

theorem Bounded.placeCommitOf {model : DigestVariant T} (h : Bounded s)
    (hp : placeCommitOf s who reason model value variant q = .ok (s', amount)) : Bounded s' := by
  obtain ⟨s₁, s₂, actual, receipt, h₁, h₂, h₃⟩ := placeCommitOf_steps hp
  exact (((h.placedFrom model).deductBalance h₁).depositFor h₂).finalizePlaceCommit h₃

theorem Bounded.placeCommitOfVariant (h : Bounded s)
    (hp : placeCommitOfVariant s who reason digest value variant q = .ok (s', amount)) : Bounded s' := by
  obtain ⟨_, -, hp⟩ := bind_eq_ok.mp hp
  obtain ⟨_, -, hp⟩ := bind_eq_ok.mp hp
  exact h.placeCommitOf hp

theorem Bounded.raiseCommit (h : Bounded s) (hr : raiseCommit s who reason value q = .ok (s', amount)) :
    Bounded s' := by
  obtain ⟨info, -, hr⟩ := raiseCommit_eq_ok hr
  obtain ⟨variant, s₁, s₂, actual, receipt, -, h₁, h₂, h₃⟩ := raiseCommitOf_steps hr
  exact ((h.deductBalance h₁).depositFor h₂).finalizeRaiseCommit h₃

theorem Bounded.resolveCommit (h : Bounded s) (hr : resolveCommit s who reason = .ok (s', amount)) :
    Bounded s' := by
  obtain ⟨hk, -⟩ := resolveCommit_removed hr
  obtain ⟨info, hi⟩ := StorageMap.containsKey_iff.mp hk
  have hf := (resolveCommit_subtracts who reason).falls s _ hr
  exact ⟨fun r => (hf r).trans (h.totals r), fun hz => absurd hz (h.maxCommits_ne hi)⟩

theorem Bounded.setCommitVariant (h : Bounded s) (hv : setCommitVariant s who reason variant q = .ok s') :
    Bounded s' := by
  obtain ⟨info, -, ⟨-, rfl⟩ | ⟨-, s₁, reDeposit, placed, h₁, h₂⟩⟩ := setCommitVariant_cases hv
  · exact h
  · exact (h.resolveCommit h₁).placeCommitOfVariant h₂

theorem Bounded.setDigestVariantValue (h : Bounded s)
    (hv : setDigestVariantValue s reason digest value variant = .ok (s', amount)) : Bounded s' := by
  obtain ⟨info, -, hv⟩ := bind_eq_ok.mp hv
  obtain ⟨balance, -, hv⟩ := bind_eq_ok.mp hv
  dsimp only at hv
  split at hv
  · obtain ⟨⟨minted, balance'⟩, -, hv⟩ := bind_eq_ok.mp hv
    obtain ⟨s₁, h₁, hv⟩ := bind_eq_ok.mp hv
    obtain ⟨s₂, h₂, hv⟩ := bind_eq_ok.mp hv
    simp only [pure_eq_ok, Prod.mk.injEq] at hv
    obtain ⟨rfl, -⟩ := hv
    obtain rfl := addAssetToIssue_spec h₁
    refine ⟨fun r => (addToTotalValue_le h₂ r).trans (max_le (h.totals r) le_rfl), fun hz key => ?_⟩
    obtain ⟨rv, rfl, -⟩ := addToTotalValue_spec h₂
    exact h.commits hz key
  split at hv
  · obtain ⟨⟨reaped, balance'⟩, -, hv⟩ := bind_eq_ok.mp hv
    obtain ⟨s₁, h₁, hv⟩ := bind_eq_ok.mp hv
    obtain ⟨s₂, h₂, hv⟩ := bind_eq_ok.mp hv
    simp only [pure_eq_ok, Prod.mk.injEq] at hv
    obtain ⟨rfl, -⟩ := hv
    obtain rfl := addAssetToReap_spec h₁
    have hf := (subFromTotalValue_subtracts reason reaped).falls _ s₂ h₂
    exact h.falls hf (subFromTotalValue_moved h₂).commits
  · simp only [pure_eq_ok, Prod.mk.injEq] at hv
    obtain ⟨rfl, -⟩ := hv
    exact h

end Commits

section Targets

variable {poolOf slotOf : T.AccountId} {shares : Nat} {variant : T.Position}

theorem Bounded.setIndex_or {digest : T.AccountId} (h : Bounded s)
    (hx : s' = s ∨ ∃ index, setIndex s reason index digest = .ok s') : Bounded s' := by
  rcases hx with rfl | ⟨index, hx⟩
  · exact h
  · obtain ⟨-, rfl⟩ := setIndex_spec hx
    exact h.of_eq rfl rfl

theorem Bounded.removePoolSlot (h : Bounded s) (hr : removePoolSlot s reason poolOf slotOf = .ok s') :
    Bounded s' := by
  obtain ⟨pool, -, hset⟩ := removePoolSlot_slots hr
  exact h.falls ((removePoolSlot_subtracts reason poolOf slotOf).falls s s' hr) hset.commits

theorem Bounded.setPoolSlot (h : Bounded s) (hp : setPoolSlot s reason poolOf slotOf shares variant = .ok s') :
    Bounded s' := by
  obtain ⟨pool, -, hset⟩ := setPoolSlot_slots hp
  exact h.falls ((setPoolSlot_subtracts reason poolOf slotOf shares variant).falls s s' hp) hset.commits

theorem Bounded.setSlotShares (h : Bounded s) (hp : setSlotShares s reason poolOf slotOf shares = .ok s') :
    Bounded s' := by
  unfold FrameSuite.setSlotShares at hp
  split at hp <;> split at hp
  · exact h.removePoolSlot hp
  · exact h.setPoolSlot hp
  · obtain rfl := pure_eq_ok.mp hp
    exact h
  · obtain ⟨_, -, hp⟩ := bind_eq_ok.mp hp
    exact h.setPoolSlot hp

theorem Bounded.setSlotOfVariant {shares : Option Nat} (h : Bounded s)
    (hp : setSlotOfVariant s reason poolOf slotOf variant shares = .ok s') : Bounded s' := by
  unfold FrameSuite.setSlotOfVariant at hp
  split at hp
  · split at hp
    · exact h.removePoolSlot hp
    · exact h.setPoolSlot hp
  · exact h.setPoolSlot hp
  · split at hp
    · obtain rfl := pure_eq_ok.mp hp
      exact h
    · obtain ⟨_, -, hp⟩ := bind_eq_ok.mp hp
      exact h.setPoolSlot hp
  · cases hp

end Targets

theorem apply_bounded {call : Call T} (hs : Sound s) (h : Bounded s) (ha : s.apply call = .ok s') : Bounded s' := by
  cases call with
  | placeCommit who reason digest value variant q =>
    obtain ⟨⟨s₁, v⟩, h₁, ha⟩ := bind_eq_ok.mp ha
    obtain rfl := pure_eq_ok.mp ha
    exact h.placeCommitOfVariant h₁
  | raiseCommit who reason value q =>
    obtain ⟨⟨s₁, v⟩, h₁, ha⟩ := bind_eq_ok.mp ha
    obtain rfl := pure_eq_ok.mp ha
    exact h.raiseCommit h₁
  | resolveCommit who reason =>
    obtain ⟨⟨s₁, v⟩, h₁, ha⟩ := bind_eq_ok.mp ha
    obtain rfl := pure_eq_ok.mp ha
    exact h.resolveCommit h₁
  | setCommitVariant who reason variant q => exact h.setCommitVariant ha
  | setDigestValue reason digest value variant =>
    obtain ⟨⟨s₁, v⟩, h₁, ha⟩ := bind_eq_ok.mp ha
    obtain rfl := pure_eq_ok.mp ha
    exact h.setDigestVariantValue h₁
  | reapDigest digest reason =>
    obtain ⟨info, -, -, -, rfl⟩ := reapDigest_spec hs ha
    exact h.of_eq rfl rfl
  | setIndex reason index digest => exact h.setIndex_or (.inr ⟨index, ha⟩)
  | setEntryShares => exact h.setIndex_or (setEntryShares_spec ha)
  | setEntryOfVariant => exact h.setIndex_or (setEntryOfVariant_spec ha)
  | reapIndex reason indexOf =>
    obtain ⟨info, -, -, rfl⟩ := reapIndex_spec ha
    exact h.of_eq rfl rfl
  | setPool =>
    obtain ⟨info, pool, -, -, -, -, rfl⟩ := setPool_spec ha
    exact h.of_eq rfl rfl
  | setPoolManager reason poolOf manager =>
    obtain rfl := setPoolManager_spec ha
    exact h.of_eq rfl rfl
  | setSlotShares => exact h.setSlotShares ha
  | setSlotOfVariant => exact h.setSlotOfVariant ha
  | reapPool reason poolOf =>
    obtain ⟨pool, -, -, rfl⟩ := reapPool_spec hs ha
    exact h.of_eq rfl rfl
  | external ledger =>
    obtain rfl := Except.ok.inj ha
    exact h.of_eq rfl rfl

theorem Reachable.bounded (h : Reachable s) : Bounded s := by
  obtain ⟨ledger, calls, rfl⟩ := h
  refine (run_invariant (P := fun s => Sound s ∧ Bounded s) (fun _ _ _ hs ht => ?_)
    ⟨sound_genesis ledger, bounded_genesis ledger⟩ calls).2
  exact ⟨(apply_books hs.1 ht).sound, apply_bounded hs.1 hs.2 ht⟩

end FrameSuite
