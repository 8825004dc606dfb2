import FrameSuite.Totals

/-! The steps of the pallet that never add to the total of a reason, each walked through once. -/

namespace FrameSuite

open ShareBalance Carries

variable {T : Config}

section Ledger

theorem onLedger_subtracts {op : State T → T.Ledger → Except DispatchError T.Ledger}
    (hop : ∀ s r extra, op (credit s r extra) = op s) : Subtracts fun s : State T => s.onLedger (op s) := by
  refine .read (fun s r extra => ?_) fun _ => .pure ⟨fun _ _ _ => rfl, fun _ _ => rfl⟩
  exact congrFun (hop s r extra) s.ledger

theorem unlessZero_subtracts {F : State T → Except DispatchError (State T)} (hF : Subtracts F) (v : Nat) :
    Subtracts fun s : State T => s.unlessZero v (F s) :=
  .ite (p := fun _ => v = 0) (fun _ _ _ => Iff.rfl) (.pure ⟨fun _ _ _ => rfl, fun _ _ => rfl⟩) hF

theorem resolveImbalance_subtracts (who : T.AccountId) (d : AssetDelta) :
    Subtracts fun s : State T => resolveImbalance s who d := by
  have hincrease (v : Nat) : Subtracts fun s : State T => s.increaseBalance who v :=
    onLedger_subtracts fun _ _ _ => rfl
  have hburn (v : Nat) : Subtracts fun s : State T => s.burnFrom who v :=
    onLedger_subtracts fun _ _ _ => rfl
  have hmint (v : Nat) : Subtracts fun s : State T => s.mintInto who v :=
    onLedger_subtracts fun _ _ _ => rfl
  unfold resolveImbalance
  refine .ite (fun _ _ _ => Iff.rfl) ?_ (.ite (fun _ _ _ => Iff.rfl) ?_ ?_)
  · refine .read (fun _ _ _ => rfl) fun issue => .bind ?_ (.bind (hmint _) ?_)
    · exact (unlessZero_subtracts (hincrease _) _).comp
        (u := fun s : State T => { s with assetToIssue := issue }) ⟨fun _ _ _ => rfl, fun _ _ => rfl⟩
    · exact .pure ⟨fun _ _ _ => rfl, fun _ _ => rfl⟩
  · exact .bind (hincrease _) (.pure ⟨fun _ _ _ => rfl, fun _ _ => rfl⟩)
  · refine .read (fun _ _ _ => rfl) fun reap => .bind ?_ (.bind (unlessZero_subtracts (hburn _) _) ?_)
    · exact (hincrease _).comp (u := fun s : State T => { s with assetToReap := reap })
        ⟨fun _ _ _ => rfl, fun _ _ => rfl⟩
    · exact .pure ⟨fun _ _ _ => rfl, fun _ _ => rfl⟩

theorem deductBalance_subtracts (who : T.AccountId) (value : Nat) (q : Directive) :
    Subtracts fun s : State T => deductBalance s who value q := by
  unfold deductBalance
  refine .ite (fun _ _ _ => Iff.rfl) ?_ (.ite (fun _ _ _ => Iff.rfl) ?_ ?_)
  · exact .bind (onLedger_subtracts fun _ _ _ => rfl) (.pure ⟨fun _ _ _ => rfl, fun _ _ => rfl⟩)
  · exact .read (fun _ _ _ => rfl) fun _ => .error _
  · refine .read (fun _ _ _ => rfl) fun total =>
      .ite (fun _ _ _ => Iff.rfl) (.ite (fun _ _ _ => Iff.rfl) ?_ ?_) ?_
    · exact .read (fun _ _ _ => rfl) fun _ => .error _
    all_goals
      refine .bindOn (onLedger_subtracts fun _ _ _ => rfl) (fun a => ?_) fun _ _ _ => rfl
      exact .bind (onLedger_subtracts fun _ _ _ => rfl) (.pure ⟨fun _ _ _ => rfl, fun _ _ => rfl⟩)

theorem addAssetToReap_subtracts (v : Nat) : Subtracts fun s : State T => addAssetToReap s v :=
  .read (fun _ _ _ => rfl) fun _ => .pure ⟨fun _ _ _ => rfl, fun _ _ => rfl⟩

theorem deductFromImbalance_subtracts (d : AssetDelta) (v : Nat) :
    Subtracts fun s : State T => deductFromImbalance s d v := by
  unfold deductFromImbalance
  refine .ite (fun _ _ _ => Iff.rfl) (.ite (fun _ _ _ => Iff.rfl) ?_ (.ite (fun _ _ _ => Iff.rfl) ?_ ?_)) ?_
  · exact .pure ⟨fun _ _ _ => rfl, fun _ _ => rfl⟩
  · exact .pure ⟨fun _ _ _ => rfl, fun _ _ => rfl⟩
  · exact .bind (addAssetToReap_subtracts _) (.pure ⟨fun _ _ _ => rfl, fun _ _ => rfl⟩)
  · exact .bind (addAssetToReap_subtracts _) (.pure ⟨fun _ _ _ => rfl, fun _ _ => rfl⟩)

theorem subFromTotalValue_subtracts (reason : T.Reason) (v : Nat) :
    Subtracts fun s : State T => subFromTotalValue s reason v := by
  refine ⟨fun s t h r => ?_, fun s r extra t h hle => ?_⟩
  · obtain ⟨total, ht, h⟩ := bind_eq_ok.mp h
    rw [okOr_eq_ok, checkedSub_eq_some] at ht
    obtain rfl := pure_eq_ok.mp h
    simp only [state, getTotalValue_setTotalValue]
    split <;> rename_i hr
    · rw [hr]
      omega
    · exact le_refl _
  · obtain ⟨total, ht, h⟩ := bind_eq_ok.mp h
    rw [okOr_eq_ok, checkedSub_eq_some] at ht
    obtain rfl := pure_eq_ok.mp h
    simp only [state, credited, credit, getTotalValue_setTotalValue] at ht hle
    have hsub : ∃ left, checkedSub (getTotalValue s reason) v = some left ∧
        total = left + if reason = r then extra else 0 := by
      simp only [checkedSub_eq_some]
      by_cases hr : reason = r
      · subst hr
        simp only [if_true] at ht hle ⊢
        exact ⟨getTotalValue s reason - v, by omega, by omega⟩
      · rw [if_neg hr] at ht ⊢
        exact ⟨total, ht, rfl⟩
    obtain ⟨left, hl, rfl⟩ := hsub
    refine ⟨setTotalValue s reason left, bind_eq_ok.mpr ⟨left, okOr_eq_ok.mpr hl, rfl⟩, ?_⟩
    exact setTotalValue_credit s reason r left extra

end Ledger

section Deposits

theorem depositToDigest_subtracts (reason : T.Reason) (digest : T.AccountId) (value : Nat)
    (variant : T.Position) : Subtracts fun s : State T => depositToDigest s reason digest value variant :=
  .read (fun _ _ _ => rfl) fun _ => .read (fun _ _ _ => rfl) fun _ =>
    .pure ⟨fun _ _ _ => rfl, fun _ _ => rfl⟩

theorem depositToEntries_subtracts (who : T.AccountId) (reason : T.Reason) (indexOf : T.AccountId)
    (value capital : Nat) (entries : List (EntryInfo T)) (actual : Nat) :
    Subtracts fun s : State T => depositToEntries who reason indexOf value capital entries s actual := by
  induction entries generalizing actual with
  | nil => exact .pure ⟨fun _ _ _ => rfl, fun _ _ => rfl⟩
  | cons entry entries ih =>
    refine .read (fun _ _ _ => rfl) fun part => .ite (fun _ _ _ => Iff.rfl) (ih actual) ?_
    refine .bind (depositToDigest_subtracts _ _ _ _) (.pair fun ⟨receipt, amount⟩ => ?_)
    refine .bind ?_ (.read (fun _ _ _ => rfl) fun actual => ih actual)
    exact .read (fun _ _ _ => rfl) fun _ => .pure ⟨fun _ _ _ => rfl, fun _ _ => rfl⟩

theorem depositToIndex_subtracts (who : T.AccountId) (reason : T.Reason) (indexOf : T.AccountId)
    (value : Nat) : Subtracts fun s : State T => depositToIndex s who reason indexOf value := by
  refine .read (fun _ _ _ => rfl) fun info => .read (fun _ _ _ => rfl) fun _ => ?_
  refine .bind (depositToEntries_subtracts _ _ _ _ _ _ _) (.pair fun actual => ?_)
  refine .bind (unlessZero_subtracts (onLedger_subtracts fun _ _ _ => rfl) _) ?_
  exact .read (fun _ _ _ => rfl) fun _ => .pure ⟨fun _ _ _ => rfl, fun _ _ => rfl⟩

theorem releasePool_subtracts (reason : T.Reason) (poolOf : T.AccountId) :
    Subtracts fun s : State T => releasePool s reason poolOf := by
  refine .read (fun _ _ _ => rfl) fun pool => .ite (fun _ _ _ => Iff.rfl) ?_ ?_
  · exact .pure ⟨fun _ _ _ => rfl, fun _ _ => rfl⟩
  · refine .read (fun _ _ _ => rfl) fun _ => .read (fun _ _ _ => rfl) fun ⟨digestMap, taken⟩ => ?_
    exact .read (fun _ _ _ => rfl) fun _ => .pure ⟨fun _ _ _ => rfl, fun _ _ => rfl⟩

theorem recoverPool_subtracts (reason : T.Reason) (poolOf : T.AccountId) (balance : LazyBalance T) :
    Subtracts fun s : State T => recoverPool s reason poolOf balance := by
  refine .read (fun _ _ _ => rfl) fun pool => .read (fun _ _ _ => rfl) fun _ =>
    .read (fun _ _ _ => rfl) fun _ => .read (fun _ _ _ => rfl) fun ⟨digestMap, pool, taken⟩ => ?_
  refine .ite (fun _ _ _ => Iff.rfl) (.pure ⟨fun _ _ _ => rfl, fun _ _ => rfl⟩) ?_
  refine .read (fun _ _ _ => rfl) fun manager => .bind ?_ (.pair fun paid => ?_)
  · exact (resolveImbalance_subtracts manager _).comp (u := fun s : State T => { s with digestMap })
      ⟨fun _ _ _ => rfl, fun _ _ => rfl⟩
  · refine .bind (subFromTotalValue_subtracts _ _) ?_
    refine .read (fun _ _ _ => rfl) fun ⟨reaped, balance⟩ => .read (fun _ _ _ => rfl) fun _ => ?_
    exact .pure ⟨fun _ _ _ => rfl, fun _ _ => rfl⟩

theorem depositToPool_subtracts (reason : T.Reason) (poolOf : T.AccountId) (value : Nat) :
    Subtracts fun s : State T => depositToPool s reason poolOf value := by
  refine .bind (releasePool_subtracts _ _) (.pair fun balance => ?_)
  refine .read (fun _ _ _ => rfl) fun ⟨⟨deposited, receipt⟩, balance⟩ => ?_
  exact .bind (recoverPool_subtracts _ _ _) (.pure ⟨fun _ _ _ => rfl, fun _ _ => rfl⟩)

end Deposits

section Withdrawals

theorem withdrawFromDigest_subtracts (who : T.AccountId) (reason : T.Reason) (digest : T.AccountId) :
    Subtracts fun s : State T => withdrawFromDigest s who reason digest := by
  refine .read (fun _ _ _ => rfl) fun variant => .read (fun _ _ _ => rfl) fun info => ?_
  refine .read (fun _ _ _ => rfl) fun balance => .read (fun _ _ _ => rfl) fun commit => ?_
  exact .read (fun _ _ _ => rfl) fun _ => .pure ⟨fun _ _ _ => rfl, fun _ _ => rfl⟩

theorem withdrawEntries_subtracts (who : T.AccountId) (reason : T.Reason) (indexOf : T.AccountId)
    (entries : List (EntryInfo T)) (imbalance : AssetDelta) :
    Subtracts fun s : State T => withdrawEntries who reason indexOf entries s imbalance := by
  induction entries generalizing imbalance with
  | nil => exact .pure ⟨fun _ _ _ => rfl, fun _ _ => rfl⟩
  | cons entry entries ih =>
    refine .read (fun _ _ _ => rfl) fun commits => .read (fun _ _ _ => rfl) fun ⟨digestMap, imbalance⟩ => ?_
    exact (ih imbalance).comp (u := fun s : State T => { s with
      digestMap, entryMap := s.entryMap.remove (reason, indexOf, entry.digest, who) })
      ⟨fun _ _ _ => rfl, fun _ _ => rfl⟩

theorem withdrawFromIndex_subtracts (who : T.AccountId) (reason : T.Reason) (indexOf : T.AccountId) :
    Subtracts fun s : State T => withdrawFromIndex s who reason indexOf := by
  refine .read (fun _ _ _ => rfl) fun info => ?_
  refine .bind (withdrawEntries_subtracts _ _ _ _ _) (.pair fun imbalance => ?_)
  exact .read (fun _ _ _ => rfl) fun _ => .pure ⟨fun _ _ _ => rfl, fun _ _ => rfl⟩

theorem payCommission_subtracts (reason : T.Reason) (poolOf : T.AccountId) (imbalance : AssetDelta) :
    Subtracts fun s : State T => payCommission s reason poolOf imbalance := by
  refine .read (fun _ _ _ => rfl) fun pool => .ite (fun _ _ _ => Iff.rfl) ?_ ?_
  · exact .pure ⟨fun _ _ _ => rfl, fun _ _ => rfl⟩
  · refine .read (fun _ _ _ => rfl) fun payTo => .read (fun _ _ _ => rfl) fun toPay => ?_
    refine .ite (fun _ _ _ => Iff.rfl) (.pure ⟨fun _ _ _ => rfl, fun _ _ => rfl⟩) ?_
    refine .bind (deductFromImbalance_subtracts _ _) (.pair fun ⟨imbalance, payment⟩ => ?_)
    refine .bind (resolveImbalance_subtracts _ _) (.pair fun paid => ?_)
    exact .bind (subFromTotalValue_subtracts _ _) (.pure ⟨fun _ _ _ => rfl, fun _ _ => rfl⟩)

theorem withdrawFromPool_subtracts (who : T.AccountId) (reason : T.Reason) (poolOf : T.AccountId) :
    Subtracts fun s : State T => withdrawFromPool s who reason poolOf := by
  refine .read (fun _ _ _ => rfl) fun commit => ?_
  refine .bind (releasePool_subtracts _ _) (.pair fun balance => ?_)
  refine .read (fun _ _ _ => rfl) fun ⟨balance, imbalance⟩ => ?_
  exact .bind (recoverPool_subtracts _ _ _) (payCommission_subtracts _ _ _)

theorem finalizeResolveCommit_subtracts (who : T.AccountId) (reason : T.Reason) (imbalance : AssetDelta) :
    Subtracts fun s : State T => finalizeResolveCommit s who reason imbalance := by
  have hthaw : Subtracts fun s : State T => s.onLedger fun l => T.asset.thaw l reason who :=
    onLedger_subtracts fun _ _ _ => rfl
  refine .bind ?_ (.bind (resolveImbalance_subtracts _ _) (.pair fun resolved => ?_))
  · exact hthaw.comp (u := fun s : State T => { s with commitMap := s.commitMap.remove (who, reason) })
      ⟨fun _ _ _ => rfl, fun _ _ => rfl⟩
  · exact .bind (subFromTotalValue_subtracts _ _) (.pure ⟨fun _ _ _ => rfl, fun _ _ => rfl⟩)

theorem resolveCommit_subtracts (who : T.AccountId) (reason : T.Reason) :
    Subtracts fun s : State T => resolveCommit s who reason := by
  refine .read (fun _ _ _ => rfl) fun digest => .read (fun _ _ _ => rfl) fun model => ?_
  refine .read (fun _ _ _ => rfl) fun _ => .bind ?_ (.pair fun imbalance => ?_)
  · cases model with
    | direct digest => exact withdrawFromDigest_subtracts who reason digest
    | index indexOf => exact withdrawFromIndex_subtracts who reason indexOf
    | pool poolOf => exact withdrawFromPool_subtracts who reason poolOf
  · exact finalizeResolveCommit_subtracts who reason imbalance

end Withdrawals

section Slots

theorem removePoolSlot_subtracts (reason : T.Reason) (poolOf slotOf : T.AccountId) :
    Subtracts fun s : State T => removePoolSlot s reason poolOf slotOf := by
  refine .bind (releasePool_subtracts _ _) (.pair fun balance => ?_)
  refine .read (fun _ _ _ => rfl) fun _ => .read (fun _ _ _ => rfl) fun pool =>
    .read (fun _ _ _ => rfl) fun _ => ?_
  exact (recoverPool_subtracts _ _ _).comp (u := fun s : State T => { s with
    poolMap := s.poolMap.insert (reason, poolOf) pool }) ⟨fun _ _ _ => rfl, fun _ _ => rfl⟩

theorem setPoolSlot_subtracts (reason : T.Reason) (poolOf slotOf : T.AccountId) (shares : Nat)
    (variant : T.Position) : Subtracts fun s : State T => setPoolSlot s reason poolOf slotOf shares variant := by
  refine .read (fun _ _ _ => rfl) fun _ => .bind (releasePool_subtracts _ _) (.pair fun balance => ?_)
  refine .read (fun _ _ _ => rfl) fun _ => .read (fun _ _ _ => rfl) fun _ =>
    .read (fun _ _ _ => rfl) fun _ => .read (fun _ _ _ => rfl) fun pool => ?_
  exact (recoverPool_subtracts _ _ _).comp (u := fun s : State T => { s with
    poolMap := s.poolMap.insert (reason, poolOf) pool }) ⟨fun _ _ _ => rfl, fun _ _ => rfl⟩

end Slots

section Reaping

theorem reapDigest_subtracts (digest : T.AccountId) (reason : T.Reason) :
    Subtracts fun s : State T => reapDigest s digest reason := by
  refine .read (fun _ _ _ => rfl) fun info => .read (fun _ _ _ => rfl) fun balances =>
    .read (fun _ _ _ => rfl) fun _ => .bind (unlessZero_subtracts ?_ _) ?_
  · exact .bind (addAssetToReap_subtracts _) (subFromTotalValue_subtracts _ _)
  · exact .pure ⟨fun _ _ _ => rfl, fun _ _ => rfl⟩

theorem reapPool_subtracts (reason : T.Reason) (poolOf : T.AccountId) :
    Subtracts fun s : State T => reapPool s reason poolOf := by
  refine .read (fun _ _ _ => rfl) fun pool => .read (fun _ _ _ => rfl) fun _ =>
    .bind (unlessZero_subtracts ?_ _) (.pure ⟨fun _ _ _ => rfl, fun _ _ => rfl⟩)
  refine .read (fun _ _ _ => rfl) fun manager => .bind (resolveImbalance_subtracts _ _) ?_
  exact .pair fun _ => subFromTotalValue_subtracts _ _

theorem reapIndex_subtracts (reason : T.Reason) (indexOf : T.AccountId) :
    Subtracts fun s : State T => reapIndex s reason indexOf :=
  .read (fun _ _ _ => rfl) fun _ => .read (fun _ _ _ => rfl) fun _ => .read (fun _ _ _ => rfl) fun _ =>
    .pure ⟨fun _ _ _ => rfl, fun _ _ => rfl⟩

end Reaping

end FrameSuite
