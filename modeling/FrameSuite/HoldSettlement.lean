import FrameSuite.AuthorSteps
import FrameSuite.HoldSheet
import FrameSuite.Totals
import FrameSuite.WithdrawSpec

/-! The holds in the storage of the authors pallet as a sheet of stakes. When the sheet bears the
obligations of a block, the hook at its start settles them as the sheet does. -/

namespace FrameSuite

section Commitment

variable {T : Config} {s : State T} {reason : T.Reason} {digest : T.AccountId} {old : Stake} {value : Nat}

def digestStake (s : State T) (reason : T.Reason) (digest : T.AccountId) : Option Stake := do
  let info ← s.digestMap.get (reason, digest)
  let balance ← info.getBalance T.positionDefault
  pure { value := ShareBalance.totalValue balance, issued := ShareBalance.issuedShares balance }

theorem digestStake_eq_some : digestStake s reason digest = some old ↔
    ∃ info balance, s.digestMap.get (reason, digest) = some info ∧
      info.getBalance T.positionDefault = some balance ∧
        old = { value := ShareBalance.totalValue balance, issued := ShareBalance.issuedShares balance } := by
  unfold digestStake
  cases s.digestMap.get (reason, digest) with
  | none => simp
  | some info => cases hb : info.getBalance T.positionDefault <;> simp [hb, eq_comm]

/-- One digest has a new value under the same shares, and the counters moved by the difference. -/
structure StakeWritten (s s' : State T) (reason : T.Reason) (digest : T.AccountId) (old : Stake) (value : Nat) :
    Prop where
  stake : ∀ r d, digestStake s' r d =
    if r = reason ∧ d = digest then some { old with value } else digestStake s r d
  total : ∀ r, getTotalValue s' r =
    if r = reason then getTotalValue s reason + (value - old.value) - (old.value - value) else getTotalValue s r
  toIssue : s'.assetToIssue = s.assetToIssue + (value - old.value)
  toReap : s'.assetToReap = s.assetToReap + (old.value - value)

theorem digestStake_putBalance {info : DigestInfo T} {balance balance' : LazyBalance T}
    (hi : s.digestMap.get (reason, digest) = some info) (hb : info.getBalance T.positionDefault = some balance)
    (r : T.Reason) (d : T.AccountId) :
    digestStake (putBalance s reason digest info T.positionDefault balance') r d =
      if r = reason ∧ d = digest then
        some { value := ShareBalance.totalValue balance', issued := ShareBalance.issuedShares balance' }
      else digestStake s r d := by
  by_cases hk : r = reason ∧ d = digest
  · obtain ⟨rfl, rfl⟩ := hk
    simp [digestStake, putBalance, DigestInfo.getBalance_setBalance hb]
  · have hne : (r, d) ≠ (reason, digest) := fun he => hk (Prod.mk.inj he)
    simp [digestStake, putBalance, StorageMap.get_insert_of_ne hne, hk]

theorem addAssetToIssue_eq {v : Nat} (h : s.assetToIssue + v ≤ T.share.maxAsset) :
    addAssetToIssue s v = .ok { s with assetToIssue := s.assetToIssue + v } := by
  simp [addAssetToIssue, checkedAdd, h, okOr, bind, Except.bind, pure, Except.pure]

theorem addAssetToReap_eq {v : Nat} (h : s.assetToReap + v ≤ T.share.maxAsset) :
    addAssetToReap s v = .ok { s with assetToReap := s.assetToReap + v } := by
  simp [addAssetToReap, checkedAdd, h, okOr, bind, Except.bind, pure, Except.pure]

theorem addToTotalValue_eq {v : Nat} (h : getTotalValue s reason + v ≤ T.share.maxAsset) :
    addToTotalValue s reason v = .ok (setTotalValue s reason (getTotalValue s reason + v)) := by
  simp [addToTotalValue, checkedAdd, h, okOr, bind, Except.bind, pure, Except.pure]

theorem subFromTotalValue_eq {v : Nat} (h : v ≤ getTotalValue s reason) :
    subFromTotalValue s reason v = .ok (setTotalValue s reason (getTotalValue s reason - v)) := by
  simp [subFromTotalValue, checkedSub, h, okOr, bind, Except.bind, pure, Except.pure]

theorem bookChange_eq {s' s'' : State T} {count total : State T → Except DispatchError (State T)}
    (hcount : count s = .ok s') (htotal : total s' = .ok s'') (v : Nat) :
    bookChange s count total v = (s'', .ok v) := by
  simp [bookChange, hcount, htotal]

theorem writeDigestValue_raised (hstake : digestStake s reason digest = some old) (hlt : old.value < value)
    (hissued : old.issued ≠ 0) (hprice : value * T.share.rational.div / old.issued ≤ T.share.rational.maxInner)
    (hle : value ≤ T.share.maxAsset) (hissue : s.assetToIssue + (value - old.value) ≤ T.share.maxAsset)
    (htotal : getTotalValue s reason + (value - old.value) ≤ T.share.maxAsset) :
    ∃ s', writeDigestValue s reason digest value T.positionDefault = (s', .ok value) ∧
      StakeWritten s s' reason digest old value := by
  obtain ⟨info, balance, hi, hb, rfl⟩ := digestStake_eq_some.mp hstake
  cases balance with
  | none => exact absurd rfl hissued
  | some b =>
    simp only [ShareBalance.totalValue_some, ShareBalance.issuedShares_some] at *
    have hsum : b.effective + (value - b.effective) = value := by omega
    let after := ShareBalance.balanceCheckpoint { b with
      effective := b.effective + (value - b.effective)
      bias := ⟨value * T.share.rational.div / b.issued, hprice⟩ }
    have hmint : ShareBalance.mint (some b) (value - b.effective) = (.ok (value - b.effective), some after) :=
      (ShareBalance.mint_eq_ok (by omega)).mpr ⟨b, _, rfl, rfl, rfl, hissued, by omega, _, by rw [hsum], rfl⟩
    let put := putBalance s reason digest info T.positionDefault (some after)
    let issued : State T := { put with assetToIssue := put.assetToIssue + (value - b.effective) }
    have hcount : addAssetToIssue put (value - b.effective) = .ok issued := addAssetToIssue_eq hissue
    have hbooked : addToTotalValue issued reason (value - b.effective) =
        .ok (setTotalValue issued reason (getTotalValue s reason + (value - b.effective))) :=
      addToTotalValue_eq htotal
    refine ⟨setTotalValue issued reason (getTotalValue s reason + (value - b.effective)), ?_,
      ⟨fun r d => ?_, fun r => ?_, rfl, ?_⟩⟩
    · simp only [writeDigestValue, hi, hb, ShareBalance.totalValue_some, hlt, if_true, hmint]
      rw [saturatingAdd_of_le (by omega), hsum]
      exact bookChange_eq hcount hbooked _
    · have hput : digestStake put r d = if r = reason ∧ d = digest then some { value, issued := b.issued } else
          digestStake s r d := by
        rw [digestStake_putBalance hi hb]
        simp [after, hsum]
      exact hput
    · rw [getTotalValue_setTotalValue]
      have hz : b.effective - value = 0 := by omega
      simp only [hz, Nat.sub_zero]
      rfl
    · have hz : b.effective - value = 0 := by omega
      simp only [hz]
      rfl

theorem writeDigestValue_lowered (hstake : digestStake s reason digest = some old) (hlt : value < old.value)
    (hissued : old.issued ≠ 0) (hprice : value * T.share.rational.div / old.issued ≤ T.share.rational.maxInner)
    (hreap : s.assetToReap + (old.value - value) ≤ T.share.maxAsset)
    (htotal : old.value - value ≤ getTotalValue s reason) :
    ∃ s', writeDigestValue s reason digest value T.positionDefault = (s', .ok value) ∧
      StakeWritten s s' reason digest old value := by
  obtain ⟨info, balance, hi, hb, rfl⟩ := digestStake_eq_some.mp hstake
  cases balance with
  | none => exact absurd rfl hissued
  | some b =>
    simp only [ShareBalance.totalValue_some, ShareBalance.issuedShares_some] at *
    have hsub : b.effective - (b.effective - value) = value := by omega
    let after := ShareBalance.balanceCheckpoint { b with
      effective := b.effective - (b.effective - value)
      bias := ⟨value * T.share.rational.div / b.issued, hprice⟩ }
    have hmint : ShareBalance.reap (some b) (b.effective - value) = (.ok (b.effective - value), some after) :=
      (ShareBalance.reap_eq_ok (by omega)).mpr ⟨b, _, rfl, rfl, rfl, hissued, by omega, _, by rw [hsub], rfl⟩
    let put := putBalance s reason digest info T.positionDefault (some after)
    let reaped : State T := { put with assetToReap := put.assetToReap + (b.effective - value) }
    have hcount : addAssetToReap put (b.effective - value) = .ok reaped := addAssetToReap_eq hreap
    have hbooked : subFromTotalValue reaped reason (b.effective - value) =
        .ok (setTotalValue reaped reason (getTotalValue s reason - (b.effective - value))) :=
      subFromTotalValue_eq htotal
    have hz : value - b.effective = 0 := by omega
    have hle : ¬ b.effective < value := by omega
    refine ⟨setTotalValue reaped reason (getTotalValue s reason - (b.effective - value)), ?_,
      ⟨fun r d => ?_, fun r => ?_, ?_, rfl⟩⟩
    · simp only [writeDigestValue, hi, hb, ShareBalance.totalValue_some, hle, if_false, hlt, if_true, hmint]
      rw [hsub]
      exact bookChange_eq hcount hbooked _
    · have hput : digestStake put r d = if r = reason ∧ d = digest then some { value, issued := b.issued } else
          digestStake s r d := by
        rw [digestStake_putBalance hi hb]
        simp [after, hsub]
      exact hput
    · rw [getTotalValue_setTotalValue]
      simp only [hz, Nat.add_zero]
      rfl
    · simp only [hz]
      rfl

theorem writeDigestValue_same (hstake : digestStake s reason digest = some old) :
    writeDigestValue s reason digest old.value T.positionDefault = (s, .ok old.value) := by
  obtain ⟨info, balance, hi, hb, rfl⟩ := digestStake_eq_some.mp hstake
  simp only [writeDigestValue, hi, hb, lt_irrefl, if_false]

theorem StakeWritten.of_same (hstake : digestStake s reason digest = some old) :
    StakeWritten s s reason digest old old.value := by
  refine ⟨fun r d => ?_, fun r => ?_, by simp, by simp⟩
  · by_cases hk : r = reason ∧ d = digest
    · obtain ⟨rfl, rfl⟩ := hk
      simp [hstake]
    · simp [hk]
  · by_cases hr : r = reason
    · simp [hr]
    · simp [hr]

end Commitment

variable {T : AuthorConfig} {s s' : AuthorState T} {who : T.AccountId} {side : HoldSide} {value : Nat}

def sideReason (T : AuthorConfig) : HoldSide → T.Reason
  | .funding => T.authorFunding
  | .collateral => T.authorCollateral

theorem sideReason_inj {side' : HoldSide} (h : sideReason T side' = sideReason T side) : side' = side := by
  cases side <;> cases side'
  case funding.collateral => exact absurd h.symm T.reasons_ne
  case collateral.funding => exact absurd h T.reasons_ne
  all_goals rfl

namespace AuthorState

def holdSheet (s : AuthorState T) : HoldSheet T.AccountId where
  stake side who := do
    let info ← s.authorsMap.get who
    digestStake s.commitment (sideReason T side) info.digest
  total side := getTotalValue s.commitment (sideReason T side)
  toIssue := s.commitment.assetToIssue
  toReap := s.commitment.assetToReap

/-- No two authors share a digest. -/
def DigestsApart (s : AuthorState T) : Prop :=
  ∀ a b info info', s.authorsMap.get a = some info → s.authorsMap.get b = some info' →
    info.digest = info'.digest → a = b

theorem stake_holdSheet {info : AuthorInfo T.AccountId} (hi : s.authorsMap.get who = some info) :
    s.holdSheet.stake side who = digestStake s.commitment (sideReason T side) info.digest := by
  simp [holdSheet, hi]

end AuthorState

theorem StakeWritten.sheet {c : State T.toConfig} {info : AuthorInfo T.AccountId} {old : Stake}
    (ha : s.DigestsApart) (hi : s.authorsMap.get who = some info)
    (hold : digestStake s.commitment (sideReason T side) info.digest = some old)
    (h : StakeWritten s.commitment c (sideReason T side) info.digest old value) :
    ({ s with commitment := c } : AuthorState T).holdSheet = s.holdSheet.write side who value := by
  have hstake : s.holdSheet.stake side who = some old := by rw [AuthorState.stake_holdSheet hi, hold]
  unfold HoldSheet.write
  rw [hstake]
  unfold AuthorState.holdSheet
  dsimp only
  congr 1
  · funext side' a
    cases ha' : s.authorsMap.get a with
    | none =>
      have hne : a ≠ who := by
        rintro rfl
        cases ha'.symm.trans hi
      simp [hne]
    | some info' =>
      simp only [Option.bind_eq_bind, Option.bind_some, h.stake]
      refine if_congr ⟨?_, ?_⟩ rfl rfl
      · rintro ⟨hr, hd⟩
        exact ⟨sideReason_inj hr, ha a who info' info ha' hi hd⟩
      · rintro ⟨rfl, rfl⟩
        obtain rfl := Option.some.inj (ha'.symm.trans hi)
        exact ⟨rfl, rfl⟩
  · funext side'
    rw [h.total]
    exact if_congr ⟨sideReason_inj, fun hs => by rw [hs]⟩ rfl rfl
  · exact h.toIssue
  · exact h.toReap

theorem writeValue_sheet {info : AuthorInfo T.AccountId} (ha : s.DigestsApart)
    (hi : s.authorsMap.get who = some info) (h : s.holdSheet.Takes T.share side who value) :
    (writeValue s (sideReason T side) info.digest value).2 = .ok () ∧
      (writeValue s (sideReason T side) info.digest value).1.holdSheet = s.holdSheet.write side who value := by
  obtain ⟨old, hstake, hprice, hup, hdown⟩ := h
  rw [AuthorState.stake_holdSheet hi] at hstake
  have hwrite : ∃ c, writeDigestValue s.commitment (sideReason T side) info.digest value T.positionDefault =
      (c, .ok value) ∧ StakeWritten s.commitment c (sideReason T side) info.digest old value := by
    obtain hlt | heq | hgt := Nat.lt_trichotomy old.value value
    · obtain ⟨hissued, hfit⟩ := hprice (Nat.ne_of_lt hlt)
      obtain ⟨hle, hissue, htotal⟩ := hup hlt
      exact writeDigestValue_raised hstake hlt hissued hfit hle hissue htotal
    · subst heq
      exact ⟨s.commitment, writeDigestValue_same hstake, .of_same hstake⟩
    · obtain ⟨hissued, hfit⟩ := hprice (Nat.ne_of_gt hgt)
      obtain ⟨hreap, htotal⟩ := hdown hgt
      exact writeDigestValue_lowered hstake hgt hissued hfit hreap htotal
  obtain ⟨c, hc, hw⟩ := hwrite
  have heq : writeValue s (sideReason T side) info.digest value = ({ s with commitment := c }, .ok ()) := by
    simp [writeValue, hc, liftCommit, Except.map, Except.mapError]
  rw [heq]
  exact ⟨rfl, hw.sheet ha hi hstake⟩

theorem getHold_eq_ok {parts : Nat × Nat} (h : holdParts s who = .ok parts) :
    getHold s who = .ok (parts.1 + parts.2) := by
  unfold getHold
  rw [h]
  rfl

theorem holdParts_of_sheet {parts : Nat × Nat} (h : s.holdSheet.parts who = some parts)
    (hle : parts.1 + parts.2 ≤ T.share.maxAsset) : holdParts s who = .ok parts := by
  obtain ⟨funding, collateral, hf, hc, rfl⟩ := HoldSheet.parts_eq_some.mp h
  obtain ⟨info, hi, hf⟩ := Option.bind_eq_some_iff.mp hf
  rw [AuthorState.stake_holdSheet hi] at hc
  have hvalue {reason : T.Reason} {stake : Stake} (hs : digestStake s.commitment reason info.digest = some stake) :
      getDigestValue s.commitment reason info.digest = .ok stake.value := by
    obtain ⟨digestInfo, balance, hd, hb, rfl⟩ := digestStake_eq_some.mp hs
    unfold getDigestValue getDigestVariantValue
    rw [hd]
    simp [okOr, hb, bind, Except.bind, pure, Except.pure]
  refine bind_eq_ok.mpr ⟨info, getMeta_eq_ok.mpr hi, bind_eq_ok.mpr ⟨funding.value, ?_, ?_⟩⟩
  · exact liftCommit_eq_ok.mpr (hvalue hf)
  · refine bind_eq_ok.mpr ⟨collateral.value, liftCommit_eq_ok.mpr (hvalue hc), ?_⟩
    exact bind_eq_ok.mpr ⟨(), ensure_eq_ok.mpr hle, rfl⟩

theorem AuthorState.DigestsApart.of_infos (h : s.DigestsApart) (hi : s'.authorsMap = s.authorsMap) :
    s'.DigestsApart := by
  intro a b info info' ha hb
  rw [hi] at ha hb
  exact h a b info info' ha hb

theorem writeHold_eq {info : AuthorInfo T.AccountId} {funding collateral : Nat} (hi : getMeta s who = .ok info)
    (hparts : holdParts s who = .ok (funding, collateral))
    (hfirst : writeValue s T.authorFunding info.digest (fundingPart funding collateral value) = (s', .ok ())) :
    writeHold s who value =
      writeValue s' T.authorCollateral info.digest (value - fundingPart funding collateral value) := by
  simp only [writeHold, hi, hparts, hfirst]

theorem adjustHold_sheet {o : Obligation} {f : Nat → Nat} (ha : s.DigestsApart)
    (h : s.holdSheet.Bears T.share who o)
    (hf : ∀ hold, o.due hold ≤ T.share.maxAsset → f hold = o.due hold) :
    (adjustHold s who f).holdSheet = s.holdSheet.settle who o := by
  obtain ⟨parts, hparts, hle, hdue, hfunding, hcollateral⟩ := h
  have hheld := holdParts_of_sheet hparts hle
  obtain ⟨old, -, hstake, -, -⟩ := HoldSheet.parts_eq_some.mp hparts
  obtain ⟨info, hi, -⟩ := Option.bind_eq_some_iff.mp hstake
  obtain ⟨hok, hsheet⟩ := writeValue_sheet ha hi hfunding
  obtain ⟨c, hc, -⟩ := writeValue_moved s T.authorFunding info.digest (o.settle parts).1
  have hfirst : writeValue s T.authorFunding info.digest (o.settle parts).1 = ({ s with commitment := c }, .ok ()) :=
    Prod.ext hc hok
  have hnext : ({ s with commitment := c } : AuthorState T).holdSheet =
      s.holdSheet.write .funding who (o.settle parts).1 := by
    rw [← hsheet, ← hc]
    rfl
  rw [← hnext] at hcollateral
  have hapart : ({ s with commitment := c } : AuthorState T).DigestsApart := ha.of_infos rfl
  obtain ⟨-, hlast⟩ := writeValue_sheet hapart hi hcollateral
  rw [adjustHold, getHold_eq_ok hheld]
  dsimp only
  rw [hf _ hdue, writeHold_eq (getMeta_eq_ok.mpr hi) hheld hfirst, HoldSheet.settle, hparts]
  dsimp only
  rw [← hnext]
  exact hlast

/-- The obligations of a block in the order in which they are settled. -/
def AuthorState.dueObligations (s : AuthorState T) (block : Nat) : List (T.AccountId × Obligation) :=
  ((s.authorRewards.iterPrefix T.hashOrder block).map fun due => (due.1, .reward due.2)) ++
    (s.authorPenalties.iterPrefix T.hashOrder block).map fun due => (due.1, .penalty due.2)

section Frame

variable {block : Nat}

theorem adjustHold_eq (s : AuthorState T) (who : T.AccountId) (f : Nat → Nat) :
    ∃ c, adjustHold s who f = { s with commitment := c } := by
  obtain ⟨c, hc, -⟩ := adjustHold_moved s who f
  exact ⟨c, hc⟩

theorem settleReward_eq (block : Nat) (s : AuthorState T) (due : T.AccountId × Nat) :
    ∃ c, settleReward block s due =
      { s with commitment := c, authorRewards := s.authorRewards.remove (block, due.1) } := by
  obtain ⟨c, hc⟩ := adjustHold_eq s due.1 fun hold => saturatingAdd T.share.maxAsset hold due.2
  exact ⟨c, by rw [settleReward, hc]⟩

theorem settlePenalty_eq (block : Nat) (s : AuthorState T) (due : T.AccountId × Perbill) :
    ∃ c, settlePenalty block s due =
      { s with commitment := c, authorPenalties := s.authorPenalties.remove (block, due.1) } := by
  obtain ⟨c, hc⟩ := adjustHold_eq s due.1 fun hold => hold - due.2.mulFloor hold
  exact ⟨c, by rw [settlePenalty, hc]⟩

/-- The entries of a block are taken out one by one. -/
def clearBlock {V : Type} (block : Nat) (dues : List (T.AccountId × V)) (m : StorageMap (Nat × T.AccountId) V) :
    StorageMap (Nat × T.AccountId) V :=
  dues.foldl (fun m due => m.remove (block, due.1)) m

theorem get_clearBlock {V : Type} {dues : List (T.AccountId × V)} {m : StorageMap (Nat × T.AccountId) V}
    {b : Nat} : (clearBlock block dues m).get (b, who) =
      if b = block ∧ who ∈ dues.map Prod.fst then none else m.get (b, who) := by
  induction dues generalizing m with
  | nil => simp [clearBlock]
  | cons due dues ih =>
    change (clearBlock block dues (m.remove (block, due.1))).get (b, who) = _
    rw [ih, StorageMap.get_remove, List.map_cons]
    simp only [List.mem_cons, Prod.mk.injEq]
    by_cases hb : b = block
    · by_cases hw : who = due.1
      · simp [hb, hw]
      · simp only [hb, hw, true_and, false_or, if_false]
    · simp only [hb, false_and, if_false]

theorem get_clearBlock_iterPrefix {V : Type} {m : StorageMap (Nat × T.AccountId) V} {b : Nat} :
    (clearBlock block (m.iterPrefix T.hashOrder block) m).get (b, who) =
      if b = block then none else m.get (b, who) := by
  rw [get_clearBlock]
  by_cases hb : b = block
  · subst hb
    cases hm : m.get (b, who) with
    | none => simp
    | some v =>
      have hmem : who ∈ (m.iterPrefix T.hashOrder b).map Prod.fst :=
        List.mem_map.mpr ⟨(who, v), StorageMap.mem_iterPrefix.mpr hm, rfl⟩
      simp [hmem]
  · simp [hb]

theorem foldl_settleReward_eq (s : AuthorState T) (block : Nat) (dues : List (T.AccountId × Nat)) :
    ∃ c, dues.foldl (settleReward block) s =
      { s with commitment := c, authorRewards := clearBlock block dues s.authorRewards } := by
  induction dues generalizing s with
  | nil => exact ⟨s.commitment, rfl⟩
  | cons due dues ih =>
    obtain ⟨c, hc⟩ := settleReward_eq block s due
    obtain ⟨c', hc'⟩ := ih (settleReward block s due)
    refine ⟨c', ?_⟩
    rw [List.foldl_cons, hc', hc]
    rfl

theorem foldl_settlePenalty_eq (s : AuthorState T) (block : Nat) (dues : List (T.AccountId × Perbill)) :
    ∃ c, dues.foldl (settlePenalty block) s =
      { s with commitment := c, authorPenalties := clearBlock block dues s.authorPenalties } := by
  induction dues generalizing s with
  | nil => exact ⟨s.commitment, rfl⟩
  | cons due dues ih =>
    obtain ⟨c, hc⟩ := settlePenalty_eq block s due
    obtain ⟨c', hc'⟩ := ih (settlePenalty block s due)
    refine ⟨c', ?_⟩
    rw [List.foldl_cons, hc', hc]
    rfl

/-- The hook removes all obligations of its block, settled or not, and none of another block. -/
theorem onInitialize_eq (s : AuthorState T) (block : Nat) : ∃ c, onInitialize s block = { s with
    commitment := c
    authorRewards := clearBlock block (s.authorRewards.iterPrefix T.hashOrder block) s.authorRewards
    authorPenalties := clearBlock block (s.authorPenalties.iterPrefix T.hashOrder block) s.authorPenalties } := by
  obtain ⟨c, hc⟩ := foldl_settleReward_eq s block (s.authorRewards.iterPrefix T.hashOrder block)
  obtain ⟨c', hc'⟩ := foldl_settlePenalty_eq { s with
      commitment := c
      authorRewards := clearBlock block (s.authorRewards.iterPrefix T.hashOrder block) s.authorRewards } block
    (s.authorPenalties.iterPrefix T.hashOrder block)
  refine ⟨c', ?_⟩
  rw [onInitialize, hc]
  exact hc'

end Frame

theorem foldl_sheet {α : Type} {f : AuthorState T → α → AuthorState T} {g : α → T.AccountId × Obligation}
    (hinfos : ∀ s a, (f s a).authorsMap = s.authorsMap)
    (hf : ∀ s a, s.DigestsApart → s.holdSheet.Bears T.share (g a).1 (g a).2 →
      (f s a).holdSheet = s.holdSheet.settle (g a).1 (g a).2)
    {dues : List α} (ha : s.DigestsApart) (h : s.holdSheet.BearsAll T.share (dues.map g)) :
    (dues.foldl f s).holdSheet = s.holdSheet.settleAll (dues.map g) := by
  induction dues generalizing s with
  | nil => rfl
  | cons due dues ih =>
    obtain ⟨hbears, hrest⟩ := h
    have hnext := hf s due ha hbears
    rw [← hnext] at hrest
    rw [List.foldl_cons, ih (ha.of_infos (hinfos s due)) hrest, hnext]
    rfl

/-- The hook at the start of a block settles the sheet of the holds, when the sheet bears what is due. -/
theorem onInitialize_sheet {block : Nat} (ha : s.DigestsApart)
    (h : s.holdSheet.BearsAll T.share (s.dueObligations block)) :
    (onInitialize s block).holdSheet = s.holdSheet.settleAll (s.dueObligations block) := by
  obtain ⟨hrewards, hpenalties⟩ := HoldSheet.bearsAll_append.mp h
  obtain ⟨c, hc⟩ := foldl_settleReward_eq s block (s.authorRewards.iterPrefix T.hashOrder block)
  have hfirst := foldl_sheet (f := settleReward block) (g := fun due => (due.1, .reward due.2))
    (fun s due => by obtain ⟨c, hc⟩ := settleReward_eq block s due; rw [hc])
    (fun s due ha hb => adjustHold_sheet ha hb fun hold hle => saturatingAdd_of_le hle) ha hrewards
  rw [onInitialize, AuthorState.dueObligations, HoldSheet.settleAll, List.foldl_append]
  rw [hc] at hfirst ⊢
  dsimp only
  rw [← hfirst] at hpenalties
  change _ = HoldSheet.settleAll (s.holdSheet.settleAll _) _
  rw [← hfirst]
  exact foldl_sheet (f := settlePenalty block) (g := fun due => (due.1, .penalty due.2))
    (fun s due => by obtain ⟨c, hc⟩ := settlePenalty_eq block s due; rw [hc])
    (fun s due ha hb => adjustHold_sheet ha hb fun hold hle => rfl) (ha.of_infos rfl) hpenalties

def AuthorState.booked (s : AuthorState T) (kind : DueKind) (block : Nat) (who : T.AccountId) : Option Obligation :=
  match kind with
  | .reward => (s.authorRewards.get (block, who)).map .reward
  | .penalty => (s.authorPenalties.get (block, who)).map .penalty

/-- The obligations of one author in a block. -/
def AuthorState.dueOf (s : AuthorState T) (block : Nat) (who : T.AccountId) : List Obligation :=
  (s.booked .reward block who).toList ++ (s.booked .penalty block who).toList

theorem dueObligations_filter {block : Nat} :
    ((s.dueObligations block).filter fun due => due.1 = who).map Prod.snd = s.dueOf block who := by
  have hmap {V : Type} (m : StorageMap (Nat × T.AccountId) V) (f : V → Obligation) :
      (((m.iterPrefix T.hashOrder block).map fun due => (due.1, f due.2)).filter fun due => due.1 = who).map
          Prod.snd = ((m.get (block, who)).map f).toList := by
    rw [List.filter_map, List.map_map]
    change (((m.iterPrefix T.hashOrder block).filter fun due => due.1 = who).map _) = _
    rw [StorageMap.iterPrefix_filter]
    cases m.get (block, who) <;> rfl
  rw [AuthorState.dueObligations, List.filter_append, List.map_append, hmap, hmap]
  rfl

/-- An author with an obligation in the block is left with the parts that its obligations make due. -/
theorem onInitialize_parts {block : Nat} {o : Obligation} (ha : s.DigestsApart)
    (h : s.holdSheet.BearsAll T.share (s.dueObligations block)) (ho : o ∈ s.dueOf block who) :
    ∃ parts, holdParts s who = .ok parts ∧ holdParts (onInitialize s block) who =
      .ok ((s.dueOf block who).foldl (fun parts o => o.settle parts) parts) := by
  have hmem : (who, o) ∈ s.dueObligations block := by
    rw [← dueObligations_filter] at ho
    obtain ⟨due, hdue, rfl⟩ := List.mem_map.mp ho
    obtain ⟨hfound, hwho⟩ := List.mem_filter.mp hdue
    obtain rfl := of_decide_eq_true hwho
    exact hfound
  obtain ⟨parts, hparts, hle⟩ := h.parts hmem
  have hafter : (s.holdSheet.settleAll (s.dueObligations block)).parts who = some _ :=
    HoldSheet.parts_settleAll hparts
  have hlast := h.parts_le hparts hle hafter
  rw [← onInitialize_sheet ha h, dueObligations_filter] at hafter
  rw [dueObligations_filter] at hlast
  exact ⟨parts, holdParts_of_sheet hparts hle, holdParts_of_sheet hafter hlast⟩

end FrameSuite
