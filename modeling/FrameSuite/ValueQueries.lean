import FrameSuite.DirectSafety
import FrameSuite.WholeWithdrawals

/-! The value a proprietor is shown for a direct commit, against what its resolution pays. The
query prices every receipt on its own, the resolution one after the other, so the two part only
where the commit closes its balance and rounding leaves something on it. -/

namespace FrameSuite

open ShareBalance

section Receipts

variable {C : ShareConfig} {b : Balance C} {rs : List (Receipt C)}

/-- Neither the price of the balance nor the value of any of the receipts is rounded. -/
def Unrounded (b : Balance C) (rs : List (Receipt C)) : Prop :=
  b.bias.inner * b.issued = b.effective * C.rational.div ∧
    ∀ r ∈ rs, quote b r * C.rational.div = r.shares * b.bias.inner

theorem totalQuote_cons (b : Balance C) (r : Receipt C) (rs : List (Receipt C)) :
    totalQuote b (r :: rs) = quote b r + totalQuote b rs := by
  simp [totalQuote]

theorem totalQuote_mul_le (b : Balance C) (rs : List (Receipt C)) :
    totalQuote b rs * C.rational.div ≤ outstandingShares rs * b.bias.inner := by
  induction rs with
  | nil => simp [totalQuote]
  | cons r rs ih =>
    rw [totalQuote_cons, outstandingShares_cons, Nat.add_mul, Nat.add_mul]
    exact Nat.add_le_add (quote_mul_le b r) ih

theorem totalQuote_mul_eq_iff (b : Balance C) (rs : List (Receipt C)) :
    totalQuote b rs * C.rational.div = outstandingShares rs * b.bias.inner ↔
      ∀ r ∈ rs, quote b r * C.rational.div = r.shares * b.bias.inner := by
  induction rs with
  | nil => simp [totalQuote]
  | cons r rs ih =>
    have hr := quote_mul_le b r
    have hrs := totalQuote_mul_le b rs
    rw [totalQuote_cons, outstandingShares_cons, Nat.add_mul, Nat.add_mul, List.forall_mem_cons, ← ih]
    omega

/-- Receipts that hold all the shares are worth the whole balance if and only if nothing rounds. -/
theorem totalQuote_eq_effective_iff (hs : Solvent b) (hall : outstandingShares rs = b.issued) :
    totalQuote b rs = b.effective ↔ Unrounded b rs := by
  have hle := totalQuote_mul_le b rs
  have hbias := hs.bias_mul_le
  have hmul : totalQuote b rs = b.effective ↔
      totalQuote b rs * C.rational.div = b.effective * C.rational.div :=
    (Nat.mul_left_inj C.rational.div_pos.ne').symm
  rw [hall, Nat.mul_comm b.issued] at hle
  rw [hmul, Unrounded, ← totalQuote_mul_eq_iff, hall, Nat.mul_comm b.issued]
  omega

theorem totalActiveClaims_of_two (hs : Solvent b) (ha : ∀ r ∈ rs, Active b r)
    (hle : outstandingShares rs ≤ b.issued) (hlen : rs.length ≠ 1) :
    totalActiveClaims (some b) rs = totalQuote b rs := by
  have hlt : ∀ r ∈ rs, r.shares < b.issued := by
    intro r hr
    obtain ⟨before, after, rfl⟩ := List.append_of_mem hr
    have hother : ∃ t ∈ before ++ after, Active b t := by
      obtain ⟨t, ht⟩ := List.exists_mem_of_ne_nil (before ++ after) fun hnil => hlen (by
        obtain ⟨rfl, rfl⟩ := List.append_eq_nil_iff.mp hnil
        rfl)
      exact ⟨t, ht, ha t (by simp only [List.mem_append, List.mem_cons] at ht ⊢; tauto)⟩
    obtain ⟨t, ht, hact⟩ := hother
    have hshares := le_outstandingShares ht
    have hne := hact.shares_ne
    rw [outstandingShares_append] at hshares
    rw [outstandingShares_append, outstandingShares_cons] at hle
    omega
  unfold totalActiveClaims totalQuote
  congr 1
  exact List.map_congr_left fun r hr => (ha r hr).claim_part hs (hlt r hr)

/-- Receipts that can all be priced are worth the price of their shares, or all that is there for all the shares. -/
theorem totalActiveClaims_paid (hs : Solvent b) (ha : ∀ r ∈ rs, Active b r) (hle : outstandingShares rs ≤ b.issued) :
    totalActiveClaims (some b) rs * C.rational.div ≤ outstandingShares rs * b.bias.inner ∨
      outstandingShares rs = b.issued ∧ totalActiveClaims (some b) rs ≤ b.effective := by
  by_cases hlen : rs.length = 1
  · obtain ⟨r, rfl⟩ := List.length_eq_one_iff.mp hlen
    simpa [totalActiveClaims, outstandingShares_cons] using
      (activeClaim_cases (r := r) hs).imp_right fun h => And.imp_right le_of_eq h
  · rw [totalActiveClaims_of_two hs ha hle hlen]
    exact .inl (totalQuote_mul_le b rs)

theorem totalActiveClaims_le (hs : Solvent b) (ha : ∀ r ∈ rs, Active b r) (hle : outstandingShares rs ≤ b.issued) :
    totalActiveClaims (some b) rs ≤ b.effective := by
  rcases totalActiveClaims_paid hs ha hle with hprice | ⟨-, h⟩
  · have hissued := hprice.trans (Nat.mul_le_mul_right _ hle)
    rw [Nat.mul_comm b.issued] at hissued
    exact Nat.le_of_mul_le_mul_right (hissued.trans hs.bias_mul_le) C.rational.div_pos
  · exact h

/-- What holders of different shares are paid, each at the price of their shares or all that is
there for all the shares. -/
theorem sum_paid_le {ι : Type} [DecidableEq ι] {holders : Finset ι} {paid held : ι → Nat} (hs : Solvent b)
    (hpaid : ∀ i ∈ holders, paid i * C.rational.div ≤ held i * b.bias.inner ∨
      held i = b.issued ∧ paid i ≤ b.effective)
    (hheld : ∑ i ∈ holders, held i ≤ b.issued) : ∑ i ∈ holders, paid i ≤ b.effective := by
  by_cases hall : ∃ i ∈ holders, held i = b.issued ∧ paid i ≤ b.effective
  · obtain ⟨i, hi, hshares, hle⟩ := hall
    have hothers : ∑ j ∈ holders.erase i, paid j = 0 := by
      refine Finset.sum_eq_zero fun j hj => ?_
      have hzero : held j = 0 := by
        have hsum := Finset.add_sum_erase holders held hi
        have := Finset.single_le_sum (f := held) (fun _ _ => Nat.zero_le _) hj
        omega
      rcases hpaid j (Finset.mem_of_mem_erase hj) with hprice | ⟨heq, hle⟩
      · rw [hzero, Nat.zero_mul] at hprice
        exact (Nat.mul_eq_zero.mp (Nat.le_zero.mp hprice)).resolve_right C.rational.div_pos.ne'
      · have := (hs.of_empty (heq.symm.trans hzero)).1
        omega
    rw [← Finset.add_sum_erase holders paid hi, hothers]
    exact hle
  · have hprice : ∀ i ∈ holders, paid i * C.rational.div ≤ held i * b.bias.inner := fun i hi =>
      (hpaid i hi).resolve_right fun h => hall ⟨i, hi, h⟩
    refine Nat.le_of_mul_le_mul_right ?_ C.rational.div_pos
    calc (∑ i ∈ holders, paid i) * C.rational.div
        = ∑ i ∈ holders, paid i * C.rational.div := Finset.sum_mul ..
      _ ≤ ∑ i ∈ holders, held i * b.bias.inner := Finset.sum_le_sum hprice
      _ = (∑ i ∈ holders, held i) * b.bias.inner := (Finset.sum_mul ..).symm
      _ ≤ b.issued * b.bias.inner := Nat.mul_le_mul_right _ hheld
      _ = b.bias.inner * b.issued := Nat.mul_comm ..
      _ ≤ b.effective * C.rational.div := hs.bias_mul_le

end Receipts

variable {T : Config}

theorem withdrawnValues_of_receipts {receipts : List (CommitInstance T)} {balance balance' : LazyBalance T}
    {d d' : AssetDelta} (h : withdrawReceipts receipts balance d = .ok (balance', d')) :
    withdrawnValues receipts balance d.withdraw = .ok d'.withdraw := by
  induction receipts generalizing balance d with
  | nil =>
    cases h
    rfl
  | cons receipt receipts ih =>
    obtain ⟨value, -, h⟩ := bind_eq_ok.mp h
    obtain ⟨given, -, h⟩ := bind_eq_ok.mp h
    obtain ⟨⟨take, nb⟩, hw, h⟩ := bind_eq_ok.mp h
    obtain ⟨total, ht, h⟩ := bind_eq_ok.mp h
    have hrest := ih h
    simp [withdrawnValues, hw, okOr_eq_ok.mp ht, hrest, okOr, bind, Except.bind]

theorem withdrawnValues_taken {receipts : List (CommitInstance T)} {b : Balance T.share} {total value : Nat}
    (hs : Solvent b) (h : withdrawnValues receipts (some b) total = .ok value) :
    ∃ rs, receipts = rs.map some ∧ outstandingShares rs ≤ b.issued ∧ (∀ r ∈ rs, Active b r) ∧
      value = total + if outstandingShares rs = b.issued then b.effective else totalQuote b rs := by
  induction receipts generalizing b total with
  | nil =>
    cases h
    refine ⟨[], rfl, Nat.zero_le _, fun r hr => absurd hr List.not_mem_nil, ?_⟩
    split
    · rename_i hz
      rw [(hs.of_empty hz.symm).1, Nat.add_zero]
    · simp [totalQuote]
  | cons receipt receipts ih =>
    obtain ⟨⟨take, nb⟩, hw, h⟩ := bind_eq_ok.mp h
    obtain ⟨b', r, derived, after, hb, rfl, rfl, hwd⟩ := withdraw_eq_ok (liftShare_eq_ok.mp hw)
    obtain rfl := Option.some.inj hb
    obtain ⟨sum, ht, h⟩ := bind_eq_ok.mp h
    rw [okOr_eq_ok, checkedAdd_eq_some] at ht
    obtain ⟨rs, rfl, hle, hact, hd⟩ := ih (hwd.solvent hs) h
    have hr : Active b r := ⟨hwd.shares_ne, hwd.shares_le, by simp [redeemable, hwd.derived_eq]⟩
    rcases Nat.lt_or_eq_of_le hwd.shares_le with hlt | heq
    · obtain ⟨htake, rfl⟩ := hwd.part_eq hs hlt
      have hquote : quote b r = derived := by simp [quote, hwd.derived_eq]
      have hprice : derivedValue { b with effective := b.effective - derived, issued := b.issued - r.shares } =
          derivedValue b := derivedValue_congr rfl rfl
      have hsame : totalQuote { b with effective := b.effective - derived, issued := b.issued - r.shares } rs =
          totalQuote b rs := by
        rw [totalQuote, quote_congr hprice, totalQuote]
      have hadd := (hwd.effective_add hs).1
      dsimp only at hle hact hd hadd
      refine ⟨r :: rs, rfl, by rw [outstandingShares_cons]; omega, ?_, ?_⟩
      · intro t ht
        rcases List.mem_cons.mp ht with rfl | ht
        · exact hr
        · obtain ⟨hne, hshares, hred⟩ := hact t ht
          rw [redeemable_congr hprice] at hred
          exact ⟨hne, by dsimp only at hshares; omega, hred⟩
      · rw [outstandingShares_cons, totalQuote_cons, hquote, hd, hsame]
        split_ifs <;> omega
    · obtain ⟨htake, hc⟩ := hwd.last_eq hs heq
      have hnil : rs = [] := by
        cases rs with
        | nil => rfl
        | cons t rs =>
          have hne := (hact t (List.mem_cons_self ..)).shares_ne
          have hz := hc.issued_eq
          rw [outstandingShares_cons] at hle
          omega
      subst hnil
      refine ⟨[r], rfl, ?_, ?_, ?_⟩
      · simpa using hwd.shares_le
      · simpa using hr
      · have hz := hc.effective_eq
        simp [totalQuote, hz, heq] at hd ⊢
        omega

theorem withdrawReceipts_taken {receipts : List (CommitInstance T)} {b : Balance T.share}
    {balance : LazyBalance T} {d d' : AssetDelta} (hs : Solvent b)
    (h : withdrawReceipts receipts (some b) d = .ok (balance, d')) :
    ∃ rs, receipts = rs.map some ∧ outstandingShares rs ≤ b.issued ∧ (∀ r ∈ rs, Active b r) ∧
      d'.withdraw = d.withdraw + if outstandingShares rs = b.issued then b.effective else totalQuote b rs :=
  withdrawnValues_taken hs (withdrawnValues_of_receipts h)

theorem withdrawReceipts_balance {receipts : List (CommitInstance T)} {balance balance' : LazyBalance T}
    {d d' : AssetDelta} (hne : receipts ≠ []) (h : withdrawReceipts receipts balance d = .ok (balance', d')) :
    ∃ b, balance = some b := by
  cases receipts with
  | nil => exact absurd rfl hne
  | cons receipt receipts =>
    obtain ⟨value, -, h⟩ := bind_eq_ok.mp h
    obtain ⟨given, -, h⟩ := bind_eq_ok.mp h
    obtain ⟨⟨take, nb⟩, hw, -⟩ := bind_eq_ok.mp h
    obtain ⟨b, -, -, -, rfl, -⟩ := withdraw_eq_ok (liftShare_eq_ok.mp hw)
    exact ⟨b, rfl⟩

theorem resolveCommit_direct {s s' : State T} {who : T.AccountId} {reason : T.Reason} {info : CommitInfo T}
    {amount : Nat} (hs : AllSolvent s.digestMap) (hi : s.commitMap.get (who, reason) = some info)
    (hm : determineDigest s info.digest reason = .ok (.direct info.digest))
    (h : resolveCommit s who reason = .ok (s', amount)) :
    ∃ dinfo b rs, s.digestMap.get (reason, info.digest) = some dinfo ∧
      dinfo.getBalance info.variant = some (some b) ∧ Solvent b ∧
      balanceAt s.digestMap (location reason info.digest info.variant) = some b ∧
      info.commits.receipts = rs.map some ∧ outstandingShares rs ≤ b.issued ∧ (∀ r ∈ rs, Active b r) ∧
      amount = if outstandingShares rs = b.issued then b.effective else totalQuote b rs := by
  obtain ⟨info', hc, hmodel, h⟩ := resolveCommit_eq_ok h
  obtain rfl := Option.some.inj (hi.symm.trans hc)
  rw [← Except.ok.inj (hm.symm.trans hmodel)] at h
  obtain ⟨_, -, h⟩ := bind_eq_ok.mp h
  obtain ⟨⟨s₁, d⟩, hw, h⟩ := bind_eq_ok.mp h
  obtain ⟨variant, hvar, hw⟩ := bind_eq_ok.mp hw
  obtain ⟨info', hinfo, hvar⟩ := bind_eq_ok.mp hvar
  rw [getCommit, okOr_eq_ok, hi] at hinfo
  obtain rfl := Option.some.inj hinfo
  obtain rfl := pure_eq_ok.mp hvar
  obtain ⟨dinfo, hdi, hw⟩ := bind_eq_ok.mp hw
  rw [okOr_eq_ok] at hdi
  obtain ⟨balance, hbal, hw⟩ := bind_eq_ok.mp hw
  rw [okOr_eq_ok] at hbal
  obtain ⟨info', hinfo, hw⟩ := bind_eq_ok.mp hw
  rw [getCommit, okOr_eq_ok, hi] at hinfo
  obtain rfl := Option.some.inj hinfo
  obtain ⟨⟨after, d'⟩, hreceipts, hw⟩ := bind_eq_ok.mp hw
  simp only [pure_eq_ok, Prod.mk.injEq] at hw
  obtain ⟨rfl, rfl⟩ := hw
  obtain ⟨b, rfl⟩ := withdrawReceipts_balance info.commits.nonempty hreceipts
  have hat : balanceAt s.digestMap (location reason info.digest info.variant) = some b := by
    unfold DigestInfo.getBalance at hbal
    simp [balanceAt, location, hdi, DigestInfo.at, hbal]
  have hsol := hs _ _ hat
  obtain ⟨-, -, -, hmax⟩ := withdrawReceipts_spec (fun c hc => Option.some.inj hc ▸ hsol) hreceipts
  obtain ⟨hpaid, -⟩ := finalizeResolveCommit_spec (hmax (Nat.zero_le _)) h
  obtain ⟨rs, hrs, hle, hact, htaken⟩ := withdrawReceipts_taken hsol hreceipts
  refine ⟨dinfo, b, rs, hdi, hbal, hsol, hat, hrs, hle, hact, ?_⟩
  rw [hpaid, htaken, Nat.zero_add]

/-- The value shown for a direct commit is what its resolution pays, unless the commit has several
receipts that hold all the shares of a balance on which something rounds. -/
theorem direct_query_agrees_iff {s s' : State T} {who : T.AccountId} {reason : T.Reason} {info : CommitInfo T}
    {amount : Nat} (hs : Reachable s) (hi : s.commitMap.get (who, reason) = some info)
    (hm : determineDigest s info.digest reason = .ok (.direct info.digest))
    (h : resolveCommit s who reason = .ok (s', amount)) :
    ∃ b rs value, balanceAt s.digestMap (location reason info.digest info.variant) = some b ∧
      info.commits.receipts = rs.map some ∧ getCommitValue s who reason = .ok value ∧
      (value = amount ↔ rs.length = 1 ∨ outstandingShares rs ≠ b.issued ∨ Unrounded b rs) := by
  obtain ⟨dinfo, b, rs, hdi, hbal, hsol, hat, hrs, hle, hact, rfl⟩ :=
    resolveCommit_direct hs.sound.digests hi hm h
  have hfits := totalActiveClaims_le hsol hact hle
  have hvalue : getCommitValue s who reason = .ok (totalActiveClaims (some b) rs) := by
    have heff := hsol.effective_le
    have hactive := activeValues_eq 0 hact (by omega)
    rw [Nat.zero_add] at hactive
    simp [getCommitValue, getCommitDigest, getCommit, hi, hm, commitValueOf, digestCommitValue, hdi, hbal, hrs,
      hactive, okOr, bind, Except.bind, pure, Except.pure]
  refine ⟨b, rs, _, hat, hrs, hvalue, ?_⟩
  by_cases hlen : rs.length = 1
  · obtain ⟨r, rfl⟩ := List.length_eq_one_iff.mp hlen
    have hr := hact r (by simp)
    rw [iff_true_right (.inl hlen)]
    simp only [totalActiveClaims, List.map_cons, List.map_nil, List.sum_cons, List.sum_nil, Nat.add_zero,
      outstandingShares_cons, outstandingShares_nil, totalQuote]
    split
    · rename_i heq
      exact hr.claim_last hsol heq
    · rename_i hne
      exact hr.claim_part hsol (lt_of_le_of_ne hr.shares_le hne)
  · rw [totalActiveClaims_of_two hsol hact hle hlen, or_iff_right hlen]
    by_cases hall : outstandingShares rs = b.issued
    · rw [if_pos hall, or_iff_right (not_not.mpr hall)]
      exact totalQuote_eq_effective_iff hsol hall
    · rw [if_neg hall, iff_true_right (.inl hall)]

/-- Ten units raised by five, at the price they were placed at. -/
def raisedCommit : List (Call runtimeConfig) :=
  [place 1 11 10, .raiseCommit (T := runtimeConfig) 1 0 5 exactForce]

theorem direct_query_agrees_raised :
    ∃ s' info, (State.after fundedLedger raisedCommit).commitMap.get ((1 : Nat), (0 : Nat)) = some info ∧
      resolveCommit (State.after fundedLedger raisedCommit) (1 : Nat) (0 : Nat) = .ok (s', 15) ∧
      ∃ b rs value, balanceAt (State.after fundedLedger raisedCommit).digestMap
          (location (T := runtimeConfig) 0 info.digest info.variant) = some b ∧
        info.commits.receipts = rs.map some ∧
        getCommitValue (State.after fundedLedger raisedCommit) (1 : Nat) (0 : Nat) = .ok value ∧
        (value = 15 ↔ rs.length = 1 ∨ outstandingShares rs ≠ b.issued ∨ Unrounded b rs) := by
  have hpaid : (resolveCommit (State.after fundedLedger raisedCommit) (1 : Nat) (0 : Nat)).map (·.2) =
      .ok 15 := by decide +kernel
  obtain ⟨⟨s', amount⟩, h, ha⟩ := map_eq_ok.mp hpaid
  obtain rfl : amount = 15 := ha
  exact ⟨s', _, rfl, h, direct_query_agrees_iff ⟨_, _, rfl⟩ rfl rfl h⟩

/-- Three units revalued to five, then five more: two receipts of three shares each, worth
four and a fraction apiece. -/
def revaluedRaise : List (Call runtimeConfig) :=
  [place 1 11 3, revalue 11 5, .raiseCommit (T := runtimeConfig) 1 0 5 exactForce]

/-- The query shows eight, the resolution pays all ten. -/
theorem direct_query_misses_dust :
    ¬∀ (s s' : State runtimeConfig) (who reason : Nat) (info : CommitInfo runtimeConfig) (value amount : Nat),
      Reachable s → s.commitMap.get (who, reason) = some info →
      determineDigest s info.digest reason = .ok (.direct info.digest) →
      getCommitValue s who reason = .ok value → resolveCommit s who reason = .ok (s', amount) →
      value = amount := by
  intro h
  have hshown : getCommitValue (State.after fundedLedger revaluedRaise) (1 : Nat) (0 : Nat) = .ok 8 := by
    decide +kernel
  have hpaid : (resolveCommit (State.after fundedLedger revaluedRaise) (1 : Nat) (0 : Nat)).map (·.2) =
      .ok 10 := by decide +kernel
  obtain ⟨⟨s', amount⟩, hr, ha⟩ := map_eq_ok.mp hpaid
  obtain rfl : amount = 10 := ha
  exact absurd (h _ s' 1 0 _ 8 10 ⟨_, _, rfl⟩ rfl rfl hshown hr) (by decide)

end FrameSuite
