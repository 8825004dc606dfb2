import FrameSuite.CommitBounds
import FrameSuite.LiquidFunds
import FrameSuite.PoolProgress

/-! A change of variant resolves a commit and places what it paid again. It succeeds in full where
the hold covers the payment, or the hold and the liquid balance do under a forceful directive. -/

namespace FrameSuite

open ShareBalance

variable {T : Config} {s s' s₁ : State T} {who : T.AccountId} {reason : T.Reason} {info : CommitInfo T}
  {variant : T.Position} {q : Directive} {resolved placed : Nat}

/-- Every position has an index of its own below the number of variants. -/
structure Positions (T : Config) : Prop where
  positionOf_index : ∀ v : T.Position, T.positionOf (T.positionIndex v) = some v
  index_lt : ∀ v : T.Position, T.positionIndex v < T.variantCount

theorem Positions.location_ne (p : Positions T) {digest : T.AccountId} {v w : T.Position} (h : v ≠ w) :
    location reason digest v ≠ location reason digest w := by
  intro he
  have hindex : T.positionIndex v = T.positionIndex w := congrArg (fun l => l.2.2) he
  have hv := p.positionOf_index v
  rw [hindex, p.positionOf_index w] at hv
  exact h (Option.some.inj hv).symm

theorem Withdraws.balanceAt_other {m m' : DigestMap T} {claims : Claims T} {taken : Nat} {l : Location T}
    (h : Withdraws m claims taken m') (hl : ∀ c ∈ claims, c.1 ≠ l) : balanceAt m' l = balanceAt m l := by
  induction h with
  | nil => rfl
  | cons touch _ _ ih =>
    rw [ih fun c hc => hl c (List.mem_cons_of_mem _ hc), touch.after,
      if_neg (hl _ (List.mem_cons_self ..)).symm]

theorem subFromTotalValue_total {value : Nat} (h : subFromTotalValue s reason value = .ok s') :
    getTotalValue s' reason + value = getTotalValue s reason := by
  obtain ⟨total, ht, h⟩ := bind_eq_ok.mp h
  obtain rfl := pure_eq_ok.mp h
  rw [okOr_eq_ok, checkedSub_eq_some] at ht
  rw [getTotalValue_setTotalValue, if_pos rfl]
  omega

/-- What the resolution of a direct commit leaves: its payment is in the free balance and off the
total, and the other balances of the digest are as before. -/
structure PaidOut (x : ExactMoves T) (s s₁ : State T) (who : T.AccountId) (reason : T.Reason)
    (info : CommitInfo T) (resolved : Nat) : Prop where
  free : x.free s₁.ledger who = x.free s.ledger who + resolved
  held : x.held s₁.ledger who = x.held s.ledger who
  commits : s₁.commitMap.get (who, reason) = none
  digest : s₁.digestMap.containsKey (reason, info.digest) = true
  balances : ∀ l, l ≠ location reason info.digest info.variant →
    balanceAt s₁.digestMap l = balanceAt s.digestMap l
  total : getTotalValue s₁ reason + resolved = getTotalValue s reason

theorem containsKey_of_direct {digest : T.AccountId}
    (h : determineDigest s digest reason = .ok (.direct digest)) :
    s.digestMap.containsKey (reason, digest) = true := by
  by_contra hk
  rw [determineDigest, if_neg hk] at h
  split at h
  · cases h
  · split at h <;> cases h

theorem resolveCommit_paidOut (x : ExactMoves T) (hi : s.commitMap.get (who, reason) = some info)
    (hm : determineDigest s info.digest reason = .ok (.direct info.digest))
    (h : resolveCommit s who reason = .ok (s₁, resolved)) : PaidOut x s s₁ who reason info resolved := by
  obtain ⟨info', hc, hmodel, h⟩ := resolveCommit_eq_ok h
  obtain rfl := Option.some.inj (hi.symm.trans hc)
  rw [← Except.ok.inj (hm.symm.trans hmodel)] at h
  obtain ⟨_, -, h⟩ := bind_eq_ok.mp h
  obtain ⟨⟨sw, d⟩, hw, h⟩ := bind_eq_ok.mp h
  obtain ⟨commit, m, hcommit, rfl, hws, -, hmax⟩ := withdrawFromDigest_spec hw
  obtain rfl := Option.some.inj (hi.symm.trans hcommit)
  obtain ⟨hmaps, hcm⟩ := finalizeResolveCommit_maps h
  obtain ⟨st, ht, h⟩ := bind_eq_ok.mp h
  obtain ⟨l, hl, rfl⟩ := onLedger_eq_ok ht
  obtain ⟨⟨sr, paid⟩, hr, h⟩ := bind_eq_ok.mp h
  obtain ⟨ss, hsub, h⟩ := bind_eq_ok.mp h
  simp only [pure_eq_ok, Prod.mk.injEq] at h
  obtain ⟨rfl, rfl⟩ := h
  obtain ⟨hfree, hheld⟩ := x.resolveImbalance_free hr hmax
  obtain ⟨hfree₀, hheld₀⟩ := x.thaw hl
  obtain ⟨l', issue, reap, rfl⟩ := resolveImbalance_shape hr
  have hreason := subFromTotalValue_total hsub
  obtain ⟨rv, rfl, -⟩ := subFromTotalValue_spec hsub
  refine ⟨?_, ?_, ?_, ?_, fun loc hloc => ?_, hreason⟩
  · dsimp only at hfree ⊢
    rw [hfree, hfree₀, Finsupp.add_apply, Finsupp.single_eq_same]
  · dsimp only at hheld ⊢
    rw [hheld, hheld₀]
  · rw [hcm]
    exact StorageMap.get_remove_self ..
  · rw [hmaps.digestMap]
    exact (hws.contains _).trans (containsKey_of_direct hm)
  · rw [hmaps.digestMap]
    refine hws.balanceAt_other fun c hc => ?_
    rw [reason_of_mem_receiptsAt hc]
    exact hloc.symm

/-- The commit is at the digest under the variant with one receipt, and what it took is what the
proprietor got back and no longer has. -/
structure Recommitted (x : ExactMoves T) (s s' : State T) (who : T.AccountId) (reason : T.Reason)
    (digest : T.AccountId) (variant : T.Position) (resolved placed : Nat) : Prop where
  commit : ∃ info r, s'.commitMap.get (who, reason) = some info ∧ info.digest = digest ∧
    info.variant = variant ∧ info.commits.receipts = [some r] ∧ r.principal = placed
  funds : x.funds s'.ledger who + placed = x.funds s.ledger who + resolved

theorem PaidOut.placeCommitOfVariant {x : ExactMoves T} (h : PaidOut x s s₁ who reason info resolved)
    (hz : resolved ≠ 0) : placeCommitOfVariant s₁ who reason info.digest resolved variant q =
      placeCommitOf s₁ who reason (.direct info.digest) resolved variant q := by
  have hnew : s₁.commitMap.containsKey (who, reason) = false := StorageMap.containsKey_eq_false_iff.mpr h.commits
  simp [FrameSuite.placeCommitOfVariant, hnew, hz, ensure, determineDigest_direct h.digest, bind, Except.bind]

theorem PaidOut.recommitted {x : ExactMoves T} (h : PaidOut x s s₁ who reason info resolved)
    (hp : placeCommitOf s₁ who reason (.direct info.digest) resolved variant q = .ok (s', placed)) :
    Recommitted x s s' who reason info.digest variant resolved placed ∧
      ∃ s₂, deductBalance s₁ who resolved q = .ok (s₂, placed) := by
  obtain ⟨s₂, s₃, actual, receipt, h₂, h₃, h₄⟩ := placeCommitOf_steps hp
  rw [placedFrom, initiateDigest_of_known h.digest] at h₂
  obtain ⟨rfl, r, m, rfl, hprincipal, -, rfl, -⟩ := depositToDigest_spec h₃
  have hfunds := x.deductBalance_funds h₂
  obtain ⟨s₅, h₅, h₄⟩ := bind_eq_ok.mp h₄
  obtain ⟨l, hl, rfl⟩ := onLedger_eq_ok h₅
  obtain ⟨new, hnew, h₄⟩ := bind_eq_ok.mp h₄
  obtain ⟨rv, rfl, -⟩ := addToTotalValue_spec h₄
  obtain ⟨hdigest, hvariant, hreceipts⟩ := CommitInfo.new_eq_ok hnew
  obtain ⟨hfree, hheld⟩ := x.setFreeze hl
  refine ⟨⟨⟨new, r, StorageMap.get_insert_self .., hdigest, hvariant, hreceipts, hprincipal⟩, ?_⟩, s₂, h₂⟩
  have hfree₁ := h.free
  have hheld₁ := h.held
  unfold ExactMoves.funds at hfunds ⊢
  dsimp only at hfree hheld ⊢
  rw [hfree, hheld]
  omega

theorem finalizePlaceCommit_ok (x : LiquidMoves T) (p : Positions T) (hmax : T.maxCommits ≠ 0)
    {digest : T.AccountId} {receipt : CommitInstance T} {value : Nat}
    (ht : getTotalValue s reason + value ≤ T.share.maxAsset) :
    ∃ s', finalizePlaceCommit s who reason digest variant receipt value = .ok s' := by
  obtain ⟨l, hl⟩ := x.freeze_ok s.ledger reason who value
  have hinfo : ∃ info, CommitInfo.new digest receipt variant = .ok info := by
    simp [CommitInfo.new, Commits.new, hmax, p.positionOf_index, okOr, ensure, bind, Except.bind, pure, Except.pure]
  obtain ⟨info, hinfo⟩ := hinfo
  refine exists_bind_ok (map_eq_ok.mpr ⟨l, hl, rfl⟩) (exists_bind_ok hinfo ?_)
  exact exists_bind_ok (okOr_eq_ok.mpr (checkedAdd_eq_some.mpr ⟨rfl, ht⟩)) ⟨_, rfl⟩

theorem PaidOut.place_ok {x : LiquidMoves T} (h : PaidOut x.toExactMoves s s₁ who reason info resolved)
    (p : Positions T) (hb : Bounded s) (hi : s.commitMap.get (who, reason) = some info)
    (hv : variant ≠ info.variant) (hz : resolved ≠ 0)
    (ht : TakesDeposit (balanceAt s.digestMap (location reason info.digest variant)) resolved)
    (hc : x.Covers s₁.ledger who resolved q) :
    ∃ s', placeCommitOf s₁ who reason (.direct info.digest) resolved variant q = .ok (s', resolved) := by
  obtain ⟨s₂, h₂⟩ := x.deductBalance_covered hc
  obtain ⟨l, rfl, -⟩ := deductBalance_spec h₂
  obtain ⟨dinfo, hd⟩ := StorageMap.containsKey_iff.mp h.digest
  rw [← h.balances _ (p.location_ne hv)] at ht
  obtain ⟨⟨dinfo', deposited, receipt⟩, hdep⟩ :=
    (DigestInfo.deposit_isOk_iff hd hz).mpr ⟨Or.inr (p.index_lt variant), ht⟩
  obtain ⟨r, after, hdeposited, -⟩ := DigestInfo.deposit_spec hdep
  have htotal : getTotalValue s₁ reason + resolved ≤ T.share.maxAsset := h.total ▸ hb.totals reason
  obtain ⟨s', hs'⟩ := finalizePlaceCommit_ok (s := { s₁ with
    ledger := l, digestMap := s₁.digestMap.insert (reason, info.digest) dinfo' }) x p (hb.maxCommits_ne hi) htotal
  refine ⟨s', ?_⟩
  have hknown := initiateDigest_of_known h.digest
  change placeDigestCommit s₁ who reason info.digest resolved variant q = .ok (s', resolved)
  unfold placeDigestCommit
  rw [hknown]
  refine bind_eq_ok.mpr ⟨_, h₂, bind_eq_ok.mpr ⟨_, bind_eq_ok.mpr ⟨dinfo, okOr_eq_ok.mpr hd,
    bind_eq_ok.mpr ⟨_, hdep, rfl⟩⟩, ?_⟩⟩
  rw [hdeposited]
  exact bind_eq_ok.mpr ⟨s', hs', rfl⟩

/-- What a resolution of the commit pays can be taken again: from the hold, or under a forceful
directive from the hold and the liquid balance with the existential deposit left. -/
def LiquidMoves.Affords (x : LiquidMoves T) (s : State T) (who : T.AccountId) (resolved : Nat)
    (q : Directive) : Prop :=
  resolved ≤ x.held s.ledger who ∨
    q.fortitude = .force ∧ x.minimum ≤ x.held s.ledger who + x.free s.ledger who ∧
      x.held s.ledger who + (x.free s.ledger who + resolved - x.minimum) ≤ T.share.maxAsset

theorem PaidOut.covers_iff {x : LiquidMoves T} (h : PaidOut x.toExactMoves s s₁ who reason info resolved) :
    x.Covers s₁.ledger who resolved q ↔ x.Affords s who resolved q := by
  unfold LiquidMoves.Covers LiquidMoves.Affords
  rw [h.free, h.held]
  by_cases hle : resolved ≤ x.held s.ledger who
  · simp only [hle, true_or]
  · have hmin : resolved ≤ x.held s.ledger who + (x.free s.ledger who + resolved - x.minimum) ↔
        x.minimum ≤ x.held s.ledger who + x.free s.ledger who := by omega
    simp only [hle, hmin, false_or]

theorem setCommitVariant_eq_ok (hi : s.commitMap.get (who, reason) = some info) (hv : variant ≠ info.variant)
    (hr : resolveCommit s who reason = .ok (s₁, resolved)) :
    setCommitVariant s who reason variant q = .ok s' ↔
      ∃ placed, placeCommitOfVariant s₁ who reason info.digest resolved variant q = .ok (s', placed) := by
  have hk : s.commitMap.containsKey (who, reason) = true := StorageMap.containsKey_iff.mpr ⟨info, hi⟩
  have hvariant : getCommitVariant s who reason = .ok info.variant := by
    simp [getCommitVariant, getCommit, hi, okOr, bind, Except.bind, pure, Except.pure]
  have hdigest : getCommitDigest s who reason = .ok info.digest := by
    simp [getCommitDigest, getCommit, hi, okOr, bind, Except.bind, pure, Except.pure]
  constructor
  · intro h
    obtain ⟨_, -, h⟩ := bind_eq_ok.mp h
    obtain ⟨current, hcurrent, h⟩ := bind_eq_ok.mp h
    obtain rfl := Except.ok.inj (hvariant.symm.trans hcurrent)
    rw [if_neg hv.symm] at h
    obtain ⟨digest, hd, h⟩ := bind_eq_ok.mp h
    obtain rfl := Except.ok.inj (hdigest.symm.trans hd)
    obtain ⟨⟨s₂, paid⟩, h₂, h⟩ := bind_eq_ok.mp h
    obtain ⟨rfl, rfl⟩ := Prod.mk.inj (Except.ok.inj (hr.symm.trans h₂))
    obtain ⟨⟨s₃, placed⟩, h₃, h⟩ := bind_eq_ok.mp h
    obtain rfl := pure_eq_ok.mp h
    exact ⟨placed, h₃⟩
  · rintro ⟨placed, hp⟩
    refine bind_eq_ok.mpr ⟨(), ensure_eq_ok.mpr hk, bind_eq_ok.mpr ⟨_, hvariant, ?_⟩⟩
    rw [if_neg hv.symm]
    exact bind_eq_ok.mpr ⟨_, hdigest, bind_eq_ok.mpr ⟨_, hr, bind_eq_ok.mpr ⟨_, hp, rfl⟩⟩⟩

/-- The change keeps the whole commit where the payment can be taken again. Elsewhere an exact
directive is refused, and so is a polite one with nothing on hold; a forceful best effort commits
what it finds. -/
theorem setCommitVariant_recommits (x : LiquidMoves T) (p : Positions T) (hs : Reachable s)
    (hi : s.commitMap.get (who, reason) = some info)
    (hm : determineDigest s info.digest reason = .ok (.direct info.digest))
    (hr : resolveCommit s who reason = .ok (s₁, resolved)) (hv : variant ≠ info.variant)
    (ha : (deposit (balanceAt s.digestMap (location reason info.digest variant)) resolved).1.isOk = true) :
    (x.Affords s who resolved q → ∃ s', setCommitVariant s who reason variant q = .ok s' ∧
      Recommitted x.toExactMoves s s' who reason info.digest variant resolved resolved ∧
      x.funds s'.ledger who = x.funds s.ledger who) ∧
    (¬x.Affords s who resolved q → q.precision = .exact ∨ q.fortitude = .polite ∧ x.held s.ledger who = 0 →
      (setCommitVariant s who reason variant q).isOk = false) ∧
    (¬x.Affords s who resolved q → q.fortitude = .force →
      ∀ s', setCommitVariant s who reason variant q = .ok s' → ∃ placed, placed < resolved ∧
        placed = x.held s.ledger who + (x.free s.ledger who + resolved - x.minimum) ∧
        Recommitted x.toExactMoves s s' who reason info.digest variant resolved placed) := by
  have hpaid := resolveCommit_paidOut x.toExactMoves hi hm hr
  obtain ⟨out, hout⟩ := exists_eq_ok ha
  have hdep : deposit (balanceAt s.digestMap (location reason info.digest variant)) resolved =
      (.ok out, (deposit (balanceAt s.digestMap (location reason info.digest variant)) resolved).2) :=
    Prod.ext hout rfl
  obtain ⟨after, -, -, hdeposited⟩ := deposit_eq_ok.mp hdep
  have hz := hdeposited.asset_ne
  have htakes := (deposit_isOk_iff hz).mp ⟨out, _, hdep⟩
  have hplaced {s' : State T} (h : setCommitVariant s who reason variant q = .ok s') : ∃ placed s₂,
      Recommitted x.toExactMoves s s' who reason info.digest variant resolved placed ∧
        deductBalance s₁ who resolved q = .ok (s₂, placed) := by
    obtain ⟨placed, hp⟩ := (setCommitVariant_eq_ok hi hv hr).mp h
    rw [hpaid.placeCommitOfVariant hz] at hp
    obtain ⟨hre, s₂, h₂⟩ := hpaid.recommitted hp
    exact ⟨placed, s₂, hre, h₂⟩
  refine ⟨fun hafford => ?_, fun hafford hq => ?_, fun hafford hforce s' h => ?_⟩
  · obtain ⟨s', hp⟩ := hpaid.place_ok p hs.bounded hi hv hz htakes (hpaid.covers_iff.mpr hafford)
    have hre := (hpaid.recommitted hp).1
    rw [← hpaid.placeCommitOfVariant hz] at hp
    exact ⟨s', (setCommitVariant_eq_ok hi hv hr).mpr ⟨resolved, hp⟩, hre, Nat.add_right_cancel hre.funds⟩
  · refine isOk_eq_false fun s' h => hafford ?_
    obtain ⟨placed, s₂, -, h₂⟩ := hplaced h
    rw [← hpaid.held] at hq
    exact hpaid.covers_iff.mp (x.covers_of_deductBalance h₂ hq)
  · obtain ⟨placed, s₂, hre, h₂⟩ := hplaced h
    have hamount := deductBalance_amount h₂
    have hdrawn := deductBalance_drawn x.draws h₂
    unfold deductible at hamount
    rw [x.balanceOnHold_eq, x.reducibleBalance_eq, hpaid.held, hpaid.free] at hamount hdrawn
    have hless : x.held s.ledger who + x.free s.ledger who < x.minimum := by
      by_contra hge
      rcases hdrawn with ⟨hle, -⟩ | ⟨-, -, -, -, hmax⟩
      · exact hafford (Or.inl hle)
      · exact hafford (Or.inr ⟨hforce, Nat.not_lt.mp hge, hmax⟩)
    have hheld : x.held s.ledger who < resolved := Nat.not_le.mp fun hle => hafford (Or.inl hle)
    exact ⟨placed, by omega, by omega, hre⟩

noncomputable def tokenLiquid : LiquidMoves runtimeConfig where
  toExactMoves := tokenMoves
  minimum := TokenLedger.existentialDeposit
  balanceOnHold_eq _ _ := rfl
  reducibleBalance_eq _ _ := rfl
  hold_ok h := ⟨_, if_pos h⟩
  liquid_ok {l who v} := by
    constructor
    · rintro ⟨l', h⟩
      by_contra hle
      exact nomatch (if_neg hle : TokenLedger.decrease l who v = _).symm.trans h
    · intro hle
      exact ⟨_, if_pos hle⟩
  freeze_ok _ _ _ _ := ⟨_, rfl⟩

theorem runtimePositions : Positions runtimeConfig where
  positionOf_index v := by cases v <;> rfl
  index_lt v := by cases v <;> decide

/-- Ten units committed from the liquid balance, with nothing on hold. -/
def placedOnce : State runtimeConfig := State.after fundedLedger [place 1 11 10]

theorem placedOnce_resolves : ∃ s₁, resolveCommit placedOnce (1 : Nat) (0 : Nat) = .ok (s₁, 10) := by
  have hpaid : (resolveCommit placedOnce (1 : Nat) (0 : Nat)).map (·.2) = .ok 10 := by decide +kernel
  obtain ⟨⟨s₁, amount⟩, hr, ha⟩ := map_eq_ok.mp hpaid
  obtain rfl : amount = 10 := ha
  exact ⟨s₁, hr⟩

theorem placedOnce_accepts : (deposit (balanceAt placedOnce.digestMap
    (location (T := runtimeConfig) 0 11 .contrary)) 10).1.isOk = true := by decide +kernel

theorem setCommitVariant_recommits_once :
    (∃ s', setCommitVariant placedOnce (1 : Nat) (0 : Nat) .contrary exactForce = .ok s' ∧
      Recommitted tokenMoves placedOnce s' (1 : Nat) (0 : Nat) (11 : Nat) .contrary 10 10 ∧
      tokenMoves.funds s'.ledger (1 : Nat) = tokenMoves.funds placedOnce.ledger (1 : Nat)) ∧
    (setCommitVariant placedOnce (1 : Nat) (0 : Nat) .contrary ⟨.bestEffort, .polite⟩).isOk = false := by
  obtain ⟨s₁, hr⟩ := placedOnce_resolves
  have hs : Reachable placedOnce := ⟨_, _, rfl⟩
  have hheld : tokenLiquid.held placedOnce.ledger (1 : Nat) = 0 :=
    show TokenLedger.heldOf placedOnce.ledger 1 = 0 by decide +kernel
  have hmin : 1 ≤ TokenLedger.heldOf placedOnce.ledger 1 + TokenLedger.freeOf placedOnce.ledger 1 := by
    decide +kernel
  have hmax : TokenLedger.heldOf placedOnce.ledger 1 + (TokenLedger.freeOf placedOnce.ledger 1 + 10 - 1) ≤
      runtimeShareConfig.maxAsset := by decide +kernel
  have hforce := @setCommitVariant_recommits runtimeConfig placedOnce s₁ 1 0 _ .contrary exactForce 10
    tokenLiquid runtimePositions hs rfl rfl hr (by decide) placedOnce_accepts
  have hpolite := @setCommitVariant_recommits runtimeConfig placedOnce s₁ 1 0 _ .contrary
    ⟨.bestEffort, .polite⟩ 10 tokenLiquid runtimePositions hs rfl rfl hr (by decide) placedOnce_accepts
  refine ⟨hforce.1 (Or.inr ⟨rfl, hmin, hmax⟩), hpolite.2.1 (fun hafford => ?_) (Or.inr ⟨rfl, hheld⟩)⟩
  rcases hafford with hle | ⟨hq, -⟩
  · rw [hheld] at hle
    exact absurd hle (by decide)
  · cases hq

/-- A polite change finds nothing on hold and is refused. -/
theorem polite_change_refused :
    ¬∀ (s s₁ : State runtimeConfig) (who reason : Nat) (info : CommitInfo runtimeConfig) (variant : Disposition)
      (q : Directive) (resolved : Nat), Reachable s → s.commitMap.get (who, reason) = some info →
      determineDigest s info.digest reason = .ok (.direct info.digest) →
      resolveCommit s who reason = .ok (s₁, resolved) → variant ≠ info.variant →
      (deposit (balanceAt s.digestMap (location reason info.digest variant)) resolved).1.isOk = true →
      ∃ s', setCommitVariant s who reason variant q = .ok s' ∧
        Recommitted tokenMoves s s' who reason info.digest variant resolved resolved ∧
        tokenMoves.funds s'.ledger who = tokenMoves.funds s.ledger who := by
  intro h
  obtain ⟨s₁, hr⟩ := placedOnce_resolves
  obtain ⟨s', hs', -⟩ := h placedOnce s₁ 1 0 _ .contrary ⟨.exact, .polite⟩ 10 ⟨_, _, rfl⟩ rfl rfl hr (by decide)
    placedOnce_accepts
  have hrefused : setCommitVariant placedOnce (1 : Nat) (0 : Nat) .contrary ⟨.exact, .polite⟩ =
      .error .insufficientFunds := rfl
  exact nomatch hrefused.symm.trans hs'

end FrameSuite
