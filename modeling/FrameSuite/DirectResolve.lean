import FrameSuite.DirectCommits
import FrameSuite.Totals

/-! Whether a direct commit can be resolved. Its withdrawal never fails on the digest, and
the counters cover its gain or loss in every state that runs without rounded deposits and
rounded reaping reach. -/

namespace FrameSuite

open ShareBalance

variable {T : Config}

/-- No index, pool or entry commit exists, and the books are balanced. -/
structure DirectOnly (s : State T) : Prop where
  indexes : s.indexMap = .empty
  pools : s.poolMap = .empty
  entries : s.entryMap = .empty
  sound : Sound s
  balanced : disequilibrium s = 0
  totals : ∀ w, totalReasons w s.reasonValue = liveValue w s.digestMap

theorem initiateDigest_spec (s : State T) (reason : T.Reason) (digest : T.AccountId) :
    ∃ m, initiateDigest s reason digest = { s with digestMap := m } ∧
      (∀ l, balanceAt m l = balanceAt s.digestMap l) ∧
      (∀ l, Initiated s.digestMap l → Initiated m l) ∧
      (m.sum fun _ info => info.value) = s.digestMap.sum fun _ info => info.value := by
  unfold initiateDigest
  split
  · exact ⟨s.digestMap, rfl, fun _ => rfl, fun _ h => h, rfl⟩
  · rename_i hk
    rw [Bool.not_eq_true, StorageMap.containsKey_eq_false_iff] at hk
    obtain ⟨hb, hl⟩ := insert_default_spec hk
    refine ⟨_, rfl, hb, fun l ⟨info, hi, hlt⟩ => ⟨info, ?_, hlt⟩, ?_⟩
    · rw [StorageMap.get_insert_of_ne, hi]
      rintro he
      rw [he, hk] at hi
      cases hi
    · rw [← liveValue_one, ← liveValue_one, hl]

theorem joined_of_credited {s s₁ s₂ s₃ : State T} {who : T.AccountId} {reason : T.Reason}
    {info : CommitInfo T} {value amount : Nat} {receipt : CommitInstance T}
    (h₁ : ∃ l m, s₁ = { s with ledger := l, digestMap := m } ∧
      (∀ l, balanceAt m l = balanceAt s.digestMap l) ∧
      (∀ l, Initiated s.digestMap l → Initiated m l) ∧
      (m.sum fun _ info => info.value) = s.digestMap.sum fun _ info => info.value)
    (hd : depositToDigest s₁ reason info.digest value info.variant = .ok (s₂, receipt, amount))
    (hc : Credited s₂ s₃ who reason info amount)
    (hr : info.commits.receipts =
      ((s.commitMap.get (who, reason)).elim [] fun old => old.commits.receipts) ++ [receipt])
    (hp : ∀ old, s.commitMap.get (who, reason) = some old →
      old.digest = info.digest ∧ old.variant = info.variant) :
    ∃ r after, receipt = some r ∧ Joined s s₃ (who, reason) info r after := by
  obtain ⟨l₁, m₁, rfl, hbal, hini, hval⟩ := h₁
  obtain ⟨rfl, r, m, rfl, hpr, -, rfl, hdep⟩ := depositToDigest_spec hd
  have hv := hdep.digestsValue
  obtain ⟨l₃, rv, rfl⟩ := hc.state_eq
  cases hdep with
  | @cons _ m₂ _ _ _ after _ touch deposited rest =>
    cases rest
    rw [hbal] at deposited
    refine ⟨r, after, rfl, ⟨hr, hp, ⟨_, _, _, rfl⟩, deposited, fun l => ?_, touch.initiated,
      fun l hl => touch.keeps l (hini l hl), ?_⟩⟩
    · rw [touch.after, hbal]
    · simp only [tally_cons, tally_nil, principal] at hv
      unfold digestsValue
      dsimp only at hv ⊢
      omega

theorem placeDigestCommit_joined {s s' : State T} {who : T.AccountId} {reason : T.Reason}
    {digest : T.AccountId} {value amount : Nat} {variant : T.Position} {q : Directive}
    (hn : s.commitMap.get (who, reason) = none)
    (h : placeDigestCommit s who reason digest value variant q = .ok (s', amount)) :
    ∃ info r after, Joined s s' (who, reason) info r after := by
  obtain ⟨m, hm, hbal, hini, hval⟩ := initiateDigest_spec s reason digest
  unfold placeDigestCommit at h
  rw [hm] at h
  obtain ⟨⟨s1, actual⟩, h1, h⟩ := bind_eq_ok.mp h
  obtain ⟨l, rfl, -⟩ := deductBalance_spec h1
  obtain ⟨⟨s2, receipt, deposited⟩, h2, h⟩ := bind_eq_ok.mp h
  obtain ⟨s3, h3, h⟩ := bind_eq_ok.mp h
  simp only [pure_eq_ok, Prod.mk.injEq] at h
  obtain ⟨rfl, rfl⟩ := h
  obtain ⟨info, hc, rfl, rfl, hr⟩ := finalizePlaceCommit_spec h3
  obtain ⟨r, after, -, hj⟩ := joined_of_credited ⟨l, m, rfl, hbal, hini, hval⟩ h2 hc
    (by rw [hn]; exact hr) (fun old ho => by rw [hn] at ho; cases ho)
  exact ⟨info, r, after, hj⟩

theorem raiseDigestCommit_joined {s s' : State T} {who : T.AccountId} {reason : T.Reason}
    {old : CommitInfo T} {value amount : Nat} {q : Directive}
    (ho : s.commitMap.get (who, reason) = some old)
    (h : raiseDigestCommit s who reason old.digest value q = .ok (s', amount)) :
    ∃ info r after, Joined s s' (who, reason) info r after := by
  obtain ⟨variant, hv, h⟩ := bind_eq_ok.mp h
  obtain ⟨old', ho', hv⟩ := bind_eq_ok.mp hv
  rw [getCommit, okOr_eq_ok] at ho'
  obtain rfl := Option.some.inj (ho.symm.trans ho')
  obtain rfl := pure_eq_ok.mp hv
  obtain ⟨⟨s1, actual⟩, h1, h⟩ := bind_eq_ok.mp h
  obtain ⟨l, rfl, -⟩ := deductBalance_spec h1
  obtain ⟨⟨s2, receipt, deposited⟩, h2, h⟩ := bind_eq_ok.mp h
  obtain ⟨s3, h3, h⟩ := bind_eq_ok.mp h
  simp only [pure_eq_ok, Prod.mk.injEq] at h
  obtain ⟨rfl, rfl⟩ := h
  obtain ⟨old', info, hold, hc, hd, hvar, hr⟩ := finalizeRaiseCommit_spec h3
  have hsame : old' = old := by
    obtain ⟨-, r, m, -, -, -, rfl, -⟩ := depositToDigest_spec h2
    exact Option.some.inj (hold.symm.trans ho)
  subst hsame
  rw [← hd, ← hvar] at h2
  obtain ⟨r, after, -, hj⟩ := joined_of_credited
    ⟨l, s.digestMap, rfl, fun _ => rfl, fun _ h => h, rfl⟩ h2 hc
    (by rw [ho]; exact hr)
    (fun old ho' => by rw [← Option.some.inj (ho.symm.trans ho')]; exact ⟨hd.symm, hvar.symm⟩)
  exact ⟨info, r, after, hj⟩

theorem DirectOnly.digestModel_eq {s : State T} (h : DirectOnly s) (digest : T.AccountId)
    (reason : T.Reason) : digestModel s digest reason = .direct digest := by
  unfold digestModel determineDigest
  rw [h.indexes, h.pools]
  split
  · rename_i model hm
    split at hm
    · exact (Except.ok.inj hm).symm
    · cases hm
  · rfl

theorem placeCommitOfVariant_joined {s s' : State T} {who : T.AccountId} {reason : T.Reason}
    {digest : T.AccountId} {value amount : Nat} {variant : T.Position} {q : Directive}
    (hs : DirectOnly s)
    (h : placeCommitOfVariant s who reason digest value variant q = .ok (s', amount)) :
    ∃ info r after, Joined s s' (who, reason) info r after := by
  obtain ⟨_, hn, h⟩ := bind_eq_ok.mp h
  rw [ensure_eq_ok, StorageMap.containsKey_eq_false_iff] at hn
  obtain ⟨_, -, h⟩ := bind_eq_ok.mp h
  change placeCommitOf s who reason (digestModel s digest reason) value variant q = _ at h
  rw [hs.digestModel_eq] at h
  exact placeDigestCommit_joined hn h

theorem raiseCommit_joined {s s' : State T} {who : T.AccountId} {reason : T.Reason}
    {value amount : Nat} {q : Directive} (hs : DirectOnly s)
    (h : raiseCommit s who reason value q = .ok (s', amount)) :
    ∃ info r after, Joined s s' (who, reason) info r after := by
  obtain ⟨old, ho, h⟩ := raiseCommit_eq_ok h
  rw [hs.digestModel_eq] at h
  exact raiseDigestCommit_joined ho h

/-- Receipts that are active together are withdrawn in full: for what they derive while
shares remain, and for all that is left otherwise. -/
theorem withdrawReceipts_pays {b : Balance T.share} {rs : List (Receipt T.share)} {d : AssetDelta}
    (hs : Solvent b) (hle : outstandingShares rs ≤ b.issued) (ha : ∀ r ∈ rs, Active b r)
    (hd : d.deposit + (rs.map Receipt.principal).sum ≤ T.share.maxAsset)
    (hw : d.withdraw + b.effective ≤ T.share.maxAsset) :
    ∃ after d', withdrawReceipts (rs.map some) (some b) d = .ok (some after, d') ∧
      d'.deposit = d.deposit + (rs.map Receipt.principal).sum ∧
      (outstandingShares rs < b.issued → d'.withdraw = d.withdraw + totalQuote b rs ∧
        after = { b with
          effective := b.effective - totalQuote b rs
          issued := b.issued - outstandingShares rs }) ∧
      (outstandingShares rs = b.issued → d'.withdraw = d.withdraw + b.effective ∧ Closed after) := by
  induction rs generalizing b d with
  | nil =>
    refine ⟨b, d, rfl, rfl, fun _ => ⟨rfl, rfl⟩, fun hz => ?_⟩
    obtain ⟨he, hb⟩ := hs.of_empty hz.symm
    exact ⟨by rw [he, Nat.add_zero], he, hz.symm, hb⟩
  | cons r rs ih =>
    rw [outstandingShares_cons] at hle
    rw [List.map_cons, List.sum_cons] at hd
    have har := ha r (List.mem_cons_self ..)
    obtain ⟨w, nb, hwd, -, hwn⟩ := har.withdraws
    have hwe : w ≤ b.effective := (hwn.effective_add hs).1 ▸ Nat.le_add_left _ _
    have hstep (rest : Except DispatchError (LazyBalance T × AssetDelta))
        (h : withdrawReceipts (rs.map some) (some nb)
          { deposit := d.deposit + r.principal, withdraw := d.withdraw + w } = rest) :
        withdrawReceipts ((r :: rs).map some) (some b) d = rest := by
      have h1 : checkedAdd T.share.maxAsset d.deposit r.principal = some (d.deposit + r.principal) :=
        checkedAdd_eq_some.mpr ⟨rfl, by omega⟩
      have h2 : checkedAdd T.share.maxAsset d.withdraw w = some (d.withdraw + w) :=
        checkedAdd_eq_some.mpr ⟨rfl, by omega⟩
      rw [← h]
      simp [withdrawReceipts, receiptDepositValue, Except.mapError, hwd, liftShare, okOr, h1, h2, bind,
        Except.bind]
    rcases Nat.lt_or_eq_of_le hwn.shares_le with hlt | heq
    · obtain ⟨rfl, rfl⟩ := hwn.part_eq hs hlt
      have hq : quote { b with effective := b.effective - quote b r, issued := b.issued - r.shares } =
          quote b := quote_congr (derivedValue_congr rfl rfl)
      have hact (t : Receipt T.share) (ht : t ∈ rs) : Active
          { b with effective := b.effective - quote b r, issued := b.issued - r.shares } t := by
        obtain ⟨hne, -, hred⟩ := ha t (List.mem_cons_of_mem _ ht)
        have := le_outstandingShares ht
        refine ⟨hne, by dsimp only; omega, ?_⟩
        rw [redeemable_congr (derivedValue_congr rfl rfl)]
        exact hred
      obtain ⟨after, d', hrest, hd', hpart, hlast⟩ := ih
        (d := { deposit := d.deposit + r.principal, withdraw := d.withdraw + quote b r })
        (hwn.solvent hs) (by dsimp only; omega) hact (by dsimp only; omega) (by dsimp only; omega)
      dsimp only at hd' hpart hlast
      refine ⟨after, d', hstep _ hrest, ?_, ?_, ?_⟩
      · rw [hd', List.map_cons, List.sum_cons, Nat.add_assoc]
      · rw [outstandingShares_cons]
        intro hlt'
        obtain ⟨h1, h2⟩ := hpart (by omega)
        rw [totalQuote, hq] at h1 h2
        simp only [totalQuote, List.map_cons, List.sum_cons]
        refine ⟨by omega, ?_⟩
        rw [h2]
        simp only [Nat.sub_sub]
      · rw [outstandingShares_cons]
        intro heq
        obtain ⟨h1, h2⟩ := hlast (by omega)
        exact ⟨by omega, h2⟩
    · obtain ⟨rfl, hc⟩ := hwn.last_eq hs heq
      have hnil : rs = [] := by
        cases rs with
        | nil => rfl
        | cons t rs =>
          have := (ha t (by simp)).shares_ne
          rw [outstandingShares_cons] at hle
          omega
      subst hnil
      refine ⟨nb, _, hstep _ rfl, by simp, fun hlt => ?_, fun _ => ⟨rfl, hc⟩⟩
      rw [outstandingShares_cons, outstandingShares_nil] at hlt
      omega

/-- The receipts of a direct commit are withdrawn: what they are paid is at least what they
are worth, and the price of the others stays. -/
structure Leaving (s : State T) (key : T.AccountId × T.Reason) (info : CommitInfo T) (m : DigestMap T)
    (d : AssetDelta) (b after : Balance T.share) : Prop where
  found : s.commitMap.get key = some info
  touch : Touch s.digestMap m (location key.2 info.digest info.variant) (some b) (some after)
  solvent : Solvent after
  deposit_eq : d.deposit = depositValue info.commits.receipts
  paid : b.effective = after.effective + d.withdraw
  value_le : commitValue s.digestMap key info ≤ d.withdraw
  issued : after.issued + tally (sharesAt (location key.2 info.digest info.variant))
    (commitClaims key info) = b.issued
  issued_lt : after.issued < b.issued
  price : after.issued ≠ 0 → derivedValue after = derivedValue b

theorem tally_receiptsAt_map (φ : Location T → Receipt T.share → Nat) (loc : Location T)
    (rs : List (Receipt T.share)) : tally φ (receiptsAt loc (rs.map some)) = (rs.map (φ loc)).sum := by
  induction rs with
  | nil => rfl
  | cons r rs ih =>
    rw [List.map_cons, receiptsAt_some, tally_cons, ih, List.map_cons, List.sum_cons]

theorem exists_eq_map_some {α : Type} {xs : List (Option α)} (h : ∀ x ∈ xs, ∃ a, x = some a) :
    ∃ as : List α, xs = as.map some := by
  induction xs with
  | nil => exact ⟨[], rfl⟩
  | cons x xs ih =>
    obtain ⟨a, rfl⟩ := h x (List.mem_cons_self ..)
    obtain ⟨as, rfl⟩ := ih fun y hy => h y (List.mem_cons_of_mem _ hy)
    exact ⟨a :: as, rfl⟩

theorem tally_commitClaims {key : T.AccountId × T.Reason} {info : CommitInfo T}
    {rs : List (Receipt T.share)} (h : info.commits.receipts = rs.map some)
    (φ : Location T → Receipt T.share → Nat) : tally φ (commitClaims key info) =
      (rs.map (φ (location key.2 info.digest info.variant))).sum := by
  rw [commitClaims, h, tally_receiptsAt_map]

theorem sharesAt_self (l : Location T) : sharesAt l l = fun r => r.shares :=
  funext fun _ => if_pos rfl

theorem AmountsFit.commit {s : State T} (h : AmountsFit s) {key : T.AccountId × T.Reason}
    {info : CommitInfo T} (hi : s.commitMap.get key = some info) :
    ∃ (rs : List (Receipt T.share)) (b : Balance T.share), info.commits.receipts = rs.map some ∧
      balanceAt s.digestMap (location key.2 info.digest info.variant) = some b ∧
      ∀ r ∈ rs, Active b r := by
  have hact := h.active _ _ hi
  have hsome : ∀ x ∈ info.commits.receipts, ∃ r, x = some r := by
    intro x hx
    obtain ⟨b, r, -, rfl, -⟩ := active_iff.mp (hact x hx)
    exact ⟨r, rfl⟩
  obtain ⟨rs, hrs⟩ := exists_eq_map_some hsome
  obtain ⟨x, hx⟩ := List.exists_mem_of_ne_nil _ info.commits.nonempty
  obtain ⟨b, -, hb, -, -⟩ := active_iff.mp (hact x hx)
  refine ⟨rs, b, hrs, hb, fun r hr => ?_⟩
  obtain ⟨b', r', hb', hrr, ha⟩ := active_iff.mp (hact (some r) (hrs ▸ List.mem_map_of_mem hr))
  obtain rfl := Option.some.inj (hb.symm.trans hb')
  obtain rfl := Option.some.inj hrr
  exact ha

theorem totalActiveClaims_eq_quote {b : Balance T.share} {rs : List (Receipt T.share)} (hs : Solvent b)
    (ha : ∀ r ∈ rs, Active b r) (hlt : outstandingShares rs < b.issued) :
    totalActiveClaims (some b) rs = totalQuote b rs := by
  unfold totalActiveClaims totalQuote
  congr 1
  exact List.map_congr_left fun r hr =>
    (ha r hr).claim_part hs (lt_of_le_of_lt (le_outstandingShares hr) hlt)

theorem withdrawFromDigest_leaving {s : State T} {who : T.AccountId} {reason : T.Reason}
    {info : CommitInfo T} (hs : Covered s) (hf : AmountsFit s)
    (hi : s.commitMap.get (who, reason) = some info) :
    ∃ m d b after, withdrawFromDigest s who reason info.digest = .ok ({ s with digestMap := m }, d) ∧
      Leaving s (who, reason) info m d b after := by
  obtain ⟨rs, b, hrs, hat, hact⟩ := hf.commit hi
  obtain ⟨dinfo, hdi, hlt⟩ := hs.initiated _ _ hi
  have hfits := hf.deposits _ _ hi
  have hsol := hs.backed.solvent _ _ hat
  have heff := hsol.effective_le
  dsimp only [location] at hdi hlt
  have hbal : dinfo.getBalance info.variant = some (some b) := by
    have hget : dinfo.getBalance info.variant = some dinfo.balances[T.positionIndex info.variant] :=
      List.getElem?_eq_getElem hlt
    rw [hget, ← hat]
    simp [balanceAt, location, hdi, DigestInfo.at, hlt]
  have hshares : tally (sharesAt (location reason info.digest info.variant))
      (commitClaims (who, reason) info) = outstandingShares rs := by
    rw [tally_commitClaims hrs, sharesAt_self]
    rfl
  have hle : outstandingShares rs ≤ b.issued := by
    have h1 := hs.backed.issued (location reason info.digest info.variant)
    rw [tally_outstanding, issuedAt, hat, issuedShares_some] at h1
    rw [← hshares, ← h1, commitHeld]
    exact StorageMap.le_sum (f := fun key info => tally _ (commitClaims key info)) hi
  have hdep : (rs.map Receipt.principal).sum = depositValue info.commits.receipts := by
    rw [← tally_principal_receiptsAt (location reason info.digest info.variant), hrs,
      tally_receiptsAt_map]
    rfl
  have hval : commitValue s.digestMap (who, reason) info = totalActiveClaims (some b) rs := by
    rw [commitValue, tally_commitClaims hrs]
    unfold activeAt
    rw [hat]
    rfl
  obtain ⟨after, d, hw, hd, hpart, hlast⟩ := withdrawReceipts_pays (d := { deposit := 0, withdraw := 0 })
    hsol hle hact (by dsimp only; omega) (by dsimp only; omega)
  simp only [Nat.zero_add] at hd hpart hlast
  have hok : withdrawFromDigest s who reason info.digest = .ok ({ s with
      digestMap := s.digestMap.insert (reason, info.digest)
        (dinfo.setBalance info.variant (some after)) }, d) := by
    simp [withdrawFromDigest, getCommitVariant, getCommit, hi, okOr, hdi, hbal, hrs, hw, bind,
      Except.bind, pure, Except.pure]
  have htouch := (DigestInfo.setBalance_touch hbal (some after)).touch hdi
  obtain ⟨hsa, ⟨t, htv, htd⟩, -⟩ := withdrawReceipts_spec (fun c hc => Option.some.inj hc ▸ hsol) hw
  simp only [totalValue_some, Nat.zero_add] at htv htd
  have hpaid : b.effective = after.effective + d.withdraw := by omega
  have hpos : outstandingShares rs ≠ 0 := by
    obtain ⟨x, hx⟩ := List.exists_mem_of_ne_nil _ info.commits.nonempty
    rw [hrs] at hx
    obtain ⟨r, hr, -⟩ := List.mem_map.mp hx
    have h1 := (hact r hr).shares_ne
    have h2 := le_outstandingShares hr
    omega
  rcases Nat.lt_or_eq_of_le hle with hlt | heq
  · obtain ⟨hdw, rfl⟩ := hpart hlt
    have hq := totalActiveClaims_eq_quote hsol hact hlt
    refine ⟨_, d, b, _, hok, hi, htouch, hsa _ rfl, hd.trans hdep, hpaid, ?_, ?_, ?_,
      fun _ => derivedValue_congr rfl rfl⟩
    · rw [hval, hq, hdw]
    · rw [hshares]
      dsimp only
      omega
    · dsimp only
      omega
  · obtain ⟨hdw, hc⟩ := hlast heq
    have hb : Backs (some b) rs :=
      ⟨fun c hc => Option.some.inj hc ▸ hsol, heq.symm, fun r hr => (hact r hr).shares_ne⟩
    refine ⟨_, d, b, after, hok, hi, htouch, hsa _ rfl, hd.trans hdep, hpaid, ?_, ?_, ?_,
      fun hn => absurd hc.issued_eq hn⟩
    · rw [hval, hdw]
      exact hb.totalActiveClaims_le
    · rw [hshares, hc.issued_eq]
      omega
    · rw [hc.issued_eq]
      omega

theorem tally_sharesAt_of_ne {l loc : Location T} (h : l ≠ loc) {claims : Claims T}
    (hc : ∀ c ∈ claims, c.1 = loc) : tally (sharesAt l) claims = 0 := by
  let none : Location T → Receipt T.share → Nat := fun _ _ => 0
  have hzero : ∀ c ∈ claims, sharesAt l c.1 c.2 ≤ none c.1 c.2 := by
    intro c hm
    rw [sharesAt, if_neg]
    rw [hc c hm]
    exact Ne.symm h
  have hle := tally_le_tally hzero
  simpa [tally, none] using hle

namespace Leaving

variable {s : State T} {key : T.AccountId × T.Reason} {info : CommitInfo T} {m : DigestMap T}
  {d : AssetDelta} {b after : Balance T.share}

theorem backed (h : Leaving s key info m d b after)
    (hs : Backed s.digestMap (outstanding s.commitMap)) :
    Backed m (outstanding (s.commitMap.remove key)) := by
  refine ⟨h.touch.allSolvent hs.solvent fun c hc => Option.some.inj hc ▸ h.solvent, fun l => ?_,
    fun c hc => hs.shares_ne c (mem_outstanding_remove hc)⟩
  have hi := hs.issued l
  have hr := StorageMap.sum_remove
    (fun key (info : CommitInfo T) => tally (sharesAt l) (commitClaims key info)) s.commitMap key
  rw [h.found, Option.elim_some] at hr
  rw [tally_outstanding, commitHeld] at hi
  rw [tally_outstanding, commitHeld, h.touch.issued]
  split
  · rename_i hl
    subst hl
    have h1 := h.issued
    rw [issuedAt, h.touch.before, issuedShares_some] at hi
    rw [issuedShares_some]
    omega
  · rename_i hl
    rw [tally_sharesAt_of_ne hl fun c hc => (mem_commitClaims hc).1] at hr
    omega

theorem active (h : Leaving s key info m d b after) (hs : Covered s) (hf : AmountsFit s)
    {c : Location T × Receipt T.share} (hc : c ∈ outstanding (s.commitMap.remove key)) :
    (∃ b', balanceAt m c.1 = some b' ∧ Active b' c.2) ∧
      activeAt s.digestMap c.1 c.2 ≤ activeAt m c.1 c.2 := by
  obtain ⟨x, hx, ha⟩ := hf.claim (mem_outstanding_remove hc)
  have hafter := h.touch.after c.1
  unfold activeAt
  by_cases hl : c.1 = location key.2 info.digest info.variant
  · rw [if_pos hl] at hafter
    have hle := (h.backed hs.backed).shares_le hc
    rw [issuedAt, hafter, issuedShares_some] at hle
    have hne := ha.shares_ne
    have hlt := h.issued_lt
    have hprice := h.price (by omega)
    obtain rfl : x = b := by
      have hb := h.touch.before
      rw [← hl, hx] at hb
      exact Option.some.inj hb
    have ha' : Active after c.2 := ⟨hne, hle, by
      rw [redeemable_congr hprice]
      exact ha.redeemable⟩
    refine ⟨⟨after, hafter, ha'⟩, ?_⟩
    rw [hx, hafter]
    exact ha.le_claim_of_redeem (hs.backed.solvent _ _ hx) ha' h.solvent
      (congrFun (quote_congr hprice) _) (by omega)
  · rw [if_neg hl] at hafter
    rw [hafter]
    exact ⟨⟨x, hx, ha⟩, le_refl _⟩

theorem value (h : Leaving s key info m d b after) :
    (m.sum fun _ info => info.value) + d.withdraw = digestsValue s := by
  have hl := h.touch.live fun _ => 1
  have hp := h.paid
  simp only [liveValue_one, Nat.one_mul, totalValue_some] at hl
  unfold digestsValue
  omega

theorem within (h : Leaving s key info m d b after) (hd : DirectOnly s) (hs : Covered s)
    (hf : AmountsFit s) : d.withdraw - d.deposit ≤ s.assetToIssue ∧
      d.deposit - d.withdraw ≤ s.assetToReap := by
  have hrise := peaks_of_rise fun c hc => (h.active hs hf hc).2
  have hpeaks := StorageMap.sum_remove (commitPeak s.digestMap) s.commitMap key
  have hvalues := StorageMap.sum_remove (commitValue s.digestMap) s.commitMap key
  have howed := commitsOwed_remove s.commitMap key
  rw [h.found, Option.elim_some] at hpeaks hvalues howed
  have hle : commitsOwed (s.commitMap.remove key) ≤
      (s.commitMap.remove key).sum (commitPeak s.digestMap) :=
    StorageMap.sum_le_sum fun _ _ _ => le_max_left _ _
  have hge : (s.commitMap.remove key).sum (commitValue s.digestMap) ≤
      (s.commitMap.remove key).sum (commitPeak s.digestMap) :=
    StorageMap.sum_le_sum fun _ _ _ => le_max_right _ _
  have hrest : (s.commitMap.remove key).sum (commitValue s.digestMap) ≤
      m.sum fun _ info => info.value := by
    refine le_trans (StorageMap.sum_le_sum fun k i hi => tally_le_tally fun c hc =>
      (h.active hs hf (mem_outstanding.mpr ⟨k, i, hi, hc⟩)).2) ?_
    have := (h.backed hs.backed).active_le
    rw [tally_outstanding] at this
    exact this
  have hcov := hs.covers
  have hval := h.value
  have hve := h.value_le
  have hde := h.deposit_eq
  have hbal := hd.balanced
  have hent : entriesOwed s.entryMap = 0 := by rw [hd.entries]; rfl
  unfold disequilibrium depositsOwed at hbal
  unfold commitsValue at hcov
  unfold commitPeak at hpeaks hcov hge hle
  constructor
  · omega
  · omega

theorem keeps (h : Leaving s key info m d b after) (hs : Covered s) (hf : AmountsFit s) {s' : State T}
    (hm : s'.digestMap = m) (hc : s'.commitMap = s.commitMap.remove key)
    (hr : s'.assetToReap + (d.deposit - d.withdraw) = s.assetToReap) : Covered s' ∧ AmountsFit s' := by
  have hget {k : T.AccountId × T.Reason} {i : CommitInfo T} (hi : s'.commitMap.get k = some i) :
      s.commitMap.get k = some i := by
    rw [hc, StorageMap.get_remove] at hi
    split at hi
    · cases hi
    · exact hi
  have hrise := peaks_of_rise fun c hc => (h.active hs hf hc).2
  have hpeaks := StorageMap.sum_remove (commitPeak s.digestMap) s.commitMap key
  have hvalues := StorageMap.sum_remove (commitValue s.digestMap) s.commitMap key
  rw [h.found, Option.elim_some] at hpeaks hvalues
  have hcov := hs.covers
  have hve := h.value_le
  have hde := h.deposit_eq
  refine ⟨⟨?_, fun c hmem => ?_, fun k i hi => ?_, ?_⟩, fun k i hi => hf.deposits k i (hget hi),
    fun k i hi receipt hrec => ?_⟩
  · rw [hm, hc]
    exact h.backed hs.backed
  · rw [hc] at hmem
    exact hs.deposited c (mem_outstanding_remove hmem)
  · rw [hm]
    exact h.touch.keeps _ (hs.initiated k i (hget hi))
  · unfold commitsValue at hcov ⊢
    unfold commitPeak at hpeaks hcov hrise ⊢
    rw [hm, hc]
    omega
  · obtain ⟨b', r, -, rfl, -⟩ := active_iff.mp (hf.active k i (hget hi) receipt hrec)
    have hmem : (location k.2 i.digest i.variant, r) ∈ outstanding (s.commitMap.remove key) :=
      mem_outstanding.mpr ⟨k, i, hc ▸ hi, mem_receiptsAt.mpr hrec⟩
    obtain ⟨⟨b'', hb, ha⟩, -⟩ := h.active hs hf hmem
    rw [hm]
    exact active_iff.mpr ⟨b'', r, hb, rfl, ha⟩

end Leaving

/-- The fungible credits and mints to the account up to an amount, and burns what it has
just credited. -/
structure Payable (l : T.Ledger) (who : T.AccountId) (room : Nat) : Prop where
  credits : ∀ v, 0 < v → v ≤ room → ∃ l', T.asset.increaseBalance l who v = .ok l'
  mints : ∀ v w l', T.asset.increaseBalance l who v = .ok l' → 0 < w → v + w ≤ room →
    ∃ l'', T.asset.mintInto l' who w = .ok l''
  burns : ∀ v w l', T.asset.increaseBalance l who v = .ok l' → w ≤ v →
    ∃ l'', T.asset.burnFrom l' who w = .ok l''

theorem resolveImbalance_isOk {s : State T} {who : T.AccountId} {d : AssetDelta} {room : Nat}
    (hp : Payable s.ledger who room) (hd : d.deposit ≠ 0) (hroom : d.deposit + s.assetToIssue ≤ room)
    (hi : d.withdraw - d.deposit ≤ s.assetToIssue) (hr : d.deposit - d.withdraw ≤ s.assetToReap) :
    ∃ out, resolveImbalance s who d = .ok out := by
  obtain ⟨l, hl⟩ := hp.credits d.deposit (Nat.pos_of_ne_zero hd) (by omega)
  unfold resolveImbalance
  dsimp only
  split
  · rename_i hlt
    obtain ⟨l', hl'⟩ := hp.mints _ (d.withdraw - d.deposit) l hl (by omega) (by omega)
    simp [checkedSub, hi, State.unlessZero, hd, State.increaseBalance, State.mintInto, State.onLedger,
      hl, hl', okOr, bind, Except.bind, pure, Except.pure]
  · split
    · rename_i heq
      rw [heq] at hl
      simp [State.increaseBalance, State.onLedger, hl, bind, Except.bind, pure, Except.pure]
    · rename_i hlt hne
      have hz : d.deposit - d.withdraw ≠ 0 := by omega
      obtain ⟨l', hl'⟩ := hp.burns _ (d.deposit - d.withdraw) l hl (Nat.sub_le _ _)
      simp [checkedSub, hr, State.unlessZero, hz, State.increaseBalance, State.burnFrom, State.onLedger,
        hl, hl', okOr, bind, Except.bind, pure, Except.pure]

theorem depositValue_ne {s : State T} (hs : Covered s) (hf : AmountsFit s)
    {key : T.AccountId × T.Reason} {info : CommitInfo T} (hi : s.commitMap.get key = some info) :
    depositValue info.commits.receipts ≠ 0 := by
  obtain ⟨x, hx⟩ := List.exists_mem_of_ne_nil _ info.commits.nonempty
  obtain ⟨b, r, -, rfl, -⟩ := active_iff.mp (hf.active _ _ hi x hx)
  have hne := hs.deposited _ (mem_outstanding.mpr ⟨key, info, hi, mem_receiptsAt.mpr hx⟩)
  have hle : r.principal ≤ depositValue info.commits.receipts :=
    List.single_le_sum (fun _ _ => Nat.zero_le _) _
      (List.mem_map_of_mem (f := fun receipt : CommitInstance T => receipt.elim 0 Receipt.principal) hx)
  dsimp only at hne
  omega

theorem resolveCommit_isOk {s : State T} {who : T.AccountId} {reason : T.Reason} {info : CommitInfo T}
    (hd : DirectOnly s) (hs : Covered s) (hf : AmountsFit s)
    (hi : s.commitMap.get (who, reason) = some info)
    (hp : ∃ l, T.asset.thaw s.ledger reason who = .ok l ∧
      Payable l who (depositValue info.commits.receipts + s.assetToIssue)) :
    ∃ out, resolveCommit s who reason = .ok out := by
  obtain ⟨m, d, b, after, hw, hl⟩ := withdrawFromDigest_leaving hs hf hi
  obtain ⟨l, ht, hp⟩ := hp
  obtain ⟨hissue, hreap⟩ := hl.within hd hs hf
  have hdep := hl.deposit_eq
  have hne := depositValue_ne hs hf hi
  have hdet : determineDigest s info.digest reason = .ok (.direct info.digest) := by
    obtain ⟨dinfo, hdi, -⟩ := hs.initiated _ _ hi
    have hk : s.digestMap.containsKey (reason, info.digest) = true :=
      StorageMap.containsKey_iff.mpr ⟨_, hdi⟩
    simp [determineDigest, hk]
  have htotal : d.withdraw ≤ getTotalValue s reason := by
    have hlive := hl.touch.live (weightOf reason)
    have hpaid := hl.paid
    rw [← totalReasons_weightOf, hd.totals]
    simp only [location, weightOf, if_true, totalValue_some, Nat.one_mul] at hlive
    omega
  let s₁ : State T := { s with digestMap := m, commitMap := s.commitMap.remove (who, reason), ledger := l }
  obtain ⟨⟨s₂, paid⟩, h2⟩ := resolveImbalance_isOk (s := s₁) (d := d) hp (by omega)
    (by rw [hdep]) hissue hreap
  have hmax : d.withdraw ≤ T.share.maxAsset := by
    have := (hs.backed.solvent _ _ hl.touch.before).effective_le
    have := hl.paid
    omega
  obtain ⟨hpaid, l', issue, reap', hs2, -⟩ := resolveImbalance_spec h2 hmax
  have hsub : ∃ s₃, subFromTotalValue s₂ reason paid = .ok s₃ := by
    have hle : paid ≤ getTotalValue s₂ reason := by
      rw [hs2, hpaid]
      exact htotal
    simp [subFromTotalValue, checkedSub, hle, okOr, bind, Except.bind, pure, Except.pure]
  obtain ⟨s₃, h3⟩ := hsub
  have hget : getCommit s who reason = .ok info := by simp [getCommit, hi]
  have hthaw : State.onLedger { s with digestMap := m, commitMap := s.commitMap.remove (who, reason) }
      (fun l => T.asset.thaw l reason who) = .ok s₁ := bind_eq_ok.mpr ⟨l, ht, rfl⟩
  have hfin : finalizeResolveCommit { s with digestMap := m } who reason d = .ok (s₃, paid) :=
    bind_eq_ok.mpr ⟨s₁, hthaw, bind_eq_ok.mpr ⟨_, h2, bind_eq_ok.mpr ⟨_, h3, rfl⟩⟩⟩
  have hres : resolveCommitOf s who reason (.direct info.digest) = .ok (s₃, paid) :=
    bind_eq_ok.mpr ⟨info.variant, bind_eq_ok.mpr ⟨info, hget, rfl⟩, bind_eq_ok.mpr ⟨_, hw, hfin⟩⟩
  exact ⟨_, bind_eq_ok.mpr ⟨info.digest, bind_eq_ok.mpr ⟨info, hget, rfl⟩,
    bind_eq_ok.mpr ⟨_, hdet, hres⟩⟩⟩

end FrameSuite
