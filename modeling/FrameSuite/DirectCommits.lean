import FrameSuite.Outstanding
import FrameSuite.Conservation

/-! Runs of direct commits and value updates alone. What all commits have gained or lost
stays within the two counters, as long as no deposit and no reaping rounds value away
from the outstanding receipts. -/

namespace FrameSuite

open ShareBalance

variable {T : Config}

/-- The active values of the receipts of a commit. -/
def commitValue (m : DigestMap T) (key : T.AccountId × T.Reason) (info : CommitInfo T) : Nat :=
  tally (activeAt m) (commitClaims key info)

def commitsValue (s : State T) : Nat := s.commitMap.sum (commitValue s.digestMap)

/-- The value on the digests that no commit accounts for. -/
def remainder (s : State T) : Int := digestsValue s - commitsValue s

/-- Deposits add up within the asset type, and every price derivation stays inside the
carrier. -/
structure AmountsFit (s : State T) : Prop where
  deposits : ∀ key info, s.commitMap.get key = some info →
    depositValue info.commits.receipts ≤ T.share.maxAsset
  active : ∀ key info, s.commitMap.get key = some info → ∀ receipt ∈ info.commits.receipts,
    (receiptActiveValue (balanceAt s.digestMap (location key.2 info.digest info.variant))
      receipt).isOk = true

instance (s : State T) : Decidable (AmountsFit s) :=
  decidable_of_iff (∀ key ∈ s.commitMap.keys, ∀ info ∈ s.commitMap.get key,
      depositValue info.commits.receipts ≤ T.share.maxAsset ∧
      ∀ receipt ∈ info.commits.receipts, (receiptActiveValue
        (balanceAt s.digestMap (location key.2 info.digest info.variant)) receipt).isOk = true)
    ⟨fun h => ⟨fun key info hi => (h key ((s.commitMap.mem_keys key).mpr (by simp [hi])) info hi).1,
        fun key info hi => (h key ((s.commitMap.mem_keys key).mpr (by simp [hi])) info hi).2⟩,
      fun h key _ info hi => ⟨h.deposits key info hi, h.active key info hi⟩⟩

/-- The larger of what a commit deposited and what it is worth. -/
def commitPeak (m : DigestMap T) (key : T.AccountId × T.Reason) (info : CommitInfo T) : Nat :=
  max (depositValue info.commits.receipts) (commitValue m key info)

/-- The reaping still to be resolved covers the losses of all commits together. -/
structure Covered (s : State T) : Prop where
  backed : Backed s.digestMap (outstanding s.commitMap)
  deposited : ∀ c ∈ outstanding s.commitMap, c.2.principal ≠ 0
  initiated : ∀ key info, s.commitMap.get key = some info →
    Initiated s.digestMap (location key.2 info.digest info.variant)
  covers : s.commitMap.sum (commitPeak s.digestMap) ≤ s.assetToReap + commitsValue s

theorem commitsValue_eq (s : State T) :
    commitsValue s = tally (activeAt s.digestMap) (outstanding s.commitMap) :=
  (tally_outstanding _ _).symm

theorem Covered.value_le {s : State T} (h : Covered s) : commitsValue s ≤ digestsValue s := by
  rw [commitsValue_eq]
  exact h.backed.active_le

theorem mem_receiptsAt {loc : Location T} {rs : List (CommitInstance T)} {r : Receipt T.share} :
    (loc, r) ∈ receiptsAt loc rs ↔ some r ∈ rs := by
  simp only [receiptsAt, List.mem_filterMap, Option.map_eq_some_iff, Prod.mk.injEq, true_and]
  constructor
  · rintro ⟨receipt, hm, r', rfl, rfl⟩
    exact hm
  · exact fun hm => ⟨_, hm, r, rfl, rfl⟩

theorem mem_commitClaims {key : T.AccountId × T.Reason} {info : CommitInfo T}
    {c : Location T × Receipt T.share} (h : c ∈ commitClaims key info) :
    c.1 = location key.2 info.digest info.variant ∧ some c.2 ∈ info.commits.receipts := by
  have hl := reason_of_mem_receiptsAt h
  obtain ⟨loc, r⟩ := c
  dsimp only at hl
  subst hl
  exact ⟨rfl, mem_receiptsAt.mp h⟩

theorem AmountsFit.claim {s : State T} (h : AmountsFit s) {c : Location T × Receipt T.share}
    (hc : c ∈ outstanding s.commitMap) : ∃ b, balanceAt s.digestMap c.1 = some b ∧ Active b c.2 := by
  obtain ⟨key, info, hi, hc⟩ := mem_outstanding.mp hc
  obtain ⟨hl, hr⟩ := mem_commitClaims hc
  obtain ⟨b, r, hb, hrr, ha⟩ := active_iff.mp (h.active key info hi _ hr)
  obtain rfl := Option.some.inj hrr
  exact ⟨b, hl ▸ hb, ha⟩

/-- A commit was placed or raised by one receipt, sold at its location. -/
structure Joined (s s' : State T) (key : T.AccountId × T.Reason) (info : CommitInfo T)
    (r : Receipt T.share) (after : Balance T.share) : Prop where
  receipts : info.commits.receipts =
    ((s.commitMap.get key).elim [] fun old => old.commits.receipts) ++ [some r]
  place : ∀ old, s.commitMap.get key = some old → old.digest = info.digest ∧ old.variant = info.variant
  state_eq : ∃ l m rv, s' = { s with
    ledger := l
    digestMap := m
    reasonValue := rv
    commitMap := s.commitMap.insert key info }
  deposited : Deposited (balanceAt s.digestMap (location key.2 info.digest info.variant)) r.principal r
    after
  balances : ∀ l, balanceAt s'.digestMap l =
    if l = location key.2 info.digest info.variant then some after else balanceAt s.digestMap l
  initiated : Initiated s'.digestMap (location key.2 info.digest info.variant)
  keeps : ∀ l, Initiated s.digestMap l → Initiated s'.digestMap l
  value : digestsValue s' = digestsValue s + r.principal

theorem Joined.held {s s' : State T} {key : T.AccountId × T.Reason} {info : CommitInfo T}
    {r : Receipt T.share} {after : Balance T.share} (h : Joined s s' key info r after)
    (φ : Location T → Receipt T.share → Nat) : tally φ (commitClaims key info) =
      (s.commitMap.get key).elim 0 (fun old => tally φ (commitClaims key old)) +
        φ (location key.2 info.digest info.variant) r := by
  have hp := h.place
  rw [commitClaims, h.receipts]
  cases hg : s.commitMap.get key with
  | none => simp
  | some old =>
    obtain ⟨hd, hv⟩ := hp old hg
    simp [commitClaims, hd, hv]

theorem Joined.commitHeld {s s' : State T} {key : T.AccountId × T.Reason} {info : CommitInfo T}
    {r : Receipt T.share} {after : Balance T.share} (h : Joined s s' key info r after)
    (φ : Location T → Receipt T.share → Nat) : commitHeld φ s'.commitMap =
      commitHeld φ s.commitMap + φ (location key.2 info.digest info.variant) r := by
  have hh := h.held φ
  obtain ⟨l, m, rv, rfl⟩ := h.state_eq
  have hs := StorageMap.sum_insert (fun key (info : CommitInfo T) => tally φ (commitClaims key info))
    s.commitMap key info
  unfold FrameSuite.commitHeld
  dsimp only at hs ⊢
  omega

theorem Joined.mem_iff {s s' : State T} {key : T.AccountId × T.Reason} {info : CommitInfo T}
    {r : Receipt T.share} {after : Balance T.share} (h : Joined s s' key info r after)
    {c : Location T × Receipt T.share} : c ∈ outstanding s'.commitMap ↔
      c ∈ outstanding s.commitMap ∨ c = (location key.2 info.digest info.variant, r) := by
  have hr := h.receipts
  have hp := h.place
  obtain ⟨l, m, rv, rfl⟩ := h.state_eq
  have hinfo : commitClaims key info = (s.commitMap.get key).elim [] (commitClaims key) ++
      [(location key.2 info.digest info.variant, r)] := by
    rw [commitClaims, hr]
    cases hg : s.commitMap.get key with
    | none => simp
    | some old =>
      obtain ⟨hd, hv⟩ := hp old hg
      simp [commitClaims, hd, hv]
  rw [mem_outstanding, mem_outstanding]
  constructor
  · rintro ⟨k, i, hi, hc⟩
    rw [StorageMap.get_insert] at hi
    split at hi
    · rename_i hk
      obtain rfl := Option.some.inj hi
      rw [hk, hinfo, List.mem_append, List.mem_singleton] at hc
      refine hc.imp_left fun hc => ?_
      cases hg : s.commitMap.get key with
      | none => simp [hg] at hc
      | some old => exact ⟨key, old, hg, by simpa [hg] using hc⟩
    · exact .inl ⟨k, i, hi, hc⟩
  · rintro (⟨k, i, hi, hc⟩ | rfl)
    · by_cases hk : k = key
      · subst hk
        refine ⟨k, info, StorageMap.get_insert_self .., ?_⟩
        rw [hinfo, hi]
        exact List.mem_append_left _ hc
      · exact ⟨k, i, by rw [StorageMap.get_insert_of_ne hk, hi], hc⟩
    · refine ⟨key, info, StorageMap.get_insert_self .., ?_⟩
      rw [hinfo]
      exact List.mem_append_right _ (List.mem_singleton_self _)

theorem ShareBalance.Deposited.claim_le {C : ShareConfig} {balance : VirtualBalance C} {asset : Nat}
    {r : Receipt C} {after : Balance C} (h : Deposited balance asset r after)
    (hs : Solvent (isFreshBalance balance)) (hr : Active after r) :
    activeClaim (some after) r ≤ asset := by
  have hs' := h.solvent hs
  have hsh := deriveShares_mul_le hs h.derived
  rcases Nat.lt_or_eq_of_le hr.shares_le with hlt | heq
  · rw [hr.claim_part hs' hlt]
    refine Nat.le_of_mul_le_mul_right ((quote_mul_le _ _).trans ?_) C.rational.div_pos
    rw [h.after_eq, Nat.mul_comm]
    exact hsh
  · rw [hr.claim_last hs' heq, h.after_eq]
    rw [h.after_eq] at heq
    dsimp only at heq ⊢
    have := (hs.of_empty (by omega)).1
    omega

theorem ShareBalance.Deposited.quote_eq {C : ShareConfig} {b : Balance C} {asset : Nat}
    {r : Receipt C} {after : Balance C} (h : Deposited (some b) asset r after) :
    quote after = quote b :=
  quote_congr (derivedValue_congr (by rw [h.after_eq]; rfl) (by rw [h.after_eq]; rfl))

theorem Joined.active_le {s s' : State T} {key : T.AccountId × T.Reason} {info : CommitInfo T}
    {r : Receipt T.share} {after : Balance T.share} (h : Joined s s' key info r after)
    (hs : Covered s) (hs' : AllSolvent s'.digestMap) (hf : AmountsFit s) (hf' : AmountsFit s')
    {c : Location T × Receipt T.share} (hc : c ∈ outstanding s.commitMap) :
    activeAt s'.digestMap c.1 c.2 ≤ activeAt s.digestMap c.1 c.2 := by
  have hbal := h.balances c.1
  unfold activeAt
  split at hbal
  · rename_i hl
    obtain ⟨b, hb, ha⟩ := hf.claim hc
    obtain ⟨b', hb', ha'⟩ := hf'.claim (h.mem_iff.mpr (.inl hc))
    obtain rfl := Option.some.inj (hb'.symm.trans hbal)
    have hd := h.deposited
    rw [← hl, hb] at hd
    rw [hb, hb']
    refine ha.claim_le_of_issue (hs.backed.solvent _ _ hb) ha' (hs' _ _ hb')
      (congrFun hd.quote_eq _) ?_
    have hle := ha.shares_le
    have hne := hd.shares_ne
    rw [hd.after_eq]
    change c.2.shares < b.issued + r.shares
    omega
  · rw [hbal]

theorem Joined.backed {s s' : State T} {key : T.AccountId × T.Reason} {info : CommitInfo T}
    {r : Receipt T.share} {after : Balance T.share} (h : Joined s s' key info r after)
    (hs : Backed s.digestMap (outstanding s.commitMap)) (hs' : AllSolvent s'.digestMap) :
    Backed s'.digestMap (outstanding s'.commitMap) := by
  refine ⟨hs', fun l => ?_, fun c hc => ?_⟩
  · have hi := hs.issued l
    rw [tally_outstanding] at hi ⊢
    rw [h.commitHeld, hi, issuedAt, issuedAt, h.balances, sharesAt]
    by_cases hl : l = location key.2 info.digest info.variant
    · subst hl
      rw [if_pos rfl, if_pos rfl, h.deposited.after_eq, issuedShares_some]
      dsimp only
      rw [issuedShares_isFreshBalance]
    · rw [if_neg hl, if_neg (Ne.symm hl), Nat.add_zero]
  · rcases h.mem_iff.mp hc with hc | rfl
    · exact hs.shares_ne c hc
    · exact h.deposited.shares_ne

theorem peaks_of_fall {m m' : DigestMap T} {cm : CommitMap T}
    (h : ∀ c ∈ outstanding cm, activeAt m' c.1 c.2 ≤ activeAt m c.1 c.2) :
    cm.sum (commitPeak m') ≤ cm.sum (commitPeak m) :=
  StorageMap.sum_le_sum fun k i hi => max_le_max_left _
    (tally_le_tally fun c hc => h c (mem_outstanding.mpr ⟨k, i, hi, hc⟩))

theorem peaks_of_rise {m m' : DigestMap T} {cm : CommitMap T}
    (h : ∀ c ∈ outstanding cm, activeAt m c.1 c.2 ≤ activeAt m' c.1 c.2) :
    cm.sum (commitPeak m') + cm.sum (commitValue m) ≤
      cm.sum (commitPeak m) + cm.sum (commitValue m') := by
  rw [← StorageMap.sum_add, ← StorageMap.sum_add]
  refine StorageMap.sum_le_sum fun k i hi => ?_
  have : commitValue m k i ≤ commitValue m' k i :=
    tally_le_tally fun c hc => h c (mem_outstanding.mpr ⟨k, i, hi, hc⟩)
  unfold commitPeak
  omega

theorem mem_outstanding_remove {cm : CommitMap T} {key : T.AccountId × T.Reason}
    {c : Location T × Receipt T.share} (h : c ∈ outstanding (cm.remove key)) : c ∈ outstanding cm := by
  obtain ⟨k, i, hi, hc⟩ := mem_outstanding.mp h
  rw [StorageMap.get_remove] at hi
  split at hi
  · cases hi
  · exact mem_outstanding.mpr ⟨k, i, hi, hc⟩

theorem Joined.peaks_le {s s' : State T} {key : T.AccountId × T.Reason} {info : CommitInfo T}
    {r : Receipt T.share} {after : Balance T.share} (h : Joined s s' key info r after)
    (hs : Covered s) (hs' : AllSolvent s'.digestMap) (hf : AmountsFit s) (hf' : AmountsFit s') :
    s'.commitMap.sum (commitPeak s'.digestMap) ≤
      s.commitMap.sum (commitPeak s.digestMap) + r.principal := by
  have hle {c : Location T × Receipt T.share} (hc : c ∈ outstanding s.commitMap) :=
    h.active_le hs hs' hf hf' hc
  have hothers : (s.commitMap.remove key).sum (commitPeak s'.digestMap) ≤
      (s.commitMap.remove key).sum (commitPeak s.digestMap) :=
    peaks_of_fall fun c hc => hle (mem_outstanding_remove hc)
  have hnew : activeAt s'.digestMap (location key.2 info.digest info.variant) r ≤ r.principal := by
    obtain ⟨b, hb, ha⟩ := hf'.claim (h.mem_iff.mpr (.inr rfl))
    dsimp only at hb ha
    obtain rfl : after = b := by
      have hbal := h.balances (location key.2 info.digest info.variant)
      rw [if_pos rfl] at hbal
      exact Option.some.inj (hbal.symm.trans hb)
    rw [activeAt, hb]
    exact h.deposited.claim_le (hs.backed.solvent.fresh _) ha
  have hown : commitPeak s'.digestMap key info ≤
      (s.commitMap.get key).elim 0 (commitPeak s.digestMap key) + r.principal := by
    have hv := h.held (activeAt s'.digestMap)
    have hr := h.receipts
    unfold commitPeak
    rw [hr, commitValue, hv]
    cases hg : s.commitMap.get key with
    | none => simpa using hnew
    | some old =>
      have : tally (activeAt s'.digestMap) (commitClaims key old) ≤
          tally (activeAt s.digestMap) (commitClaims key old) :=
        tally_le_tally fun c hc => hle (mem_outstanding.mpr ⟨key, old, hg, hc⟩)
      simp only [Option.elim_some, depositValue_append, depositValue_cons, depositValue_nil, commitValue]
      omega
  have hr := StorageMap.sum_remove (commitPeak s.digestMap) s.commitMap key
  have hi := StorageMap.sum_insert_eq (commitPeak s'.digestMap) s.commitMap key info
  have hcm : s'.commitMap = s.commitMap.insert key info := by
    obtain ⟨l, m, rv, rfl⟩ := h.state_eq
    rfl
  rw [hcm]
  omega

theorem Joined.covered {s s' : State T} {key : T.AccountId × T.Reason} {info : CommitInfo T}
    {r : Receipt T.share} {after : Balance T.share} (h : Joined s s' key info r after)
    (hs : Covered s) (hs' : AllSolvent s'.digestMap) (hf : AmountsFit s) (hf' : AmountsFit s')
    (hrem : remainder s' ≤ remainder s) : Covered s' := by
  have hp := h.peaks_le hs hs' hf hf'
  have hv := h.value
  have hc := hs.covers
  have hreap : s'.assetToReap = s.assetToReap := by
    obtain ⟨l, m, rv, rfl⟩ := h.state_eq
    rfl
  refine ⟨h.backed hs.backed hs', fun c hc => ?_, fun k i hi => ?_, ?_⟩
  · rcases h.mem_iff.mp hc with hc | rfl
    · exact hs.deposited c hc
    · exact h.deposited.asset_ne
  · obtain ⟨l, m, rv, rfl⟩ := h.state_eq
    dsimp only at hi
    rw [StorageMap.get_insert] at hi
    split at hi
    · rename_i hk
      obtain rfl := Option.some.inj hi
      exact hk ▸ h.initiated
    · exact h.keeps _ (hs.initiated k i hi)
  · unfold remainder at hrem
    omega

/-- The value of one location was updated, and the difference booked. -/
structure Adjusted (s s' : State T) (loc : Location T) (b b' : LazyBalance T) (gain loss : Nat) :
    Prop where
  state_eq : ∃ m rv, s' = { s with
    digestMap := m
    reasonValue := rv
    assetToIssue := s.assetToIssue + gain
    assetToReap := s.assetToReap + loss }
  touch : Touch s.digestMap s'.digestMap loc b b'
  revalued : Revalued b b' gain loss
  value : digestsValue s' + loss = digestsValue s + gain

theorem setDigestVariantValue_adjusted {s s' : State T} {reason : T.Reason} {digest : T.AccountId}
    {value reached : Nat} {variant : T.Position}
    (h : setDigestVariantValue s reason digest value variant = .ok (s', reached)) :
    ∃ b b' gain loss, Adjusted s s' (location reason digest variant) b b' gain loss := by
  obtain ⟨m, rv, b, b', gain, loss, rfl, ht, hr, -, -, -⟩ := setDigestVariantValue_spec h
  refine ⟨b, b', gain, loss, ⟨m, rv, rfl⟩, ht, hr, ?_⟩
  have hl := ht.live fun _ => 1
  have hv := hr.value
  simp only [liveValue_one, Nat.one_mul] at hl
  unfold digestsValue
  dsimp only
  omega

theorem Adjusted.active_mono {s s' : State T} {loc : Location T} {b b' : LazyBalance T}
    {gain loss : Nat} (h : Adjusted s s' loc b b' gain loss) (hs : Covered s) (hf : AmountsFit s)
    (hf' : AmountsFit s') :
    (∀ c ∈ outstanding s.commitMap, activeAt s.digestMap c.1 c.2 ≤ activeAt s'.digestMap c.1 c.2) ∨
    (loss ≠ 0 ∧ gain = 0 ∧
      ∀ c ∈ outstanding s.commitMap, activeAt s'.digestMap c.1 c.2 ≤ activeAt s.digestMap c.1 c.2) := by
  have hsol := hs.backed.solvent
  have hbefore := h.touch.before
  have hafter : balanceAt s'.digestMap loc = b' := by rw [h.touch.after, if_pos rfl]
  have helse {l : Location T} (hl : l ≠ loc) : activeAt s'.digestMap l = activeAt s.digestMap l := by
    funext r
    rw [activeAt, activeAt, h.touch.after, if_neg hl]
  have hcm : s'.commitMap = s.commitMap := by
    obtain ⟨m, rv, rfl⟩ := h.state_eq
    rfl
  -- a receipt at the location is active before and after
  have hact {c : Location T × Receipt T.share} (hc : c ∈ outstanding s.commitMap) {x y : Balance T.share}
      (hl : c.1 = loc) (hx : b = some x) (hy : b' = some y) : Active x c.2 ∧ Active y c.2 := by
    obtain ⟨x', hx', ha⟩ := hf.claim hc
    obtain ⟨y', hy', ha'⟩ := hf'.claim (hcm.symm ▸ hc)
    rw [hl, hbefore, hx] at hx'
    rw [hl, hafter, hy] at hy'
    obtain rfl := Option.some.inj hx'
    obtain rfl := Option.some.inj hy'
    exact ⟨ha, ha'⟩
  have hr := h.revalued
  cases hr with
  | @minted x y _ ha hm =>
    left
    intro c hc
    by_cases hl : c.1 = loc
    · obtain ⟨h1, h2⟩ := hact hc hl rfl rfl
      rw [activeAt, activeAt, hl, hbefore, hafter]
      exact hm.claim_le (hsol _ _ hbefore) h1 h2
    · exact (congrFun (helse hl) _).ge
  | @reaped x y _ ha hm =>
    have hxs := hsol _ _ hbefore
    rcases hm.claim_mono hxs with hfall | hrise
    · right
      refine ⟨ha, rfl, fun c hc => ?_⟩
      by_cases hl : c.1 = loc
      · obtain ⟨h1, h2⟩ := hact hc hl rfl rfl
        rw [activeAt, activeAt, hl, hbefore, hafter]
        exact hfall _ h1 h2
      · exact (congrFun (helse hl) _).le
    · by_cases hsole : ∃ r, (loc, r) ∈ outstanding s.commitMap ∧ r.shares = x.issued
      · obtain ⟨r, hmem, heq⟩ := hsole
        right
        refine ⟨ha, rfl, fun c hc => ?_⟩
        by_cases hl : c.1 = loc
        · obtain ⟨h1, h2⟩ := hact hc hl rfl rfl
          obtain ⟨l, r'⟩ := c
          dsimp only at hl h1 h2 ⊢
          subst hl
          have heq' : r'.shares = x.issued := by rw [hs.backed.eq_of_sole hbefore hmem heq hc, heq]
          rw [activeAt, activeAt, hbefore, hafter, h1.claim_last hxs heq',
            h2.claim_last (hm.solvent hxs) (heq'.trans hm.totals.2.symm), hm.totals.1]
          exact Nat.sub_le _ _
        · exact (congrFun (helse hl) _).le
      · left
        intro c hc
        by_cases hl : c.1 = loc
        · obtain ⟨h1, h2⟩ := hact hc hl rfl rfl
          rw [activeAt, activeAt, hl, hbefore, hafter]
          refine hrise _ h1 h2 (Nat.lt_of_le_of_ne h1.shares_le fun heq => hsole ⟨c.2, ?_, heq⟩)
          rw [← hl]
          exact hc
        · exact (congrFun (helse hl) _).ge
  | same =>
    left
    intro c hc
    by_cases hl : c.1 = loc
    · rw [activeAt, activeAt, hl, hbefore, hafter]
    · exact (congrFun (helse hl) _).ge

/-- Where the receipts fall, the reaping booked covers the fall unless value is rounded away. -/
theorem Adjusted.covered {s s' : State T} {loc : Location T} {b b' : LazyBalance T}
    {gain loss : Nat} (h : Adjusted s s' loc b b' gain loss) (hs : Covered s) (hf : AmountsFit s)
    (hf' : AmountsFit s') (hrem : loss ≠ 0 → remainder s' ≤ remainder s) : Covered s' := by
  have hc := hs.covers
  have hv := h.value
  have hmono := h.active_mono hs hf hf'
  have ht := h.touch
  have hsol := ht.allSolvent hs.backed.solvent (h.revalued.solvent fun c hc =>
    hs.backed.solvent _ _ (ht.before.trans hc))
  obtain ⟨m, rv, rfl⟩ := h.state_eq
  refine ⟨⟨hsol, fun l => ?_, hs.backed.shares_ne⟩, hs.deposited,
    fun k i hi => ht.keeps _ (hs.initiated k i hi), ?_⟩
  · rw [hs.backed.issued, ht.issued]
    split
    · rename_i hl
      rw [hl, issuedAt, ht.before, h.revalued.issued]
    · rfl
  · rcases hmono with hrise | ⟨hl, hg, hfall⟩
    · have := peaks_of_rise hrise
      unfold commitsValue at *
      dsimp only at *
      omega
    · have := peaks_of_fall hfall
      have hr := hrem hl
      unfold remainder at hr
      dsimp only at *
      omega

end FrameSuite
