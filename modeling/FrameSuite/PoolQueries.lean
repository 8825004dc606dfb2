import FrameSuite.IndexCommits
import FrameSuite.ValueQueries

/-! The value a member of a pool is shown, against what a withdrawal takes for them. Both withdraw
the slots and follow their value, but a withdrawal passes over a slot without a commit, where the
query shows nothing at all or fails. -/

namespace FrameSuite

open ShareBalance

variable {T : Config}

/-- What a withdrawal from a pool takes for a member before the commission. -/
def grossFromPool (s : State T) (who : T.AccountId) (reason : T.Reason) (poolOf : T.AccountId) :
    Except DispatchError Nat := do
  let commit ← getCommit s who reason
  let (_, balance) ← releasePool s reason poolOf
  let (_, imbalance) ← withdrawReceipts commit.commits.receipts balance { deposit := 0, withdraw := 0 }
  pure imbalance.withdraw

theorem withdrawFromPool_gross {s s' : State T} {who : T.AccountId} {reason : T.Reason} {poolOf : T.AccountId}
    {d : AssetDelta} (h : withdrawFromPool s who reason poolOf = .ok (s', d)) :
    ∃ s₁ gross, grossFromPool s who reason poolOf = .ok gross.withdraw ∧
      payCommission s₁ reason poolOf gross = .ok (s', d) := by
  obtain ⟨commit, hc, h⟩ := bind_eq_ok.mp h
  obtain ⟨⟨s₀, balance⟩, hr, h⟩ := bind_eq_ok.mp h
  obtain ⟨⟨after, gross⟩, hw, h⟩ := bind_eq_ok.mp h
  obtain ⟨s₁, -, h⟩ := bind_eq_ok.mp h
  refine ⟨s₁, gross, ?_, h⟩
  simp [grossFromPool, hc, hr, hw, bind, Except.bind, pure, Except.pure]

theorem slotActiveValues_of_release {s : State T} {reason : T.Reason} {slots : List (SlotInfo T)}
    {m m' : DigestMap T} {taken taken' : Nat} (hnd : (slots.map SlotInfo.digest).Nodup)
    (hheld : ∀ slot ∈ slots, slot.commit ≠ none)
    (hm : ∀ slot ∈ slots, s.digestMap.get (reason, slot.digest) = m.get (reason, slot.digest))
    (h : releaseSlots reason slots m taken = .ok (m', taken')) :
    slotActiveValues s reason slots taken = .ok taken' := by
  induction slots generalizing m taken with
  | nil =>
    cases h
    rfl
  | cons slot slots ih =>
    rw [releaseSlots, if_neg (hheld slot (List.mem_cons_self ..))] at h
    rw [List.map_cons, List.nodup_cons] at hnd
    obtain ⟨info, hi, h⟩ := bind_eq_ok.mp h
    rw [okOr_eq_ok, ← hm slot (List.mem_cons_self ..)] at hi
    obtain ⟨⟨info', take⟩, hw, h⟩ := bind_eq_ok.mp h
    obtain ⟨balance, hb, hw⟩ := bind_eq_ok.mp hw
    obtain ⟨⟨take', nb⟩, hwd, hw⟩ := bind_eq_ok.mp hw
    simp only [pure_eq_ok, Prod.mk.injEq] at hw
    obtain ⟨rfl, rfl⟩ := hw
    obtain ⟨total, ht, h⟩ := bind_eq_ok.mp h
    have hvalue := receiptActiveValue_eq_ok.mpr ⟨_, liftShare_eq_ok.mp hwd⟩
    have hrest : slotActiveValues s reason slots total = .ok taken' := by
      refine ih hnd.2 (fun other ho => hheld other (List.mem_cons_of_mem _ ho)) (fun other ho => ?_) h
      have hne : (reason, other.digest) ≠ (reason, slot.digest) := by
        intro he
        exact hnd.1 ((Prod.mk.inj he).2 ▸ List.mem_map_of_mem ho)
      rw [StorageMap.get_insert_of_ne hne]
      exact hm other (List.mem_cons_of_mem _ ho)
    rw [slotActiveValues, hi]
    simp [okOr, bind, Except.bind, okOr_eq_ok.mp hb, hvalue, Except.mapError, okOr_eq_ok.mp ht, hrest]

theorem slotActiveValues_held {s : State T} {reason : T.Reason} {slots : List (SlotInfo T)} {taken taken' : Nat}
    (h : slotActiveValues s reason slots taken = .ok taken') : ∀ slot ∈ slots, slot.commit ≠ none := by
  induction slots generalizing taken with
  | nil => simp
  | cons slot slots ih =>
    obtain ⟨info, -, h⟩ := bind_eq_ok.mp h
    obtain ⟨balance, -, h⟩ := bind_eq_ok.mp h
    obtain ⟨take, hv, h⟩ := bind_eq_ok.mp h
    obtain ⟨total, -, h⟩ := bind_eq_ok.mp h
    have hok : (receiptActiveValue balance slot.commit).isOk = true := by
      cases hr : receiptActiveValue balance slot.commit with
      | ok v => rfl
      | error e =>
        rw [hr] at hv
        cases hv
    obtain ⟨b, r, -, hr, -⟩ := active_iff.mp hok
    rw [List.forall_mem_cons]
    exact ⟨by simp [hr], ih h⟩

/-- The receipts are paid nothing on the balance. -/
def Worthless {C : ShareConfig} (b : Balance C) (rs : List (Receipt C)) : Prop :=
  if outstandingShares rs = b.issued then b.effective = 0 else ∀ r ∈ rs, quote b r = 0

theorem worthless_iff {C : ShareConfig} (b : Balance C) (rs : List (Receipt C)) :
    Worthless b rs ↔ (if outstandingShares rs = b.issued then b.effective else totalQuote b rs) = 0 := by
  unfold Worthless
  split
  · rfl
  · simp [totalQuote, List.sum_eq_zero_iff]

/-- A member's withdrawal releases a pool that was deposited to. -/
structure Gross (s : State T) (who : T.AccountId) (reason : T.Reason) (info : CommitInfo T) (pool : PoolInfo T)
    (b : Balance T.share) (rs : List (Receipt T.share)) (taken : Nat) : Prop where
  capital_ne : pool.capital ≠ 0
  adjusted : adjustPoolBalance pool.balance (pool.slots.map (slotValue s.digestMap reason)).sum = .ok (some b)
  receipts_eq : info.commits.receipts = rs.map some
  taken_eq : taken = if outstandingShares rs = b.issued then b.effective else totalQuote b rs
  shown : (∀ slot ∈ pool.slots, slot.commit ≠ none) → poolCommitValue s who reason info.digest = .ok taken

theorem grossFromPool_spec {s : State T} {who : T.AccountId} {reason : T.Reason} {info : CommitInfo T}
    {pool : PoolInfo T} {taken : Nat} (hs : Sound s) (hi : s.commitMap.get (who, reason) = some info)
    (hp : s.poolMap.get (reason, info.digest) = some pool)
    (h : grossFromPool s who reason info.digest = .ok taken) :
    ∃ b rs, Gross s who reason info pool b rs taken := by
  obtain ⟨info', hc, h⟩ := bind_eq_ok.mp h
  have hget : s.commitMap.get (who, reason) = some info' := by rwa [getCommit, okOr_eq_ok] at hc
  obtain rfl := Option.some.inj (hi.symm.trans hget)
  obtain ⟨⟨s₁, balance⟩, hr, h⟩ := bind_eq_ok.mp h
  obtain ⟨⟨after, d⟩, hw, h⟩ := bind_eq_ok.mp h
  obtain rfl := pure_eq_ok.mp h
  obtain ⟨b, rfl⟩ := withdrawReceipts_balance info.commits.nonempty hw
  obtain ⟨pool', hget, hr⟩ := bind_eq_ok.mp hr
  have hpool := hget
  rw [getPool, okOr_eq_ok] at hpool
  obtain rfl := Option.some.inj (hp.symm.trans hpool)
  split at hr
  · simp only [pure_eq_ok, Prod.mk.injEq] at hr
    cases hr.2
  · obtain ⟨_, hcap, hr⟩ := bind_eq_ok.mp hr
    rw [ensure_eq_ok] at hcap
    obtain ⟨⟨m, value⟩, hslots, hr⟩ := bind_eq_ok.mp hr
    obtain ⟨nb, hadj, hr⟩ := bind_eq_ok.mp hr
    simp only [pure_eq_ok, Prod.mk.injEq] at hr
    obtain ⟨-, rfl⟩ := hr
    obtain ⟨t, rfl, -, hsum⟩ := releaseSlots_spec hslots
    rw [Nat.zero_add] at hadj hslots
    have hsol : Solvent b := (adjustPoolBalance_spec hadj).2.2 (hs.pools _ _ hp) b rfl
    obtain ⟨rs, hrs, -, -, htaken⟩ := withdrawReceipts_taken hsol hw
    refine ⟨b, rs, hcap, hsum pool.nodup ▸ hadj, hrs, by rw [htaken, Nat.zero_add], fun hheld => ?_⟩
    have hactive := slotActiveValues_of_release pool.nodup hheld (fun _ _ => rfl) hslots
    have hvalues := withdrawnValues_of_receipts hw
    unfold poolCommitValue
    obtain ⟨first, slots, hcons⟩ := List.exists_cons_of_ne_nil pool.nonempty
    have hfirst := hheld first (by simp [hcons])
    rw [hcons] at hactive
    simp [hget, hc, hcap, hcons, hfirst, hactive, hadj, hvalues, ensure, bind, Except.bind]

theorem poolCommitValue_held {s : State T} {who : T.AccountId} {reason : T.Reason} {poolOf : T.AccountId}
    {pool : PoolInfo T} {value : Nat} (hp : s.poolMap.get (reason, poolOf) = some pool)
    (h : poolCommitValue s who reason poolOf = .ok value)
    (hfirst : (pool.slots.head pool.nonempty).commit ≠ none) :
    ∀ slot ∈ pool.slots, slot.commit ≠ none := by
  obtain ⟨pool', hget, h⟩ := bind_eq_ok.mp h
  rw [getPool, okOr_eq_ok] at hget
  obtain rfl := Option.some.inj (hp.symm.trans hget)
  obtain ⟨commit, -, h⟩ := bind_eq_ok.mp h
  obtain ⟨_, -, h⟩ := bind_eq_ok.mp h
  obtain ⟨_, -, h⟩ := bind_eq_ok.mp h
  obtain ⟨first, slots, hcons⟩ := List.exists_cons_of_ne_nil pool.nonempty
  simp only [hcons, List.head_cons] at h hfirst ⊢
  rw [if_neg hfirst] at h
  obtain ⟨taken, hactive, -⟩ := bind_eq_ok.mp h
  exact slotActiveValues_held hactive

theorem poolCommitValue_idle {s : State T} {who : T.AccountId} {reason : T.Reason} {info : CommitInfo T}
    {pool : PoolInfo T} (hi : s.commitMap.get (who, reason) = some info)
    (hp : s.poolMap.get (reason, info.digest) = some pool) (hcap : pool.capital ≠ 0)
    (hfirst : (pool.slots.head pool.nonempty).commit = none) :
    poolCommitValue s who reason info.digest = .ok 0 := by
  obtain ⟨first, slots, hcons⟩ := List.exists_cons_of_ne_nil pool.nonempty
  simp only [hcons, List.head_cons] at hfirst
  simp [poolCommitValue, getPool, getCommit, hi, hp, hcap, hcons, hfirst, ensure, okOr, bind, Except.bind, pure,
    Except.pure]

/-- The value shown for a pool commit is what its withdrawal takes if and only if every slot of the
pool holds a commit, or the first holds none and the receipts are worth nothing. -/
theorem pool_query_agrees_iff {s : State T} {who : T.AccountId} {reason : T.Reason} {info : CommitInfo T}
    {pool : PoolInfo T} {taken : Nat} (hs : Reachable s) (hi : s.commitMap.get (who, reason) = some info)
    (hm : determineDigest s info.digest reason = .ok (.pool info.digest))
    (hp : s.poolMap.get (reason, info.digest) = some pool)
    (h : grossFromPool s who reason info.digest = .ok taken) :
    ∃ b rs, adjustPoolBalance pool.balance (pool.slots.map (slotValue s.digestMap reason)).sum = .ok (some b) ∧
      info.commits.receipts = rs.map some ∧
      (getCommitValue s who reason = .ok taken ↔ (∀ slot ∈ pool.slots, slot.commit ≠ none) ∨
        (pool.slots.head pool.nonempty).commit = none ∧ Worthless b rs) := by
  obtain ⟨b, rs, hgross⟩ := grossFromPool_spec hs.sound hi hp h
  have hquery : getCommitValue s who reason = poolCommitValue s who reason info.digest := by
    simp [getCommitValue, getCommitDigest, getCommit, hi, hm, commitValueOf, okOr, bind, Except.bind, pure,
      Except.pure]
  refine ⟨b, rs, hgross.adjusted, hgross.receipts_eq, ?_⟩
  rw [hquery]
  by_cases hfirst : (pool.slots.head pool.nonempty).commit = none
  · have hnot : ¬∀ slot ∈ pool.slots, slot.commit ≠ none := fun hall => hall _ (List.head_mem _) hfirst
    rw [poolCommitValue_idle hi hp hgross.capital_ne hfirst, or_iff_right hnot, and_iff_right hfirst,
      worthless_iff, ← hgross.taken_eq, Except.ok.injEq]
    exact eq_comm
  · rw [or_iff_left fun hidle => hfirst hidle.1]
    exact ⟨fun hok => poolCommitValue_held hp hok hfirst, hgross.shown⟩

/-- Ten units on three equal slots. -/
def joinedThirds : State runtimeConfig := State.after fundedLedger (thirdsPool ++ [place 4 30 10])

theorem pool_query_agrees_thirds :
    ∃ info pool, joinedThirds.commitMap.get ((4 : Nat), (0 : Nat)) = some info ∧
      joinedThirds.poolMap.get ((0 : Nat), info.digest) = some pool ∧
      ∃ b rs, adjustPoolBalance pool.balance (pool.slots.map (slotValue joinedThirds.digestMap 0)).sum =
          .ok (some b) ∧
        info.commits.receipts = rs.map some ∧
        (getCommitValue joinedThirds (4 : Nat) (0 : Nat) = .ok 9 ↔
          (∀ slot ∈ pool.slots, slot.commit ≠ none) ∨
            (pool.slots.head pool.nonempty).commit = none ∧ Worthless b rs) := by
  have hgross : grossFromPool joinedThirds (4 : Nat) (0 : Nat) (30 : Nat) = .ok 9 := by decide +kernel
  exact ⟨_, _, rfl, rfl, pool_query_agrees_iff ⟨_, _, rfl⟩ rfl rfl rfl hgross⟩

/-- A pool over two slots with a share in a thousand and the rest. -/
def lopsidedPool : List (Call runtimeConfig) :=
  [place 1 11 5, place 2 12 5,
    .setIndex (T := runtimeConfig) 0 unevenIndex 20,
    .setPool (T := runtimeConfig) 9 0 30 20 { parts := 0, parts_le := zero_le_accuracy }]

/-- Ten units, of which the first slot is too small for any. -/
def joinedLopsided : State runtimeConfig := State.after fundedLedger (lopsidedPool ++ [place 4 30 10])

/-- The query shows nothing of the nine units that a withdrawal takes. -/
theorem pool_query_blind :
    ¬∀ (s : State runtimeConfig) (who reason : Nat) (info : CommitInfo runtimeConfig) (taken : Nat),
      Reachable s → s.commitMap.get (who, reason) = some info →
      determineDigest s info.digest reason = .ok (.pool info.digest) →
      grossFromPool s who reason info.digest = .ok taken → getCommitValue s who reason = .ok taken := by
  intro h
  have hgross : grossFromPool joinedLopsided (4 : Nat) (0 : Nat) (30 : Nat) = .ok 9 := by decide +kernel
  have hshown : getCommitValue joinedLopsided (4 : Nat) (0 : Nat) = .ok 0 := by decide +kernel
  have heq := h joinedLopsided 4 0 _ 9 ⟨_, _, rfl⟩ rfl rfl hgross
  rw [hshown] at heq
  exact absurd (Except.ok.inj heq) (by decide)

end FrameSuite
