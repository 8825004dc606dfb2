import FrameSuite.PoolProgress

/-! A member leaves a pool through all of its slots. The slots serve the member exactly
when each can pay the pool out and take its part of what is left. -/

namespace FrameSuite

open ShareBalance

variable {T : Config}

/-- Whether the slots serve a member who leaves. Failures of the member's own receipts or
of the pool's own balance are not failures of a slot. -/
def slotsServe (m : DigestMap T) (reason : T.Reason) (pool : PoolInfo T)
    (receipts : List (CommitInstance T)) : Bool :=
  if pool.balance = none then true
  else
    match releaseSlots reason pool.slots m 0 with
    | .error _ => false
    | .ok (m', taken) =>
      match adjustPoolBalance pool.balance taken with
      | .error _ => true
      | .ok balance =>
        match withdrawReceipts receipts balance { deposit := 0, withdraw := 0 } with
        | .error _ => true
        | .ok (left, _) =>
          (recoverSlots reason (totalValue left) pool.balanceReset.slots m' pool.balanceReset 0).isOk

/-- The value of a pool after a member with the given receipts has left it. -/
def valueLeft (m : DigestMap T) (reason : T.Reason) (pool : PoolInfo T)
    (receipts : List (CommitInstance T)) : Option Nat :=
  match adjustPoolBalance pool.balance (poolValue m reason pool) with
  | .error _ => none
  | .ok balance =>
    match withdrawReceipts receipts balance { deposit := 0, withdraw := 0 } with
    | .error _ => none
    | .ok (left, _) => some (totalValue left)

/-- The digests of the slots can serve a member who leaves: each pays the pool out, and
each that gets a part of what is left exists, is not drained, sells a share for the part
and does not overflow. -/
structure SlotsOpen (m : DigestMap T) (reason : T.Reason) (pool : PoolInfo T)
    (receipts : List (CommitInstance T)) : Prop where
  pays : ∀ slot ∈ pool.slots, SlotPays m reason slot
  fits : (pool.slots.map (slotValue m reason)).sum ≤ T.share.maxAsset
  takes : ∀ left, valueLeft m reason pool receipts = some left → ∀ slot ∈ pool.slots,
    slotPart T left pool.capital slot.shares = 0 ∨ SlotReady m reason slot ∧
      TakesDeposit (releasedBalance m reason slot) (slotPart T left pool.capital slot.shares)

theorem balanceReset_slots (pool : PoolInfo T) :
    pool.balanceReset.slots = pool.slots.map fun slot => slot.setCommit none := rfl

theorem slotTakes_released {m m' : DigestMap T} {reason : T.Reason} {slot : SlotInfo T} {part : Nat}
    (hb : balanceAt m' (location reason slot.digest slot.variant) = releasedBalance m reason slot)
    (hk : ∀ key, m'.containsKey key = m.containsKey key) (hi : ∀ l, Initiated m' l ↔ Initiated m l) :
    SlotTakes m' reason (slot.setCommit none) part ↔
      part = 0 ∨ SlotReady m reason slot ∧ TakesDeposit (releasedBalance m reason slot) part := by
  unfold SlotTakes SlotReady SlotInfo.setCommit
  dsimp only
  rw [hb, hk, hi]

theorem PoolInfo.capital_ne (pool : PoolInfo T) : pool.capital ≠ 0 := by
  obtain ⟨slot, hm⟩ := List.exists_mem_of_ne_nil _ pool.nonempty
  have hle : slot.shares ≤ pool.capital := by
    rw [pool.capital_eq]
    exact List.le_sum_of_mem (List.mem_map_of_mem hm)
  have := slot.shares_ne
  omega

theorem slotParts_sum_le (pool : PoolInfo T) (effective : Nat) :
    (slotParts T effective pool.capital (pool.slots.map SlotInfo.shares)).sum ≤ effective := by
  have h := slotParts_mul_le (T := T) effective pool.capital_ne
    (pool.slots.map SlotInfo.shares)
  rw [← pool.capital_eq] at h
  exact Nat.le_of_mul_le_mul_right h (Nat.pos_of_ne_zero pool.capital_ne)

theorem isOk_iff {ε α : Type} {x : Except ε α} : x.isOk = true ↔ ∃ a, x = .ok a :=
  ⟨exists_eq_ok, fun ⟨_, h⟩ => h ▸ rfl⟩

theorem slotsServe_iff {m : DigestMap T} {reason : T.Reason} {pool : PoolInfo T}
    (hs : ∀ b, pool.balance = some b → Solvent b) (receipts : List (CommitInstance T)) :
    slotsServe m reason pool receipts = true ↔
      pool.balance = none ∨ SlotsOpen m reason pool receipts := by
  unfold slotsServe
  by_cases hb : pool.balance = none
  · simp [hb]
  have hval : poolValue m reason pool = (pool.slots.map (slotValue m reason)).sum := if_neg hb
  have hrel : (∃ out, releaseSlots reason pool.slots m 0 = .ok out) ↔ _ :=
    releaseSlots_isOk_iff pool.nodup (Nat.zero_le _)
  rw [Nat.zero_add] at hrel
  rw [if_neg hb]
  cases hr : releaseSlots reason pool.slots m 0 with
  | error e =>
    have hno : ¬SlotsOpen m reason pool receipts := fun ho => by
      obtain ⟨out, h⟩ := hrel.mpr ⟨ho.pays, ho.fits⟩
      rw [hr] at h
      cases h
    simp [hb, hno]
  | ok out =>
    obtain ⟨m', taken⟩ := out
    obtain ⟨hpays, hfits⟩ := hrel.mp ⟨_, hr⟩
    obtain ⟨t, ht, -, hv⟩ := releaseSlots_spec hr
    have htaken : taken = poolValue m reason pool := by rw [ht, Nat.zero_add, hv pool.nodup, hval]
    obtain ⟨hafter, -, hk, hi⟩ := releaseSlots_after pool.nodup hr
    have hopen : SlotsOpen m reason pool receipts ↔ ∀ left, valueLeft m reason pool receipts = some left →
        ∀ slot ∈ pool.slots, slotPart T left pool.capital slot.shares = 0 ∨ SlotReady m reason slot ∧
          TakesDeposit (releasedBalance m reason slot) (slotPart T left pool.capital slot.shares) :=
      ⟨fun ho => ho.takes, fun h => ⟨hpays, hfits, h⟩⟩
    rw [hopen]
    simp only [hb, false_or]
    unfold valueLeft
    rw [htaken]
    cases ha : adjustPoolBalance pool.balance (poolValue m reason pool) with
    | error e => simp
    | ok balance =>
      dsimp only
      cases hw : withdrawReceipts receipts balance { deposit := 0, withdraw := 0 } with
      | error e => simp
      | ok out =>
        obtain ⟨left, d⟩ := out
        have hsb := (withdrawReceipts_spec ((adjustPoolBalance_spec ha).2.2 hs) hw).1
        have hmax : totalValue left ≤ T.share.maxAsset := by
          cases left with
          | none => exact Nat.zero_le _
          | some b => exact (hsb b rfl).effective_le
        have hshares : pool.balanceReset.slots.map SlotInfo.shares = pool.slots.map SlotInfo.shares :=
          shares_of_slotShapes (slotShapes_mapCommits pool _)
        have hbound : 0 + (slotParts T (totalValue left) pool.balanceReset.capital
            (pool.balanceReset.slots.map SlotInfo.shares)).sum ≤ T.share.maxAsset := by
          rw [hshares, Nat.zero_add]
          exact (slotParts_sum_le pool _).trans hmax
        have hrec : (∃ out, recoverSlots reason (totalValue left) pool.balanceReset.slots m'
            pool.balanceReset 0 = .ok out) ↔ _ :=
          recoverSlots_isOk_iff (List.nil_append _).symm pool.capital_ne hbound
        simp only [Option.some.injEq, forall_eq']
        rw [isOk_iff, hrec, balanceReset_slots]
        simp only [List.mem_map, forall_exists_index, and_imp, forall_apply_eq_imp_iff₂]
        exact forall₂_congr fun slot hm => slotTakes_released (hafter slot hm) hk hi

theorem slotsServe_of_withdraw {s s' : State T} {who : T.AccountId} {reason : T.Reason}
    {poolOf : T.AccountId} {d : AssetDelta} {info : CommitInfo T} {pool : PoolInfo T}
    (hc : s.commitMap.get (who, reason) = some info) (hp : s.poolMap.get (reason, poolOf) = some pool)
    (h : withdrawFromPool s who reason poolOf = .ok (s', d)) :
    slotsServe s.digestMap reason pool info.commits.receipts = true := by
  unfold slotsServe
  split
  · rfl
  rename_i hb
  obtain ⟨commit, hc', h⟩ := bind_eq_ok.mp h
  rw [getCommit, okOr_eq_ok] at hc'
  obtain rfl : info = commit := Option.some.inj (hc.symm.trans hc')
  obtain ⟨⟨s1, balance⟩, h1, h⟩ := bind_eq_ok.mp h
  obtain ⟨pool', hp', h1⟩ := bind_eq_ok.mp h1
  rw [getPool, okOr_eq_ok] at hp'
  obtain rfl : pool = pool' := Option.some.inj (hp.symm.trans hp')
  rw [if_neg hb] at h1
  obtain ⟨_, -, h1⟩ := bind_eq_ok.mp h1
  obtain ⟨⟨m', taken⟩, hr, h1⟩ := bind_eq_ok.mp h1
  obtain ⟨nb, ha, h1⟩ := bind_eq_ok.mp h1
  simp only [pure_eq_ok, Prod.mk.injEq] at h1
  obtain ⟨rfl, rfl⟩ := h1
  obtain ⟨⟨left, d1⟩, hw, h⟩ := bind_eq_ok.mp h
  obtain ⟨s2, h2, -⟩ := bind_eq_ok.mp h
  obtain ⟨pool1, hp1, h2⟩ := bind_eq_ok.mp h2
  rw [getPool, okOr_eq_ok, StorageMap.get_insert_self] at hp1
  obtain rfl := Option.some.inj hp1
  obtain ⟨_, -, h2⟩ := bind_eq_ok.mp h2
  obtain ⟨_, -, h2⟩ := bind_eq_ok.mp h2
  obtain ⟨out, hrec, -⟩ := bind_eq_ok.mp h2
  rw [hr]
  dsimp only at ha hw ⊢
  rw [ha]
  dsimp only
  rw [hw]
  exact isOk_iff.mpr ⟨out, hrec⟩

/-- The slots serve a leaving member exactly when their digests are open to the pool, and
a member whom they do not serve cannot resolve. -/
theorem pool_unblocked_iff {s : State T} (hs : Reachable s) {who : T.AccountId} {reason : T.Reason}
    {info : CommitInfo T} {pool : PoolInfo T} (hc : s.commitMap.get (who, reason) = some info)
    (hd : determineDigest s info.digest reason = .ok (.pool info.digest))
    (hp : s.poolMap.get (reason, info.digest) = some pool) :
    (slotsServe s.digestMap reason pool info.commits.receipts = true ↔
      pool.balance = none ∨ SlotsOpen s.digestMap reason pool info.commits.receipts) ∧
    (slotsServe s.digestMap reason pool info.commits.receipts = false →
      ∃ e, resolveCommit s who reason = .error e) := by
  refine ⟨slotsServe_iff (hs.sound.pools _ _ hp) _, fun hno => ?_⟩
  cases hr : resolveCommit s who reason with
  | error e => exact ⟨e, rfl⟩
  | ok out =>
    obtain ⟨info', hi, hm, hr⟩ := resolveCommit_eq_ok hr
    obtain rfl : info = info' := Option.some.inj (hc.symm.trans hi)
    rw [← Except.ok.inj (hd.symm.trans hm)] at hr
    obtain ⟨variant, -, hr⟩ := bind_eq_ok.mp hr
    obtain ⟨⟨s1, d⟩, hw, -⟩ := bind_eq_ok.mp hr
    rw [slotsServe_of_withdraw hc hp hw] at hno
    cases hno

/-- A pool of two members over three digests, each with a commit of its own. -/
def twoMembers : List (Call runtimeConfig) := thirdsPool ++ [place 4 30 9, place 5 30 9]

theorem pool_unblocked_thirds : ∃ (info : CommitInfo runtimeConfig) (pool : PoolInfo runtimeConfig),
    (slotsServe (State.after fundedLedger twoMembers).digestMap (0 : Nat) pool
        info.commits.receipts = true ↔
      pool.balance = none ∨ SlotsOpen (State.after fundedLedger twoMembers).digestMap (0 : Nat) pool
        info.commits.receipts) ∧
    (slotsServe (State.after fundedLedger twoMembers).digestMap (0 : Nat) pool
        info.commits.receipts = false →
      ∃ e, resolveCommit (State.after fundedLedger twoMembers) (4 : Nat) (0 : Nat) = .error e) :=
  ⟨_, _, pool_unblocked_iff ⟨_, _, rfl⟩ rfl rfl rfl⟩

/-- Once the first digest is set to zero, no member can leave although each slot still
pays out. -/
theorem drained_slot_blocks_pool : ∃ (info : CommitInfo runtimeConfig) (pool : PoolInfo runtimeConfig),
    let s := State.after fundedLedger (twoMembers ++
      [.setDigestValue (T := runtimeConfig) (0 : Nat) (11 : Nat) 0 .affirmative])
    s.commitMap.get ((4 : Nat), (0 : Nat)) = some info ∧
    s.poolMap.get ((0 : Nat), (30 : Nat)) = some pool ∧
    slotsServe s.digestMap (0 : Nat) pool info.commits.receipts = false ∧
    resolveCommit s (4 : Nat) (0 : Nat) = .error (.balance .balanceDrainedCannotDeposit) :=
  ⟨_, _, rfl, rfl, rfl, rfl⟩

end FrameSuite
