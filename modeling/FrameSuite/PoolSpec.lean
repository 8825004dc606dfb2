import FrameSuite.DepositSpec

/-! What a pool does with its slots: their commits are withdrawn, the pool's own balance
follows, and the new total is spread over the slots again. The part that the spreading
rounds away is fixed by the total and the shares of the slots alone. -/

namespace FrameSuite

open ShareBalance

variable {T : Config}

/-- What the commit of a slot is worth. -/
def slotValue (m : DigestMap T) (reason : T.Reason) (slot : SlotInfo T) : Nat :=
  if slot.commit = none then 0
  else
    match receiptActiveValue (balanceAt m (location reason slot.digest slot.variant)) slot.commit with
    | .ok value => value
    | .error _ => 0

/-- The part that falls to a slot with the given shares. -/
def slotPart (T : Config) (effective capital shares : Nat) : Nat :=
  match slotDeposit T effective shares capital with
  | .ok part => part
  | .error _ => 0

def slotParts (T : Config) (effective capital : Nat) (shares : List Nat) : List Nat :=
  shares.map (slotPart T effective capital)

/-- What the rounding leaves of a value that is spread over slots with the given shares. -/
def splitDust (T : Config) (shares : List Nat) (effective : Nat) : Nat :=
  effective - (slotParts T effective shares.sum shares).sum

theorem DigestInfo.withdraw_value {info info' : DigestInfo T} {variant : T.Position}
    {receipt : CommitInstance T} {take : Nat} (h : info.withdraw variant receipt = .ok (info', take)) :
    receiptActiveValue (info.at (T.positionIndex variant)) receipt = .ok take := by
  obtain ⟨bal, hb, h⟩ := bind_eq_ok.mp h
  obtain ⟨⟨taken, nb⟩, hw, h⟩ := bind_eq_ok.mp h
  simp only [pure_eq_ok, Prod.mk.injEq] at h
  obtain ⟨-, rfl⟩ := h
  rw [okOr_eq_ok] at hb
  have hat : info.at (T.positionIndex variant) = bal := by
    unfold DigestInfo.getBalance at hb
    simp [DigestInfo.at, hb]
  rw [hat]
  exact receiptActiveValue_eq_ok.mpr ⟨_, liftShare_eq_ok.mp hw⟩

theorem slotValue_insert {m : DigestMap T} {reason : T.Reason} {digest : T.AccountId}
    {info : DigestInfo T} {slot : SlotInfo T} (h : slot.digest ≠ digest) :
    slotValue (m.insert (reason, digest) info) reason slot = slotValue m reason slot := by
  have hb : balanceAt (m.insert (reason, digest) info) (location reason slot.digest slot.variant) =
      balanceAt m (location reason slot.digest slot.variant) := by
    have hk : (reason, slot.digest) ≠ (reason, digest) := fun he => h (Prod.mk.inj he).2
    simp only [balanceAt, location, StorageMap.get_insert_of_ne hk]
  rw [slotValue, slotValue, hb]

theorem releaseSlots_spec {reason : T.Reason} {slots : List (SlotInfo T)} {m m' : DigestMap T}
    {taken taken' : Nat} (h : releaseSlots reason slots m taken = .ok (m', taken')) :
    ∃ t, taken' = taken + t ∧ Withdraws m (slotClaims reason slots) t m' ∧
      ((slots.map SlotInfo.digest).Nodup → t = (slots.map (slotValue m reason)).sum) := by
  induction slots generalizing m taken with
  | nil =>
    cases h
    exact ⟨0, rfl, .nil _, fun _ => rfl⟩
  | cons slot slots ih =>
    unfold releaseSlots at h
    split at h
    · rename_i hc
      obtain ⟨t, ht, hw, hv⟩ := ih h
      refine ⟨t, ht, ?_, fun hnd => ?_⟩
      · have hcl : slotClaim reason slot = none := by simp [slotClaim, hc]
        rw [slotClaims, List.filterMap_cons_none hcl]
        exact hw
      · rw [List.map_cons, List.nodup_cons] at hnd
        rw [hv hnd.2, List.map_cons, List.sum_cons, slotValue, if_pos hc, Nat.zero_add]
    · rename_i hc
      obtain ⟨info, hi, h⟩ := bind_eq_ok.mp h
      rw [okOr_eq_ok] at hi
      obtain ⟨⟨info', take⟩, h1, h⟩ := bind_eq_ok.mp h
      obtain ⟨b, r, derived, after, hat, hr, hwd, hit⟩ := DigestInfo.withdraw_spec h1
      obtain ⟨acc, hacc, h⟩ := bind_eq_ok.mp h
      rw [okOr_eq_ok, checkedAdd_eq_some] at hacc
      obtain ⟨t, ht, hw, hv⟩ := ih h
      refine ⟨take + t, ?_, ?_, fun hnd => ?_⟩
      · rw [ht, hacc.1, Nat.add_assoc]
      · have hcl : slotClaim reason slot = some (location reason slot.digest slot.variant, r) := by
          simp [slotClaim, hr]
        rw [slotClaims, List.filterMap_cons_some hcl]
        exact .cons (hit.touch hi) hwd hw
      · rw [List.map_cons, List.nodup_cons] at hnd
        have hhead : slotValue m reason slot = take := by
          have hb : balanceAt m (location reason slot.digest slot.variant) =
              info.at (T.positionIndex slot.variant) := by simp [balanceAt, location, hi]
          rw [slotValue, if_neg hc, hb, DigestInfo.withdraw_value h1]
        have htail : slots.map (slotValue (m.insert (reason, slot.digest) info') reason) =
            slots.map (slotValue m reason) := by
          refine List.map_congr_left fun other ho => slotValue_insert fun he => hnd.1 ?_
          exact he ▸ List.mem_map_of_mem ho
        rw [hv hnd.2, htail, List.map_cons, List.sum_cons, hhead]

theorem adjustPoolBalance_spec {balance nb : LazyBalance T} {taken : Nat}
    (h : adjustPoolBalance balance taken = .ok nb) :
    totalValue nb = taken ∧ issuedShares nb = issuedShares balance ∧
      ((∀ b, balance = some b → Solvent b) → ∀ b, nb = some b → Solvent b) := by
  unfold adjustPoolBalance at h
  dsimp only at h
  split at h
  · rename_i hlt
    obtain ⟨⟨minted, after⟩, h1, h⟩ := bind_eq_ok.mp h
    obtain ⟨_, -, h⟩ := bind_eq_ok.mp h
    obtain rfl := pure_eq_ok.mp h
    obtain ⟨b, c, -, rfl, rfl, hm⟩ := (mint_eq_ok (by omega)).mp (liftShare_eq_ok.mp h1)
    refine ⟨?_, ?_, fun hs d hd => Option.some.inj hd ▸ hm.solvent (hs b rfl)⟩
    · have := hm.totals.1
      simp only [totalValue_some] at *
      omega
    · exact hm.totals.2
  · split at h
    · rename_i hlt
      obtain ⟨⟨reaped, after⟩, h1, h⟩ := bind_eq_ok.mp h
      obtain ⟨_, -, h⟩ := bind_eq_ok.mp h
      obtain rfl := pure_eq_ok.mp h
      obtain ⟨b, c, -, rfl, rfl, hr⟩ := (reap_eq_ok (by omega)).mp (liftShare_eq_ok.mp h1)
      refine ⟨?_, ?_, fun hs d hd => Option.some.inj hd ▸ hr.solvent (hs b rfl)⟩
      · have := hr.totals.1
        simp only [totalValue_some] at *
        omega
      · exact hr.totals.2
    · obtain rfl := pure_eq_ok.mp h
      exact ⟨by omega, rfl, fun hs => hs⟩

/-- What a pool's slots are worth; a pool without a balance holds nothing. -/
def poolValue (m : DigestMap T) (reason : T.Reason) (pool : PoolInfo T) : Nat :=
  if pool.balance = none then 0 else (pool.slots.map (slotValue m reason)).sum

/-- The pool was released: its slots hold nothing, and the balance that was taken out of
it is worth what they returned. -/
structure Released (s s' : State T) (reason : T.Reason) (poolOf : T.AccountId)
    (balance : LazyBalance T) (pool released : PoolInfo T) (claims : Claims T) (m : DigestMap T) :
    Prop where
  found : s.poolMap.get (reason, poolOf) = some pool
  state_eq : s' = { s with
    digestMap := m
    poolMap := s.poolMap.insert (reason, poolOf) released }
  withdraws : Withdraws s.digestMap claims (poolValue s.digestMap reason pool) m
  claims_eq : pool.balance = none ∧ claims = [] ∨ claims = slotClaims reason pool.slots
  adjusted : adjustPoolBalance pool.balance (poolValue s.digestMap reason pool) = .ok balance
  idle : released.balance = none
  shapes : slotShapes released.slots = slotShapes pool.slots
  commission_eq : released.commission = pool.commission

theorem Released.reasons {s s' : State T} {reason : T.Reason} {poolOf : T.AccountId}
    {balance : LazyBalance T} {pool released : PoolInfo T} {claims : Claims T} {m : DigestMap T}
    (h : Released s s' reason poolOf balance pool released claims m) : ∀ c ∈ claims, c.1.1 = reason := by
  rcases h.claims_eq with ⟨-, hc⟩ | hc
  · simp [hc]
  · exact fun c hm => reason_of_mem_slotClaims (hc ▸ hm)

theorem releasePool_spec {s s' : State T} {reason : T.Reason} {poolOf : T.AccountId}
    {balance : LazyBalance T} (h : releasePool s reason poolOf = .ok (s', balance)) :
    ∃ pool released claims m, Released s s' reason poolOf balance pool released claims m := by
  obtain ⟨pool, hp, h⟩ := bind_eq_ok.mp h
  rw [getPool, okOr_eq_ok] at hp
  split at h
  · rename_i hb
    simp only [pure_eq_ok, Prod.mk.injEq] at h
    obtain ⟨rfl, rfl⟩ := h
    have hv : poolValue s.digestMap reason pool = 0 := if_pos hb
    refine ⟨pool, pool, [], s.digestMap, hp, ?_, hv ▸ .nil _, .inl ⟨hb, rfl⟩, ?_, hb, rfl, rfl⟩
    · rw [StorageMap.insert_of_get hp]
    · rw [hv, hb]
      rfl
  · rename_i hb
    obtain ⟨_, -, h⟩ := bind_eq_ok.mp h
    obtain ⟨⟨m, taken⟩, h1, h⟩ := bind_eq_ok.mp h
    obtain ⟨nb, h2, h⟩ := bind_eq_ok.mp h
    simp only [pure_eq_ok, Prod.mk.injEq] at h
    obtain ⟨rfl, rfl⟩ := h
    obtain ⟨t, ht, hw, hv⟩ := releaseSlots_spec h1
    have htaken : taken = poolValue s.digestMap reason pool := by
      rw [poolValue, if_neg hb, ht, Nat.zero_add, hv pool.nodup]
    have hte : t = taken := by omega
    exact ⟨pool, pool.balanceReset, _, m, hp, rfl, htaken ▸ hte ▸ hw, .inr rfl, htaken ▸ h2, rfl,
      slotShapes_mapCommits pool _, rfl⟩

theorem setSlotCommit_spec {pool pool' : PoolInfo T} {slot : SlotInfo T} {commit : CommitInstance T}
    {done rest : List (SlotInfo T)} (h : pool.setSlotCommit slot.digest commit = .ok pool')
    (hs : pool.slots = done ++ slot :: rest) :
    pool'.slots = done ++ slot.setCommit commit :: rest ∧ pool'.capital = pool.capital ∧
      pool'.balance = pool.balance ∧ pool'.commission = pool.commission := by
  unfold PoolInfo.setSlotCommit at h
  split at h
  · cases h
    refine ⟨?_, rfl, rfl, rfl⟩
    have hnd := pool.nodup
    rw [hs, List.map_append, List.map_cons, List.nodup_append] at hnd
    obtain ⟨-, hr, hd⟩ := hnd
    rw [List.nodup_cons] at hr
    have hkeep {l : List (SlotInfo T)} (hl : ∀ other ∈ l, other.digest ≠ slot.digest) :
        (l.map fun other => other.setCommit
          (if other.digest = slot.digest then commit else other.commit)) = l := by
      conv_rhs => rw [← List.map_id l]
      refine List.map_congr_left fun other ho => ?_
      rw [if_neg (hl other ho)]
      rfl
    unfold PoolInfo.mapCommits
    dsimp only
    rw [hs, List.map_append, List.map_cons, if_pos rfl, hkeep, hkeep]
    · exact fun other ho he => hr.1 (he ▸ List.mem_map_of_mem ho)
    · exact fun other ho => hd _ (List.mem_map_of_mem ho) _ (List.mem_cons_self ..)
  · cases h

theorem slotPart_mul_le {effective capital shares : Nat} (hc : capital ≠ 0) :
    slotPart T effective capital shares * capital ≤ effective * shares := by
  unfold slotPart
  cases hp : slotDeposit T effective shares capital with
  | error e => simp
  | ok part => exact slotDeposit_mul_le hc hp

theorem slotParts_mul_le (effective : Nat) {capital : Nat} (hc : capital ≠ 0) (shares : List Nat) :
    (slotParts T effective capital shares).sum * capital ≤ effective * shares.sum := by
  induction shares with
  | nil => simp [slotParts]
  | cons n shares ih =>
    unfold slotParts at ih ⊢
    rw [List.map_cons, List.sum_cons, List.sum_cons, Nat.add_mul, Nat.mul_add]
    exact Nat.add_le_add (slotPart_mul_le hc) ih

theorem recoverSlots_spec {reason : T.Reason} {effective : Nat} {slots done : List (SlotInfo T)}
    {m m' : DigestMap T} {pool pool' : PoolInfo T} {taken taken' : Nat}
    (h : recoverSlots reason effective slots m pool taken = .ok (m', pool', taken'))
    (hs : pool.slots = done ++ slots) :
    ∃ rest, pool'.slots = done ++ rest ∧ slotShapes rest = slotShapes slots ∧
      Deposits m (slotClaims reason rest) m' ∧ (∀ c ∈ slotClaims reason rest, c.2.shares ≠ 0) ∧
      taken' = taken + tally principal (slotClaims reason rest) ∧
      tally principal (slotClaims reason rest) =
        (slotParts T effective pool.capital (slots.map SlotInfo.shares)).sum ∧
      pool'.balance = pool.balance ∧ pool'.commission = pool.commission := by
  induction slots generalizing m pool taken done with
  | nil =>
    cases h
    exact ⟨[], hs, rfl, .nil _, by simp [slotClaims], by simp [slotClaims],
      by simp [slotClaims, slotParts], rfl, rfl⟩
  | cons slot slots ih =>
    obtain ⟨part, hp, h⟩ := bind_eq_ok.mp h
    split at h
    · rename_i hz
      obtain ⟨pool1, h1, h⟩ := bind_eq_ok.mp h
      obtain ⟨hs1, hc1, hb1, hm1⟩ := setSlotCommit_spec h1 hs
      obtain ⟨rest, hr, hsh, hd, hne, ht, hpr, hb, hm⟩ := ih h
        (show pool1.slots = (done ++ [slot.setCommit none]) ++ slots by simpa using hs1)
      have hcl : slotClaim reason (slot.setCommit none) = none := rfl
      refine ⟨slot.setCommit none :: rest, by simpa using hr, ?_, ?_, ?_, ?_, ?_, hb.trans hb1,
        hm.trans hm1⟩
      · rw [slotShapes, List.map_cons, ← slotShapes, hsh]
        rfl
      all_goals rw [slotClaims, List.filterMap_cons_none hcl, ← slotClaims]
      · exact hd
      · exact hne
      · exact ht
      · rw [hpr, hc1, List.map_cons, slotParts, slotParts, List.map_cons, List.sum_cons, slotPart,
          hp, hz, Nat.zero_add]
    · obtain ⟨info, hi, h⟩ := bind_eq_ok.mp h
      rw [okOr_eq_ok] at hi
      obtain ⟨⟨info', deposited, receipt⟩, h1, h⟩ := bind_eq_ok.mp h
      obtain ⟨r, after, rfl, rfl, hdep, hit⟩ := DigestInfo.deposit_spec h1
      obtain ⟨_, -, h⟩ := bind_eq_ok.mp h
      obtain ⟨acc, hacc, h⟩ := bind_eq_ok.mp h
      rw [okOr_eq_ok, checkedAdd_eq_some] at hacc
      obtain ⟨pool1, h2, h⟩ := bind_eq_ok.mp h
      obtain ⟨hs1, hc1, hb1, hm1⟩ := setSlotCommit_spec h2 hs
      obtain ⟨rest, hr, hsh, hd, hne, ht, hpr, hb, hm⟩ :=
        ih h (show pool1.slots = (done ++ [slot.setCommit (some r)]) ++ slots by simpa using hs1)
      have hcl : slotClaim reason (slot.setCommit (some r)) =
          some (location reason slot.digest slot.variant, r) := rfl
      have htouch := hit.touch hi
      refine ⟨slot.setCommit (some r) :: rest, by simpa using hr, ?_, ?_, ?_, ?_, ?_, hb.trans hb1,
        hm.trans hm1⟩
      · rw [slotShapes, List.map_cons, ← slotShapes, hsh]
        rfl
      all_goals rw [slotClaims, List.filterMap_cons_some hcl, ← slotClaims]
      · have htouch' : Touch m _ _ (balanceAt m (location reason slot.digest slot.variant))
            (some after) := htouch.before ▸ htouch
        refine .cons htouch' ?_ hd
        rw [hdep.principal_eq]
        exact htouch.before ▸ hdep
      · intro c hc
        rcases List.mem_cons.mp hc with rfl | hc
        · exact hdep.shares_ne
        · exact hne c hc
      · rw [tally_cons, principal, hdep.principal_eq, ht, hacc.1, Nat.add_assoc]
      · rw [tally_cons, principal, hdep.principal_eq, hpr, hc1, List.map_cons, slotParts, slotParts,
          List.map_cons, List.sum_cons, slotPart, hp]

/-- The pool was recovered with a balance: its value is spread over the slots, and the
dust of the spreading is paid out and taken off the balance. -/
structure Recovered (s s' : State T) (reason : T.Reason) (poolOf : T.AccountId)
    (balance : LazyBalance T) (pool recovered : PoolInfo T) (m : DigestMap T) (dust : Nat) :
    Prop where
  found : s.poolMap.get (reason, poolOf) = some pool
  deposits : Deposits s.digestMap (slotClaims reason recovered.slots) m
  shares_ne : ∀ c ∈ slotClaims reason recovered.slots, c.2.shares ≠ 0
  dust_eq : dust = splitDust T (pool.slots.map SlotInfo.shares) (totalValue balance)
  spread : tally principal (slotClaims reason recovered.slots) + dust = totalValue balance
  shapes : slotShapes recovered.slots = slotShapes pool.slots
  commission_eq : recovered.commission = pool.commission
  value : totalValue recovered.balance + dust = totalValue balance
  issued : issuedShares recovered.balance = issuedShares balance
  solvent : ∀ b, recovered.balance = some b → Solvent b
  exact : dust = 0 → recovered.balance = balance
  state_eq : ∃ l rv,
    s' = { s with
      ledger := l
      reasonValue := rv
      digestMap := m
      poolMap := s.poolMap.insert (reason, poolOf) recovered } ∧
    Flow s.ledger l dust ∧
    ∀ w, totalReasons w rv + w reason * dust = totalReasons w s.reasonValue

/-- What a recovery writes: the slots are filled, and the dust goes to the manager and is taken off the balance. -/
theorem recoverPool_cases {s s' : State T} {reason : T.Reason} {poolOf : T.AccountId} {balance : LazyBalance T}
    (h : recoverPool s reason poolOf balance = .ok s') :
    ∃ pool m filled taken left l rv, s.poolMap.get (reason, poolOf) = some pool ∧ pool.capital ≠ 0 ∧
      recoverSlots reason (totalValue balance) pool.slots s.digestMap pool 0 = .ok (m, filled, taken) ∧
      s' = { s with
        ledger := l
        reasonValue := rv
        digestMap := m
        poolMap := s.poolMap.insert (reason, poolOf) (filled.setBalance left) } ∧
      (totalValue balance - taken = 0 ∧ l = s.ledger ∧ rv = s.reasonValue ∧ left = balance ∨
        totalValue balance - taken ≠ 0 ∧
          (∃ manager, s.poolManager.get (reason, poolOf) = some manager ∧
            T.asset.increaseBalance s.ledger manager (totalValue balance - taken) = .ok l) ∧
          (∀ w, totalReasons w rv + w reason * (totalValue balance - taken) = totalReasons w s.reasonValue) ∧
          ShareBalance.reap balance (totalValue balance - taken) = (.ok (totalValue balance - taken), left)) := by
  obtain ⟨pool, hp, h⟩ := bind_eq_ok.mp h
  rw [getPool, okOr_eq_ok] at hp
  obtain ⟨_, -, h⟩ := bind_eq_ok.mp h
  obtain ⟨_, hc, h⟩ := bind_eq_ok.mp h
  rw [ensure_eq_ok] at hc
  obtain ⟨⟨m, filled, taken⟩, hslots, h⟩ := bind_eq_ok.mp h
  dsimp only at h
  split at h
  · rename_i hz
    obtain rfl := pure_eq_ok.mp h
    exact ⟨pool, m, filled, taken, balance, s.ledger, s.reasonValue, hp, hc, hslots, rfl, .inl ⟨hz, rfl, rfl, rfl⟩⟩
  · rename_i hz
    obtain ⟨manager, hm, h⟩ := bind_eq_ok.mp h
    obtain ⟨_, -, hm⟩ := bind_eq_ok.mp hm
    rw [okOr_eq_ok] at hm
    obtain ⟨⟨s1, paid⟩, h1, h⟩ := bind_eq_ok.mp h
    rw [resolveImbalance, if_neg (Nat.lt_irrefl _), if_pos rfl] at h1
    obtain ⟨s2, hinc, h1⟩ := bind_eq_ok.mp h1
    obtain ⟨rfl, rfl⟩ := Prod.mk.inj (pure_eq_ok.mp h1)
    obtain ⟨l, hl, rfl⟩ := onLedger_eq_ok hinc
    obtain ⟨s3, h3, h⟩ := bind_eq_ok.mp h
    obtain ⟨rv, rfl, hrv⟩ := subFromTotalValue_spec h3
    obtain ⟨⟨reaped, left⟩, h4, h⟩ := bind_eq_ok.mp h
    obtain ⟨_, he, h⟩ := bind_eq_ok.mp h
    obtain rfl := ensure_eq_ok.mp he
    obtain rfl := pure_eq_ok.mp h
    exact ⟨pool, m, filled, taken, left, l, rv, hp, hc, hslots, rfl,
      .inr ⟨hz, ⟨manager, hm, hl⟩, hrv, liftShare_eq_ok.mp h4⟩⟩

theorem recoverPool_spec {s s' : State T} {reason : T.Reason}
    {poolOf : T.AccountId} {balance : LazyBalance T} (hs : ∀ b, balance = some b → Solvent b)
    (h : recoverPool s reason poolOf balance = .ok s') :
    ∃ pool recovered m dust, Recovered s s' reason poolOf balance pool recovered m dust := by
  obtain ⟨pool, m, filled, taken, left, l, rv, hp, hc, hslots, rfl, hdusted⟩ := recoverPool_cases h
  obtain ⟨rest, hr, hsh, hd, hne, ht, hpr, -, hcm⟩ := recoverSlots_spec hslots (List.nil_append _).symm
  obtain rfl : filled.slots = rest := hr
  rw [Nat.zero_add] at ht
  have hle : taken ≤ totalValue balance := by
    have hb := slotParts_mul_le (T := T) (totalValue balance) hc
      (pool.slots.map SlotInfo.shares)
    rw [← hpr, ← ht, ← pool.capital_eq] at hb
    exact Nat.le_of_mul_le_mul_right hb (Nat.pos_of_ne_zero hc)
  have hdust : totalValue balance - taken =
      splitDust T (pool.slots.map SlotInfo.shares) (totalValue balance) := by
    rw [splitDust, ← pool.capital_eq, ← hpr, ← ht]
  rcases hdusted with ⟨hz, rfl, rfl, rfl⟩ | ⟨hz, ⟨manager, -, hl⟩, hrv, hreap⟩
  · refine ⟨pool, filled.setBalance left, m, 0, hp, hd, hne, ?_, ?_, hsh, hcm, rfl, rfl, hs,
      fun _ => rfl, s.ledger, s.reasonValue, rfl, .refl _, fun w => rfl⟩
    · omega
    · change tally principal (slotClaims reason filled.slots) + 0 = _
      omega
  · obtain ⟨b, after, -, rfl, rfl, hra⟩ := (reap_eq_ok hz).mp hreap
    have hal := hra.asset_le
    obtain ⟨heff, hiss⟩ := hra.totals
    simp only [totalValue_some] at *
    refine ⟨pool, filled.setBalance (some after), m, _, hp, hd, hne, hdust, ?_, hsh, hcm, ?_, hiss,
      fun c hc => Option.some.inj hc ▸ hra.solvent (hs b rfl), fun he => absurd he hz, l, rv, rfl,
      .increaseBalance hl, hrv⟩
    · change tally principal (slotClaims reason filled.slots) + _ = b.effective
      omega
    · change after.effective + _ = b.effective
      omega

theorem shares_of_slotShapes {slots slots' : List (SlotInfo T)} (h : slotShapes slots = slotShapes slots') :
    slots.map SlotInfo.shares = slots'.map SlotInfo.shares := by
  have hm := congrArg (List.map fun t => t.2.1) h
  simpa [slotShapes, Function.comp_def] using hm

theorem withdrawReceipts_spec {receipts : List (CommitInstance T)} {balance balance' : LazyBalance T}
    {d d' : AssetDelta} (hs : ∀ b, balance = some b → Solvent b)
    (h : withdrawReceipts receipts balance d = .ok (balance', d')) :
    (∀ b, balance' = some b → Solvent b) ∧
      (∃ t, totalValue balance' + t = totalValue balance ∧ d'.withdraw = d.withdraw + t) ∧
      (∀ loc : Location T, d'.deposit = d.deposit + tally principal (receiptsAt loc receipts) ∧
        issuedShares balance' + tally (fun _ r => r.shares) (receiptsAt loc receipts) =
          issuedShares balance) ∧
      (d.withdraw ≤ T.share.maxAsset → d'.withdraw ≤ T.share.maxAsset) := by
  induction receipts generalizing balance d with
  | nil =>
    cases h
    exact ⟨hs, ⟨0, rfl, rfl⟩, fun loc => by simp, fun h => h⟩
  | cons receipt receipts ih =>
    obtain ⟨value, hv, h⟩ := bind_eq_ok.mp h
    obtain ⟨given, hg, h⟩ := bind_eq_ok.mp h
    rw [okOr_eq_ok, checkedAdd_eq_some] at hg
    obtain ⟨⟨take, nb⟩, hw, h⟩ := bind_eq_ok.mp h
    obtain ⟨b, r, derived, after, rfl, rfl, rfl, hwd⟩ := withdraw_eq_ok (liftShare_eq_ok.mp hw)
    obtain ⟨total, ht, h⟩ := bind_eq_ok.mp h
    rw [okOr_eq_ok, checkedAdd_eq_some] at ht
    have hsb := hs b rfl
    have hadd := hwd.effective_add hsb
    have hval : value = r.principal := by
      simp only [receiptDepositValue, Except.mapError, Except.ok.injEq] at hv
      exact hv.symm
    obtain ⟨hs', ⟨t, ht1, ht2⟩, hloc, hmax⟩ :=
      ih (fun c hc => Option.some.inj hc ▸ hwd.solvent hsb) h
    dsimp only at ht2 hloc hmax
    refine ⟨hs', ⟨take + t, ?_, ?_⟩, fun loc => ?_, fun _ => hmax (by omega)⟩
    · simp only [totalValue_some] at ht1 ⊢
      omega
    · omega
    · obtain ⟨hd, hi⟩ := hloc loc
      simp only [receiptsAt_some, tally_cons, issuedShares_some] at hi ⊢
      rw [principal]
      omega

end FrameSuite
