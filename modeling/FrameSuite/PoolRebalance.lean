import FrameSuite.PoolQueries
import FrameSuite.SlotCycle

/-! A pool that was just recovered, released and recovered once more. Each cycle rounds the parts of
the slots and the shares that they buy anew, so it changes nothing if and only if the value splits
evenly and every slot can be withdrawn for what was deposited to it. -/

namespace FrameSuite

open ShareBalance

variable {T : Config}

section Pools

variable {s s' s₁ : State T} {reason : T.Reason} {poolOf : T.AccountId} {balance : LazyBalance T}
  {pool : PoolInfo T} {m₀ : DigestMap T} {value : Nat}

/-- What the slots of a pool get of a value. -/
def PoolInfo.parts (pool : PoolInfo T) (value : Nat) : List Nat :=
  pool.slots.map fun slot => slotPart T value pool.capital slot.shares

theorem PoolInfo.parts_eq (pool : PoolInfo T) (value : Nat) :
    pool.parts value = slotParts T value (pool.slots.map SlotInfo.shares).sum (pool.slots.map SlotInfo.shares) := by
  rw [slotParts, List.map_map, ← pool.capital_eq]
  rfl

theorem PoolInfo.parts_congr {other : PoolInfo T} (h : slotShapes other.slots = slotShapes pool.slots) (value : Nat) :
    other.parts value = pool.parts value := by
  rw [PoolInfo.parts_eq, PoolInfo.parts_eq, shares_of_slotShapes h]

theorem capital_of_slotShapes {other : PoolInfo T} (h : slotShapes other.slots = slotShapes pool.slots) :
    other.capital = pool.capital := by
  rw [other.capital_eq, pool.capital_eq, shares_of_slotShapes h]

theorem PoolInfo.parts_sum_add (pool : PoolInfo T) (hc : pool.capital ≠ 0) (value : Nat) :
    (pool.parts value).sum + splitDust T (pool.slots.map SlotInfo.shares) value = value := by
  rw [pool.capital_eq] at hc
  have hle := slotParts_mul_le (T := T) value hc (pool.slots.map SlotInfo.shares)
  have := Nat.le_of_mul_le_mul_right hle (Nat.pos_of_ne_zero hc)
  rw [pool.parts_eq, splitDust]
  omega

/-- The slots of the pool were just filled with the parts of a value; the pool is worth what they got. -/
structure JustRecovered (m₀ : DigestMap T) (s : State T) (reason : T.Reason) (poolOf : T.AccountId)
    (pool : PoolInfo T) (value : Nat) : Prop where
  found : s.poolMap.get (reason, poolOf) = some pool
  capital_ne : pool.capital ≠ 0
  filled : ∀ slot ∈ pool.slots,
    SlotFilled m₀ s.digestMap reason (slotPart T value pool.capital slot.shares) slot
  vault : AllSolvent m₀
  solvent : ∀ b, pool.balance = some b → Solvent b
  spread : totalValue pool.balance = (pool.parts value).sum

theorem recoverPool_filled (h : recoverPool s reason poolOf balance = .ok s') :
    ∃ pool recovered, s.poolMap.get (reason, poolOf) = some pool ∧ pool.capital ≠ 0 ∧
      s'.poolMap.get (reason, poolOf) = some recovered ∧ slotShapes recovered.slots = slotShapes pool.slots ∧
      ∀ slot ∈ recovered.slots, SlotFilled s.digestMap s'.digestMap reason
        (slotPart T (totalValue balance) recovered.capital slot.shares) slot := by
  obtain ⟨pool, m, filled, taken, left, l, rv, hp, hc, hslots, rfl, -⟩ := recoverPool_cases h
  obtain ⟨rest, hr, hshapes, hfilled, -⟩ :=
    recoverSlots_filled pool.nodup (fun _ _ => rfl) (List.nil_append _).symm hslots
  obtain rfl : filled.slots = rest := hr
  rw [← capital_of_slotShapes hshapes] at hfilled
  exact ⟨pool, filled.setBalance left, hp, hc, StorageMap.get_insert_self .., hshapes, hfilled⟩

theorem recoverPool_just (hs : Sound s) (hb : ∀ b, balance = some b → Solvent b)
    (h : recoverPool s reason poolOf balance = .ok s') :
    ∃ pool, JustRecovered s.digestMap s' reason poolOf pool (totalValue balance) := by
  obtain ⟨pool, recovered, hp, hc, hr, hshapes, hfilled⟩ := recoverPool_filled h
  obtain ⟨pool', recovered', m, dust, hspec⟩ := recoverPool_spec hb h
  obtain rfl := Option.some.inj (hp.symm.trans hspec.found)
  have hsame : recovered' = recovered := by
    obtain ⟨l, rv, rfl, -⟩ := hspec.state_eq
    exact Option.some.inj ((StorageMap.get_insert_self ..).symm.trans hr)
  subst hsame
  rw [← capital_of_slotShapes hshapes] at hc
  refine ⟨recovered', hr, hc, hfilled, hs.digests, hspec.solvent, ?_⟩
  have hsum := recovered'.parts_sum_add hc (totalValue balance)
  have hvalue := hspec.value
  rw [shares_of_slotShapes hshapes, ← hspec.dust_eq] at hsum
  omega

/-- Releasing the pool and recovering it at once pays its manager nothing, and leaves the value of the
pool and of each of its slots. -/
def Rebalances (x : ExactMoves T) (s : State T) (reason : T.Reason) (poolOf : T.AccountId) (pool : PoolInfo T) :
    Prop :=
  ∃ s₁ balance s₂ again, releasePool s reason poolOf = .ok (s₁, balance) ∧
    recoverPool s₁ reason poolOf balance = .ok s₂ ∧ s₂.poolMap.get (reason, poolOf) = some again ∧
    x.free s₂.ledger = x.free s.ledger ∧ totalValue again.balance = totalValue pool.balance ∧
    again.slots.map (slotValue s₂.digestMap reason) = pool.slots.map (slotValue s.digestMap reason)

/-- The pool's value splits without dust, and every slot is worth what was deposited to it. -/
def Balanced (s : State T) (reason : T.Reason) (pool : PoolInfo T) : Prop :=
  SplitsEvenly T (pool.slots.map SlotInfo.shares) (totalValue pool.balance) ∧
    ∀ slot ∈ pool.slots, slotValue s.digestMap reason slot = slot.deposited

theorem JustRecovered.balanced (x : ExactMoves T) (hj : JustRecovered m₀ s reason poolOf pool value)
    (h : Rebalances x s reason poolOf pool) : Balanced s reason pool := by
  obtain ⟨s₁, balance, s₂, again, hrel, hrec, hagain, hfree, hvalue, -⟩ := h
  obtain ⟨pool', released, claims, m, hspec⟩ := releasePool_spec hrel
  obtain rfl := Option.some.inj (hj.found.symm.trans hspec.found)
  obtain ⟨htotal, -, hsol⟩ := adjustPoolBalance_spec hspec.adjusted
  obtain ⟨pool', recovered, hp, -, hr, -, hpaid⟩ := recoverPool_pays hrec
  obtain ⟨pool'', recovered', m', dust, hrecovered⟩ := recoverPool_spec (hsol hj.solvent) hrec
  obtain rfl := Option.some.inj (hp.symm.trans hrecovered.found)
  have hsame : recovered' = again := by
    obtain ⟨l, rv, rfl, -⟩ := hrecovered.state_eq
    exact Option.some.inj ((StorageMap.get_insert_self ..).symm.trans hagain)
  subst hsame
  have hreset : pool' = released := by
    rw [hspec.state_eq] at hp
    exact Option.some.inj (hp.symm.trans (StorageMap.get_insert_self ..))
  subst hreset
  have hzero : splitDust T (pool'.slots.map SlotInfo.shares) (totalValue balance) = 0 := by
    rcases hpaid with ⟨hz, -⟩ | ⟨manager, -, hinc⟩
    · exact hz
    · have hmoved := (x.increaseBalance hinc).1
      rw [hfree, hspec.state_eq] at hmoved
      have hself := congrArg (fun f => f manager) hmoved
      simpa using hself
  have hkeeps := hrecovered.value
  rw [hrecovered.dust_eq, hzero, Nat.add_zero, hvalue] at hkeeps
  rw [← hkeeps, shares_of_slotShapes hspec.shapes] at hzero
  have hbound : ∀ slot ∈ pool.slots,
      slotValue s.digestMap reason slot ≤ slotPart T value pool.capital slot.shares :=
    fun slot hm => (hj.filled slot hm).slotValue_le hj.vault
  have hle : poolValue s.digestMap reason pool ≤ (pool.slots.map (slotValue s.digestMap reason)).sum := by
    unfold poolValue
    split
    · exact Nat.zero_le _
    · exact le_rfl
  have hall : (pool.slots.map (slotValue s.digestMap reason)).sum = (pool.parts value).sum := by
    have hge : (pool.slots.map (slotValue s.digestMap reason)).sum ≤ (pool.parts value).sum :=
      List.sum_le_sum hbound
    have hspread := hj.spread
    omega
  refine ⟨(splitDust_eq_zero_iff (pool.capital_eq ▸ hj.capital_ne)).mp hzero, fun slot hm => ?_⟩
  rw [(hj.filled slot hm).deposited_eq]
  exact (sum_map_eq_iff_of_le hbound).mp hall slot hm

/-- A digest takes a part for a receipt that is worth as much. -/
def Refillable (m : DigestMap T) (reason : T.Reason) (part : Nat) (digest : T.AccountId) (variant : T.Position) :
    Prop :=
  ∃ info again renewed, m.get (reason, digest) = some info ∧
    info.deposit variant part = .ok (again, part, renewed) ∧
    receiptActiveValue (again.at (T.positionIndex variant)) renewed = .ok part

theorem recoverPool_even (balance : LazyBalance T)
    (hp : s.poolMap.get (reason, poolOf) = some pool) (hidle : pool.balance = none)
    (hc : pool.capital ≠ 0) (hmax : totalValue balance ≤ T.share.maxAsset)
    (hsplit : splitDust T (pool.slots.map SlotInfo.shares) (totalValue balance) = 0)
    (hfill : ∀ shape ∈ slotShapes pool.slots, slotPart T (totalValue balance) pool.capital shape.2.1 ≠ 0 →
      Refillable s.digestMap reason (slotPart T (totalValue balance) pool.capital shape.2.1) shape.1 shape.2.2) :
    ∃ s' again, recoverPool s reason poolOf balance = .ok s' ∧ s'.ledger = s.ledger ∧
      s'.poolMap.get (reason, poolOf) = some again ∧ again.balance = balance ∧
      again.slots.map (slotValue s'.digestMap reason) = pool.parts (totalValue balance) := by
  have hsum := pool.parts_sum_add hc (totalValue balance)
  obtain ⟨⟨m, filled, taken⟩, hrec⟩ := recoverSlots_isOk (m := s.digestMap) 0 pool.nodup
    (fun _ _ => rfl) (List.nil_append _).symm hc
    (fun slot hm hz => by
      obtain ⟨info, again, renewed, hi, hd, -⟩ := hfill _ (List.mem_map_of_mem hm) hz
      exact ⟨info, _, hi, hd⟩)
    (by rw [pool.capital_eq, ← pool.parts_eq]; omega)
  obtain ⟨-, -, hdust⟩ := recoverSlots_dust hc hrec
  rw [hsplit] at hdust
  obtain ⟨rest, hr, hshapes, hslots, -⟩ :=
    recoverSlots_filled pool.nodup (fun _ _ => rfl) (List.nil_append _).symm hrec
  obtain rfl : filled.slots = rest := hr
  rw [← PoolInfo.parts_congr hshapes]
  rw [← hshapes] at hfill
  have hcap := capital_of_slotShapes hshapes
  refine ⟨{ s with digestMap := m, poolMap := s.poolMap.insert (reason, poolOf) (filled.setBalance balance) },
    filled.setBalance balance, ?_, rfl, StorageMap.get_insert_self .., rfl, ?_⟩
  · simp [recoverPool, getPool, hp, hidle, hc, hrec, hdust, ensure, okOr, bind, Except.bind, pure, Except.pure]
  · refine List.map_congr_left fun slot hm => ?_
    have hfilled := hslots slot hm
    rw [← hcap] at hfilled hfill
    change slotValue m reason slot = slotPart T (totalValue balance) filled.capital slot.shares
    by_cases hz : slotPart T (totalValue balance) filled.capital slot.shares = 0
    · rw [hz] at hfilled ⊢
      exact hfilled.slotValue_of_zero
    · obtain ⟨info, info', hi, hd, hi'⟩ := hfilled.held hz
      obtain ⟨info₀, again, renewed, hi₀, hd₀, hvalue⟩ := hfill _ (List.mem_map_of_mem hm) hz
      obtain rfl := Option.some.inj (hi.symm.trans hi₀)
      have hout := Except.ok.inj (hd.symm.trans hd₀)
      simp only [Prod.mk.injEq, true_and] at hout
      obtain ⟨rfl, rfl⟩ := hout
      have hat : balanceAt m (location reason slot.digest slot.variant) =
          info'.at (T.positionIndex slot.variant) := by
        simp [balanceAt, location, hi']
      have hne : slot.commit ≠ none := by
        obtain ⟨r, after, -, hr, -⟩ := DigestInfo.deposit_spec hd
        simp [hr]
      rw [slotValue, if_neg hne, hat, hvalue]

theorem JustRecovered.slotValue_eq (hj : JustRecovered m₀ s reason poolOf pool value)
    (hb : Balanced s reason pool) :
    ∀ slot ∈ pool.slots, slotValue s.digestMap reason slot =
        slotPart T (totalValue pool.balance) pool.capital slot.shares ∧
      slotPart T (totalValue pool.balance) pool.capital slot.shares = slotPart T value pool.capital slot.shares := by
  have hsum := pool.parts_sum_add hj.capital_ne value
  have hzero := (splitDust_eq_zero_iff (pool.capital_eq ▸ hj.capital_ne)).mpr hb.1
  have hown := pool.parts_sum_add hj.capital_ne (totalValue pool.balance)
  have hspread := hj.spread
  have hmono : ∀ slot ∈ pool.slots, slotPart T (totalValue pool.balance) pool.capital slot.shares ≤
      slotPart T value pool.capital slot.shares := by
    intro slot hm
    refine slotPart_mono hj.capital_ne ?_ (by omega)
    rw [pool.capital_eq]
    exact List.single_le_sum (fun _ _ => Nat.zero_le _) _ (List.mem_map_of_mem hm)
  have hparts := (sum_map_eq_iff_of_le hmono).mp (show (pool.parts _).sum = (pool.parts _).sum by omega)
  intro slot hm
  refine ⟨?_, hparts slot hm⟩
  rw [hb.2 slot hm, (hj.filled slot hm).deposited_eq, hparts slot hm]

/-- A balanced pool is released at its own value, and its slots can take their parts again. -/
theorem JustRecovered.releases (hj : JustRecovered m₀ s reason poolOf pool value) (hb : Balanced s reason pool)
    (hbal : pool.balance ≠ none) :
    ∃ m, releasePool s reason poolOf = .ok ({ s with
        digestMap := m
        poolMap := s.poolMap.insert (reason, poolOf) pool.balanceReset }, pool.balance) ∧
      ∀ slot ∈ pool.slots, slotPart T (totalValue pool.balance) pool.capital slot.shares ≠ 0 →
        Refillable m reason (slotPart T (totalValue pool.balance) pool.capital slot.shares) slot.digest
          slot.variant := by
  have hvalue := hj.slotValue_eq hb
  have hzero := (splitDust_eq_zero_iff (pool.capital_eq ▸ hj.capital_ne)).mpr hb.1
  have hsum := pool.parts_sum_add hj.capital_ne (totalValue pool.balance)
  have hmax : totalValue pool.balance ≤ T.share.maxAsset := by
    obtain ⟨b, hsome⟩ := Option.ne_none_iff_exists'.mp hbal
    rw [hsome]
    exact (hj.solvent b hsome).effective_le
  have hrestores : ∀ slot ∈ pool.slots, slotPart T (totalValue pool.balance) pool.capital slot.shares ≠ 0 → _ :=
    fun slot hm hz => (hj.filled slot hm).restores hj.vault
      ((hvalue slot hm).1.trans (hvalue slot hm).2) ((hvalue slot hm).2 ▸ hz)
  have hheld : ∀ slot ∈ pool.slots, slot.commit ≠ none → ∃ info mid,
      s.digestMap.get (reason, slot.digest) = some info ∧ info.withdraw slot.variant slot.commit =
        .ok (mid, slotPart T (totalValue pool.balance) pool.capital slot.shares) := by
    intro slot hm hne
    obtain ⟨info, mid, -, -, hi, hw, -⟩ := hrestores slot hm fun hz =>
      hne ((hj.filled slot hm).idle ((hvalue slot hm).2 ▸ hz))
    rw [← (hvalue slot hm).2] at hw
    exact ⟨info, mid, hi, hw⟩
  obtain ⟨⟨m, taken⟩, hrel⟩ := releaseSlots_isOk 0 _ pool.nodup (fun _ _ => rfl) hheld
    (by change 0 + (pool.parts _).sum ≤ _; omega)
  have htaken : taken = totalValue pool.balance := by
    obtain ⟨t, rfl, -, ht⟩ := releaseSlots_spec hrel
    rw [Nat.zero_add, ht pool.nodup, List.map_congr_left fun slot hm => (hvalue slot hm).1]
    change (pool.parts _).sum = _
    omega
  have hadjust : adjustPoolBalance pool.balance taken = .ok pool.balance := by
    rw [htaken]
    simp [adjustPoolBalance, pure, Except.pure]
  refine ⟨m, ?_, fun slot hm hz => ?_⟩
  · simp [releasePool, getPool, hj.found, hbal, hj.capital_ne, hrel, hadjust, ensure, okOr, bind, Except.bind,
      pure, Except.pure]
  · obtain ⟨info, mid, again, renewed, hi, hw, hd, hv⟩ := hrestores slot hm hz
    have hne : slot.commit ≠ none := by
      obtain ⟨b, r, -, -, -, hr, -⟩ := DigestInfo.withdraw_spec hw
      simp [hr]
    obtain ⟨info', mid', take, hi', hw', hm'⟩ :=
      (releaseSlots_emptied pool.nodup (fun slot _ => Eq.refl (s.digestMap.get (reason, slot.digest)))
        hrel).1 slot hm hne
    obtain rfl := Option.some.inj (hi.symm.trans hi')
    obtain rfl := (Prod.mk.inj (Except.ok.inj (hw.symm.trans hw'))).1
    rw [← (hvalue slot hm).2] at hd hv
    exact ⟨mid, again, renewed, hm', hd, hv⟩

theorem JustRecovered.rebalances (x : ExactMoves T) (hj : JustRecovered m₀ s reason poolOf pool value)
    (hb : Balanced s reason pool) : Rebalances x s reason poolOf pool := by
  have hzero := (splitDust_eq_zero_iff (pool.capital_eq ▸ hj.capital_ne)).mpr hb.1
  have hslots : pool.slots.map (slotValue s.digestMap reason) = pool.parts (totalValue pool.balance) :=
    List.map_congr_left fun slot hm => (hj.slotValue_eq hb slot hm).1
  by_cases hnone : pool.balance = none
  · have hrel : releasePool s reason poolOf = .ok (s, none) := by
      simp [releasePool, getPool, hj.found, hnone, okOr, bind, Except.bind, pure, Except.pure]
    rw [hnone] at hslots hzero
    obtain ⟨s₂, again, hrec, hledger, hagain, hbal, hmap⟩ := recoverPool_even none hj.found hnone
      hj.capital_ne (Nat.zero_le _) hzero fun slot _ hne => absurd (slotPart_zero hj.capital_ne) hne
    exact ⟨s, none, s₂, again, hrel, hrec, hagain, by rw [hledger], by rw [hbal, hnone], hmap.trans hslots.symm⟩
  · have hmax : totalValue pool.balance ≤ T.share.maxAsset := by
      obtain ⟨b, hsome⟩ := Option.ne_none_iff_exists'.mp hnone
      rw [hsome]
      exact (hj.solvent b hsome).effective_le
    obtain ⟨m, hrel, hfill⟩ := hj.releases hb hnone
    have hshapes : slotShapes pool.balanceReset.slots = slotShapes pool.slots := slotShapes_mapCommits pool _
    have hrefill : ∀ shape ∈ slotShapes pool.balanceReset.slots,
        slotPart T (totalValue pool.balance) pool.capital shape.2.1 ≠ 0 →
        Refillable m reason (slotPart T (totalValue pool.balance) pool.capital shape.2.1) shape.1 shape.2.2 := by
      rw [hshapes]
      exact List.forall_mem_map.mpr hfill
    rw [← shares_of_slotShapes hshapes] at hzero
    obtain ⟨s₂, again, hrec, hledger, hagain, hbal, hmap⟩ := recoverPool_even _
      (s := { s with digestMap := m, poolMap := s.poolMap.insert (reason, poolOf) pool.balanceReset })
      (StorageMap.get_insert_self ..) rfl hj.capital_ne hmax hzero hrefill
    refine ⟨_, _, s₂, again, hrel, hrec, hagain, by rw [hledger], by rw [hbal], ?_⟩
    rw [hmap, hslots, PoolInfo.parts_congr hshapes]

/-- A pool that was just recovered survives another cycle unchanged if and only if its value splits over
the slots without dust and every slot is worth what was deposited to it. -/
theorem rebalance_idempotent_iff (x : ExactMoves T) (hs : Sound s) (hb : ∀ b, balance = some b → Solvent b)
    (h : recoverPool s reason poolOf balance = .ok s') (hp : s'.poolMap.get (reason, poolOf) = some pool) :
    Rebalances x s' reason poolOf pool ↔ Balanced s' reason pool := by
  obtain ⟨pool', hj⟩ := recoverPool_just hs hb h
  obtain rfl := Option.some.inj (hp.symm.trans hj.found)
  exact ⟨hj.balanced x, hj.rebalances x⟩

end Pools

section Runtime

theorem firstBalance_solvent {value : Nat}
    (h : (deposit (C := runtimeShareConfig) none value).1.isOk = true) :
    ∀ c, firstBalance value = some c → Solvent c := by
  intro c hc
  obtain ⟨out, hout⟩ := exists_eq_ok h
  have hok : deposit (C := runtimeShareConfig) none value = (.ok out, firstBalance value) := Prod.ext hout rfl
  obtain ⟨after, -, hb, hd⟩ := deposit_eq_ok.mp hok
  rw [hc] at hb
  obtain rfl := Option.some.inj hb
  exact hd.solvent solvent_initBalance

/-- A thousand units split evenly into one and the rest. -/
theorem rebalance_idempotent_lopsided :
    ∃ s' pool, recoverPool (State.after fundedLedger lopsidedPool) 0 30 (firstBalance 1000) = .ok s' ∧
      s'.poolMap.get ((0 : Nat), (30 : Nat)) = some pool ∧
      (Rebalances tokenMoves s' (0 : Nat) (30 : Nat) pool ↔ Balanced s' (0 : Nat) pool) := by
  obtain ⟨s', h⟩ := exists_eq_ok (show (recoverPool (State.after fundedLedger lopsidedPool) 0 30
    (firstBalance 1000)).isOk = true by decide +kernel)
  obtain ⟨-, pool, -, -, hp, -⟩ := recoverPool_filled h
  exact ⟨s', pool, h, hp, rebalance_idempotent_iff tokenMoves (Reachable.sound ⟨_, _, rfl⟩)
    (firstBalance_solvent (by decide +kernel)) h hp⟩

/-- Nine units over three equal slots: the next cycle gives each two and the manager three. -/
theorem rebalance_pays_manager :
    ¬∀ (s s' : State runtimeConfig) (balance : LazyBalance runtimeConfig) (pool : PoolInfo runtimeConfig),
      Reachable s → (∀ b, balance = some b → Solvent b) →
      recoverPool s (0 : Nat) (30 : Nat) balance = .ok s' →
      s'.poolMap.get ((0 : Nat), (30 : Nat)) = some pool →
      Rebalances tokenMoves s' (0 : Nat) (30 : Nat) pool := by
  intro h
  have hpaid : (do
      let s' ← recoverPool (State.after fundedLedger thirdsPool) 0 30 (firstBalance 10)
      let (s₁, balance) ← releasePool s' 0 30
      let s₂ ← recoverPool s₁ 0 30 balance
      pure (s'.ledger.freeOf 9, s₂.ledger.freeOf 9)) = .ok (1001, 1004) := by decide +kernel
  obtain ⟨s', hs', hpaid⟩ := bind_eq_ok.mp hpaid
  obtain ⟨⟨s₁, balance⟩, hrel, hpaid⟩ := bind_eq_ok.mp hpaid
  obtain ⟨s₂, hrec, hpaid⟩ := bind_eq_ok.mp hpaid
  simp only [pure_eq_ok, Prod.mk.injEq] at hpaid
  obtain ⟨-, pool, -, -, hp, -⟩ := recoverPool_filled hs'
  obtain ⟨t₁, balance', t₂, again, hrel', hrec', -, hfree, -⟩ :=
    h _ s' _ pool ⟨_, _, rfl⟩ (firstBalance_solvent (by decide +kernel)) hs' hp
  obtain ⟨rfl, rfl⟩ := Prod.mk.inj (Except.ok.inj (hrel.symm.trans hrel'))
  obtain rfl := Except.ok.inj (hrec.symm.trans hrec')
  have hsame : s₂.ledger.freeOf 9 = s'.ledger.freeOf 9 := congrArg (fun f => f 9) hfree
  omega

end Runtime

end FrameSuite
