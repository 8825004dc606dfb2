import FrameSuite.Conservation

/-! What the recovery of a pool pays its manager. A value that the fixed-point type holds is spread up
to rounding; what lies above the largest one it holds goes to the manager whole. -/

namespace FrameSuite

open ShareBalance

variable {T : Config}

section Parts

/-- The ratio of a slot's shares to the capital, rounded down. -/
def slotFactor (T : Config) (capital shares : Nat) : Nat := shares * T.share.rational.div / capital

/-- What falls to a slot of the fixed-point number with the given carrier value. -/
def partOf (T : Config) (inner capital shares : Nat) : Nat :=
  inner * slotFactor T capital shares / T.share.rational.div / T.share.rational.div

theorem slotFactor_le_div {capital shares : Nat} (h : shares ≤ capital) :
    slotFactor T capital shares ≤ T.share.rational.div :=
  Nat.div_le_of_le_mul (Nat.mul_le_mul_right _ h)

theorem slotDeposit_eq {effective capital shares : Nat} (hc : capital ≠ 0) (hs : shares ≤ capital) :
    slotDeposit T effective shares capital =
      .ok (partOf T (min (effective * T.share.rational.div) T.share.rational.maxInner) capital shares) := by
  have hfactor : slotFactor T capital shares ≤ T.share.rational.div := slotFactor_le_div hs
  have hinner : (Fixed.saturatingFromRational (F := T.share.rational) shares capital).inner =
      slotFactor T capital shares := by
    rw [Fixed.saturatingFromRational, if_neg hc]
    exact Nat.min_eq_left (hfactor.trans T.share.rational.div_le)
  have hproduct : min (effective * T.share.rational.div) T.share.rational.maxInner *
      slotFactor T capital shares / T.share.rational.div ≤ T.share.rational.maxInner := by
    refine Nat.div_le_of_le_mul ?_
    rw [Nat.mul_comm]
    exact Nat.mul_le_mul hfactor (Nat.min_le_right _ _)
  have hmul : (Fixed.saturatingFromInteger effective).checkedMul
      (Fixed.saturatingFromRational (F := T.share.rational) shares capital) = some ⟨_, hproduct⟩ := by
    rw [Fixed.checkedMul_eq_some, hinner, Fixed.saturatingFromInteger_inner]
  simp [slotDeposit, hmul, okOr, bind, Except.bind, pure, Except.pure, Fixed.toInteger, partOf]

theorem slotPart_eq {effective capital shares : Nat} (hc : capital ≠ 0) (hs : shares ≤ capital) :
    slotPart T effective capital shares =
      partOf T (min (effective * T.share.rational.div) T.share.rational.maxInner) capital shares := by
  rw [slotPart, slotDeposit_eq hc hs]

theorem slotDeposit_isOk {effective capital shares : Nat} (hc : capital ≠ 0) (hs : shares ≤ capital) :
    slotDeposit T effective shares capital = .ok (slotPart T effective capital shares) := by
  rw [slotPart_eq hc hs, slotDeposit_eq hc hs]

/-- Below the largest value the type holds, a part misses its fair share by less than one unit and
one step of the ratio. -/
theorem partOf_ge {effective capital shares : Nat} (hc : capital ≠ 0) :
    effective * shares * T.share.rational.div ≤
      partOf T (effective * T.share.rational.div) capital shares * T.share.rational.div * capital +
        (T.share.rational.div + effective) * capital := by
  have hdiv := T.share.rational.div_pos
  have hexact : effective * T.share.rational.div * slotFactor T capital shares / T.share.rational.div =
      effective * slotFactor T capital shares := by
    rw [Nat.mul_right_comm, Nat.mul_div_cancel _ hdiv]
  have hfactor : shares * T.share.rational.div ≤ slotFactor T capital shares * capital + capital :=
    (Nat.lt_div_mul_add (Nat.pos_of_ne_zero hc)).le
  have hpart : effective * slotFactor T capital shares ≤
      partOf T (effective * T.share.rational.div) capital shares * T.share.rational.div +
        T.share.rational.div := by
    rw [partOf, hexact]
    exact (Nat.lt_div_mul_add hdiv).le
  calc effective * shares * T.share.rational.div
      = effective * (shares * T.share.rational.div) := by ring
    _ ≤ effective * (slotFactor T capital shares * capital + capital) := Nat.mul_le_mul_left _ hfactor
    _ = effective * slotFactor T capital shares * capital + effective * capital := by ring
    _ ≤ (partOf T (effective * T.share.rational.div) capital shares * T.share.rational.div +
          T.share.rational.div) * capital + effective * capital :=
        Nat.add_le_add_right (Nat.mul_le_mul_right _ hpart) _
    _ = _ := by ring

end Parts

section Dust

/-- The bound on what rounding may leave of a value over so many slots. -/
def DustBounded (T : Config) (slots effective dust : Nat) : Prop :=
  dust * T.share.rational.div ≤ slots * (T.share.rational.div + effective)

theorem parts_sum_ge {effective capital : Nat} (hc : capital ≠ 0) (shares : List Nat) :
    effective * shares.sum * T.share.rational.div ≤
      ((shares.map (partOf T (effective * T.share.rational.div) capital)).sum * T.share.rational.div +
        shares.length * (T.share.rational.div + effective)) * capital := by
  induction shares with
  | nil => simp
  | cons n shares ih =>
    have hpart : effective * n * T.share.rational.div ≤ _ := partOf_ge hc
    simp only [List.sum_cons, List.map_cons, List.length_cons]
    calc effective * (n + shares.sum) * T.share.rational.div
        = effective * n * T.share.rational.div + effective * shares.sum * T.share.rational.div := by ring
      _ ≤ _ := Nat.add_le_add hpart ih
      _ = _ := by ring

theorem slotParts_eq {effective : Nat} {shares : List Nat} (hc : shares.sum ≠ 0) :
    slotParts T effective shares.sum shares =
      shares.map (partOf T (min (effective * T.share.rational.div) T.share.rational.maxInner) shares.sum) :=
  List.map_congr_left fun _ hn => slotPart_eq hc (List.single_le_sum (fun _ _ => Nat.zero_le _) _ hn)

/-- What the largest number of the fixed-point type spreads over the slots. -/
def fullParts (T : Config) (shares : List Nat) : Nat :=
  (shares.map (partOf T T.share.rational.maxInner shares.sum)).sum

/-- The value fits the fixed-point type, or what exceeds the parts of the largest number stays
within the bound. -/
def Spreads (T : Config) (shares : List Nat) (effective : Nat) : Prop :=
  effective * T.share.rational.div ≤ T.share.rational.maxInner ∨
    DustBounded T shares.length effective (effective - fullParts T shares)

theorem splitDust_bounded_iff {shares : List Nat} (hc : shares.sum ≠ 0) (effective : Nat) :
    DustBounded T shares.length effective (splitDust T shares effective) ↔ Spreads T shares effective := by
  rw [splitDust, slotParts_eq hc, Spreads]
  by_cases hfits : effective * T.share.rational.div ≤ T.share.rational.maxInner
  · rw [Nat.min_eq_left hfits, iff_true_right (.inl hfits), DustBounded, Nat.sub_mul]
    have hsum : effective * shares.sum * T.share.rational.div ≤ _ := parts_sum_ge hc shares
    rw [Nat.mul_right_comm] at hsum
    have := Nat.le_of_mul_le_mul_right hsum (Nat.pos_of_ne_zero hc)
    omega
  · rw [Nat.min_eq_right (by omega), or_iff_right hfits]
    rfl

end Dust

section Recovery

variable {s s' : State T} {reason : T.Reason} {poolOf : T.AccountId} {balance : LazyBalance T}

theorem recoverSlots_dust {pool pool' : PoolInfo T} {m m' : DigestMap T} {effective taken : Nat}
    (hc : pool.capital ≠ 0)
    (h : recoverSlots reason effective pool.slots m pool 0 = .ok (m', pool', taken)) :
    taken = tally principal (slotClaims reason pool'.slots) ∧ taken ≤ effective ∧
      effective - taken = splitDust T (pool.slots.map SlotInfo.shares) effective := by
  obtain ⟨rest, hr, -, -, -, ht, hparts, -, -⟩ := recoverSlots_spec h (List.nil_append _).symm
  obtain rfl : pool'.slots = rest := hr
  rw [Nat.zero_add] at ht
  refine ⟨ht, ?_, ?_⟩
  · have hle := slotParts_mul_le (T := T) effective hc (pool.slots.map SlotInfo.shares)
    rw [← hparts, ← ht, ← pool.capital_eq] at hle
    exact Nat.le_of_mul_le_mul_right hle (Nat.pos_of_ne_zero hc)
  · rw [splitDust, ← pool.capital_eq, ← hparts, ← ht]

theorem recoverPool_pays (h : recoverPool s reason poolOf balance = .ok s') :
    ∃ pool recovered, s.poolMap.get (reason, poolOf) = some pool ∧ pool.capital ≠ 0 ∧
      s'.poolMap.get (reason, poolOf) = some recovered ∧
      tally principal (slotClaims reason recovered.slots) +
          splitDust T (pool.slots.map SlotInfo.shares) (totalValue balance) = totalValue balance ∧
      (splitDust T (pool.slots.map SlotInfo.shares) (totalValue balance) = 0 ∧ s'.ledger = s.ledger ∨
        ∃ manager, s.poolManager.get (reason, poolOf) = some manager ∧
          T.asset.increaseBalance s.ledger manager
            (splitDust T (pool.slots.map SlotInfo.shares) (totalValue balance)) = .ok s'.ledger) := by
  obtain ⟨pool, m, filled, taken, left, l, rv, hp, hc, hslots, rfl, hdusted⟩ := recoverPool_cases h
  obtain ⟨htaken, hle, hdust⟩ := recoverSlots_dust hc hslots
  have hspread : tally principal (slotClaims reason filled.slots) +
      splitDust T (pool.slots.map SlotInfo.shares) (totalValue balance) = totalValue balance := by
    omega
  refine ⟨pool, filled.setBalance left, hp, hc, StorageMap.get_insert_self .., hspread, ?_⟩
  rw [← hdust]
  rcases hdusted with ⟨hz, rfl, -, -⟩ | ⟨-, hpaid, -, -⟩
  · exact .inl ⟨hz, rfl⟩
  · exact .inr hpaid

/-- One recovery splits the value exactly between the slots and the manager, and the manager's part is
rounding dust if and only if the fixed-point type can spread the value. -/
theorem recoverPool_dust_iff (x : ExactMoves T) (h : recoverPool s reason poolOf balance = .ok s') :
    ∃ pool recovered credit, s.poolMap.get (reason, poolOf) = some pool ∧
      s'.poolMap.get (reason, poolOf) = some recovered ∧
      tally principal (slotClaims reason recovered.slots) + credit = totalValue balance ∧
      (∀ manager, s.poolManager.get (reason, poolOf) = some manager →
        x.free s'.ledger = x.free s.ledger + Finsupp.single manager credit ∧
          x.held s'.ledger = x.held s.ledger) ∧
      (DustBounded T pool.slots.length (totalValue balance) credit ↔
        Spreads T (pool.slots.map SlotInfo.shares) (totalValue balance)) := by
  obtain ⟨pool, recovered, hp, hc, hr, hspread, hpaid⟩ := recoverPool_pays h
  refine ⟨pool, recovered, _, hp, hr, hspread, fun manager hm => ?_, ?_⟩
  · rcases hpaid with ⟨hz, hledger⟩ | ⟨other, ho, hledger⟩
    · rw [hz, hledger, Finsupp.single_zero, add_zero]
      exact ⟨rfl, rfl⟩
    · obtain rfl := Option.some.inj (hm.symm.trans ho)
      exact x.increaseBalance hledger
  · rw [pool.capital_eq] at hc
    simpa using splitDust_bounded_iff hc (totalValue balance)

end Recovery

section Runtime

/-- The balance of a pool after its first deposit. -/
def firstBalance (value : Nat) : LazyBalance runtimeConfig :=
  (ShareBalance.deposit (C := runtimeShareConfig) none value).2

theorem recoverPool_dust_thirds :
    ∃ s' : State runtimeConfig, recoverPool (State.after fundedLedger thirdsPool) 0 30 (firstBalance 10) = .ok s' ∧
      ∃ pool recovered credit, (State.after fundedLedger thirdsPool).poolMap.get (0, 30) = some pool ∧
        s'.poolMap.get (0, 30) = some recovered ∧
        tally principal (slotClaims (T := runtimeConfig) 0 recovered.slots) + credit = totalValue (firstBalance 10) ∧
        (∀ manager, (State.after fundedLedger thirdsPool).poolManager.get (0, 30) = some manager →
          tokenMoves.free s'.ledger =
              tokenMoves.free (State.after fundedLedger thirdsPool).ledger + Finsupp.single manager credit ∧
            tokenMoves.held s'.ledger = tokenMoves.held (State.after fundedLedger thirdsPool).ledger) ∧
        (DustBounded runtimeConfig pool.slots.length (totalValue (firstBalance 10)) credit ↔
          Spreads runtimeConfig (pool.slots.map SlotInfo.shares) (totalValue (firstBalance 10))) := by
  obtain ⟨s', h⟩ := exists_eq_ok (show (recoverPool (State.after fundedLedger thirdsPool) 0 30
    (firstBalance 10)).isOk = true from rfl)
  exact ⟨s', h, recoverPool_dust_iff tokenMoves h⟩

/-- Accounts rich enough for values beyond the 64-bit fixed-point numbers of the runtime. -/
def richLedger : TokenLedger :=
  .ofFree [(1, 1000), (2, 1000), (3, 1000), (4, 10 ^ 12), (5, 10 ^ 12), (9, 1000)]

/-- The pool over three equal slots, and a large direct commit beside it. -/
def richPool : List (Call runtimeConfig) := thirdsPool ++ [place 5 14 (10 ^ 11)]

/-- Of a value of 10^11 the manager is paid more than four fifths as dust. -/
theorem manager_paid_excess :
    ∃ s' : State runtimeConfig, recoverPool (State.after richLedger richPool) 0 30 (firstBalance (10 ^ 11)) = .ok s' ∧
      totalValue (firstBalance (10 ^ 11)) = 10 ^ 11 ∧
      (State.after richLedger richPool).ledger.freeOf 9 = 1000 ∧ s'.ledger.freeOf 9 = 1000 + 81553255945 ∧
      ¬DustBounded runtimeConfig 3 (10 ^ 11) 81553255945 := by
  have hpaid : (recoverPool (State.after richLedger richPool) 0 30 (firstBalance (10 ^ 11))).map
      (fun t => t.ledger.freeOf 9) = .ok (1000 + 81553255945) := by
    decide +kernel
  obtain ⟨s', h⟩ := exists_eq_ok (show (recoverPool (State.after richLedger richPool) 0 30
    (firstBalance (10 ^ 11))).isOk = true by decide +kernel)
  refine ⟨s', h, by decide +kernel, by decide +kernel, ?_, by unfold DustBounded; decide +kernel⟩
  rw [h] at hpaid
  exact Except.ok.inj hpaid

end Runtime

end FrameSuite
