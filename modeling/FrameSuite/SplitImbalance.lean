import FrameSuite.RuntimeConfig

/-! An imbalance settled in two parts, as a pool does when it pays a commission, against the
same imbalance settled at once. Both credit the whole withdrawal; the parts never mint or
leave unburnt what the payment is worth, so the issuance stays behind by the payment. -/

namespace FrameSuite

variable {T : Config}

/-- Minting and burning move the total issuance, crediting a balance leaves it. -/
structure IssuanceMoves (T : Config) where
  issuance : T.Ledger → Nat
  increaseBalance : ∀ {l l' who v}, T.asset.increaseBalance l who v = .ok l' → issuance l' = issuance l
  mintInto : ∀ {l l' who v}, T.asset.mintInto l who v = .ok l' → issuance l' = issuance l + v
  burnFrom : ∀ {l l' who v}, T.asset.burnFrom l who v = .ok l' → issuance l = issuance l' + v

/-- The outstanding issuance less the outstanding reaping. -/
def netOutstanding (s : State T) : Int := (s.assetToIssue : Int) - s.assetToReap

/-- Splits a payment off an imbalance, then settles the rest with its holder and the payment
with the payee. -/
def settleSplit (s : State T) (who payee : T.AccountId) (imbalance : AssetDelta) (value : Nat) :
    Except DispatchError (State T × Nat × Nat) := do
  let (s, rest, payment) ← deductFromImbalance s imbalance value
  let (s, left) ← resolveImbalance s who rest
  let (s, paid) ← resolveImbalance s payee payment
  pure (s, left, paid)

theorem IssuanceMoves.resolveImbalance (y : IssuanceMoves T) {s s' : State T} {who : T.AccountId} {d : AssetDelta}
    {paid : Nat} (h : resolveImbalance s who d = .ok (s', paid)) :
    y.issuance s'.ledger + d.deposit = y.issuance s.ledger + d.withdraw := by
  unfold FrameSuite.resolveImbalance at h
  dsimp only at h
  split at h
  · rename_i hlt
    obtain ⟨issue, -, h⟩ := bind_eq_ok.mp h
    obtain ⟨s1, h1, h⟩ := bind_eq_ok.mp h
    have hsame : y.issuance s1.ledger = y.issuance s.ledger := by
      unfold State.unlessZero at h1
      split at h1
      · cases h1
        rfl
      · obtain ⟨l, hl, rfl⟩ := onLedger_eq_ok h1
        exact y.increaseBalance hl
    obtain ⟨s2, h2, h⟩ := bind_eq_ok.mp h
    obtain ⟨l, hl, rfl⟩ := onLedger_eq_ok h2
    have hmint := y.mintInto hl
    simp only [pure_eq_ok, Prod.mk.injEq] at h
    obtain ⟨rfl, -⟩ := h
    dsimp only
    omega
  · split at h
    · rename_i heq
      obtain ⟨s1, h1, h⟩ := bind_eq_ok.mp h
      obtain ⟨l, hl, rfl⟩ := onLedger_eq_ok h1
      simp only [pure_eq_ok, Prod.mk.injEq] at h
      obtain ⟨rfl, -⟩ := h
      rw [heq, y.increaseBalance hl]
    · rename_i hlt hne
      obtain ⟨reap, -, h⟩ := bind_eq_ok.mp h
      obtain ⟨s1, h1, h⟩ := bind_eq_ok.mp h
      obtain ⟨l, hl, rfl⟩ := onLedger_eq_ok h1
      have hsame : y.issuance l = y.issuance s.ledger := y.increaseBalance hl
      obtain ⟨s2, h2, h⟩ := bind_eq_ok.mp h
      rw [State.unlessZero, if_neg (by omega)] at h2
      obtain ⟨l', hl', rfl⟩ := onLedger_eq_ok h2
      have hburn := y.burnFrom hl'
      simp only [pure_eq_ok, Prod.mk.injEq] at h
      obtain ⟨rfl, -⟩ := h
      dsimp only at hburn ⊢
      omega

/-- The parts credit the whole withdrawal. Against settling at once the counters keep what the
payment takes out of a reward, and the issuance stays behind by the payment. -/
theorem settleSplit_spec (x : ExactMoves T) (y : IssuanceMoves T) {s split whole : State T}
    {who payee : T.AccountId} {d : AssetDelta} {v left paid all : Nat} (hv : v ≤ d.withdraw)
    (hd : d.withdraw ≤ T.share.maxAsset) (hs : settleSplit s who payee d v = .ok (split, left, paid))
    (hw : resolveImbalance s who d = .ok (whole, all)) :
    left + paid = d.withdraw ∧ x.cash split.ledger = x.cash s.ledger + d.withdraw ∧
      netOutstanding split = netOutstanding whole + min v (d.withdraw - d.deposit) ∧
      y.issuance whole.ledger = y.issuance split.ledger + v := by
  obtain ⟨⟨s1, rest, payment⟩, h1, hs⟩ := bind_eq_ok.mp hs
  obtain ⟨rfl, rfl, rfl⟩ := deductFromImbalance_spec h1 hv hd
  obtain ⟨⟨s2, left'⟩, h2, hs⟩ := bind_eq_ok.mp hs
  have hi2 := y.resolveImbalance h2
  obtain ⟨rfl, l2, issue2, reap2, rfl, hf2, hissue2, hreap2⟩ :=
    resolveImbalance_spec h2 (by dsimp only; omega)
  obtain ⟨⟨s3, paid'⟩, h3, hs⟩ := bind_eq_ok.mp hs
  have hi3 := y.resolveImbalance h3
  obtain ⟨rfl, l3, issue3, reap3, rfl, hf3, hissue3, hreap3⟩ :=
    resolveImbalance_spec h3 (by dsimp only; omega)
  simp only [pure_eq_ok, Prod.mk.injEq] at hs
  obtain ⟨rfl, rfl, rfl⟩ := hs
  have hi := y.resolveImbalance hw
  obtain ⟨-, l, issue, reap, rfl, -, hissue, hreap⟩ := resolveImbalance_spec hw hd
  have hcash := x.cash_of_flow (hf2.trans hf3)
  have hrest := Nat.sub_add_cancel hv
  unfold netOutstanding
  dsimp only at *
  rw [Nat.sub_self, Nat.add_zero] at hissue3 hreap3
  refine ⟨hrest, ?_, ?_, ?_⟩
  · clear hissue2 hreap2 hissue hreap hi2 hi3 hi
    omega
  · clear hcash hi2 hi3 hi
    omega
  · clear hcash hissue2 hreap2 hissue hreap
    omega

/-- Settling in parts has the effect of settling at once exactly when nothing is split off. -/
theorem split_neutral_iff (x : ExactMoves T) (y : IssuanceMoves T) {s split whole : State T}
    {who payee : T.AccountId} {d : AssetDelta} {v left paid all : Nat} (hv : v ≤ d.withdraw)
    (hd : d.withdraw ≤ T.share.maxAsset) (hs : settleSplit s who payee d v = .ok (split, left, paid))
    (hw : resolveImbalance s who d = .ok (whole, all)) :
    (left + paid = d.withdraw ∧ x.cash split.ledger = x.cash s.ledger + d.withdraw ∧
      netOutstanding split = netOutstanding whole ∧ y.issuance split.ledger = y.issuance whole.ledger) ↔
        v = 0 := by
  obtain ⟨hpaid, hcash, hnet, hissued⟩ := settleSplit_spec x y hv hd hs hw
  constructor
  · rintro ⟨-, -, -, heq⟩
    omega
  · rintro rfl
    rw [Nat.zero_min] at hnet
    exact ⟨hpaid, hcash, by simpa using hnet, hissued.symm⟩

/-- A token ledger that counts what was minted and burnt. -/
structure IssuedLedger where
  tokens : TokenLedger
  issued : Nat

namespace IssuedLedger

/-- Runs an operation of the tokens, with the issuance after it. -/
def withIssued (issued : Nat) (op : Except DispatchError TokenLedger) : Except DispatchError IssuedLedger :=
  op.map fun tokens => { tokens, issued }

theorem withIssued_eq_ok {l : IssuedLedger} {op : Except DispatchError TokenLedger} {issued : Nat} :
    withIssued issued op = .ok l ↔ op = .ok l.tokens ∧ l.issued = issued := by
  cases l
  cases op with
  | error e => simp [withIssued, Except.map]
  | ok tokens => simp [withIssued, Except.map, eq_comm]

def mint (l : IssuedLedger) (who v : Nat) : Except DispatchError IssuedLedger :=
  if l.issued + v ≤ TokenLedger.maxBalance then withIssued (l.issued + v) (l.tokens.increase who v)
  else .error .asset

def burn (l : IssuedLedger) (who v : Nat) : Except DispatchError IssuedLedger :=
  if v ≤ l.issued then withIssued (l.issued - v) (l.tokens.burn who v) else .error .asset

def fungible : Fungible Nat Nat IssuedLedger :=
  { balanceOnHold := fun l => l.tokens.heldOf
    totalBalanceOnHold := fun l => l.tokens.heldOf
    reducibleBalance := fun l => l.tokens.reducible
    totalBalance := fun l who => l.tokens.freeOf who + l.tokens.heldOf who
    increaseBalance := fun l who v => withIssued l.issued (l.tokens.increase who v)
    decreaseBalance := fun l who v => withIssued l.issued (l.tokens.decrease who v)
    decreaseBalanceOnHold := fun l who v => withIssued l.issued (l.tokens.decreaseHeld who v)
    mintInto := mint
    burnFrom := burn
    setFreeze := fun l reason who v => withIssued l.issued (.ok (l.tokens.freeze reason who v))
    increaseFrozen := fun l reason who v =>
      withIssued l.issued (.ok (l.tokens.freeze reason who (l.tokens.frozenOf reason who + v)))
    thaw := fun l reason who =>
      withIssued l.issued (.ok { l.tokens with frozen := l.tokens.frozen.remove (reason, who) }) }

theorem mint_eq_ok {l l' : IssuedLedger} {who v : Nat} (h : l.mint who v = .ok l') :
    l.tokens.increase who v = .ok l'.tokens ∧ l'.issued = l.issued + v := by
  unfold mint at h
  split at h
  · exact withIssued_eq_ok.mp h
  · cases h

theorem burn_eq_ok {l l' : IssuedLedger} {who v : Nat} (h : l.burn who v = .ok l') :
    l.tokens.burn who v = .ok l'.tokens ∧ l.issued = l'.issued + v := by
  unfold burn at h
  split at h
  · obtain ⟨ht, hi⟩ := withIssued_eq_ok.mp h
    exact ⟨ht, by omega⟩
  · cases h

end IssuedLedger

abbrev issuedConfig : Config :=
  { runtimeConfig with
    Ledger := IssuedLedger
    asset := IssuedLedger.fungible }

noncomputable def issuedMoves : ExactMoves issuedConfig where
  free l := (IssuedLedger.tokens l).free.amounts
  held l := (IssuedLedger.tokens l).held.amounts
  increaseBalance h := TokenLedger.increase_exact (IssuedLedger.withIssued_eq_ok.mp h).1
  decreaseBalance h := TokenLedger.decrease_exact (IssuedLedger.withIssued_eq_ok.mp h).1
  decreaseBalanceOnHold h := TokenLedger.decreaseHeld_exact (IssuedLedger.withIssued_eq_ok.mp h).1
  mintInto h := TokenLedger.increase_exact (IssuedLedger.mint_eq_ok h).1
  burnFrom h := TokenLedger.burn_exact (IssuedLedger.burn_eq_ok h).1
  setFreeze h := by
    cases h
    exact ⟨rfl, rfl⟩
  increaseFrozen h := by
    cases h
    exact ⟨rfl, rfl⟩
  thaw h := by
    cases h
    exact ⟨rfl, rfl⟩

def countedIssuance : IssuanceMoves issuedConfig where
  issuance := IssuedLedger.issued
  increaseBalance h := (IssuedLedger.withIssued_eq_ok.mp h).2
  mintInto h := (IssuedLedger.mint_eq_ok h).2
  burnFrom h := (IssuedLedger.burn_eq_ok h).2

/-- Nothing committed, with the funds of the runtime's accounts issued. -/
def issuedGenesis : State issuedConfig := State.genesis (T := issuedConfig) { tokens := fundedLedger, issued := 6000 }

/-- Ten units come back without gain or loss, and three of them go to another account. -/
theorem split_neutral_iff_three :
    ∃ split whole, settleSplit issuedGenesis 1 9 ⟨10, 10⟩ 3 = .ok (split, 7, 3) ∧
      resolveImbalance issuedGenesis 1 ⟨10, 10⟩ = .ok (whole, 10) ∧
      ((7 + 3 = 10 ∧ issuedMoves.cash split.ledger = issuedMoves.cash issuedGenesis.ledger + 10 ∧
        netOutstanding split = netOutstanding whole ∧
        countedIssuance.issuance split.ledger = countedIssuance.issuance whole.ledger) ↔ 3 = 0) := by
  have hs : (settleSplit issuedGenesis 1 9 ⟨10, 10⟩ 3).map (·.2) = .ok (7, 3) := by decide +kernel
  have hw : (resolveImbalance issuedGenesis 1 ⟨10, 10⟩).map (·.2) = .ok 10 := by decide +kernel
  obtain ⟨⟨split, left, paid⟩, hsplit, hout⟩ := map_eq_ok.mp hs
  obtain ⟨⟨whole, all⟩, hwhole, hall⟩ := map_eq_ok.mp hw
  simp only [Prod.mk.injEq] at hout hall
  obtain ⟨rfl, rfl⟩ := hout
  obtain rfl := hall
  exact ⟨split, whole, hsplit, hwhole,
    split_neutral_iff issuedMoves countedIssuance (by decide) (by decide) hsplit hwhole⟩

/-- The holder's part is burnt by the three units that the payee is credited without a mint. -/
theorem split_not_neutral :
    ¬∀ (who payee : Nat) (d : AssetDelta) (v left paid all : Nat) (s split whole : State issuedConfig),
      v ≤ d.withdraw → d.withdraw ≤ issuedConfig.share.maxAsset →
      settleSplit s who payee d v = .ok (split, left, paid) → resolveImbalance s who d = .ok (whole, all) →
      left + paid = d.withdraw ∧ netOutstanding split = netOutstanding whole ∧
        split.ledger.issued = whole.ledger.issued := by
  intro h
  have hs : (settleSplit issuedGenesis 1 9 ⟨10, 10⟩ 3).map (·.1.ledger.issued) = .ok 5997 := by decide +kernel
  have hw : (resolveImbalance issuedGenesis 1 ⟨10, 10⟩).map (·.1.ledger.issued) = .ok 6000 := by decide +kernel
  obtain ⟨⟨split, left, paid⟩, hsplit, hout⟩ := map_eq_ok.mp hs
  obtain ⟨⟨whole, all⟩, hwhole, hall⟩ := map_eq_ok.mp hw
  obtain ⟨-, -, heq⟩ := h _ _ _ _ _ _ _ _ _ _ (by decide) (by decide) hsplit hwhole
  dsimp only at hout hall
  rw [hout, hall] at heq
  exact absurd heq (by decide)

end FrameSuite
