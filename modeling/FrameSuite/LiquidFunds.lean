import FrameSuite.CommitTargets
import FrameSuite.DeductBalance

/-! The free and held balance of one account. A resolution adds to the free balance what it
pays, and a deduction takes from the two together what it returns. -/

namespace FrameSuite

variable {T : Config}

/-- A fungible with an existential deposit, which no withdrawal from the liquid balance touches. -/
structure LiquidMoves (T : Config) extends ExactMoves T where
  minimum : Nat
  balanceOnHold_eq : ∀ l who, T.asset.balanceOnHold l who = held l who
  reducibleBalance_eq : ∀ l who, T.asset.reducibleBalance l who = free l who - minimum
  hold_ok : ∀ {l who v}, v ≤ held l who → ∃ l', T.asset.decreaseBalanceOnHold l who v = .ok l'
  liquid_ok : ∀ {l who v}, (∃ l', T.asset.decreaseBalance l who v = .ok l') ↔ v ≤ free l who - minimum
  freeze_ok : ∀ l r who v, ∃ l', T.asset.setFreeze l r who v = .ok l'

theorem LiquidMoves.draws (x : LiquidMoves T) : DrawsExactly T where
  hold {l l' who v} h := by
    obtain ⟨hfree, hheld⟩ := x.decreaseBalanceOnHold h
    rw [x.balanceOnHold_eq, x.balanceOnHold_eq, x.reducibleBalance_eq, x.reducibleBalance_eq, hfree, hheld]
    simp
  liquid {l l' who v} h := by
    obtain ⟨hfree, hheld⟩ := x.decreaseBalance h
    have hle := x.liquid_ok.mp ⟨l', h⟩
    rw [x.balanceOnHold_eq, x.balanceOnHold_eq, x.reducibleBalance_eq, x.reducibleBalance_eq, hheld]
    rw [hfree, Finsupp.add_apply, Finsupp.single_eq_same] at hle ⊢
    exact ⟨by omega, rfl⟩
  hold_ok h := x.hold_ok (x.balanceOnHold_eq .. ▸ h)
  liquid_ok h := x.liquid_ok.mpr (x.reducibleBalance_eq .. ▸ h)

namespace ExactMoves

variable (x : ExactMoves T) {s s' : State T} {who : T.AccountId} {value amount : Nat} {q : Directive}

/-- The held and the free balance of an account. -/
def funds (l : T.Ledger) (who : T.AccountId) : Nat := x.held l who + x.free l who

theorem funds_of_loss {l l' : T.Ledger} {v : Nat}
    (h : x.free l = x.free l' + Finsupp.single who v ∧ x.held l' = x.held l) :
    x.funds l who = x.funds l' who + v := by
  rw [funds, funds, h.1, h.2, Finsupp.add_apply, Finsupp.single_eq_same]
  omega

theorem funds_of_held_loss {l l' : T.Ledger} {v : Nat}
    (h : x.free l' = x.free l ∧ x.held l = x.held l' + Finsupp.single who v) :
    x.funds l who = x.funds l' who + v := by
  rw [funds, funds, h.1, h.2, Finsupp.add_apply, Finsupp.single_eq_same]
  omega

theorem resolveImbalance_free {d : AssetDelta} {paid : Nat} (h : resolveImbalance s who d = .ok (s', paid))
    (hd : d.withdraw ≤ T.share.maxAsset) :
    x.free s'.ledger = x.free s.ledger + Finsupp.single who paid ∧ x.held s'.ledger = x.held s.ledger := by
  unfold resolveImbalance at h
  dsimp only at h
  split at h
  · rename_i hlt
    obtain ⟨issue, -, h⟩ := bind_eq_ok.mp h
    obtain ⟨s₁, h₁, h⟩ := bind_eq_ok.mp h
    obtain ⟨s₂, h₂, h⟩ := bind_eq_ok.mp h
    simp only [pure_eq_ok, Prod.mk.injEq] at h
    obtain ⟨rfl, rfl⟩ := h
    obtain ⟨l₂, hl₂, rfl⟩ := onLedger_eq_ok h₂
    obtain ⟨hfree₂, hheld₂⟩ := x.mintInto hl₂
    rw [saturatingAdd_of_le (by omega), Finsupp.single_add, ← add_assoc]
    unfold State.unlessZero at h₁
    split at h₁
    · rename_i hz
      cases h₁
      exact ⟨by simpa [hz] using hfree₂, hheld₂⟩
    · obtain ⟨l₁, hl₁, rfl⟩ := onLedger_eq_ok h₁
      obtain ⟨hfree₁, hheld₁⟩ := x.increaseBalance hl₁
      exact ⟨by rw [← hfree₁]; exact hfree₂, hheld₂.trans hheld₁⟩
  · rename_i hge
    split at h
    · obtain ⟨s₁, h₁, h⟩ := bind_eq_ok.mp h
      simp only [pure_eq_ok, Prod.mk.injEq] at h
      obtain ⟨rfl, rfl⟩ := h
      obtain ⟨l, hl, rfl⟩ := onLedger_eq_ok h₁
      exact x.increaseBalance hl
    · rename_i hne
      obtain ⟨reap, -, h⟩ := bind_eq_ok.mp h
      obtain ⟨s₁, h₁, h⟩ := bind_eq_ok.mp h
      obtain ⟨s₂, h₂, h⟩ := bind_eq_ok.mp h
      simp only [pure_eq_ok, Prod.mk.injEq] at h
      obtain ⟨rfl, rfl⟩ := h
      obtain ⟨l₁, hl₁, rfl⟩ := onLedger_eq_ok h₁
      rw [State.unlessZero, if_neg (by omega)] at h₂
      obtain ⟨l₂, hl₂, rfl⟩ := onLedger_eq_ok h₂
      obtain ⟨hfree₁, hheld₁⟩ := x.increaseBalance hl₁
      obtain ⟨hfree₂, hheld₂⟩ := x.burnFrom hl₂
      refine ⟨?_, hheld₂.trans hheld₁⟩
      have hsplit : Finsupp.single who d.deposit = Finsupp.single who (d.deposit - (d.deposit - d.withdraw)) +
          Finsupp.single who (d.deposit - d.withdraw) := by
        rw [← Finsupp.single_add]
        congr 1
        omega
      rw [hsplit, ← add_assoc] at hfree₁
      exact add_right_cancel (hfree₂.symm.trans hfree₁)

theorem deductBalance_funds (h : deductBalance s who value q = .ok (s', amount)) :
    x.funds s.ledger who = x.funds s'.ledger who + amount := by
  have hboth {s₁ s₂ : State T} {reserve free : Nat} (h₁ : s.decreaseBalance who free = .ok s₁)
      (h₂ : s₁.decreaseBalanceOnHold who reserve = .ok s₂) :
      x.funds s.ledger who = x.funds s₂.ledger who + (reserve + free) := by
    obtain ⟨l₁, hl₁, rfl⟩ := onLedger_eq_ok h₁
    obtain ⟨l₂, hl₂, rfl⟩ := onLedger_eq_ok h₂
    have hfree := x.funds_of_loss (x.decreaseBalance hl₁)
    have hheld := x.funds_of_held_loss (x.decreaseBalanceOnHold hl₂)
    dsimp only at hheld ⊢
    omega
  unfold deductBalance at h
  dsimp only at h
  split at h
  · obtain ⟨s₁, h₁, h⟩ := bind_eq_ok.mp h
    simp only [pure_eq_ok, Prod.mk.injEq] at h
    obtain ⟨rfl, rfl⟩ := h
    obtain ⟨l, hl, rfl⟩ := onLedger_eq_ok h₁
    exact x.funds_of_held_loss (x.decreaseBalanceOnHold hl)
  split at h
  · obtain ⟨_, -, h⟩ := bind_eq_ok.mp h
    cases h
  obtain ⟨total, ht, h⟩ := bind_eq_ok.mp h
  obtain ⟨rfl, -⟩ := checkedAdd_eq_some.mp (okOr_eq_ok.mp ht)
  split at h
  · split at h
    · obtain ⟨_, -, h⟩ := bind_eq_ok.mp h
      cases h
    · obtain ⟨s₁, h₁, h⟩ := bind_eq_ok.mp h
      obtain ⟨s₂, h₂, h⟩ := bind_eq_ok.mp h
      simp only [pure_eq_ok, Prod.mk.injEq] at h
      obtain ⟨rfl, rfl⟩ := h
      exact hboth h₁ h₂
  · obtain ⟨s₁, h₁, h⟩ := bind_eq_ok.mp h
    obtain ⟨s₂, h₂, h⟩ := bind_eq_ok.mp h
    simp only [pure_eq_ok, Prod.mk.injEq] at h
    obtain ⟨rfl, rfl⟩ := h
    have hsum := hboth h₁ h₂
    omega

end ExactMoves

section Deduct

variable (x : LiquidMoves T) {s s' : State T} {who : T.AccountId} {value amount : Nat} {q : Directive}

/-- The hold covers the value, or the directive is forceful and the hold and the liquid balance
above the existential deposit do. -/
def LiquidMoves.Covers (l : T.Ledger) (who : T.AccountId) (value : Nat) (q : Directive) : Prop :=
  value ≤ x.held l who ∨
    q.fortitude = .force ∧ value ≤ x.held l who + (x.free l who - x.minimum) ∧
      x.held l who + (x.free l who - x.minimum) ≤ T.share.maxAsset

theorem LiquidMoves.deductBalance_covered (h : x.Covers s.ledger who value q) :
    ∃ s', deductBalance s who value q = .ok (s', value) := by
  have hhold := x.balanceOnHold_eq s.ledger who
  have hliquid := x.reducibleBalance_eq s.ledger who
  unfold deductBalance
  dsimp only
  by_cases hle : value ≤ T.asset.balanceOnHold s.ledger who
  · obtain ⟨l, hl⟩ := x.draws.hold_ok hle
    rw [if_pos hle]
    exact ⟨{ s with ledger := l }, bind_eq_ok.mpr ⟨_, map_eq_ok.mpr ⟨l, hl, rfl⟩, rfl⟩⟩
  · obtain h | ⟨hforce, hsum, hmax⟩ := h
    · omega
    have hpolite : ¬(q.fortitude = .polite ∧ (q.precision = .exact ∨ T.asset.balanceOnHold s.ledger who = 0)) := by
      simp [hforce]
    have htaken : T.asset.reducibleBalance s.ledger who - (T.asset.balanceOnHold s.ledger who +
        T.asset.reducibleBalance s.ledger who - value) ≤ T.asset.reducibleBalance s.ledger who := Nat.sub_le _ _
    obtain ⟨l, hl⟩ := x.draws.liquid_ok htaken
    have hsame := (x.draws.liquid hl).2
    obtain ⟨l', hl'⟩ := x.draws.hold_ok (le_of_eq hsame.symm)
    rw [if_neg hle, if_neg hpolite]
    refine ⟨{ s with ledger := l' }, bind_eq_ok.mpr ⟨_, okOr_eq_ok.mpr (checkedAdd_eq_some.mpr ⟨rfl, ?_⟩), ?_⟩⟩
    · omega
    · rw [if_neg (by omega)]
      exact bind_eq_ok.mpr ⟨{ s with ledger := l }, map_eq_ok.mpr ⟨l, hl, rfl⟩,
        bind_eq_ok.mpr ⟨_, map_eq_ok.mpr ⟨l', hl', rfl⟩, rfl⟩⟩

/-- An exact deduction is refused where the funds do not cover it, a polite one where nothing is
on hold. -/
theorem LiquidMoves.covers_of_deductBalance (h : deductBalance s who value q = .ok (s', amount))
    (hq : q.precision = .exact ∨ q.fortitude = .polite ∧ x.held s.ledger who = 0) :
    x.Covers s.ledger who value q := by
  have hamount := deductBalance_amount h
  unfold deductible at hamount
  have hdrawn := deductBalance_drawn x.draws h
  rw [x.balanceOnHold_eq, x.reducibleBalance_eq] at hamount hdrawn
  rcases hdrawn with ⟨hle, -⟩ | ⟨hlt, hrefused, hexact, -, hmax⟩
  · exact Or.inl hle
  · have hforce : q.fortitude = .force := by
      cases hf : q.fortitude with
      | force => rfl
      | polite =>
        rcases hq with hq | ⟨-, hz⟩
        · exact absurd ⟨hf, Or.inl hq⟩ hrefused
        · exact absurd ⟨hf, Or.inr hz⟩ hrefused
    rcases hq with hq | ⟨hf, -⟩
    · have hall := hexact hq
      exact Or.inr ⟨hforce, by omega, hmax⟩
    · rw [hf] at hforce
      cases hforce

end Deduct

end FrameSuite
