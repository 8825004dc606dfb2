import FrameSuite.CommitSettle
import FrameSuite.RuntimeConfig

/-! What a deduction takes from the hold and from the liquid balance of an account. The polite
best effort goes on to liquid funds when the hold does not cover the value. -/

namespace FrameSuite

variable {T : Config}

/-- The two withdrawals of the fungible: each takes its amount from its own balance of the
account, and succeeds up to that balance. -/
structure DrawsExactly (T : Config) : Prop where
  hold : ∀ {l l' who v}, T.asset.decreaseBalanceOnHold l who v = .ok l' →
    T.asset.balanceOnHold l who = T.asset.balanceOnHold l' who + v ∧
      T.asset.reducibleBalance l' who = T.asset.reducibleBalance l who
  liquid : ∀ {l l' who v}, T.asset.decreaseBalance l who v = .ok l' →
    T.asset.reducibleBalance l who = T.asset.reducibleBalance l' who + v ∧
      T.asset.balanceOnHold l' who = T.asset.balanceOnHold l who
  hold_ok : ∀ {l who v}, v ≤ T.asset.balanceOnHold l who →
    ∃ l', T.asset.decreaseBalanceOnHold l who v = .ok l'
  liquid_ok : ∀ {l who v}, v ≤ T.asset.reducibleBalance l who →
    ∃ l', T.asset.decreaseBalance l who v = .ok l'

section Deduct

variable {s s' : State T} {who : T.AccountId} {value amount : Nat} {q : Directive}

/-- The amount comes from the hold and from the liquid balance, in so many parts. -/
structure DrawnFrom (s s' : State T) (who : T.AccountId) (fromHold fromLiquid : Nat) : Prop where
  ledger : s' = { s with ledger := s'.ledger }
  hold : T.asset.balanceOnHold s.ledger who = T.asset.balanceOnHold s'.ledger who + fromHold
  liquid : T.asset.reducibleBalance s.ledger who = T.asset.reducibleBalance s'.ledger who + fromLiquid

/-- A deduction takes what it says and no more than was asked, all of it when it has to be
exact, nothing liquid when it has to be polite, and nothing liquid before the hold is used up. -/
structure Obeys (s s' : State T) (who : T.AccountId) (value : Nat) (q : Directive) (amount : Nat) : Prop where
  taken : T.asset.balanceOnHold s.ledger who + T.asset.reducibleBalance s.ledger who =
    T.asset.balanceOnHold s'.ledger who + T.asset.reducibleBalance s'.ledger who + amount
  atMost : amount ≤ value
  exact : q.precision = .exact → amount = value
  polite : q.fortitude = .polite →
    T.asset.reducibleBalance s'.ledger who = T.asset.reducibleBalance s.ledger who
  force : q.fortitude = .force →
    T.asset.reducibleBalance s'.ledger who ≠ T.asset.reducibleBalance s.ledger who →
    T.asset.balanceOnHold s'.ledger who = 0

def DeductionObeys (s : State T) (who : T.AccountId) (value : Nat) (q : Directive) : Prop :=
  ∀ s' amount, deductBalance s who value q = .ok (s', amount) → Obeys s s' who value q amount

/-- A polite best effort that finds less on hold than it asks for, and liquid funds. -/
def fallsThrough (s : State T) (who : T.AccountId) (value : Nat) (q : Directive) : Prop :=
  q = ⟨.bestEffort, .polite⟩ ∧
    0 < T.asset.balanceOnHold s.ledger who ∧ T.asset.balanceOnHold s.ledger who < value ∧
    0 < T.asset.reducibleBalance s.ledger who ∧
    T.asset.balanceOnHold s.ledger who + T.asset.reducibleBalance s.ledger who ≤ T.share.maxAsset

theorem drawn_hold (x : DrawsExactly T) (h : s.decreaseBalanceOnHold who value = .ok s') :
    DrawnFrom s s' who value 0 := by
  obtain ⟨l, hl, rfl⟩ := map_eq_ok.mp h
  obtain ⟨hhold, hliquid⟩ := x.hold hl
  exact ⟨rfl, hhold, hliquid.symm⟩

theorem drawn_both (x : DrawsExactly T) {s₁ : State T} {reserve free : Nat}
    (h₁ : s.decreaseBalance who free = .ok s₁) (h₂ : s₁.decreaseBalanceOnHold who reserve = .ok s') :
    DrawnFrom s s' who reserve free := by
  obtain ⟨l, hl, rfl⟩ := map_eq_ok.mp h₁
  obtain ⟨l', hl', rfl⟩ := map_eq_ok.mp h₂
  obtain ⟨hliquid, hhold⟩ := x.liquid hl
  obtain ⟨hhold', hliquid'⟩ := x.hold hl'
  refine ⟨rfl, ?_, ?_⟩
  · rw [← hhold]
    exact hhold'
  · dsimp only
    rw [hliquid, hliquid']

theorem deductBalance_drawn (x : DrawsExactly T) (h : deductBalance s who value q = .ok (s', amount)) :
    (value ≤ T.asset.balanceOnHold s.ledger who ∧ amount = value ∧ DrawnFrom s s' who value 0) ∨
      (T.asset.balanceOnHold s.ledger who < value ∧
        ¬(q.fortitude = .polite ∧ (q.precision = .exact ∨ T.asset.balanceOnHold s.ledger who = 0)) ∧
        (q.precision = .exact → amount = value) ∧
        DrawnFrom s s' who (T.asset.balanceOnHold s.ledger who)
          (min (value - T.asset.balanceOnHold s.ledger who) (T.asset.reducibleBalance s.ledger who)) ∧
        T.asset.balanceOnHold s.ledger who + T.asset.reducibleBalance s.ledger who ≤ T.share.maxAsset) := by
  unfold deductBalance at h
  dsimp only at h
  by_cases hle : value ≤ T.asset.balanceOnHold s.ledger who
  · rw [if_pos hle] at h
    obtain ⟨s₁, h₁, h⟩ := bind_eq_ok.mp h
    simp only [pure_eq_ok, Prod.mk.injEq] at h
    obtain ⟨rfl, rfl⟩ := h
    exact Or.inl ⟨hle, rfl, drawn_hold x h₁⟩
  rw [if_neg hle] at h
  by_cases hpolite : q.fortitude = .polite ∧ (q.precision = .exact ∨ T.asset.balanceOnHold s.ledger who = 0)
  · rw [if_pos hpolite] at h
    obtain ⟨_, -, h⟩ := bind_eq_ok.mp h
    cases h
  rw [if_neg hpolite] at h
  refine Or.inr ⟨Nat.not_le.mp hle, hpolite, ?_⟩
  obtain ⟨total, ht, h⟩ := bind_eq_ok.mp h
  obtain ⟨rfl, hmax⟩ := checkedAdd_eq_some.mp (okOr_eq_ok.mp ht)
  split at h
  · rename_i hlt
    split at h
    · obtain ⟨_, -, h⟩ := bind_eq_ok.mp h
      cases h
    · rename_i hbest
      obtain ⟨s₁, h₁, h⟩ := bind_eq_ok.mp h
      obtain ⟨s₂, h₂, h⟩ := bind_eq_ok.mp h
      simp only [pure_eq_ok, Prod.mk.injEq] at h
      obtain ⟨rfl, rfl⟩ := h
      have hmin : min (value - T.asset.balanceOnHold s.ledger who) (T.asset.reducibleBalance s.ledger who) =
          T.asset.reducibleBalance s.ledger who := by omega
      rw [hmin]
      exact ⟨fun hq => absurd (Or.inl hq) hbest, drawn_both x h₁ h₂, hmax⟩
  · rename_i hge
    obtain ⟨s₁, h₁, h⟩ := bind_eq_ok.mp h
    obtain ⟨s₂, h₂, h⟩ := bind_eq_ok.mp h
    simp only [pure_eq_ok, Prod.mk.injEq] at h
    obtain ⟨rfl, rfl⟩ := h
    have hfree : T.asset.reducibleBalance s.ledger who -
        (T.asset.balanceOnHold s.ledger who + T.asset.reducibleBalance s.ledger who - value) =
        min (value - T.asset.balanceOnHold s.ledger who) (T.asset.reducibleBalance s.ledger who) := by omega
    rw [hfree] at h₁
    exact ⟨fun _ => rfl, drawn_both x h₁ h₂, hmax⟩

theorem fallsThrough_draws (x : DrawsExactly T) (h : fallsThrough s who value q) :
    ∃ s' amount, deductBalance s who value q = .ok (s', amount) := by
  obtain ⟨rfl, hheld, hlt, hliquid, hmax⟩ := h
  have htake (free : Nat) (hfree : free ≤ T.asset.reducibleBalance s.ledger who) :
      ∃ s₁ s₂, s.decreaseBalance who free = .ok s₁ ∧
        s₁.decreaseBalanceOnHold who (T.asset.balanceOnHold s.ledger who) = .ok s₂ := by
    obtain ⟨l, hl⟩ := x.liquid_ok hfree
    have hsame := (x.liquid hl).2
    obtain ⟨l', hl'⟩ := x.hold_ok (le_of_eq hsame.symm)
    exact ⟨{ s with ledger := l }, { s with ledger := l' }, map_eq_ok.mpr ⟨l, hl, rfl⟩,
      map_eq_ok.mpr ⟨l', hl', rfl⟩⟩
  unfold deductBalance
  dsimp only
  have hpolite : ¬(True ∧ (Precision.bestEffort = .exact ∨ T.asset.balanceOnHold s.ledger who = 0)) := by
    simp only [reduceCtorEq, false_or, true_and]
    omega
  rw [if_neg (Nat.not_le.mpr hlt), if_neg (by simpa using hpolite)]
  by_cases hall : T.asset.balanceOnHold s.ledger who + T.asset.reducibleBalance s.ledger who < value
  · obtain ⟨s₁, s₂, h₁, h₂⟩ := htake _ le_rfl
    refine ⟨s₂, T.asset.balanceOnHold s.ledger who + T.asset.reducibleBalance s.ledger who,
      bind_eq_ok.mpr ⟨_, okOr_eq_ok.mpr (checkedAdd_eq_some.mpr ⟨rfl, hmax⟩), ?_⟩⟩
    rw [if_pos hall, if_neg (by simp only [reduceCtorEq, false_or]; omega)]
    exact bind_eq_ok.mpr ⟨s₁, h₁, bind_eq_ok.mpr ⟨s₂, h₂, rfl⟩⟩
  · obtain ⟨s₁, s₂, h₁, h₂⟩ := htake (T.asset.reducibleBalance s.ledger who -
      (T.asset.balanceOnHold s.ledger who + T.asset.reducibleBalance s.ledger who - value)) (Nat.sub_le _ _)
    refine ⟨s₂, value, bind_eq_ok.mpr ⟨_, okOr_eq_ok.mpr (checkedAdd_eq_some.mpr ⟨rfl, hmax⟩), ?_⟩⟩
    rw [if_neg hall]
    exact bind_eq_ok.mpr ⟨s₁, h₁, bind_eq_ok.mpr ⟨s₂, h₂, rfl⟩⟩

/-- A deduction obeys its directive unless it falls through to liquid funds. -/
theorem deduction_obeys_iff (x : DrawsExactly T) :
    DeductionObeys s who value q ↔ ¬fallsThrough s who value q := by
  constructor
  · rintro h hfall
    obtain ⟨s', amount, hok⟩ := fallsThrough_draws x hfall
    have hpolite := (h s' amount hok).polite (by rw [hfall.1])
    obtain ⟨-, hheld, hlt, hliquid, -⟩ := hfall
    rcases deductBalance_drawn x hok with ⟨hle, -⟩ | ⟨-, -, -, hdrawn, -⟩
    · omega
    · have := hdrawn.liquid
      omega
  · intro hfall s' amount hok
    have hamount := deductBalance_amount hok
    unfold deductible at hamount
    rcases deductBalance_drawn x hok with ⟨hle, rfl, hdrawn⟩ | ⟨hlt, hrefused, hexact, hdrawn, hmax⟩
    · have hhold := hdrawn.hold
      have hliquid := hdrawn.liquid
      exact ⟨by omega, le_rfl, fun _ => rfl, fun _ => by omega, fun _ hne => absurd (by omega) hne⟩
    · have hhold := hdrawn.hold
      have hliquid := hdrawn.liquid
      refine ⟨by omega, by omega, hexact, fun hq => ?_, fun _ _ => by omega⟩
      have hbest : q = ⟨.bestEffort, .polite⟩ := by
        cases q with
        | mk precision fortitude =>
          cases precision with
          | exact => exact absurd ⟨hq, Or.inl rfl⟩ hrefused
          | bestEffort => exact congrArg _ hq
      have hheld : T.asset.balanceOnHold s.ledger who ≠ 0 := fun hzero => hrefused ⟨hq, Or.inr hzero⟩
      have hnone : T.asset.reducibleBalance s.ledger who = 0 := by
        by_contra hsome
        exact hfall ⟨hbest, Nat.pos_of_ne_zero hheld, hlt, Nat.pos_of_ne_zero hsome, hmax⟩
      omega

end Deduct

theorem tokenDraws : DrawsExactly runtimeConfig where
  hold := by
    intro l l' who v h
    change TokenLedger.decreaseHeld l who v = .ok l' at h
    unfold TokenLedger.decreaseHeld at h
    split at h
    · rename_i hle
      cases h
      unfold TokenLedger.heldOf at hle
      simp only [TokenLedger.fungible, TokenLedger.heldOf, StorageMap.get_insert_self, Option.getD_some]
      exact ⟨by omega, rfl⟩
    · cases h
  liquid := by
    intro l l' who v h
    change TokenLedger.decrease l who v = .ok l' at h
    unfold TokenLedger.decrease at h
    split at h
    · rename_i hle
      cases h
      unfold TokenLedger.reducible TokenLedger.freeOf at hle
      simp only [TokenLedger.fungible, TokenLedger.reducible, TokenLedger.setFree, TokenLedger.freeOf,
        StorageMap.get_insert_self, Option.getD_some]
      exact ⟨by omega, rfl⟩
    · cases h
  hold_ok h := ⟨_, if_pos h⟩
  liquid_ok h := ⟨_, if_pos h⟩

/-- Five on hold and ten to spend above the existential deposit. -/
def purse : State runtimeConfig :=
  State.genesis { TokenLedger.ofFree [(1, 11)] with held := StorageMap.empty.insert (1 : Nat) 5 }

theorem polite_exact_obeys : DeductionObeys purse (1 : Nat) 20 ⟨.exact, .polite⟩ :=
  (deduction_obeys_iff tokenDraws).mpr fun h => by cases h.1

/-- A polite best effort for twenty takes the ten liquid funds as well. -/
theorem polite_best_effort_takes_liquid :
    ¬∀ (s : State runtimeConfig) (who value : Nat) (q : Directive), DeductionObeys s who value q := by
  intro h
  have hobeys := h purse 1 20 ⟨.bestEffort, .polite⟩ _ 15 rfl
  exact absurd (hobeys.polite rfl) (by decide +kernel)

end FrameSuite
