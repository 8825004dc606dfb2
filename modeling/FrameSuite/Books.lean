import FrameSuite.Vault
import Mathlib.Data.Finsupp.Weight

/-! The amounts a step of the pallet moves: cash in the underlying fungible, the totals
of the reasons and the two counters. A fungible that moves exactly what it is asked to
move turns the flow of its operations into a change of cash. -/

namespace FrameSuite

open ShareBalance

variable {T : Config}

/-- The fungible moves exactly the requested amount of free or held balance, or fails. -/
structure ExactMoves (T : Config) where
  free : T.Ledger → T.AccountId →₀ Nat
  held : T.Ledger → T.AccountId →₀ Nat
  increaseBalance : ∀ {l l' who v}, T.asset.increaseBalance l who v = .ok l' →
    free l' = free l + Finsupp.single who v ∧ held l' = held l
  decreaseBalance : ∀ {l l' who v}, T.asset.decreaseBalance l who v = .ok l' →
    free l = free l' + Finsupp.single who v ∧ held l' = held l
  decreaseBalanceOnHold : ∀ {l l' who v}, T.asset.decreaseBalanceOnHold l who v = .ok l' →
    free l' = free l ∧ held l = held l' + Finsupp.single who v
  mintInto : ∀ {l l' who v}, T.asset.mintInto l who v = .ok l' →
    free l' = free l + Finsupp.single who v ∧ held l' = held l
  burnFrom : ∀ {l l' who v}, T.asset.burnFrom l who v = .ok l' →
    free l = free l' + Finsupp.single who v ∧ held l' = held l
  setFreeze : ∀ {l l' r who v}, T.asset.setFreeze l r who v = .ok l' →
    free l' = free l ∧ held l' = held l
  increaseFrozen : ∀ {l l' r who v}, T.asset.increaseFrozen l r who v = .ok l' →
    free l' = free l ∧ held l' = held l
  thaw : ∀ {l l' r who}, T.asset.thaw l r who = .ok l' → free l' = free l ∧ held l' = held l

namespace ExactMoves

variable (x : ExactMoves T)

/-- The free and held balances of all accounts. -/
noncomputable def cash (l : T.Ledger) : Nat := (x.free l).degree + (x.held l).degree

theorem cash_of_same {l l' : T.Ledger} (h : x.free l' = x.free l ∧ x.held l' = x.held l) :
    x.cash l' = x.cash l := by
  rw [cash, cash, h.1, h.2]

theorem cash_of_gain {l l' : T.Ledger} {who : T.AccountId} {v : Nat}
    (h : x.free l' = x.free l + Finsupp.single who v ∧ x.held l' = x.held l) :
    x.cash l' = x.cash l + v := by
  rw [cash, cash, h.1, h.2, map_add, Finsupp.degree_single]
  omega

theorem cash_of_loss {l l' : T.Ledger} {who : T.AccountId} {v : Nat}
    (h : x.free l = x.free l' + Finsupp.single who v ∧ x.held l' = x.held l) :
    x.cash l = x.cash l' + v :=
  x.cash_of_gain ⟨h.1, h.2.symm⟩

theorem cash_of_held_loss {l l' : T.Ledger} {who : T.AccountId} {v : Nat}
    (h : x.free l' = x.free l ∧ x.held l = x.held l' + Finsupp.single who v) :
    x.cash l = x.cash l' + v := by
  rw [cash, cash, h.1, h.2, map_add, Finsupp.degree_single]
  omega

end ExactMoves

/-- Successful operations lead from one ledger to the other, with the net amount they
were asked to add. -/
inductive Flow : T.Ledger → T.Ledger → Int → Prop
  | refl (l : T.Ledger) : Flow l l 0
  | increaseBalance {l l' : T.Ledger} {who : T.AccountId} {v : Nat}
      (h : T.asset.increaseBalance l who v = .ok l') : Flow l l' v
  | decreaseBalance {l l' : T.Ledger} {who : T.AccountId} {v : Nat}
      (h : T.asset.decreaseBalance l who v = .ok l') : Flow l l' (-v)
  | decreaseBalanceOnHold {l l' : T.Ledger} {who : T.AccountId} {v : Nat}
      (h : T.asset.decreaseBalanceOnHold l who v = .ok l') : Flow l l' (-v)
  | mintInto {l l' : T.Ledger} {who : T.AccountId} {v : Nat}
      (h : T.asset.mintInto l who v = .ok l') : Flow l l' v
  | burnFrom {l l' : T.Ledger} {who : T.AccountId} {v : Nat}
      (h : T.asset.burnFrom l who v = .ok l') : Flow l l' (-v)
  | setFreeze {l l' : T.Ledger} {r : T.Reason} {who : T.AccountId} {v : Nat}
      (h : T.asset.setFreeze l r who v = .ok l') : Flow l l' 0
  | increaseFrozen {l l' : T.Ledger} {r : T.Reason} {who : T.AccountId} {v : Nat}
      (h : T.asset.increaseFrozen l r who v = .ok l') : Flow l l' 0
  | thaw {l l' : T.Ledger} {r : T.Reason} {who : T.AccountId}
      (h : T.asset.thaw l r who = .ok l') : Flow l l' 0
  | trans {l l' l'' : T.Ledger} {a b : Int} (h : Flow l l' a) (h' : Flow l' l'' b) :
      Flow l l'' (a + b)

theorem Flow.of_eq {l l' : T.Ledger} {a b : Int} (h : Flow l l' a) (he : a = b) : Flow l l' b := he ▸ h

theorem ExactMoves.cash_of_flow (x : ExactMoves T) {l l' : T.Ledger} {a : Int} (h : Flow l l' a) :
    (x.cash l' : Int) = x.cash l + a := by
  induction h with
  | refl => simp
  | increaseBalance h =>
    have := x.cash_of_gain (x.increaseBalance h)
    omega
  | decreaseBalance h =>
    have := x.cash_of_loss (x.decreaseBalance h)
    omega
  | decreaseBalanceOnHold h =>
    have := x.cash_of_held_loss (x.decreaseBalanceOnHold h)
    omega
  | mintInto h =>
    have := x.cash_of_gain (x.mintInto h)
    omega
  | burnFrom h =>
    have := x.cash_of_loss (x.burnFrom h)
    omega
  | setFreeze h =>
    have := x.cash_of_same (x.setFreeze h)
    omega
  | increaseFrozen h =>
    have := x.cash_of_same (x.increaseFrozen h)
    omega
  | thaw h =>
    have := x.cash_of_same (x.thaw h)
    omega
  | trans h h' ih ih' => omega

theorem onLedger_eq_ok {s s' : State T} {op : T.Ledger → Except DispatchError T.Ledger}
    (h : s.onLedger op = .ok s') : ∃ l, op s.ledger = .ok l ∧ s' = { s with ledger := l } := by
  obtain ⟨l, hl, h⟩ := bind_eq_ok.mp h
  exact ⟨l, hl, (pure_eq_ok.mp h).symm⟩

section Cash

variable {s s' : State T} {who : T.AccountId} {v : Nat}

theorem increaseBalance_spec (h : s.increaseBalance who v = .ok s') :
    ∃ l, s' = { s with ledger := l } ∧ Flow s.ledger l v := by
  obtain ⟨l, hl, rfl⟩ := onLedger_eq_ok h
  exact ⟨l, rfl, .increaseBalance hl⟩

theorem mintInto_spec (h : s.mintInto who v = .ok s') :
    ∃ l, s' = { s with ledger := l } ∧ Flow s.ledger l v := by
  obtain ⟨l, hl, rfl⟩ := onLedger_eq_ok h
  exact ⟨l, rfl, .mintInto hl⟩

theorem decreaseBalance_spec (h : s.decreaseBalance who v = .ok s') :
    ∃ l, s' = { s with ledger := l } ∧ Flow s.ledger l (-v) := by
  obtain ⟨l, hl, rfl⟩ := onLedger_eq_ok h
  exact ⟨l, rfl, .decreaseBalance hl⟩

theorem burnFrom_spec (h : s.burnFrom who v = .ok s') :
    ∃ l, s' = { s with ledger := l } ∧ Flow s.ledger l (-v) := by
  obtain ⟨l, hl, rfl⟩ := onLedger_eq_ok h
  exact ⟨l, rfl, .burnFrom hl⟩

theorem decreaseBalanceOnHold_spec (h : s.decreaseBalanceOnHold who v = .ok s') :
    ∃ l, s' = { s with ledger := l } ∧ Flow s.ledger l (-v) := by
  obtain ⟨l, hl, rfl⟩ := onLedger_eq_ok h
  exact ⟨l, rfl, .decreaseBalanceOnHold hl⟩

theorem unlessZero_increase_spec (h : s.unlessZero v (s.increaseBalance who v) = .ok s') :
    ∃ l, s' = { s with ledger := l } ∧ Flow s.ledger l v := by
  unfold State.unlessZero at h
  split at h
  · rename_i hv
    cases h
    exact ⟨s.ledger, rfl, (Flow.refl _).of_eq (by omega)⟩
  · exact increaseBalance_spec h

end Cash

/-- The totals of the reasons, each weighted. -/
def totalReasons (w : T.Reason → Nat) (m : StorageMap T.Reason Nat) : Nat :=
  m.sum fun reason value => w reason * value

theorem totalReasons_set (w : T.Reason → Nat) (s : State T) (reason : T.Reason) (value : Nat) :
    totalReasons w (setTotalValue s reason value).reasonValue + w reason * getTotalValue s reason =
      totalReasons w s.reasonValue + w reason * value := by
  have h := StorageMap.sum_insert (fun reason value => w reason * value) s.reasonValue reason value
  have he : (s.reasonValue.get reason).elim 0 (fun value => w reason * value) =
      w reason * getTotalValue s reason := by
    unfold getTotalValue
    cases s.reasonValue.get reason <;> simp
  rw [he] at h
  exact h

theorem addToTotalValue_spec {s s' : State T} {reason : T.Reason} {v : Nat}
    (h : addToTotalValue s reason v = .ok s') :
    ∃ m, s' = { s with reasonValue := m } ∧
      ∀ w, totalReasons w m = totalReasons w s.reasonValue + w reason * v := by
  obtain ⟨total, ht, h⟩ := bind_eq_ok.mp h
  rw [okOr_eq_ok, checkedAdd_eq_some] at ht
  obtain rfl := pure_eq_ok.mp h
  refine ⟨_, rfl, fun w => ?_⟩
  have hs := totalReasons_set w s reason total
  have hv := congrArg (fun n => w reason * n) ht.1
  simp only [Nat.mul_add] at hv
  change totalReasons w (setTotalValue s reason total).reasonValue = _
  omega

theorem subFromTotalValue_spec {s s' : State T} {reason : T.Reason} {v : Nat}
    (h : subFromTotalValue s reason v = .ok s') :
    ∃ m, s' = { s with reasonValue := m } ∧
      ∀ w, totalReasons w m + w reason * v = totalReasons w s.reasonValue := by
  obtain ⟨total, ht, h⟩ := bind_eq_ok.mp h
  rw [okOr_eq_ok, checkedSub_eq_some] at ht
  obtain rfl := pure_eq_ok.mp h
  refine ⟨_, rfl, fun w => ?_⟩
  have hs := totalReasons_set w s reason total
  have hv := congrArg (fun n => w reason * n) ht.2
  simp only [Nat.mul_add] at hv
  change totalReasons w (setTotalValue s reason total).reasonValue + _ = _
  omega

theorem addAssetToReap_spec {s s' : State T} {v : Nat} (h : addAssetToReap s v = .ok s') :
    s' = { s with assetToReap := s.assetToReap + v } := by
  obtain ⟨total, ht, h⟩ := bind_eq_ok.mp h
  rw [okOr_eq_ok, checkedAdd_eq_some] at ht
  obtain rfl := pure_eq_ok.mp h
  rw [ht.1]

theorem addAssetToIssue_spec {s s' : State T} {v : Nat} (h : addAssetToIssue s v = .ok s') :
    s' = { s with assetToIssue := s.assetToIssue + v } := by
  obtain ⟨total, ht, h⟩ := bind_eq_ok.mp h
  rw [okOr_eq_ok, checkedAdd_eq_some] at ht
  obtain rfl := pure_eq_ok.mp h
  rw [ht.1]

/-- The withdrawal is paid in full; a gain lowers the issuance still outstanding and a
loss the reaping still outstanding. -/
theorem resolveImbalance_spec {s s' : State T} {who : T.AccountId}
    {d : AssetDelta} {paid : Nat} (h : resolveImbalance s who d = .ok (s', paid))
    (hd : d.withdraw ≤ T.share.maxAsset) :
    paid = d.withdraw ∧ ∃ l issue reap,
      s' = { s with ledger := l, assetToIssue := issue, assetToReap := reap } ∧
      Flow s.ledger l d.withdraw ∧
      issue + (d.withdraw - d.deposit) = s.assetToIssue ∧
      reap + (d.deposit - d.withdraw) = s.assetToReap := by
  unfold resolveImbalance at h
  dsimp only at h
  split at h
  · rename_i hlt
    obtain ⟨issue, hi, h⟩ := bind_eq_ok.mp h
    rw [okOr_eq_ok, checkedSub_eq_some] at hi
    obtain ⟨s1, h1, h⟩ := bind_eq_ok.mp h
    obtain ⟨s2, h2, h⟩ := bind_eq_ok.mp h
    simp only [pure_eq_ok, Prod.mk.injEq] at h
    obtain ⟨rfl, rfl⟩ := h
    obtain ⟨l1, rfl, hc1⟩ := unlessZero_increase_spec h1
    obtain ⟨l2, rfl, hc2⟩ := mintInto_spec h2
    refine ⟨?_, l2, issue, s.assetToReap, rfl, (hc1.trans hc2).of_eq ?_, ?_, ?_⟩
    · rw [saturatingAdd_of_le] <;> omega
    all_goals omega
  · split at h
    · rename_i heq
      obtain ⟨s1, h1, h⟩ := bind_eq_ok.mp h
      simp only [pure_eq_ok, Prod.mk.injEq] at h
      obtain ⟨rfl, rfl⟩ := h
      obtain ⟨l, rfl, hc⟩ := increaseBalance_spec h1
      exact ⟨rfl, l, s.assetToIssue, s.assetToReap, rfl, hc, by omega, by omega⟩
    · rename_i hge hne
      obtain ⟨reap, hr, h⟩ := bind_eq_ok.mp h
      rw [okOr_eq_ok, checkedSub_eq_some] at hr
      obtain ⟨s1, h1, h⟩ := bind_eq_ok.mp h
      obtain ⟨s2, h2, h⟩ := bind_eq_ok.mp h
      simp only [pure_eq_ok, Prod.mk.injEq] at h
      obtain ⟨rfl, rfl⟩ := h
      obtain ⟨l1, rfl, hc1⟩ := increaseBalance_spec h1
      rw [State.unlessZero, if_neg (by omega)] at h2
      obtain ⟨l2, rfl, hc2⟩ := burnFrom_spec h2
      refine ⟨by omega, l2, s.assetToIssue, reap, rfl, (hc1.trans hc2).of_eq ?_, ?_, ?_⟩
      all_goals omega

theorem deductBalance_spec {s s' : State T} {who : T.AccountId} {v actual : Nat}
    {q : Directive} (h : deductBalance s who v q = .ok (s', actual)) :
    ∃ l, s' = { s with ledger := l } ∧ Flow s.ledger l (-actual) := by
  unfold deductBalance at h
  dsimp only at h
  split at h
  · obtain ⟨s1, h1, h⟩ := bind_eq_ok.mp h
    simp only [pure_eq_ok, Prod.mk.injEq] at h
    obtain ⟨rfl, rfl⟩ := h
    exact decreaseBalanceOnHold_spec h1
  rename_i hres
  split at h
  · obtain ⟨_, -, h⟩ := bind_eq_ok.mp h
    cases h
  obtain ⟨total, ht, h⟩ := bind_eq_ok.mp h
  rw [okOr_eq_ok, checkedAdd_eq_some] at ht
  split at h
  · split at h
    · obtain ⟨_, -, h⟩ := bind_eq_ok.mp h
      cases h
    obtain ⟨s1, h1, h⟩ := bind_eq_ok.mp h
    obtain ⟨s2, h2, h⟩ := bind_eq_ok.mp h
    simp only [pure_eq_ok, Prod.mk.injEq] at h
    obtain ⟨rfl, rfl⟩ := h
    obtain ⟨l1, rfl, hc1⟩ := decreaseBalance_spec h1
    obtain ⟨l2, rfl, hc2⟩ := decreaseBalanceOnHold_spec h2
    exact ⟨l2, rfl, (hc1.trans hc2).of_eq (by omega)⟩
  · obtain ⟨s1, h1, h⟩ := bind_eq_ok.mp h
    obtain ⟨s2, h2, h⟩ := bind_eq_ok.mp h
    simp only [pure_eq_ok, Prod.mk.injEq] at h
    obtain ⟨rfl, rfl⟩ := h
    obtain ⟨l1, rfl, hc1⟩ := decreaseBalance_spec h1
    obtain ⟨l2, rfl, hc2⟩ := decreaseBalanceOnHold_spec h2
    exact ⟨l2, rfl, (hc1.trans hc2).of_eq (by omega)⟩

theorem deductFromImbalance_shape {s s' : State T} {d left payment : AssetDelta} {v : Nat}
    (h : deductFromImbalance s d v = .ok (s', left, payment)) : ∃ reap, s' = { s with assetToReap := reap } := by
  unfold deductFromImbalance at h
  dsimp only at h
  split at h
  · split at h
    · simp only [pure_eq_ok, Prod.mk.injEq] at h
      exact ⟨s.assetToReap, h.1.symm⟩
    split at h
    · simp only [pure_eq_ok, Prod.mk.injEq] at h
      exact ⟨s.assetToReap, h.1.symm⟩
    · obtain ⟨s₁, h₁, h⟩ := bind_eq_ok.mp h
      simp only [pure_eq_ok, Prod.mk.injEq] at h
      exact ⟨_, h.1.symm.trans (addAssetToReap_spec h₁)⟩
  · obtain ⟨s₁, h₁, h⟩ := bind_eq_ok.mp h
    simp only [pure_eq_ok, Prod.mk.injEq] at h
    exact ⟨_, h.1.symm.trans (addAssetToReap_spec h₁)⟩

/-- A payment split off an imbalance lowers its withdrawal by as much; what no reward
covers is booked as reaping still to be resolved. -/
theorem deductFromImbalance_spec {s s' : State T} {d d' payment : AssetDelta} {v : Nat}
    (h : deductFromImbalance s d v = .ok (s', d', payment)) (hv : v ≤ d.withdraw)
    (hd : d.withdraw ≤ T.share.maxAsset) :
    payment = { deposit := v, withdraw := v } ∧
      d' = { deposit := d.deposit, withdraw := d.withdraw - v } ∧
      s' = { s with assetToReap := s.assetToReap + (v - (d.withdraw - d.deposit)) } := by
  unfold deductFromImbalance at h
  dsimp only at h
  split at h
  · split at h
    · simp only [pure_eq_ok, Prod.mk.injEq] at h
      obtain ⟨rfl, rfl, rfl⟩ := h
      refine ⟨rfl, ?_, ?_⟩
      · rw [saturatingAdd_of_le (by omega)]
        congr 1
        omega
      · rw [Nat.sub_eq_zero_of_le (by omega)]
        rfl
    · split at h
      · simp only [pure_eq_ok, Prod.mk.injEq] at h
        obtain ⟨rfl, rfl, rfl⟩ := h
        refine ⟨rfl, ?_, ?_⟩
        · congr 1
          omega
        · rw [Nat.sub_eq_zero_of_le (by omega)]
          rfl
      · obtain ⟨s1, h1, h⟩ := bind_eq_ok.mp h
        simp only [pure_eq_ok, Prod.mk.injEq] at h
        obtain ⟨rfl, rfl, rfl⟩ := h
        refine ⟨rfl, ?_, addAssetToReap_spec h1⟩
        congr 1
        omega
  · obtain ⟨s1, h1, h⟩ := bind_eq_ok.mp h
    simp only [pure_eq_ok, Prod.mk.injEq] at h
    obtain ⟨rfl, rfl, rfl⟩ := h
    refine ⟨rfl, rfl, ?_⟩
    have hz : d.withdraw - d.deposit = 0 := by omega
    rw [addAssetToReap_spec h1, hz, Nat.sub_zero]

end FrameSuite
