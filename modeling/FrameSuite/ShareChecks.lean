import FrameSuite.ShareSolvency

/-! The checks that stand before deposit, mint and reap, against the operations themselves,
and what a failed operation leaves behind. The checks never compute a price: what they
promise holds exactly when the price and the shares derived from it fit their carriers. -/

namespace FrameSuite

open ShareBalance

variable {C : ShareConfig}

namespace ShareBalance

/-- The inner value of the quotient from which a deposit takes its shares. -/
def shareQuotient (b : Balance C) (asset : Nat) : Nat :=
  (Fixed.saturatingFromInteger asset : Fixed C.rational).inner * C.rational.div / b.bias.inner

/-- At the current price the amount is worth at least one share, and the quotient and the
new total of shares fit. An empty balance issues shares one to one. -/
def SharesFit (b : Balance C) (asset : Nat) : Prop :=
  b.issued = 0 ∨ (C.rational.div ≤ shareQuotient b asset ∧ shareQuotient b asset ≤ C.rational.maxInner ∧
    b.issued + shareQuotient b asset / C.rational.div ≤ C.maxAsset)

instance (b : Balance C) (asset : Nat) : Decidable (SharesFit b asset) :=
  inferInstanceAs (Decidable (_ ∨ _))

/-- The price at which the balance would hold the value fits, and is zero only for no value. -/
def PriceFits (b : Balance C) (effective : Nat) : Prop :=
  effective * C.rational.div / b.issued ≤ C.rational.maxInner ∧
    (effective = 0 ∨ b.issued ≤ effective * C.rational.div)

instance (b : Balance C) (effective : Nat) : Decidable (PriceFits b effective) :=
  inferInstanceAs (Decidable (_ ∧ _))

theorem canDeposit_eq_ok {balance : VirtualBalance C} {asset : Nat} :
    canDeposit balance asset = .ok () ↔
      ∀ b, balance = some b → (b.bias.inner = 0 → b.issued = 0) ∧ b.effective + asset ≤ C.maxAsset := by
  cases balance with
  | none => simp [canDeposit]
  | some b =>
    by_cases hd : b.bias.inner = 0 ∧ b.issued ≠ 0
    · simp [canDeposit, hd]
    · by_cases he : C.maxAsset < b.effective + asset
      · have hle : ¬ b.effective + asset ≤ C.maxAsset := by omega
        simp [canDeposit, hd, he, hle]
      · have hle : b.effective + asset ≤ C.maxAsset := by omega
        have hi : b.bias.inner = 0 → b.issued = 0 := fun hz => not_not.mp fun hn => hd ⟨hz, hn⟩
        simpa [canDeposit, hd, he, hle] using hi

theorem canMint_eq_ok {balance : VirtualBalance C} {asset : Nat} :
    canMint balance asset = .ok () ↔
      asset ≠ 0 ∧ ∃ b, balance = some b ∧ b.issued ≠ 0 ∧ b.effective + asset ≤ C.maxAsset := by
  unfold canMint
  by_cases ha : asset = 0
  · simp [ha]
  · cases balance with
    | none => simp [ha]
    | some b =>
      by_cases hi : b.issued = 0
      · simp [ha, hi]
      · by_cases he : C.maxAsset < b.effective + asset
        · simp [ha, hi, he]
        · simpa [ha, hi, he] using Nat.le_of_not_lt he

theorem canReap_eq_ok {balance : VirtualBalance C} {asset : Nat} :
    canReap balance asset = .ok () ↔
      asset ≠ 0 ∧ ∃ b, balance = some b ∧ b.issued ≠ 0 ∧ asset ≤ b.effective := by
  unfold canReap
  by_cases ha : asset = 0
  · simp [ha]
  · cases balance with
    | none => simp [ha]
    | some b =>
      by_cases hi : b.issued = 0
      · simp [ha, hi]
      · by_cases he : b.effective < asset
        · simp [ha, hi, he]
        · simpa [ha, hi, he] using Nat.le_of_not_lt he

theorem deriveShares_eq_ok {b : Balance C} {asset shares : Nat} (hi : b.issued ≠ 0) (hb : b.bias.inner ≠ 0) :
    deriveShares b asset = .ok shares ↔
      shareQuotient b asset ≤ C.rational.maxInner ∧ shares = shareQuotient b asset / C.rational.div := by
  unfold deriveShares
  rw [if_neg hi]
  cases hd : (Fixed.saturatingFromInteger asset).checkedDiv b.bias with
  | none =>
    have hlt : C.rational.maxInner < shareQuotient b asset := by
      rw [Fixed.checkedDiv, if_neg hb, Fixed.ofInner?_eq_none] at hd
      exact hd
    simp only [reduceCtorEq, false_iff, not_and]
    omega
  | some q =>
    obtain ⟨-, hq⟩ := Fixed.checkedDiv_eq_some.mp hd
    change q.inner = shareQuotient b asset at hq
    have hle : shareQuotient b asset ≤ C.rational.maxInner := hq ▸ q.inner_le
    simp only [Except.ok.injEq, hle, true_and]
    rw [Fixed.toInteger, hq]
    exact eq_comm

/-- A deposit that passes its check goes through exactly when the amount is not zero and its shares fit. -/
theorem deposit_isOk_iff {balance : VirtualBalance C} {asset : Nat} (hs : Solvent (isFreshBalance balance))
    (ha : asset ≤ C.maxAsset) (hcan : canDeposit balance asset = .ok ()) :
    (∃ out nb, deposit balance asset = (.ok out, nb)) ↔
      asset ≠ 0 ∧ SharesFit (isFreshBalance balance) asset := by
  have hchecks : ((isFreshBalance balance).bias.inner = 0 → (isFreshBalance balance).issued = 0) ∧
      (isFreshBalance balance).effective + asset ≤ C.maxAsset := by
    cases balance with
    | none => exact ⟨fun _ => rfl, by simpa [isFreshBalance, initBalance] using ha⟩
    | some b => exact canDeposit_eq_ok.mp hcan b rfl
  obtain ⟨hdrained, heff⟩ := hchecks
  have hbias : (isFreshBalance balance).bias.inner ≠ 0 := by
    intro hz
    rw [(hs.of_empty (hdrained hz)).2, Fixed.one_inner] at hz
    exact C.rational.div_pos.ne' hz
  have hdiv := C.rational.div_pos
  constructor
  · rintro ⟨out, nb, h⟩
    obtain ⟨after, -, -, hd⟩ := deposit_eq_ok.mp h
    refine ⟨hd.asset_ne, ?_⟩
    by_cases hi : (isFreshBalance balance).issued = 0
    · exact Or.inl hi
    · obtain ⟨hq, hsh⟩ := (deriveShares_eq_ok hi hbias).mp hd.derived
      have hne := hd.shares_ne
      have hle := hd.issued_le
      rw [hsh] at hne hle
      exact Or.inr ⟨Nat.le_of_not_lt fun hlt => hne (Nat.div_eq_of_lt hlt), hq, hle⟩
  · rintro ⟨hne, hfit⟩
    have hshares : ∃ shares, deriveShares (isFreshBalance balance) asset = .ok shares ∧ shares ≠ 0 ∧
        (isFreshBalance balance).issued + shares ≤ C.maxAsset := by
      by_cases hi : (isFreshBalance balance).issued = 0
      · exact ⟨asset, by rw [deriveShares, if_pos hi], hne, by omega⟩
      · obtain ⟨hone, hq, hle⟩ := hfit.resolve_left hi
        exact ⟨_, (deriveShares_eq_ok hi hbias).mpr ⟨hq, rfl⟩, (Nat.div_pos hone hdiv).ne', hle⟩
    obtain ⟨shares, hder, hsne, hle⟩ := hshares
    let fresh := isFreshBalance balance
    exact ⟨(asset, ⟨asset, shares, fresh.bias, fresh.checkpoint⟩), _, deposit_eq_ok.mpr ⟨_, rfl, rfl,
      ⟨hne, hbias, hder, hsne, heff, hle, rfl, rfl, rfl, rfl⟩⟩⟩

/-- The operation moved the amount and left the balance with the value, the same shares and
the price they give, which is zero exactly when no value is left. -/
def Repriced (b : Balance C) (asset effective : Nat) (out : ShareOutcome C Nat) : Prop :=
  ∃ after, out = (.ok asset, some after) ∧ after.effective = effective ∧ after.issued = b.issued ∧
    after.bias.inner = effective * C.rational.div / b.issued ∧ (after.bias.inner = 0 ↔ effective = 0)

theorem price_eq_zero_iff {b : Balance C} {effective : Nat} (hi : b.issued ≠ 0) :
    (effective * C.rational.div / b.issued = 0 ↔ effective = 0) ↔
      (effective = 0 ∨ b.issued ≤ effective * C.rational.div) := by
  rw [Nat.div_eq_zero_iff, or_iff_right hi]
  by_cases he : effective = 0
  · simp [he, Nat.pos_of_ne_zero hi]
  · simp [he]

theorem repriced_mint_iff {b : Balance C} {asset : Nat} (hcan : canMint (some b) asset = .ok ()) :
    Repriced b asset (b.effective + asset) (mint (some b) asset) ↔ PriceFits b (b.effective + asset) := by
  obtain ⟨ha, b', hb, hi, hle⟩ := canMint_eq_ok.mp hcan
  obtain rfl := Option.some.inj hb
  constructor
  · rintro ⟨after, hout, -, -, hbias, hzero⟩
    rw [hbias, price_eq_zero_iff hi] at hzero
    exact ⟨hbias ▸ after.bias.inner_le, hzero⟩
  · rintro ⟨hfit, hzero⟩
    have hm : Minted b asset (balanceCheckpoint { b with
        effective := b.effective + asset
        bias := ⟨(b.effective + asset) * C.rational.div / b.issued, hfit⟩ }) := ⟨hi, hle, _, rfl, rfl⟩
    refine ⟨_, (mint_eq_ok ha).mpr ⟨b, _, rfl, rfl, rfl, hm⟩, by simp, by simp, by simp, ?_⟩
    simpa using (price_eq_zero_iff hi).mpr hzero

theorem repriced_reap_iff {b : Balance C} {asset : Nat} (hcan : canReap (some b) asset = .ok ()) :
    Repriced b asset (b.effective - asset) (reap (some b) asset) ↔ PriceFits b (b.effective - asset) := by
  obtain ⟨ha, b', hb, hi, hle⟩ := canReap_eq_ok.mp hcan
  obtain rfl := Option.some.inj hb
  constructor
  · rintro ⟨after, hout, -, -, hbias, hzero⟩
    rw [hbias, price_eq_zero_iff hi] at hzero
    exact ⟨hbias ▸ after.bias.inner_le, hzero⟩
  · rintro ⟨hfit, hzero⟩
    have hm : Reaped b asset (balanceCheckpoint { b with
        effective := b.effective - asset
        bias := ⟨(b.effective - asset) * C.rational.div / b.issued, hfit⟩ }) := ⟨hi, hle, _, rfl, rfl⟩
    refine ⟨_, (reap_eq_ok ha).mpr ⟨b, _, rfl, rfl, rfl, hm⟩, by simp, by simp, by simp, ?_⟩
    simpa using (price_eq_zero_iff hi).mpr hzero

/-- The operations that change a balance, with any input. -/
inductive ShareOperation (C : ShareConfig)
  | deposit (asset : Nat)
  | withdraw (receipt : VirtualReceipt C)
  | mint (asset : Nat)
  | reap (asset : Nat)
  | drain

/-- The amounts of the operation are values of the asset type. -/
def ShareOperation.Typed : ShareOperation C → Prop
  | .deposit asset => asset ≤ C.maxAsset
  | .mint asset => asset ≤ C.maxAsset
  | .reap asset => asset ≤ C.maxAsset
  | .withdraw _ => True
  | .drain => True

/-- An outcome that is an error comes with the balance as it was before the call. -/
def KeptOnError {α : Type} (balance : VirtualBalance C) (out : ShareOutcome C α) : Prop :=
  ∀ e after, out = (.error e, after) → after = balance

/-- The operation, called on the balance, either succeeds or leaves every field as it was. -/
def ShareOperation.Atomic (balance : VirtualBalance C) : ShareOperation C → Prop
  | .deposit asset => KeptOnError balance (ShareBalance.deposit balance asset)
  | .withdraw receipt => KeptOnError balance (ShareBalance.withdraw balance receipt)
  | .mint asset => KeptOnError balance (ShareBalance.mint balance asset)
  | .reap asset => KeptOnError balance (ShareBalance.reap balance asset)
  | .drain => KeptOnError balance (ShareBalance.drain balance)

/-- The operation reaps a part of the value and the price of the rest does not fit. -/
def ShareOperation.Misprices (balance : VirtualBalance C) : ShareOperation C → Prop
  | .reap asset => ∃ b, balance = some b ∧ asset ≠ 0 ∧ asset < b.effective ∧ b.issued ≠ 0 ∧
      C.rational.maxInner < (b.effective - asset) * C.rational.div / b.issued
  | _ => False

theorem keptOnError_ok {α : Type} {balance after : VirtualBalance C} {a : α} :
    KeptOnError balance (.ok a, after) := by
  intro e nb h
  cases h

theorem keptOnError_same {α : Type} {balance : VirtualBalance C} {e : ShareBalanceError} :
    KeptOnError balance ((.error e, balance) : ShareOutcome C α) := by
  intro e' nb h
  cases h
  rfl

/-- The first deposit initialises the balance before its other checks, none of which an amount
of the asset type fails there. -/
theorem deposit_kept {balance : VirtualBalance C} {asset : Nat} (ha : asset ≤ C.maxAsset) :
    KeptOnError balance (deposit balance asset) := by
  by_cases hz : asset = 0
  · rw [deposit, if_pos hz]
    exact keptOnError_same
  · cases balance with
    | none =>
      have hcan : canDeposit (none : VirtualBalance C) asset = .ok () := rfl
      obtain ⟨out, nb, h⟩ := (deposit_isOk_iff (solvent_isFreshBalance (by simp)) ha hcan).mpr ⟨hz, Or.inl rfl⟩
      rw [h]
      exact keptOnError_ok
    | some b =>
      intro e nb h
      rw [deposit, if_neg hz] at h
      dsimp only at h
      split at h
      · cases h
        rfl
      · split at h
        · cases h
          rfl
        · split_ifs at h <;> cases h <;> rfl

theorem withdraw_kept {balance : VirtualBalance C} {receipt : VirtualReceipt C} :
    KeptOnError balance (withdraw balance receipt) := by
  cases balance with
  | none => exact keptOnError_same
  | some b =>
    cases receipt with
    | none => exact keptOnError_same
    | some r =>
      intro e nb h
      unfold withdraw at h
      dsimp only at h
      split at h
      · cases h
        rfl
      · split at h
        · cases h
          rfl
        · split_ifs at h <;> cases h

theorem mint_kept {balance : VirtualBalance C} {asset : Nat} : KeptOnError balance (mint balance asset) := by
  intro e nb h
  unfold mint at h
  by_cases hz : asset = 0
  · simp [hz] at h
  · rw [if_neg hz] at h
    cases balance with
    | none =>
      cases h
      rfl
    | some b =>
      dsimp only at h
      split_ifs at h
      · cases h
        rfl
      · cases h
        rfl
      · split at h
        · cases h
          rfl
        · cases h

theorem reap_kept_iff {balance : VirtualBalance C} {asset : Nat} :
    KeptOnError balance (reap balance asset) ↔ ¬ (ShareOperation.reap asset).Misprices balance := by
  by_cases hz : asset = 0
  · rw [hz, reap_zero]
    simp [keptOnError_ok, ShareOperation.Misprices]
  cases balance with
  | none =>
    rw [reap, if_neg hz]
    simp [keptOnError_same, ShareOperation.Misprices]
  | some b =>
    rw [reap, if_neg hz]
    dsimp only
    by_cases hi : b.issued = 0
    · rw [if_pos hi]
      simp [keptOnError_same, ShareOperation.Misprices, hi]
    by_cases hlt : b.effective < asset
    · rw [if_neg hi, if_pos hlt]
      have hle : ¬ asset < b.effective := by omega
      simp [keptOnError_same, ShareOperation.Misprices, hle]
    rw [if_neg hi, if_neg hlt]
    by_cases hall : b.effective - asset = 0
    · rw [if_pos hall]
      have hle : ¬ asset < b.effective := by omega
      simp [keptOnError_ok, ShareOperation.Misprices, hle]
    rw [if_neg hall]
    have hpart : asset < b.effective := by omega
    cases hp : Fixed.checkedFromRational (F := C.rational) (b.effective - asset) b.issued with
    | some bias =>
      have hfit := (Fixed.checkedFromRational_eq_some.mp hp).2 ▸ bias.inner_le
      simp only [ShareOperation.Misprices, Option.some.injEq, exists_eq_left', hz, hpart, hi, ne_eq,
        not_false_eq_true, true_and, not_lt]
      exact ⟨fun _ => hfit, fun _ => keptOnError_ok⟩
    | none =>
      rw [Fixed.checkedFromRational, if_neg hi, Fixed.ofInner?_eq_none] at hp
      have hkeep : ¬ KeptOnError (some b) ((.error .inadequatePrecision,
          some { b with effective := b.effective - asset }) : ShareOutcome C Nat) := by
        intro hk
        have heq := congrArg Balance.effective (Option.some.inj (hk _ _ rfl))
        dsimp only at heq
        omega
      refine iff_of_false hkeep (not_not_intro ⟨b, rfl, hz, hpart, hi, hp⟩)

theorem drain_kept {balance : VirtualBalance C} : KeptOnError balance (drain balance) := by
  rw [drain, reap_kept_iff]
  rintro ⟨b, rfl, -, hlt, -⟩
  exact absurd hlt (lt_irrefl _)

end ShareBalance

/-- In every reachable balance a deposit whose check passed goes through exactly when the amount
is not zero and is worth at least one share, with shares that fit. -/
theorem canDeposit_sound_iff (calls : List ShareCall) {asset : Nat} (ha : asset ≤ C.maxAsset) :
    let balance := (Session.after calls : Session C).balance
    canDeposit balance asset = .ok () →
      ((∃ out after, deposit balance asset = (.ok out, after)) ↔
        asset ≠ 0 ∧ SharesFit (isFreshBalance balance) asset) := by
  intro balance hcan
  have hb := (Session.after_sound calls : (Session.after calls : Session C).Sound).backs
  exact deposit_isOk_iff (solvent_isFreshBalance hb.solvent) ha hcan

theorem canDeposit_sound_iff_sixty :
    let balance := (Session.after [.deposit 30, .mint 10] : Session runtimeShareConfig).balance
    (∃ out after, deposit balance 60 = (.ok out, after)) ↔ 60 ≠ 0 ∧ SharesFit (isFreshBalance balance) 60 :=
  canDeposit_sound_iff [.deposit 30, .mint 10] (by decide) (by decide +kernel)

/-- The check lets a deposit of nothing through; the deposit refuses it. -/
theorem canDeposit_accepts_zero :
    ¬∀ (calls : List ShareCall) (asset : Nat), asset ≤ runtimeShareConfig.maxAsset →
      canDeposit (Session.after calls : Session runtimeShareConfig).balance asset = .ok () →
      ∃ out after, deposit (Session.after calls : Session runtimeShareConfig).balance asset = (.ok out, after) := by
  intro h
  obtain ⟨out, after, hd⟩ := h [] 0 (Nat.zero_le _) rfl
  cases hd

/-- In every reachable balance a mint or a reap whose check passed has exactly its stated effect
when, and only when, the new price fits and is not rounded to zero. -/
theorem canMint_canReap_sound_iff (calls : List ShareCall) (asset : Nat) :
    let balance := (Session.after calls : Session C).balance
    (canMint balance asset = .ok () → ∃ b, balance = some b ∧
      (Repriced b asset (b.effective + asset) (mint balance asset) ↔ PriceFits b (b.effective + asset))) ∧
    (canReap balance asset = .ok () → ∃ b, balance = some b ∧ asset ≤ b.effective ∧
      (Repriced b asset (b.effective - asset) (reap balance asset) ↔ PriceFits b (b.effective - asset))) := by
  intro balance
  constructor
  · intro hcan
    obtain ⟨-, b, hb, -⟩ := canMint_eq_ok.mp hcan
    rw [hb] at hcan ⊢
    exact ⟨b, rfl, repriced_mint_iff hcan⟩
  · intro hcan
    obtain ⟨-, b, hb, -, hle⟩ := canReap_eq_ok.mp hcan
    rw [hb] at hcan ⊢
    exact ⟨b, rfl, hle, repriced_reap_iff hcan⟩

theorem canMint_canReap_sound_iff_six :
    let balance := (Session.after [.deposit 30] : Session runtimeShareConfig).balance
    ∃ b, balance = some b ∧ 6 ≤ b.effective ∧
      (Repriced b 6 (b.effective - 6) (reap balance 6) ↔ PriceFits b (b.effective - 6)) :=
  (canMint_canReap_sound_iff [.deposit 30] 6).2 (by decide +kernel)

/-- A mint can lift the price out of its carrier. A reap can leave one unit for more shares than the
price has decimals: the price is rounded to zero and the balance counts as drained. -/
theorem canMint_canReap_unsound :
    (¬∀ (calls : List ShareCall) (asset : Nat) (b : Balance runtimeShareConfig),
      (Session.after calls).balance = some b → canMint (some b) asset = .ok () →
      Repriced b asset (b.effective + asset) (mint (some b) asset)) ∧
    (¬∀ (calls : List ShareCall) (asset : Nat) (b : Balance runtimeShareConfig),
      (Session.after calls).balance = some b → canReap (some b) asset = .ok () →
      Repriced b asset (b.effective - asset) (reap (some b) asset)) := by
  constructor
  · intro h
    have hstate : (Session.after [.deposit 1]).balance =
        some (⟨1, 1, Fixed.one, 0, 0⟩ : Balance runtimeShareConfig) := by
      decide +kernel
    obtain ⟨after, hout, -⟩ := h _ (2 ^ 64) _ hstate (by decide +kernel)
    have hmint : mint (some (⟨1, 1, Fixed.one, 0, 0⟩ : Balance runtimeShareConfig)) (2 ^ 64) =
        (.error .inadequatePrecision, some ⟨1, 1, Fixed.one, 0, 0⟩) := by
      decide +kernel
    rw [hmint] at hout
    cases hout
  · intro h
    have hstate : (Session.after [.deposit (10 ^ 10)]).balance =
        some (⟨10 ^ 10, 10 ^ 10, Fixed.one, 0, 0⟩ : Balance runtimeShareConfig) := by
      decide +kernel
    obtain ⟨after, hout, -, -, -, hzero⟩ := h _ (10 ^ 10 - 1) _ hstate (by decide +kernel)
    have hreap : reap (some (⟨10 ^ 10, 10 ^ 10, Fixed.one, 0, 0⟩ : Balance runtimeShareConfig)) (10 ^ 10 - 1) =
        (.ok (10 ^ 10 - 1), some ⟨1, 10 ^ 10, Fixed.zero, 1, 1⟩) := by
      decide +kernel
    rw [hreap] at hout
    cases hout
    exact absurd (hzero.mp rfl) (by decide)

/-- Whatever the balance, an operation that fails leaves it as it was unless it is a reap of a
part of the value whose new price does not fit. -/
theorem operation_atomic_iff (balance : VirtualBalance C) {op : ShareOperation C} (hop : op.Typed) :
    op.Atomic balance ↔ ¬ op.Misprices balance := by
  cases op with
  | deposit asset => exact iff_of_true (deposit_kept hop) not_false
  | withdraw receipt => exact iff_of_true withdraw_kept not_false
  | mint asset => exact iff_of_true mint_kept not_false
  | reap asset => exact reap_kept_iff
  | drain => exact iff_of_true drain_kept not_false

theorem operation_atomic_iff_reap :
    (ShareOperation.reap 3).Atomic (Session.after [.deposit 30, .mint 10] : Session runtimeShareConfig).balance ↔
      ¬ (ShareOperation.reap 3).Misprices
        (Session.after [.deposit 30, .mint 10] : Session runtimeShareConfig).balance :=
  operation_atomic_iff _ (Nat.le_of_ble_eq_true rfl)

/-- Dust left by two withdrawals lifts the value per share over the largest price; a reap then
fails after it has taken its amount from the balance. -/
theorem reap_leaves_partial_write :
    ¬∀ (calls : List ShareCall) (op : ShareOperation runtimeShareConfig), op.Typed →
      op.Atomic (Session.after calls : Session runtimeShareConfig).balance := by
  intro h
  have hreap : reap (Session.after [.deposit 1, .deposit 1, .deposit 1, .mint 55340232218, .withdraw 0,
      .withdraw 0] : Session runtimeShareConfig).balance 1 =
        (.error .inadequatePrecision, some ⟨18446744074, 1, ⟨18446744073666666666, by decide⟩, 1, 0⟩) := by
    decide +kernel
  have hatomic := h [.deposit 1, .deposit 1, .deposit 1, .mint 55340232218, .withdraw 0, .withdraw 0]
    (.reap 1) (Nat.le_of_ble_eq_true rfl) _ _ hreap
  have hbefore : (Session.after [.deposit 1, .deposit 1, .deposit 1, .mint 55340232218, .withdraw 0,
      .withdraw 0] : Session runtimeShareConfig).balance =
        some ⟨18446744075, 1, ⟨18446744073666666666, by decide⟩, 1, 0⟩ := by
    decide +kernel
  rw [hbefore] at hatomic
  exact absurd hatomic (by decide +kernel)

end FrameSuite
