import FrameSuite.ShareBalance

/-! What a successful share-balance operation has checked and written, and the
solvency of a single balance: the price never promises more than the balance holds. -/

namespace FrameSuite

namespace ShareBalance

variable {C : ShareConfig}

/-- The checks and effects of a successful deposit. -/
structure Deposited (balance : VirtualBalance C) (asset : Nat) (r : Receipt C)
    (after : Balance C) : Prop where
  asset_ne : asset ≠ 0
  bias_ne : (isFreshBalance balance).bias.inner ≠ 0
  derived : deriveShares (isFreshBalance balance) asset = .ok r.shares
  shares_ne : r.shares ≠ 0
  effective_le : (isFreshBalance balance).effective + asset ≤ C.maxAsset
  issued_le : (isFreshBalance balance).issued + r.shares ≤ C.maxAsset
  principal_eq : r.principal = asset
  bias_eq : r.bias = (isFreshBalance balance).bias
  checkpoint_eq : r.checkpoint = (isFreshBalance balance).checkpoint
  after_eq : after = { isFreshBalance balance with
    effective := (isFreshBalance balance).effective + asset
    issued := (isFreshBalance balance).issued + r.shares }

theorem deposit_eq_ok {balance nb : VirtualBalance C} {asset : Nat} {out : Nat × Receipt C} :
    deposit balance asset = (.ok out, nb) ↔
      ∃ after, out.1 = asset ∧ nb = some after ∧ Deposited balance asset out.2 after := by
  constructor
  · intro h
    unfold deposit at h
    split at h
    · cases h
    rename_i ha
    dsimp only at h
    split at h
    · cases h
    rename_i hb
    split at h
    · cases h
    rename_i shares hs
    split at h
    · cases h
    rename_i hz
    split at h
    · cases h
    rename_i he
    split at h
    · cases h
    rename_i hi
    cases h
    exact ⟨_, rfl, rfl, ⟨ha, hb, hs, hz, Nat.le_of_not_lt he, Nat.le_of_not_lt hi,
      rfl, rfl, rfl, rfl⟩⟩
  · rintro ⟨after, hout, rfl, h⟩
    obtain ⟨asset', principal, shares, bias, checkpoint⟩ := out
    obtain ⟨ha, hb, hs, hz, he, hi, hp, hbias, hcp, haft⟩ := h
    dsimp only at *
    subst hout hp hbias hcp haft
    unfold deposit
    simp only [ha, hb, hs, hz, if_false, Nat.not_lt.mpr he, Nat.not_lt.mpr hi]

/-- The checks and effects of a mint of a nonzero amount. -/
structure Minted (b : Balance C) (asset : Nat) (after : Balance C) : Prop where
  issued_ne : b.issued ≠ 0
  effective_le : b.effective + asset ≤ C.maxAsset
  after_eq : ∃ bias : Fixed C.rational,
    bias.inner = (b.effective + asset) * C.rational.div / b.issued ∧
    after = balanceCheckpoint { b with effective := b.effective + asset, bias }

theorem mint_eq_ok {balance nb : VirtualBalance C} {asset w : Nat} (ha : asset ≠ 0) :
    mint balance asset = (.ok w, nb) ↔
      ∃ b after, w = asset ∧ balance = some b ∧ nb = some after ∧ Minted b asset after := by
  unfold mint
  rw [if_neg ha]
  cases balance with
  | none => simp
  | some b =>
    dsimp only
    constructor
    · intro h
      split at h
      · cases h
      rename_i hi
      split at h
      · cases h
      rename_i he
      split at h
      · cases h
      rename_i bias hb
      cases h
      exact ⟨b, _, rfl, rfl, rfl, hi, Nat.le_of_not_lt he, bias,
        (Fixed.checkedFromRational_eq_some.mp hb).2, rfl⟩
    · rintro ⟨b', after, rfl, hb', rfl, hi, he, bias, hb, rfl⟩
      obtain rfl := Option.some.inj hb'
      rw [if_neg hi, if_neg (Nat.not_lt.mpr he),
        Fixed.checkedFromRational_eq_some.mpr ⟨hi, hb⟩]

/-- The checks and effects of a reap of a nonzero amount. -/
structure Reaped (b : Balance C) (asset : Nat) (after : Balance C) : Prop where
  issued_ne : b.issued ≠ 0
  asset_le : asset ≤ b.effective
  after_eq : ∃ bias : Fixed C.rational,
    bias.inner = (b.effective - asset) * C.rational.div / b.issued ∧
    after = balanceCheckpoint { b with effective := b.effective - asset, bias }

theorem reap_eq_ok {balance nb : VirtualBalance C} {asset w : Nat} (ha : asset ≠ 0) :
    reap balance asset = (.ok w, nb) ↔
      ∃ b after, w = asset ∧ balance = some b ∧ nb = some after ∧ Reaped b asset after := by
  unfold reap
  rw [if_neg ha]
  cases balance with
  | none => simp
  | some b =>
    dsimp only
    constructor
    · intro h
      split at h
      · cases h
      rename_i hi
      split at h
      · cases h
      rename_i he
      split at h
      · rename_i hz
        cases h
        refine ⟨b, _, rfl, rfl, rfl, hi, Nat.le_of_not_lt he, Fixed.zero, ?_, rfl⟩
        simp [hz]
      · split at h
        · cases h
        rename_i bias hb
        cases h
        exact ⟨b, _, rfl, rfl, rfl, hi, Nat.le_of_not_lt he, bias,
          (Fixed.checkedFromRational_eq_some.mp hb).2, rfl⟩
    · rintro ⟨b', after, rfl, hb', rfl, hi, he, bias, hb, rfl⟩
      obtain rfl := Option.some.inj hb'
      rw [if_neg hi, if_neg (Nat.not_lt.mpr he)]
      by_cases hz : b.effective - w = 0
      · rw [if_pos hz]
        have hbias : bias = Fixed.zero := Fixed.ext (by simp [hb, hz])
        rw [hbias]
      · rw [if_neg hz, Fixed.checkedFromRational_eq_some.mpr ⟨hi, hb⟩]

/-- A balance without shares, as the last withdrawal leaves it. -/
structure Closed (after : Balance C) : Prop where
  effective_eq : after.effective = 0
  issued_eq : after.issued = 0
  bias_eq : after.bias = Fixed.one

/-- The checks and effects of a successful withdrawal. The last shares take the
whole balance with them. -/
structure Withdrawn (b : Balance C) (r : Receipt C) (derived w : Nat) (after : Balance C) :
    Prop where
  shares_le : r.shares ≤ b.issued
  shares_ne : r.shares ≠ 0
  derived_eq : derivedValue b r = .ok derived
  part : r.shares < b.issued → w = min derived b.effective ∧
    after = { b with effective := b.effective - w, issued := b.issued - r.shares }
  last : r.shares = b.issued → (w = b.effective ∨ w = min b.effective C.maxAsset) ∧
    (after = initBalance ∨ after = { b with effective := 0, issued := 0, bias := Fixed.one })

theorem withdraw_eq_ok {balance nb : VirtualBalance C} {receipt : VirtualReceipt C} {w : Nat}
    (h : withdraw balance receipt = (.ok w, nb)) :
    ∃ b r derived after, balance = some b ∧ receipt = some r ∧ nb = some after ∧
      Withdrawn b r derived w after := by
  cases balance with
  | none => cases h
  | some b =>
    cases receipt with
    | none => cases h
    | some r =>
      unfold withdraw at h
      dsimp only at h
      split at h
      · cases h
      rename_i hv
      simp only [not_or, not_lt] at hv
      obtain ⟨hle, hne, hi⟩ := hv
      split at h
      · cases h
      rename_i derived hd
      have hmin : min derived b.effective ≤ b.effective := Nat.min_le_right _ _
      split at h
      · rename_i hl
        have heq : r.shares = b.issued := by omega
        split at h
        · rename_i he
          cases h
          refine ⟨b, r, derived, _, rfl, rfl, rfl, hle, hne, hd, fun hlt => by omega,
            fun _ => ⟨Or.inr ?_, Or.inl rfl⟩⟩
          rw [Nat.add_sub_cancel' hmin]
        · rename_i he
          cases h
          have he : b.effective - min derived b.effective = 0 := not_not.mp he
          refine ⟨b, r, derived, _, rfl, rfl, rfl, hle, hne, hd, fun hlt => by omega,
            fun _ => ⟨Or.inl ?_, Or.inr ?_⟩⟩
          · omega
          · rw [he, heq, Nat.sub_self]
      · rename_i hl
        cases h
        exact ⟨b, r, derived, _, rfl, rfl, rfl, hle, hne, hd, fun _ => ⟨rfl, rfl⟩,
          fun heq => by omega⟩

theorem receiptActiveValue_eq_ok {balance : VirtualBalance C} {receipt : VirtualReceipt C} {v : Nat} :
    receiptActiveValue balance receipt = .ok v ↔ ∃ after, withdraw balance receipt = (.ok v, after) := by
  constructor
  · intro h
    unfold receiptActiveValue at h
    split at h
    · cases h
    · exact ⟨(withdraw balance receipt).2, Prod.ext h rfl⟩
  · rintro ⟨after, h⟩
    obtain ⟨b, r, derived, c, rfl, rfl, rfl, hw⟩ := withdraw_eq_ok h
    have hle := hw.shares_le
    have hne := hw.shares_ne
    have hv : ¬(b.issued < r.shares ∨ r.shares = 0 ∨ b.issued = 0) := by omega
    simp [receiptActiveValue, canWithdraw, hv, h]

theorem withdraw_isOk {b : Balance C} {r : Receipt C} {derived : Nat}
    (hle : r.shares ≤ b.issued) (hne : r.shares ≠ 0) (hd : derivedValue b r = .ok derived) :
    ∃ w nb, withdraw (some b) (some r) = (.ok w, nb) := by
  have hv : ¬(b.issued < r.shares ∨ r.shares = 0 ∨ b.issued = 0) := by omega
  unfold withdraw
  simp only [hv, if_false, hd]
  split
  · split
    · exact ⟨_, _, rfl⟩
    · exact ⟨_, _, rfl⟩
  · exact ⟨_, _, rfl⟩

theorem derivedValue_le {b : Balance C} {r : Receipt C} {v : Nat}
    (h : derivedValue b r = .ok v) : v * C.rational.div ≤ r.shares * b.bias.inner := by
  have hstep {x s p : Fixed C.rational} (hx : x.inner ≤ r.shares * C.rational.div)
      (hp : p.inner * C.rational.div ≤ x.inner * s.inner) (hs : s = b.bias) :
      p.toInteger * C.rational.div ≤ r.shares * b.bias.inner := by
    subst hs
    refine Nat.le_of_mul_le_mul_right ?_ C.rational.div_pos
    calc p.toInteger * C.rational.div * C.rational.div
        ≤ p.inner * C.rational.div := Nat.mul_le_mul_right _ p.toInteger_mul_le
      _ ≤ x.inner * b.bias.inner := hp
      _ ≤ r.shares * C.rational.div * b.bias.inner := Nat.mul_le_mul_right _ hx
      _ = r.shares * b.bias.inner * C.rational.div := by ring
  have hsat := Fixed.saturatingFromInteger_le (F := C.rational) r.shares
  unfold derivedValue at h
  cases hm : (Fixed.saturatingFromInteger r.shares).checkedMul r.bias with
  | none => simp [hm] at h
  | some value =>
    simp only [hm] at h
    by_cases hd : r.checkpoint < b.drainpoint
    · simp only [hd, decide_true, if_true] at h
      split at h
      · cases h
      rename_i ratio hq
      split at h
      · cases h
      rename_i final hf
      cases h
      exact hstep hsat (Fixed.checkedMul_ratio_le (Fixed.checkedMul_one _) hq hf) rfl
    · simp only [hd, decide_false, Bool.false_eq_true, if_false] at h
      split at h
      · cases h
      rename_i ratio hq
      split at h
      · cases h
      rename_i final hf
      cases h
      exact hstep hsat (Fixed.checkedMul_ratio_le hm hq hf) rfl

/-- The price of a solvent balance never promises more than `effective`. -/
structure Solvent (b : Balance C) : Prop where
  bias_mul_le : b.bias.inner * b.issued ≤ b.effective * C.rational.div
  of_empty : b.issued = 0 → b.effective = 0 ∧ b.bias = Fixed.one
  drainpoint_le : b.drainpoint ≤ b.checkpoint
  checkpoint_le : b.checkpoint ≤ C.maxTime
  effective_le : b.effective ≤ C.maxAsset

theorem solvent_initBalance : Solvent (initBalance : Balance C) := by
  constructor <;> simp [initBalance]

theorem solvent_isFreshBalance {balance : VirtualBalance C}
    (h : ∀ b, balance = some b → Solvent b) : Solvent (isFreshBalance balance) := by
  cases balance with
  | none => exact solvent_initBalance
  | some b => exact h b rfl

theorem deriveShares_mul_le {b : Balance C} {asset shares : Nat} (hs : Solvent b)
    (h : deriveShares b asset = .ok shares) :
    b.bias.inner * shares ≤ asset * C.rational.div := by
  unfold deriveShares at h
  split at h
  · rename_i hi
    cases h
    rw [(hs.of_empty hi).2, Fixed.one_inner, Nat.mul_comm]
  · cases hd : (Fixed.saturatingFromInteger asset).checkedDiv b.bias with
    | none => simp [hd] at h
    | some q =>
      simp only [hd, Except.ok.injEq] at h
      obtain ⟨hb, hq⟩ := Fixed.checkedDiv_eq_some.mp hd
      have hqb : q.inner * b.bias.inner ≤
          (Fixed.saturatingFromInteger asset : Fixed C.rational).inner * C.rational.div :=
        hq ▸ Nat.div_mul_le_self _ _
      have hsat := Fixed.saturatingFromInteger_le (F := C.rational) asset
      refine Nat.le_of_mul_le_mul_right ?_ C.rational.div_pos
      calc b.bias.inner * shares * C.rational.div
          = b.bias.inner * (q.toInteger * C.rational.div) := by rw [h, Nat.mul_assoc]
        _ ≤ b.bias.inner * q.inner := Nat.mul_le_mul_left _ q.toInteger_mul_le
        _ = q.inner * b.bias.inner := Nat.mul_comm _ _
        _ ≤ _ := hqb
        _ ≤ asset * C.rational.div * C.rational.div := Nat.mul_le_mul_right _ hsat

theorem Deposited.solvent {balance : VirtualBalance C} {asset : Nat} {r : Receipt C}
    {after : Balance C} (h : Deposited balance asset r after)
    (hs : Solvent (isFreshBalance balance)) : Solvent after := by
  have hsh := deriveShares_mul_le hs h.derived
  obtain ⟨hb, he, hd, hc, hm⟩ := hs
  have hne := h.shares_ne
  have hle := h.effective_le
  rw [h.after_eq]
  refine ⟨?_, fun hz => ?_, hd, hc, hle⟩
  · dsimp only
    rw [Nat.mul_add, Nat.add_mul]
    exact Nat.add_le_add hb hsh
  · dsimp only at hz
    omega

theorem balanceCheckpoint_solvent {b : Balance C} (hi : b.issued ≠ 0)
    (hb : b.bias.inner * b.issued ≤ b.effective * C.rational.div)
    (hd : b.drainpoint ≤ b.checkpoint) (hc : b.checkpoint ≤ C.maxTime)
    (he : b.effective ≤ C.maxAsset) : Solvent (balanceCheckpoint b) := by
  unfold balanceCheckpoint
  split
  · refine ⟨hb, fun hz => absurd hz hi, le_refl _, Nat.min_le_right _ _, he⟩
  · refine ⟨hb, fun hz => absurd hz hi, ?_, Nat.min_le_right _ _, he⟩
    dsimp only
    omega

theorem Minted.solvent {b after : Balance C} {asset : Nat} (h : Minted b asset after)
    (hs : Solvent b) : Solvent after := by
  obtain ⟨bias, hb, rfl⟩ := h.after_eq
  refine balanceCheckpoint_solvent h.issued_ne ?_ hs.drainpoint_le hs.checkpoint_le h.effective_le
  dsimp only
  rw [hb]
  exact Nat.div_mul_le_self _ _

theorem Reaped.solvent {b after : Balance C} {asset : Nat} (h : Reaped b asset after)
    (hs : Solvent b) : Solvent after := by
  obtain ⟨bias, hb, rfl⟩ := h.after_eq
  have he := hs.effective_le
  refine balanceCheckpoint_solvent h.issued_ne ?_ hs.drainpoint_le hs.checkpoint_le ?_
  · dsimp only
    rw [hb]
    exact Nat.div_mul_le_self _ _
  · dsimp only
    omega

theorem Minted.totals {b after : Balance C} {asset : Nat} (h : Minted b asset after) :
    after.effective = b.effective + asset ∧ after.issued = b.issued := by
  obtain ⟨bias, -, rfl⟩ := h.after_eq
  simp

theorem Reaped.totals {b after : Balance C} {asset : Nat} (h : Reaped b asset after) :
    after.effective = b.effective - asset ∧ after.issued = b.issued := by
  obtain ⟨bias, -, rfl⟩ := h.after_eq
  simp

theorem Solvent.derived_le {b : Balance C} {r : Receipt C} {v : Nat} (hs : Solvent b)
    (hle : r.shares ≤ b.issued) (h : derivedValue b r = .ok v) :
    v ≤ b.effective ∧
      b.bias.inner * (b.issued - r.shares) ≤ (b.effective - v) * C.rational.div := by
  have hv := derivedValue_le h
  have hb := hs.bias_mul_le
  have hsplit : b.bias.inner * (b.issued - r.shares) + r.shares * b.bias.inner =
      b.bias.inner * b.issued := by
    rw [Nat.mul_comm r.shares, ← Nat.mul_add, Nat.sub_add_cancel hle]
  have hve : v * C.rational.div ≤ b.effective * C.rational.div := by omega
  refine ⟨Nat.le_of_mul_le_mul_right hve C.rational.div_pos, ?_⟩
  rw [Nat.sub_mul]
  omega

theorem Withdrawn.part_eq {b : Balance C} {r : Receipt C} {derived w : Nat} {after : Balance C}
    (h : Withdrawn b r derived w after) (hs : Solvent b) (hlt : r.shares < b.issued) :
    w = derived ∧
      after = { b with effective := b.effective - derived, issued := b.issued - r.shares } := by
  obtain ⟨hw, ha⟩ := h.part hlt
  have hle := (hs.derived_le h.shares_le h.derived_eq).1
  have hwd : w = derived := by rw [hw, Nat.min_eq_left hle]
  exact ⟨hwd, hwd ▸ ha⟩

theorem Withdrawn.last_eq {b : Balance C} {r : Receipt C} {derived w : Nat} {after : Balance C}
    (h : Withdrawn b r derived w after) (hs : Solvent b) (heq : r.shares = b.issued) :
    w = b.effective ∧ Closed after := by
  obtain ⟨hw, ha⟩ := h.last heq
  refine ⟨?_, ?_⟩
  · rcases hw with hw | hw
    · exact hw
    · rw [hw, Nat.min_eq_left hs.effective_le]
  · rcases ha with rfl | rfl <;> exact ⟨rfl, rfl, rfl⟩

theorem Withdrawn.solvent {b : Balance C} {r : Receipt C} {derived w : Nat} {after : Balance C}
    (h : Withdrawn b r derived w after) (hs : Solvent b) : Solvent after := by
  have hm := hs.effective_le
  rcases Nat.lt_or_eq_of_le h.shares_le with hlt | heq
  · obtain ⟨-, rfl⟩ := h.part_eq hs hlt
    refine ⟨(hs.derived_le h.shares_le h.derived_eq).2, fun hz => ?_, hs.drainpoint_le,
      hs.checkpoint_le, ?_⟩ <;> dsimp only at * <;> omega
  · rcases (h.last heq).2 with rfl | rfl
    · exact solvent_initBalance
    · exact ⟨by simp, fun _ => ⟨rfl, rfl⟩, hs.drainpoint_le, hs.checkpoint_le, Nat.zero_le _⟩

theorem Withdrawn.effective_add {b : Balance C} {r : Receipt C} {derived w : Nat}
    {after : Balance C} (h : Withdrawn b r derived w after) (hs : Solvent b) :
    after.effective + w = b.effective ∧ after.issued + r.shares = b.issued := by
  rcases Nat.lt_or_eq_of_le h.shares_le with hlt | heq
  · obtain ⟨rfl, rfl⟩ := h.part_eq hs hlt
    have hle := (hs.derived_le h.shares_le h.derived_eq).1
    dsimp only
    omega
  · obtain ⟨rfl, ha⟩ := h.last_eq hs heq
    rw [ha.effective_eq, ha.issued_eq]
    omega

end ShareBalance

end FrameSuite
