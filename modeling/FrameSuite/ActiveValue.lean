import FrameSuite.ShareOrder
import FrameSuite.Holdings

/-! What receipts are paid at the current price. It follows the price, deposits by others
never raise it, and withdrawals by others never lower it. -/

namespace FrameSuite

open ShareBalance

variable {C : ShareConfig}

theorem Fixed.checkedDiv_mono {F : FixedFormat} {x y d p q : Fixed F} (h : x.inner ≤ y.inner)
    (hp : x.checkedDiv d = some p) (hq : y.checkedDiv d = some q) : p.inner ≤ q.inner := by
  rw [(Fixed.checkedDiv_eq_some.mp hp).2, (Fixed.checkedDiv_eq_some.mp hq).2]
  exact Nat.div_le_div_right (Nat.mul_le_mul_right _ h)

theorem Fixed.checkedMul_mono {F : FixedFormat} {x y z p q : Fixed F} (h : y.inner ≤ z.inner)
    (hp : x.checkedMul y = some p) (hq : x.checkedMul z = some q) : p.inner ≤ q.inner := by
  rw [Fixed.checkedMul_eq_some.mp hp, Fixed.checkedMul_eq_some.mp hq]
  exact Nat.div_le_div_right (Nat.mul_le_mul_left _ h)

theorem derivedValue_mono {b c : Balance C} {r : Receipt C} {v w : Nat}
    (hb : b.bias.inner ≤ c.bias.inner)
    (hd : b.bias.inner ≠ 0 → c.bias.inner ≠ 0 → c.drainpoint = b.drainpoint)
    (hv : derivedValue b r = .ok v) (hw : derivedValue c r = .ok w) : v ≤ w := by
  by_cases hz : b.bias.inner = 0
  · have hle := derivedValue_le hv
    rw [hz, Nat.mul_zero] at hle
    have : v = 0 := by
      rcases Nat.mul_eq_zero.mp (Nat.le_zero.mp hle) with h | h
      · exact h
      · exact absurd h C.rational.div_pos.ne'
    omega
  · have hdr := hd hz (by omega)
    obtain ⟨value, ratio, final, hm, hq, hf, rfl⟩ := derivedValue_eq_ok.mp hv
    obtain ⟨value', ratio', final', hm', hq', hf', rfl⟩ := derivedValue_eq_ok.mp hw
    obtain rfl := Option.some.inj (hm.symm.trans hm')
    rw [hdr] at hq' hf'
    exact Nat.div_le_div_right (Fixed.checkedMul_mono (Fixed.checkedDiv_mono hb hq hq') hf hf')

theorem quote_mono {b c : Balance C} {r : Receipt C} (hb : b.bias.inner ≤ c.bias.inner)
    (hd : b.bias.inner ≠ 0 → c.bias.inner ≠ 0 → c.drainpoint = b.drainpoint)
    (hr : redeemable c r = true) : quote b r ≤ quote c r := by
  cases hq : redeemable b r with
  | true =>
    exact derivedValue_mono hb hd (derivedValue_of_redeemable hq) (derivedValue_of_redeemable hr)
  | false =>
    have hz : quote b r = 0 := by
      unfold redeemable at hq
      unfold quote
      cases hv : derivedValue b r with
      | ok v => simp [hv] at hq
      | error e => rfl
    omega

theorem quote_mul_le (b : Balance C) (r : Receipt C) :
    quote b r * C.rational.div ≤ r.shares * b.bias.inner := by
  unfold quote
  cases hd : derivedValue b r with
  | ok v => exact derivedValue_le hd
  | error e => simp

/-- The receipt can be withdrawn at the current price. -/
structure Active (b : Balance C) (r : Receipt C) : Prop where
  shares_ne : r.shares ≠ 0
  shares_le : r.shares ≤ b.issued
  redeemable : redeemable b r = true

theorem active_iff {balance : VirtualBalance C} {receipt : VirtualReceipt C} :
    (receiptActiveValue balance receipt).isOk = true ↔
      ∃ b r, balance = some b ∧ receipt = some r ∧ Active b r := by
  constructor
  · intro h
    cases hv : receiptActiveValue balance receipt with
    | error e =>
      rw [hv] at h
      cases h
    | ok v =>
      obtain ⟨after, hw⟩ := receiptActiveValue_eq_ok.mp hv
      obtain ⟨b, r, derived, c, rfl, rfl, -, hwd⟩ := withdraw_eq_ok hw
      exact ⟨b, r, rfl, rfl, hwd.shares_ne, hwd.shares_le, by simp [redeemable, hwd.derived_eq]⟩
  · rintro ⟨b, r, rfl, rfl, hne, hle, hr⟩
    obtain ⟨w, nb, hw⟩ := withdraw_isOk hle hne (derivedValue_of_redeemable hr)
    rw [receiptActiveValue_eq_ok.mpr ⟨nb, hw⟩]
    rfl

namespace Active

variable {b : Balance C} {r : Receipt C}

theorem withdraws (h : Active b r) : ∃ w after, withdraw (some b) (some r) = (.ok w, some after) ∧
    activeClaim (some b) r = w ∧ Withdrawn b r (quote b r) w after := by
  have hd := derivedValue_of_redeemable h.redeemable
  obtain ⟨w, nb, hw⟩ := withdraw_isOk h.shares_le h.shares_ne hd
  obtain ⟨b', r', derived, after, hb, hr, rfl, hwd⟩ := withdraw_eq_ok hw
  obtain rfl := Option.some.inj hb
  obtain rfl := Option.some.inj hr
  obtain rfl : derived = quote b r := Except.ok.inj (hwd.derived_eq.symm.trans hd)
  refine ⟨w, after, hw, ?_, hwd⟩
  rw [activeClaim, receiptActiveValue_eq_ok.mpr ⟨_, hw⟩]

theorem claim_part (h : Active b r) (hs : Solvent b) (hlt : r.shares < b.issued) :
    activeClaim (some b) r = quote b r := by
  obtain ⟨w, after, -, hw, hwd⟩ := h.withdraws
  rw [hw, (hwd.part_eq hs hlt).1]

theorem claim_last (h : Active b r) (hs : Solvent b) (heq : r.shares = b.issued) :
    activeClaim (some b) r = b.effective := by
  obtain ⟨w, after, -, hw, hwd⟩ := h.withdraws
  rw [hw, (hwd.last_eq hs heq).1]

theorem quote_le_claim (h : Active b r) (hs : Solvent b) : quote b r ≤ activeClaim (some b) r := by
  rcases Nat.lt_or_eq_of_le h.shares_le with hlt | heq
  · rw [h.claim_part hs hlt]
  · rw [h.claim_last hs heq]
    exact (hs.derived_le h.shares_le (derivedValue_of_redeemable h.redeemable)).1

theorem claim_le (h : Active b r) (hs : Solvent b) : activeClaim (some b) r ≤ b.effective := by
  rcases Nat.lt_or_eq_of_le h.shares_le with hlt | heq
  · rw [h.claim_part hs hlt]
    exact (hs.derived_le h.shares_le (derivedValue_of_redeemable h.redeemable)).1
  · rw [h.claim_last hs heq]

theorem claim_le_of_issue {c : Balance C} (h : Active b r) (hs : Solvent b) (h' : Active c r)
    (hs' : Solvent c) (hq : quote c r = quote b r) (hlt : r.shares < c.issued) :
    activeClaim (some c) r ≤ activeClaim (some b) r := by
  rw [h'.claim_part hs' hlt, hq]
  exact h.quote_le_claim hs

/-- Shares taken back from others at an unchanged price leave a receipt at least what it had. -/
theorem le_claim_of_redeem {c : Balance C} (h : Active b r) (hs : Solvent b) (h' : Active c r)
    (hs' : Solvent c) (hq : quote c r = quote b r) (hlt : r.shares < b.issued) :
    activeClaim (some b) r ≤ activeClaim (some c) r := by
  rw [h.claim_part hs hlt, ← hq]
  exact h'.quote_le_claim hs'

end Active

theorem balanceCheckpoint_drainpoint {b : Balance C} (h : b.bias.inner ≠ 0) :
    (balanceCheckpoint b).drainpoint = b.drainpoint := by
  unfold balanceCheckpoint
  rw [if_neg h]

theorem ShareBalance.Minted.claim_le {b after : Balance C} {asset : Nat} {r : Receipt C}
    (h : Minted b asset after) (hs : Solvent b) (hr : Active b r) (hr' : Active after r) :
    activeClaim (some b) r ≤ activeClaim (some after) r := by
  have hs' := h.solvent hs
  obtain ⟨heff, hiss⟩ := h.totals
  obtain ⟨bias, hbias, rfl⟩ := h.after_eq
  rcases Nat.lt_or_eq_of_le hr.shares_le with hlt | heq
  · rw [hr.claim_part hs hlt, hr'.claim_part hs' (hlt.trans_eq hiss.symm)]
    refine quote_mono ?_ (fun _ hz => ?_) hr'.redeemable
    · rw [balanceCheckpoint_bias]
      dsimp only
      rw [hbias, Nat.le_div_iff_mul_le (Nat.pos_of_ne_zero h.issued_ne)]
      exact hs.bias_mul_le.trans (Nat.mul_le_mul_right _ (Nat.le_add_right _ _))
    · rw [balanceCheckpoint_bias] at hz
      exact balanceCheckpoint_drainpoint hz
  · rw [hr.claim_last hs heq, hr'.claim_last hs' (heq.trans hiss.symm), heff]
    omega

theorem ShareBalance.Reaped.claim_mono {b after : Balance C} {asset : Nat}
    (h : Reaped b asset after) (hs : Solvent b) :
    (∀ r, Active b r → Active after r → activeClaim (some after) r ≤ activeClaim (some b) r) ∨
    (∀ r, Active b r → Active after r → r.shares < b.issued →
      activeClaim (some b) r ≤ activeClaim (some after) r) := by
  have hs' := h.solvent hs
  obtain ⟨heff, hiss⟩ := h.totals
  obtain ⟨bias, hbias, rfl⟩ := h.after_eq
  have hdr (hz : bias.inner ≠ 0) :
      (balanceCheckpoint { b with effective := b.effective - asset, bias }).drainpoint = b.drainpoint :=
    balanceCheckpoint_drainpoint hz
  rcases Nat.le_total bias.inner b.bias.inner with hle | hle
  · left
    intro r hr hr'
    rcases Nat.lt_or_eq_of_le hr.shares_le with hlt | heq
    · rw [hr.claim_part hs hlt, hr'.claim_part hs' (hlt.trans_eq hiss.symm)]
      refine quote_mono (by simpa using hle) (fun hz _ => ?_) hr.redeemable
      rw [balanceCheckpoint_bias] at hz
      exact (hdr hz).symm
    · rw [hr.claim_last hs heq, hr'.claim_last hs' (heq.trans hiss.symm), heff]
      omega
  · right
    intro r hr hr' hlt
    rw [hr.claim_part hs hlt, hr'.claim_part hs' (hlt.trans_eq hiss.symm)]
    refine quote_mono (by simpa using hle) (fun _ hz => ?_) hr'.redeemable
    rw [balanceCheckpoint_bias] at hz
    exact hdr hz

end FrameSuite
