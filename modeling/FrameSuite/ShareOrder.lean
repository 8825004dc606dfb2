import FrameSuite.ShareSolvency

/-! Receipts withdrawn back to back. What one receipt is paid depends on the price and
the drain point alone, which only the closing withdrawal changes, so the outcome is the
same in every order. -/

namespace FrameSuite

open ShareBalance

variable {C : ShareConfig}

/-- One attempted withdrawal; `paid` is absent when it was refused. -/
structure Attempt (C : ShareConfig) where
  receipt : Receipt C
  paid : Option Nat
  closes : Bool

/-- The withdrawals attempted in order and the balance they leave; a refused one changes nothing. -/
def withdrawAll (balance : VirtualBalance C) : List (Receipt C) → List (Attempt C) × VirtualBalance C
  | [] => ([], balance)
  | r :: rs =>
    match withdraw balance (some r) with
    | (.ok w, after) =>
      let rest := withdrawAll after rs
      (⟨r, some w, issuedShares after == 0⟩ :: rest.1, rest.2)
    | (.error _, _) =>
      let rest := withdrawAll balance rs
      (⟨r, none, false⟩ :: rest.1, rest.2)

def succeeded (log : List (Attempt C)) : List (Receipt C) :=
  (log.filter fun a => a.paid.isSome).map fun a => a.receipt

def totalPaid (log : List (Attempt C)) : Nat := (log.map fun a => a.paid.getD 0).sum

/-- Whether the price derivation of the receipt stays inside the carrier. -/
def redeemable (b : Balance C) (r : Receipt C) : Bool :=
  match derivedValue b r with
  | .ok _ => true
  | .error _ => false

def quote (b : Balance C) (r : Receipt C) : Nat :=
  match derivedValue b r with
  | .ok v => v
  | .error _ => 0

def totalQuote (b : Balance C) (rs : List (Receipt C)) : Nat := (rs.map (quote b)).sum

/-- The three fixed-point steps of a derived value. A drained receipt is priced by its
shares alone. -/
theorem derivedValue_eq_ok {b : Balance C} {r : Receipt C} {v : Nat} :
    derivedValue b r = .ok v ↔ ∃ value ratio final,
      (Fixed.saturatingFromInteger r.shares).checkedMul r.bias = some value ∧
      b.bias.checkedDiv (if r.checkpoint < b.drainpoint then Fixed.one else r.bias) = some ratio ∧
      (if r.checkpoint < b.drainpoint then Fixed.saturatingFromInteger r.shares
        else value).checkedMul ratio = some final ∧ final.toInteger = v := by
  unfold derivedValue
  cases (Fixed.saturatingFromInteger r.shares).checkedMul r.bias with
  | none => simp
  | some value =>
    simp only [decide_eq_true_eq, Option.some.injEq]
    generalize (if r.checkpoint < b.drainpoint then Fixed.one else r.bias) = price
    cases b.bias.checkedDiv price with
    | none => simp
    | some ratio =>
      simp only [Option.some.injEq]
      cases hf : (if r.checkpoint < b.drainpoint then Fixed.saturatingFromInteger r.shares
        else value).checkedMul ratio with
      | none => simp [hf]
      | some final => simp [hf]

theorem derivedValue_congr {b c : Balance C} (hb : c.bias = b.bias)
    (hd : c.drainpoint = b.drainpoint) : derivedValue c = derivedValue b := by
  funext r
  simp only [derivedValue, hb, hd]

theorem redeemable_congr {b c : Balance C} (h : derivedValue c = derivedValue b) :
    redeemable c = redeemable b := by
  funext r
  simp only [redeemable, h]

theorem quote_congr {b c : Balance C} (h : derivedValue c = derivedValue b) :
    quote c = quote b := by
  funext r
  simp only [quote, h]

@[simp] theorem succeeded_cons_some (r : Receipt C) (w : Nat) (c : Bool) (log : List (Attempt C)) :
    succeeded (⟨r, some w, c⟩ :: log) = r :: succeeded log := rfl

@[simp] theorem succeeded_cons_none (r : Receipt C) (c : Bool) (log : List (Attempt C)) :
    succeeded (⟨r, none, c⟩ :: log) = succeeded log := rfl

@[simp] theorem totalPaid_cons (a : Attempt C) (log : List (Attempt C)) :
    totalPaid (a :: log) = a.paid.getD 0 + totalPaid log := by
  simp [totalPaid]

/-- The outcome of a series of withdrawals, told from the balance it starts with. -/
structure WithdrawalOutcome (b : Balance C) (rs : List (Receipt C)) (log : List (Attempt C))
    (left : VirtualBalance C) : Prop where
  succeeded_eq : succeeded log = rs.filter (redeemable b)
  paid_eq : ∀ a ∈ log, a.closes = false → ∀ w, a.paid = some w → w = quote b a.receipt
  total_eq : totalPaid log + totalValue left = b.effective
  part : outstandingShares (rs.filter (redeemable b)) < b.issued →
    left = some { b with
      effective := b.effective - totalQuote b (rs.filter (redeemable b))
      issued := b.issued - outstandingShares (rs.filter (redeemable b)) }
  last : outstandingShares (rs.filter (redeemable b)) = b.issued → ∃ c, left = some c ∧ Closed c

theorem withdraw_error_of_not_redeemable {b : Balance C} {r : Receipt C}
    (h : redeemable b r = false) : ∃ e, withdraw (some b) (some r) = (.error e, some b) := by
  unfold redeemable at h
  cases hd : derivedValue b r with
  | ok v => simp [hd] at h
  | error e =>
    unfold withdraw
    simp only [hd]
    split
    · exact ⟨_, rfl⟩
    · exact ⟨_, rfl⟩

theorem derivedValue_of_redeemable {b : Balance C} {r : Receipt C} (h : redeemable b r = true) :
    derivedValue b r = .ok (quote b r) := by
  unfold redeemable at h
  unfold quote
  cases hd : derivedValue b r with
  | ok v => rfl
  | error e => simp [hd] at h

theorem outstandingShares_filter_le (p : Receipt C → Bool) (rs : List (Receipt C)) :
    outstandingShares (rs.filter p) ≤ outstandingShares rs :=
  ((List.filter_sublist).map _).sum_le_sum fun _ _ => Nat.zero_le _

theorem WithdrawalOutcome.nil {b : Balance C} (hs : Solvent b) :
    WithdrawalOutcome b [] [] (some b) := by
  refine ⟨rfl, by simp, by simp [totalPaid], fun _ => by simp [totalQuote], fun hz => ?_⟩
  obtain ⟨he, hb⟩ := hs.of_empty hz.symm
  exact ⟨b, rfl, he, hz.symm, hb⟩

theorem WithdrawalOutcome.refused {b : Balance C} {r : Receipt C} {rs : List (Receipt C)}
    {log : List (Attempt C)} {left : VirtualBalance C} (hr : redeemable b r = false)
    (h : WithdrawalOutcome b rs log left) :
    WithdrawalOutcome b (r :: rs) (⟨r, none, false⟩ :: log) left := by
  obtain ⟨hsu, hp, ht, hpart, hlast⟩ := h
  have hf : (r :: rs).filter (redeemable b) = rs.filter (redeemable b) := by simp [hr]
  refine ⟨by rw [hf, succeeded_cons_none, hsu], ?_, by simpa using ht, ?_, ?_⟩
  · intro a ha hc w hw
    rcases List.mem_cons.mp ha with rfl | ha
    · cases hw
    · exact hp a ha hc w hw
  · rw [hf]
    exact hpart
  · rw [hf]
    exact hlast

theorem WithdrawalOutcome.paid {b : Balance C} {r : Receipt C} {rs : List (Receipt C)}
    {log : List (Attempt C)} {left : VirtualBalance C} (hs : Solvent b)
    (hr : redeemable b r = true) (hlt : r.shares < b.issued)
    (h : WithdrawalOutcome { b with
      effective := b.effective - quote b r
      issued := b.issued - r.shares } rs log left) :
    WithdrawalOutcome b (r :: rs) (⟨r, some (quote b r), false⟩ :: log) left := by
  have hd : derivedValue { b with
      effective := b.effective - quote b r
      issued := b.issued - r.shares } = derivedValue b := derivedValue_congr rfl rfl
  have hle := (hs.derived_le hlt.le (derivedValue_of_redeemable hr)).1
  obtain ⟨hsu, hp, ht, hpart, hlast⟩ := h
  rw [redeemable_congr hd] at hsu hpart hlast
  rw [quote_congr hd] at hp
  have hf : (r :: rs).filter (redeemable b) = r :: rs.filter (redeemable b) := by simp [hr]
  dsimp only at ht hpart hlast
  refine ⟨by rw [hf, succeeded_cons_some, hsu], ?_, ?_, ?_, ?_⟩
  · intro a ha hc w hw
    rcases List.mem_cons.mp ha with rfl | ha
    · exact (Option.some.inj hw).symm
    · exact hp a ha hc w hw
  · simp only [totalPaid_cons, Option.getD_some]
    omega
  · rw [hf, outstandingShares_cons]
    intro hlt'
    rw [hpart (by omega)]
    simp only [totalQuote, quote_congr hd, List.map_cons, List.sum_cons, Nat.sub_sub]
  · rw [hf, outstandingShares_cons]
    intro heq
    exact hlast (by omega)

theorem WithdrawalOutcome.closing {b : Balance C} {r : Receipt C} {after : Balance C}
    (hr : redeemable b r = true) (heq : r.shares = b.issued) (ha : Closed after) :
    WithdrawalOutcome b [r] [⟨r, some b.effective, true⟩] (some after) := by
  have hf : [r].filter (redeemable b) = [r] := by simp [hr]
  refine ⟨by rw [hf]; rfl, by simp, by simp [totalPaid, ha.effective_eq], ?_, fun _ => ⟨after, rfl, ha⟩⟩
  intro hlt
  rw [hf, outstandingShares_cons, outstandingShares_nil] at hlt
  omega

theorem withdrawAll_outcome {b : Balance C} {rs : List (Receipt C)} (hs : Solvent b)
    (hle : outstandingShares rs ≤ b.issued) (hne : ∀ r ∈ rs, r.shares ≠ 0) :
    WithdrawalOutcome b rs (withdrawAll (some b) rs).1 (withdrawAll (some b) rs).2 := by
  induction rs generalizing b with
  | nil => exact WithdrawalOutcome.nil hs
  | cons r rs ih =>
    rw [outstandingShares_cons] at hle
    have hr := hne r (List.mem_cons_self ..)
    have htail : ∀ t ∈ rs, t.shares ≠ 0 := fun t ht => hne t (List.mem_cons_of_mem _ ht)
    cases hq : redeemable b r with
    | false =>
      obtain ⟨e, hw⟩ := withdraw_error_of_not_redeemable hq
      simp only [withdrawAll, hw]
      exact (ih hs (by omega) htail).refused hq
    | true =>
      obtain ⟨w, nb, hw⟩ := withdraw_isOk (by omega) hr (derivedValue_of_redeemable hq)
      obtain ⟨b', r', derived, after, hb', hr', rfl, hwd⟩ := withdraw_eq_ok hw
      obtain rfl := Option.some.inj hb'
      obtain rfl := Option.some.inj hr'
      simp only [withdrawAll, hw, issuedShares_some]
      have hderived : derived = quote b r :=
        Except.ok.inj (hwd.derived_eq.symm.trans (derivedValue_of_redeemable hq))
      rcases Nat.lt_or_eq_of_le hwd.shares_le with hlt | heq
      · obtain ⟨rfl, rfl⟩ := hwd.part_eq hs hlt
        subst hderived
        have hopen : (b.issued - r.shares == 0) = false := beq_eq_false_iff_ne.mpr (by omega)
        rw [hopen]
        exact (ih (hwd.solvent hs) (by dsimp only; omega) htail).paid hs hq hlt
      · obtain ⟨rfl, hc⟩ := hwd.last_eq hs heq
        have hnil : rs = [] := by
          cases rs with
          | nil => rfl
          | cons t rs =>
            have ht := htail t (List.mem_cons_self ..)
            rw [outstandingShares_cons] at hle
            omega
        subst hnil
        rw [hc.issued_eq]
        exact WithdrawalOutcome.closing hq heq hc

/-- The value, the issued shares and the price of a balance. -/
def standing (balance : VirtualBalance C) : Option (Nat × Nat × Fixed C.rational) :=
  balance.map fun b => (b.effective, b.issued, b.bias)

theorem WithdrawalOutcome.perm {b : Balance C} {rs ts : List (Receipt C)}
    {log log' : List (Attempt C)} {left left' : VirtualBalance C} (h : rs.Perm ts)
    (hle : outstandingShares rs ≤ b.issued) (hr : WithdrawalOutcome b rs log left)
    (ht : WithdrawalOutcome b ts log' left') :
    totalPaid log = totalPaid log' ∧ standing left = standing left' := by
  have hf := h.filter (redeemable b)
  have hsh := outstandingShares_perm hf
  have hquote : totalQuote b (rs.filter (redeemable b)) = totalQuote b (ts.filter (redeemable b)) :=
    (hf.map _).sum_eq
  have hfle := outstandingShares_filter_le (redeemable b) rs
  have htr := hr.total_eq
  have htt := ht.total_eq
  rcases Nat.lt_or_eq_of_le (hfle.trans hle) with hlt | heq
  · have hl : left = left' := by
      rw [hr.part hlt, ht.part (hsh ▸ hlt), hsh, hquote]
    subst hl
    exact ⟨by omega, rfl⟩
  · obtain ⟨c, rfl, hc⟩ := hr.last heq
    obtain ⟨c', rfl, hc'⟩ := ht.last (hsh ▸ heq)
    rw [totalValue_some, hc.effective_eq] at htr
    rw [totalValue_some, hc'.effective_eq] at htt
    refine ⟨by omega, ?_⟩
    simp only [standing, Option.map_some, hc.effective_eq, hc'.effective_eq, hc.issued_eq,
      hc'.issued_eq, hc.bias_eq, hc'.bias_eq]

theorem outstandingShares_subperm {rs ts : List (Receipt C)} (h : rs.Subperm ts) :
    outstandingShares rs ≤ outstandingShares ts := by
  obtain ⟨l, hl, hsub⟩ := h
  rw [← outstandingShares_perm hl]
  exact (hsub.map _).sum_le_sum fun _ _ => Nat.zero_le _

/-- Two orders of the same outstanding receipts succeed on the same receipts, pay each
receipt the same unless it closes the balance, pay the same in total and leave the same
value, shares and price. -/
theorem withdrawal_order_irrelevant (calls : List ShareCall) (rs ts : List (Receipt C))
    (hrs : rs.Subperm (Session.after calls : Session C).outstanding) (h : rs.Perm ts) :
    let balance := (Session.after calls : Session C).balance
    let first := withdrawAll balance rs
    let second := withdrawAll balance ts
    (succeeded first.1).Perm (succeeded second.1) ∧
      (∀ a ∈ first.1, ∀ a' ∈ second.1, a.receipt = a'.receipt → a.closes = false →
        a'.closes = false → ∀ w w', a.paid = some w → a'.paid = some w' → w = w') ∧
      totalPaid first.1 = totalPaid second.1 ∧
      standing first.2 = standing second.2 := by
  have hb := (Session.after_sound calls : (Session.after calls : Session C).Sound).backs
  cases hbal : (Session.after calls : Session C).balance with
  | none =>
    have hi := hb.issued_eq
    rw [hbal, issuedShares_none] at hi
    have hnil : rs = [] := by
      cases rs with
      | nil => rfl
      | cons r rs =>
        have hr := hrs.subset (List.mem_cons_self ..)
        have hle := le_outstandingShares hr
        exact absurd (by omega) (hb.shares_ne r hr)
    subst hnil
    rw [List.nil_perm.mp h]
    simp [withdrawAll]
  | some b =>
    have hs := hb.solvent b hbal
    have hle : outstandingShares rs ≤ b.issued := by
      have hi := hb.issued_eq
      rw [hbal, issuedShares_some] at hi
      exact hi ▸ outstandingShares_subperm hrs
    have hne : ∀ r ∈ rs, r.shares ≠ 0 := fun r hr => hb.shares_ne r (hrs.subset hr)
    have hfirst := withdrawAll_outcome hs hle hne
    have hsecond := withdrawAll_outcome hs (outstandingShares_perm h ▸ hle)
      fun r hr => hne r (h.mem_iff.mpr hr)
    refine ⟨?_, ?_, hfirst.perm h hle hsecond⟩
    · rw [hfirst.succeeded_eq, hsecond.succeeded_eq]
      exact h.filter _
    · intro a ha a' ha' heq hc hc' w w' hw hw'
      rw [hfirst.paid_eq a ha hc w hw, hsecond.paid_eq a' ha' hc' w' hw', heq]

theorem withdrawal_order_irrelevant_reverse :
    let s : Session runtimeShareConfig := Session.after [.deposit 30, .mint 10, .deposit 100, .reap 9]
    totalPaid (withdrawAll s.balance s.outstanding).1 =
        totalPaid (withdrawAll s.balance s.outstanding.reverse).1 ∧
      standing (withdrawAll s.balance s.outstanding).2 =
        standing (withdrawAll s.balance s.outstanding.reverse).2 :=
  (withdrawal_order_irrelevant [.deposit 30, .mint 10, .deposit 100, .reap 9] _ _
    (List.Subperm.refl _) (List.reverse_perm _).symm).2.2

end FrameSuite
