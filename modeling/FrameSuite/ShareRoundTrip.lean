import FrameSuite.ShareSolvency

/-! A deposit followed by the withdrawal of its receipt, with only other deposits and
withdrawals in between. The price does not move, so a representable amount comes back
up to the rounding of one share. -/

namespace FrameSuite

open ShareBalance

variable {C : ShareConfig}

/-- The calls that leave the price as it is. -/
def ShareCall.isTrade : ShareCall → Bool
  | .deposit _ => true
  | .withdraw _ => true
  | .mint _ => false
  | .reap _ => false
  | .drain => false

/-- Withdrawing the receipt pays the deposited amount up to the price of one share, and
no more unless the receipt holds all the shares. -/
def ReturnsDeposit (balance : VirtualBalance C) (r : Receipt C) (asset : Nat) : Prop :=
  ∃ w after, withdraw balance (some r) = (.ok w, after) ∧ asset ≤ w + r.bias.ceil ∧
    (r.shares ≠ issuedShares balance → w ≤ asset)

/-- The amount fits the fixed-point carrier. -/
def Representable (C : ShareConfig) (asset : Nat) : Prop :=
  asset * C.rational.div ≤ C.rational.maxInner

instance (asset : Nat) : Decidable (Representable C asset) :=
  inferInstanceAs (Decidable (_ ≤ _))

theorem ShareBalance.Solvent.deriveShares_lt {b : Balance C} {asset shares : Nat} (hs : Solvent b)
    (ha : Representable C asset) (hb : b.bias.inner ≠ 0) (h : deriveShares b asset = .ok shares) :
    asset * C.rational.div < (shares + 1) * b.bias.inner := by
  have hpos := C.rational.div_pos
  unfold deriveShares at h
  split at h
  · rename_i hi
    cases h
    rw [(hs.of_empty hi).2, Fixed.one_inner, Nat.add_mul]
    omega
  · cases hd : (Fixed.saturatingFromInteger asset).checkedDiv b.bias with
    | none => simp [hd] at h
    | some q =>
      simp only [hd, Except.ok.injEq] at h
      obtain ⟨-, hq⟩ := Fixed.checkedDiv_eq_some.mp hd
      rw [Fixed.saturatingFromInteger_of_le ha] at hq
      have hsh : shares = asset * C.rational.div / b.bias.inner := by
        rw [← h, Fixed.toInteger, hq, Nat.div_div_eq_div_mul, Nat.mul_div_mul_right _ _ hpos]
      rw [hsh, Nat.mul_comm (_ + 1)]
      exact Nat.lt_mul_div_succ _ (Nat.pos_of_ne_zero hb)

theorem deriveShares_representable {b : Balance C} {asset shares : Nat}
    (ha : Representable C asset) (h : deriveShares b asset = .ok shares) :
    Representable C shares := by
  unfold deriveShares at h
  split at h
  · cases h
    exact ha
  · cases hd : (Fixed.saturatingFromInteger asset).checkedDiv b.bias with
    | none => simp [hd] at h
    | some q =>
      simp only [hd, Except.ok.injEq] at h
      exact h ▸ q.toInteger_mul_le.trans q.inner_le

theorem derivedValue_same_price {b : Balance C} {r : Receipt C} (hb : b.bias = r.bias)
    (hne : r.bias.inner ≠ 0) (hd : b.drainpoint ≤ r.checkpoint) (hs : Representable C r.shares)
    (hv : r.shares * r.bias.inner ≤ C.rational.maxInner) :
    derivedValue b r = .ok (r.shares * r.bias.inner / C.rational.div) := by
  have hvalue : (Fixed.saturatingFromInteger r.shares).checkedMul r.bias =
      some ⟨r.shares * r.bias.inner, hv⟩ := by
    rw [Fixed.checkedMul_eq_some, Fixed.saturatingFromInteger_of_le hs, Nat.mul_right_comm,
      Nat.mul_div_cancel _ C.rational.div_pos]
  have hnd : ¬r.checkpoint < b.drainpoint := Nat.not_lt.mpr hd
  simp only [derivedValue, hvalue, hnd, decide_false, Bool.false_eq_true, if_false, hb,
    Fixed.checkedDiv_self hne, Fixed.checkedMul_one]
  rfl

/-- The receipt is still outstanding beside the others, at the price it was issued at. -/
structure Held (r : Receipt C) (s : Session C) : Prop where
  backs : Backs s.balance (r :: s.outstanding)
  priced : ∃ b, s.balance = some b ∧ b.bias = r.bias ∧ b.drainpoint ≤ r.checkpoint

theorem ShareBalance.Deposited.held {s : Session C} {asset : Nat} {r : Receipt C} {after : Balance C}
    (hs : s.Sound) (hd : Deposited s.balance asset r after) :
    Held r { s with balance := some after } := by
  have hsol := solvent_isFreshBalance hs.backs.solvent
  refine ⟨?_, after, rfl, ?_, ?_⟩
  · have hok : deposit s.balance asset = (.ok (asset, r), some after) :=
      deposit_eq_ok.mpr ⟨after, rfl, rfl, hd⟩
    obtain ⟨hb, -⟩ := hs.backs.deposit hok
    refine ⟨hb.solvent, ?_, fun t ht => hb.shares_ne t ?_⟩
    · rw [hb.issued_eq]
      exact outstandingShares_perm (List.perm_append_singleton _ _)
    · simpa [or_comm] using ht
  · rw [hd.after_eq, hd.bias_eq]
  · rw [hd.after_eq, hd.checkpoint_eq]
    exact hsol.drainpoint_le

theorem Held.step {r : Receipt C} {s t : Session C} {call : ShareCall} (h : Held r s)
    (hc : call.isTrade = true) (hstep : s.step call = .ok t) : Held r t := by
  obtain ⟨hb, b, hbal, hbias, hdp⟩ := h
  cases call with
  | deposit asset =>
    simp only [Session.step] at hstep
    split at hstep
    · rename_i hd
      cases hstep
      refine ⟨(hb.deposit hd).1, ?_⟩
      obtain ⟨after, -, rfl, hdep⟩ := deposit_eq_ok.mp hd
      refine ⟨after, rfl, ?_, ?_⟩
      · rw [hdep.after_eq, hbal]
        exact hbias
      · rw [hdep.after_eq, hbal]
        exact hdp
    · cases hstep
  | withdraw i =>
    simp only [Session.step] at hstep
    split at hstep
    · cases hstep
    rename_i x hx
    split at hstep
    · rename_i hw
      cases hstep
      have hx' : (r :: s.outstanding)[i + 1]? = some x := by simpa using hx
      refine ⟨(hb.withdraw hx' hw).1, ?_⟩
      obtain ⟨b', x', derived, after, hb', hxx, rfl, hwd⟩ := withdraw_eq_ok hw
      obtain rfl := Option.some.inj (hbal.symm.trans hb')
      obtain rfl := Option.some.inj hxx
      have hlt : x.shares < b.issued := by
        have hi := hb.issued_eq
        have hr := hb.shares_ne r (List.mem_cons_self ..)
        have hle := le_outstandingShares (List.mem_of_getElem? hx)
        rw [hbal, issuedShares_some, outstandingShares_cons] at hi
        omega
      obtain ⟨-, rfl⟩ := hwd.part_eq (hb.solvent b hbal) hlt
      exact ⟨_, rfl, hbias, hdp⟩
    · cases hstep
  | mint asset => cases hc
  | reap asset => cases hc
  | drain => cases hc

theorem Held.run {r : Receipt C} {s : Session C} {trades : List ShareCall} (h : Held r s)
    (ht : ∀ call ∈ trades, call.isTrade = true) : Held r (FrameSuite.run Session.step s trades) := by
  induction trades generalizing s with
  | nil => exact h
  | cons call trades ih =>
    have hc := ht call (List.mem_cons_self ..)
    exact ih (attempt_invariant (fun t hs => h.step hc hs) h)
      fun c hm => ht c (List.mem_cons_of_mem _ hm)

/-- A representable deposit comes back after any trades of the others. -/
theorem deposit_returns {before trades : List ShareCall} {asset paid : Nat} {r : Receipt C}
    {balance : VirtualBalance C} (ht : ∀ call ∈ trades, call.isTrade = true)
    (hd : deposit (Session.after before).balance asset = (.ok (paid, r), balance))
    (ha : Representable C asset) :
    ReturnsDeposit (FrameSuite.run Session.step { Session.after before with balance } trades).balance
      r asset := by
  have hsound : (Session.after before : Session C).Sound := Session.after_sound before
  have hsol := solvent_isFreshBalance hsound.backs.solvent
  obtain ⟨after, -, rfl, hdep⟩ := deposit_eq_ok.mp hd
  dsimp only at hdep
  have hne : r.bias.inner ≠ 0 := hdep.bias_eq ▸ hdep.bias_ne
  have hup := deriveShares_mul_le hsol hdep.derived
  have hlow := hsol.deriveShares_lt ha hdep.bias_ne hdep.derived
  rw [← hdep.bias_eq] at hup hlow
  obtain ⟨hb, b, hbal, hbias, hdp⟩ := (hdep.held hsound).run ht
  have hle : r.shares ≤ b.issued := by
    have hi := hb.issued_eq
    rw [hbal, issuedShares_some, outstandingShares_cons] at hi
    omega
  have hv := derivedValue_same_price hbias hne hdp
    (deriveShares_representable ha hdep.derived)
    ((Nat.mul_comm _ _).le.trans (hup.trans ha))
  obtain ⟨w, nb, hw⟩ := withdraw_isOk hle hdep.shares_ne hv
  obtain ⟨b', r', derived, after', hb', hr', rfl, hwd⟩ := withdraw_eq_ok hw
  obtain rfl := Option.some.inj hb'
  obtain rfl := Option.some.inj hr'
  have hs := hb.solvent b hbal
  have hderived : derived = r.shares * r.bias.inner / C.rational.div :=
    (Except.ok.inj (hwd.derived_eq.symm.trans hv))
  have hpos := C.rational.div_pos
  -- the payment is at least the derived value: the last receipt takes all of `effective`
  have hwge : derived ≤ w := by
    rcases Nat.lt_or_eq_of_le hle with hlt | heq
    · exact (hwd.part_eq hs hlt).1.ge
    · exact (hwd.last_eq hs heq).1 ▸ (hs.derived_le hle hwd.derived_eq).1
  refine ⟨w, some after', hbal ▸ hw, ?_, fun hn => ?_⟩
  · have hceil := r.bias.inner_le_ceil_mul
    have hfloor := Nat.lt_div_mul_add (a := r.shares * r.bias.inner) hpos
    rw [← hderived] at hfloor
    have hlt : asset * C.rational.div < (derived + 1 + r.bias.ceil) * C.rational.div := by
      calc asset * C.rational.div < (r.shares + 1) * r.bias.inner := hlow
        _ = r.shares * r.bias.inner + r.bias.inner := by ring
        _ ≤ (derived * C.rational.div + C.rational.div) + r.bias.ceil * C.rational.div :=
            Nat.add_le_add hfloor.le hceil
        _ = (derived + 1 + r.bias.ceil) * C.rational.div := by ring
    have := Nat.lt_of_mul_lt_mul_right hlt
    omega
  · rw [hbal, issuedShares_some] at hn
    rw [(hwd.part_eq hs (by omega)).1, hderived]
    refine Nat.div_le_of_le_mul ?_
    rw [Nat.mul_comm C.rational.div, Nat.mul_comm]
    exact hup

theorem deposit_returns_third :
    ReturnsDeposit (C := runtimeShareConfig)
      (FrameSuite.run Session.step
        { Session.after [.deposit 30, .mint 10] with
          balance := some ⟨140, 105, ⟨1333333333, by decide⟩, 1, 0⟩ }
        [.deposit 7, .withdraw 0]).balance
      ⟨100, 75, ⟨1333333333, by decide⟩, 1⟩ 100 :=
  @deposit_returns runtimeShareConfig _ _ 100 100 _ _ (by decide) rfl (by decide)

/-- With the runtime's 64-bit rational a larger amount is cut to the carrier without an error. -/
theorem deposit_loses_value :
    ¬∀ (before trades : List ShareCall) (asset paid : Nat) (r : Receipt runtimeShareConfig)
      (balance : VirtualBalance runtimeShareConfig),
      (∀ call ∈ trades, call.isTrade = true) →
      deposit (Session.after before).balance asset = (.ok (paid, r), balance) →
      ReturnsDeposit
        (FrameSuite.run Session.step { Session.after before with balance } trades).balance r asset := by
  intro h
  have hd : deposit (Session.after [.deposit 1]).balance (10 ^ 11) =
      (.ok (10 ^ 11, ⟨10 ^ 11, 18446744073, Fixed.one, 0⟩),
        (some ⟨10 ^ 11 + 1, 18446744074, Fixed.one, 0, 0⟩ : VirtualBalance runtimeShareConfig)) := by
    decide +kernel
  obtain ⟨w, after, hw, hle, -⟩ := h [.deposit 1] [] _ _ _ _ (by simp) hd
  have hv : withdraw (some ⟨10 ^ 11 + 1, 18446744074, Fixed.one, 0, 0⟩)
      (some (⟨10 ^ 11, 18446744073, Fixed.one, 0⟩ : Receipt runtimeShareConfig)) =
        (.ok 18446744073, some ⟨81553255928, 1, Fixed.one, 0, 0⟩) := by
    decide +kernel
  have hpaid : w = 18446744073 := Except.ok.inj (congrArg Prod.fst (hw.symm.trans hv))
  rw [hpaid] at hle
  exact absurd hle (by decide)

end FrameSuite
