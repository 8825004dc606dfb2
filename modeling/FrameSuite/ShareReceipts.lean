import FrameSuite.ShareRoundTrip
import FrameSuite.ShareOrder

/-! Receipts in every price history: when a receipt can be redeemed, and how far what it is
paid stays from its shares times the price. A receipt is resolved from the price it was issued
at, or one to one once the balance was drained after its deposit. -/

namespace FrameSuite

open ShareBalance

variable {C : ShareConfig}

namespace ShareBalance

def drainedAfter (b : Balance C) (r : Receipt C) : Bool := decide (r.checkpoint < b.drainpoint)

/-- The inner price a receipt is resolved from. -/
def basisPrice (b : Balance C) (r : Receipt C) : Nat :=
  if drainedAfter b r then C.rational.div else r.bias.inner

/-- The inner value a receipt is resolved from. -/
def basisValue (b : Balance C) (r : Receipt C) : Nat :=
  let shares := (Fixed.saturatingFromInteger r.shares : Fixed C.rational).inner
  if drainedAfter b r then shares else shares * r.bias.inner / C.rational.div

/-- The price change since the receipt was issued, as an inner value. -/
def priceRatio (b : Balance C) (r : Receipt C) : Nat := b.bias.inner * C.rational.div / basisPrice b r

/-- The price change and the value it gives fit the fixed-point carrier. -/
def ResolutionFits (b : Balance C) (r : Receipt C) : Prop :=
  priceRatio b r ≤ C.rational.maxInner ∧
    basisValue b r * priceRatio b r / C.rational.div ≤ C.rational.maxInner

instance (b : Balance C) (r : Receipt C) : Decidable (ResolutionFits b r) :=
  inferInstanceAs (Decidable (_ ∧ _))

/-- A receipt as a deposit issues it: at a price, and its value at that price fits the carrier. -/
structure Priced (r : Receipt C) : Prop where
  bias_ne : r.bias.inner ≠ 0
  value_le : (Fixed.saturatingFromInteger r.shares : Fixed C.rational).inner * r.bias.inner / C.rational.div ≤
    C.rational.maxInner

theorem derivedValue_of_priced {b : Balance C} {r : Receipt C} {w : Nat} (hr : Priced r) :
    derivedValue b r = .ok w ↔
      ResolutionFits b r ∧ w = basisValue b r * priceRatio b r / C.rational.div / C.rational.div := by
  have hvalue {value : Fixed C.rational}
      (hv : (Fixed.saturatingFromInteger r.shares).checkedMul r.bias = some value) :
      (if r.checkpoint < b.drainpoint then Fixed.saturatingFromInteger r.shares else value).inner =
        basisValue b r := by
    rw [apply_ite Fixed.inner, Fixed.checkedMul_eq_some.mp hv]
    simp [basisValue, drainedAfter]
  have hprice : (if r.checkpoint < b.drainpoint then Fixed.one else r.bias).inner = basisPrice b r := by
    rw [apply_ite Fixed.inner]
    simp [basisPrice, drainedAfter]
  have hne : basisPrice b r ≠ 0 := by
    unfold basisPrice
    split
    · exact C.rational.div_pos.ne'
    · exact hr.bias_ne
  rw [derivedValue_eq_ok]
  constructor
  · rintro ⟨value, ratio, final, hv, hq, hf, rfl⟩
    have hratio : ratio.inner = priceRatio b r := by
      rw [(Fixed.checkedDiv_eq_some.mp hq).2, hprice, priceRatio]
    have hfinal := Fixed.checkedMul_eq_some.mp hf
    rw [hvalue hv, hratio] at hfinal
    exact ⟨⟨hratio ▸ ratio.inner_le, hfinal ▸ final.inner_le⟩, congrArg (· / C.rational.div) hfinal⟩
  · rintro ⟨⟨hratio, hfinal⟩, rfl⟩
    have hv : (Fixed.saturatingFromInteger r.shares).checkedMul r.bias = some ⟨_, hr.value_le⟩ :=
      Fixed.checkedMul_eq_some.mpr rfl
    refine ⟨_, ⟨_, hratio⟩, ⟨_, hfinal⟩, hv, ?_, ?_, rfl⟩
    · exact Fixed.checkedDiv_eq_some.mpr ⟨hprice ▸ hne, congrArg (b.bias.inner * C.rational.div / ·) hprice.symm⟩
    · exact Fixed.checkedMul_eq_some.mpr (by rw [hvalue hv])

theorem Deposited.priced {balance : VirtualBalance C} {asset : Nat} {r : Receipt C} {after : Balance C}
    (h : Deposited balance asset r after) (hs : Solvent (isFreshBalance balance)) : Priced r := by
  refine ⟨h.bias_eq ▸ h.bias_ne, ?_⟩
  by_cases hi : (isFreshBalance balance).issued = 0
  · have hone : r.bias = Fixed.one := h.bias_eq.trans (hs.of_empty hi).2
    rw [hone, Fixed.one_inner, Nat.mul_div_cancel _ C.rational.div_pos]
    exact Fixed.inner_le _
  · have hder := h.derived
    unfold deriveShares at hder
    rw [if_neg hi, ← h.bias_eq] at hder
    cases hd : (Fixed.saturatingFromInteger asset).checkedDiv r.bias with
    | none => simp [hd] at hder
    | some q =>
      simp only [hd, Except.ok.injEq] at hder
      obtain ⟨-, hq⟩ := Fixed.checkedDiv_eq_some.mp hd
      have hqb : q.inner * r.bias.inner ≤
          (Fixed.saturatingFromInteger asset : Fixed C.rational).inner * C.rational.div :=
        hq ▸ Nat.div_mul_le_self _ _
      refine Nat.div_le_of_le_mul ?_
      calc (Fixed.saturatingFromInteger r.shares : Fixed C.rational).inner * r.bias.inner
          ≤ r.shares * C.rational.div * r.bias.inner :=
            Nat.mul_le_mul_right _ (Fixed.saturatingFromInteger_le _)
        _ ≤ q.inner * r.bias.inner := Nat.mul_le_mul_right _ (hder ▸ q.toInteger_mul_le)
        _ ≤ _ := hqb
        _ ≤ C.rational.div * C.rational.maxInner := by
            rw [Nat.mul_comm]
            exact Nat.mul_le_mul_left _ (Fixed.inner_le _)

end ShareBalance

theorem Session.step_outstanding {s t : Session C} {call : ShareCall} (h : s.step call = .ok t) :
    t.outstanding ⊆ s.outstanding ∨ ∃ asset r after, Deposited s.balance asset r after ∧
      t.outstanding = s.outstanding ++ [r] := by
  cases call with
  | deposit asset =>
    simp only [Session.step] at h
    split at h
    · rename_i receipt balance hd
      cases h
      obtain ⟨after, -, -, hdep⟩ := deposit_eq_ok.mp hd
      exact Or.inr ⟨_, _, _, hdep, rfl⟩
    · cases h
  | withdraw i =>
    simp only [Session.step] at h
    split at h
    · cases h
    · split at h
      · cases h
        exact Or.inl List.eraseIdx_subset
      · cases h
  | mint asset =>
    simp only [Session.step] at h
    split at h
    · cases h
      exact Or.inl (List.Subset.refl _)
    · cases h
  | reap asset =>
    simp only [Session.step] at h
    split at h
    · cases h
      exact Or.inl (List.Subset.refl _)
    · cases h
  | drain =>
    simp only [Session.step] at h
    split at h
    · cases h
      exact Or.inl (List.Subset.refl _)
    · cases h

theorem Session.after_priced (calls : List ShareCall) :
    (Session.after calls : Session C).Sound ∧ ∀ r ∈ (Session.after calls : Session C).outstanding, Priced r := by
  refine run_invariant (P := fun s : Session C => s.Sound ∧ ∀ r ∈ s.outstanding, Priced r) ?_
    ⟨⟨backs_none, rfl⟩, by simp [Session.init]⟩ calls
  rintro s call t ⟨hs, hp⟩ hstep
  refine ⟨Session.step_sound hs hstep, fun r hr => ?_⟩
  rcases Session.step_outstanding hstep with hsub | ⟨asset, r', after, hd, hout⟩
  · exact hp r (hsub hr)
  · rw [hout] at hr
    rcases List.mem_append.mp hr with hr | hr
    · exact hp r hr
    · rw [List.mem_singleton.mp hr]
      exact hd.priced (solvent_isFreshBalance hs.backs.solvent)

/-- The receipt is outstanding on a reachable balance. -/
def OutstandingOn (b : Balance C) (r : Receipt C) : Prop :=
  ∃ calls, (Session.after calls : Session C).balance = some b ∧ r ∈ (Session.after calls : Session C).outstanding

theorem OutstandingOn.spec {b : Balance C} {r : Receipt C} (h : OutstandingOn b r) :
    Solvent b ∧ Priced r ∧ r.shares ≠ 0 ∧ r.shares ≤ b.issued := by
  obtain ⟨calls, hb, hr⟩ := h
  obtain ⟨hs, hp⟩ := (Session.after_priced calls : (Session.after calls : Session C).Sound ∧ _)
  have hi := hs.backs.issued_eq
  rw [hb, issuedShares_some] at hi
  exact ⟨hs.backs.solvent b hb, hp r hr, hs.backs.shares_ne r hr, hi ▸ le_outstandingShares hr⟩

theorem canWithdraw_outstanding {b : Balance C} {r : Receipt C} (h : OutstandingOn b r) :
    canWithdraw (some b) (some r) = .ok () := by
  obtain ⟨-, -, hne, hle⟩ := h.spec
  have hv : ¬(b.issued < r.shares ∨ r.shares = 0 ∨ b.issued = 0) := by omega
  simp only [canWithdraw, hv, if_false]

/-- The check accepts every outstanding receipt of every reachable balance, and its withdrawal goes
through exactly when the price change since its deposit and the value it gives fit the carrier. -/
theorem receipt_redeemable_iff {b : Balance C} {r : Receipt C} (h : OutstandingOn b r) :
    canWithdraw (some b) (some r) = .ok () ∧
      ((∃ w after, withdraw (some b) (some r) = (.ok w, after)) ↔ ResolutionFits b r) := by
  obtain ⟨hs, hp, hne, hle⟩ := h.spec
  refine ⟨canWithdraw_outstanding h, ?_⟩
  constructor
  · rintro ⟨w, after, hw⟩
    obtain ⟨b', r', derived, c, hb, hr, -, hwd⟩ := withdraw_eq_ok hw
    obtain rfl := Option.some.inj hb
    obtain rfl := Option.some.inj hr
    exact ((derivedValue_of_priced hp).mp hwd.derived_eq).1
  · intro hfit
    exact withdraw_isOk hle hne ((derivedValue_of_priced hp).mpr ⟨hfit, rfl⟩)

theorem receipt_redeemable_iff_sixty :
    let b : Balance runtimeShareConfig := ⟨80, 60, ⟨1333333333, by decide⟩, 1, 0⟩
    let r : Receipt runtimeShareConfig := ⟨60, 60, Fixed.one, 0⟩
    canWithdraw (some b) (some r) = .ok () ∧
      ((∃ w after, withdraw (some b) (some r) = (.ok w, after)) ↔ ResolutionFits b r) :=
  receipt_redeemable_iff ⟨[.deposit 60, .mint 20], by decide +kernel, by decide +kernel⟩

/-- A receipt worth more units than the carrier holds is accepted by the check and refused by every
withdrawal, here after a mint that doubled the price. -/
theorem receipt_stuck :
    ¬∀ (b : Balance runtimeShareConfig) (r : Receipt runtimeShareConfig), OutstandingOn b r →
      canWithdraw (some b) (some r) = .ok () ∧ ∃ w after, withdraw (some b) (some r) = (.ok w, after) := by
  intro h
  obtain ⟨-, w, after, hw⟩ := h ⟨2 * 10 ^ 10, 10 ^ 10, ⟨2 * 10 ^ 9, by decide⟩, 1, 0⟩ ⟨10 ^ 10, 10 ^ 10, Fixed.one, 0⟩
    ⟨[.deposit (10 ^ 10), .mint (10 ^ 10)], by decide +kernel, by decide +kernel⟩
  have hstuck : withdraw (some (⟨2 * 10 ^ 10, 10 ^ 10, ⟨2 * 10 ^ 9, by decide⟩, 1, 0⟩ : Balance runtimeShareConfig))
      (some ⟨10 ^ 10, 10 ^ 10, Fixed.one, 0⟩) =
        (.error .inadequatePrecision, some ⟨2 * 10 ^ 10, 10 ^ 10, ⟨2 * 10 ^ 9, by decide⟩, 1, 0⟩) := by
    decide +kernel
  rw [hstuck] at hw
  cases hw

/-- A withdrawal of an outstanding receipt that is not the last one and whose shares and value at
the price of its deposit fit the carrier. -/
structure Redeemed (b : Balance C) (r : Receipt C) (w : Nat) : Prop where
  reached : ∃ calls, (Session.after calls : Session C).balance = some b ∧
    r ∈ (Session.after calls : Session C).outstanding ∧ (Session.after calls : Session C).outstanding ≠ [r]
  shares_fit : Representable C r.shares
  value_fits : r.shares * r.bias.inner ≤ C.rational.maxInner
  paid : ∃ after, withdraw (some b) (some r) = (.ok w, after)

/-- The whole units the shares of a receipt are worth at the current price. -/
def worth (b : Balance C) (r : Receipt C) : Nat := r.shares * b.bias.inner / C.rational.div

/-- The rounding of the price change: the units of the receipt's value at the smallest price. -/
def roundingBound (r : Receipt C) : Nat :=
  r.shares * r.bias.inner ⌈/⌉ (C.rational.div * C.rational.div)

theorem Redeemed.derived {b : Balance C} {r : Receipt C} {w : Nat} (h : Redeemed b r w) :
    Priced r ∧ derivedValue b r = .ok w := by
  obtain ⟨calls, hb, hr, hlast⟩ := h.reached
  obtain ⟨hs, hp, -, -⟩ := OutstandingOn.spec ⟨calls, hb, hr⟩
  obtain ⟨after, hw⟩ := h.paid
  obtain ⟨b', r', derived, c, hb', hr', -, hwd⟩ := withdraw_eq_ok hw
  obtain rfl := Option.some.inj hb'
  obtain rfl := Option.some.inj hr'
  have hbacks := (Session.after_sound calls : (Session.after calls : Session C).Sound).backs
  rw [hb] at hbacks
  have hlt : r.shares < b.issued :=
    Nat.lt_of_le_of_ne hwd.shares_le fun heq => hlast (hbacks.eq_singleton hr heq)
  obtain ⟨rfl, -⟩ := hwd.part_eq hs hlt
  exact ⟨hp, hwd.derived_eq⟩

theorem Redeemed.le_worth {b : Balance C} {r : Receipt C} {w : Nat} (h : Redeemed b r w) : w ≤ worth b r :=
  (Nat.le_div_iff_mul_le C.rational.div_pos).mpr (derivedValue_le h.derived.2)

theorem Redeemed.drained_eq {b : Balance C} {r : Receipt C} {w : Nat} (h : Redeemed b r w)
    (hd : drainedAfter b r = true) : w = worth b r := by
  obtain ⟨hp, hder⟩ := h.derived
  have hpos := C.rational.div_pos
  rw [((derivedValue_of_priced hp).mp hder).2, priceRatio, basisPrice, basisValue, if_pos hd, if_pos hd,
    Fixed.saturatingFromInteger_of_le h.shares_fit, Nat.mul_div_cancel _ hpos, Nat.mul_right_comm,
    Nat.mul_div_cancel _ hpos]
  rfl

theorem Redeemed.worth_le {b : Balance C} {r : Receipt C} {w : Nat} (h : Redeemed b r w) :
    worth b r ≤ w + roundingBound r := by
  obtain ⟨hp, hder⟩ := h.derived
  have hpos := C.rational.div_pos
  by_cases hd : drainedAfter b r = true
  · rw [h.drained_eq hd]
    exact Nat.le_add_right _ _
  · obtain ⟨⟨hratio, hvalue⟩, hw⟩ := (derivedValue_of_priced hp).mp hder
    have hbasis : basisValue b r = r.shares * r.bias.inner := by
      rw [basisValue, if_neg hd, Fixed.saturatingFromInteger_of_le h.shares_fit, Nat.mul_right_comm,
        Nat.mul_div_cancel _ hpos]
    have hprice : basisPrice b r = r.bias.inner := if_neg hd
    have hloss := Fixed.lt_checkedMul_ratio (r := r.bias) (b := b.bias) (v := ⟨_, h.value_fits⟩)
      (q := ⟨priceRatio b r, hratio⟩) (p := ⟨_, hvalue⟩) rfl
      (Fixed.checkedDiv_eq_some.mpr ⟨hp.bias_ne, congrArg (b.bias.inner * C.rational.div / ·) hprice⟩)
      (Fixed.checkedMul_eq_some.mpr (congrArg (· * priceRatio b r / C.rational.div) hbasis))
    have hfloor := Nat.lt_div_mul_add (a := basisValue b r * priceRatio b r / C.rational.div) hpos
    rw [← hw] at hfloor
    have hceil : r.shares * r.bias.inner ≤ C.rational.div * C.rational.div * roundingBound r :=
      le_smul_ceilDiv (Nat.mul_pos hpos hpos)
    have hscaled := Nat.mul_le_mul_right C.rational.div (Nat.succ_le_of_lt hfloor)
    have hworth : worth b r * C.rational.div ≤ r.shares * b.bias.inner := Nat.div_mul_le_self _ _
    refine Nat.le_of_lt_succ (Nat.lt_of_mul_lt_mul_right (a := C.rational.div * C.rational.div) ?_)
    calc worth b r * (C.rational.div * C.rational.div)
        = worth b r * C.rational.div * C.rational.div := (Nat.mul_assoc _ _ _).symm
      _ ≤ r.shares * b.bias.inner * C.rational.div := Nat.mul_le_mul_right _ hworth
      _ < (w * C.rational.div + C.rational.div) * C.rational.div +
            C.rational.div * C.rational.div * roundingBound r := by
          dsimp only at hloss
          rw [Nat.succ_mul] at hscaled
          omega
      _ = (w + roundingBound r).succ * (C.rational.div * C.rational.div) := by
          rw [Nat.succ_eq_add_one]
          ring

/-- What a withdrawal pays is never more than the shares are worth; it is exactly that after a
drain and at most the rounding of the price change below it otherwise. On the same shares and
price the two ways of resolving a receipt stay within that bound of each other. -/
theorem withdraw_accurate {b : Balance C} {r : Receipt C} {w : Nat} (h : Redeemed b r w) :
    w ≤ worth b r ∧
      (drainedAfter b r = true → w = worth b r) ∧
      (drainedAfter b r = false → worth b r - w ≤ roundingBound r + 1) ∧
      ∀ (c : Balance C) (t : Receipt C) (v : Nat), Redeemed c t v → t.shares = r.shares → c.bias = b.bias →
        drainedAfter c t = true → w ≤ v ∧ v - w ≤ roundingBound r + 1 := by
  have hle := h.worth_le
  refine ⟨h.le_worth, h.drained_eq, fun _ => by omega, ?_⟩
  intro c t v hv hshares hbias hd
  have hsame : worth c t = worth b r := by rw [worth, worth, hshares, hbias]
  rw [hv.drained_eq hd, hsame]
  exact ⟨h.le_worth, by omega⟩

theorem withdraw_accurate_third :
    let b : Balance runtimeShareConfig := ⟨140, 105, ⟨1333333333, by decide⟩, 1, 0⟩
    let r : Receipt runtimeShareConfig := ⟨30, 30, Fixed.one, 0⟩
    39 ≤ worth b r ∧ (drainedAfter b r = false → worth b r - 39 ≤ roundingBound r + 1) := by
  intro b r
  have h : Redeemed b r 39 :=
    { reached := ⟨[.deposit 30, .mint 10, .deposit 100], by decide +kernel, by decide +kernel, by decide +kernel⟩
      shares_fit := by decide
      value_fits := by decide
      paid := ⟨some ⟨101, 75, ⟨1333333333, by decide⟩, 1, 0⟩, by decide +kernel⟩ }
  exact ⟨(withdraw_accurate h).1, (withdraw_accurate h).2.2.1⟩

end FrameSuite
