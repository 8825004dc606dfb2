import FrameSuite.Run
import FrameSuite.ShareSpec
import Mathlib.Algebra.BigOperators.Group.List.Basic
import Mathlib.Algebra.Order.BigOperators.Group.List

/-! A session runs arbitrary operations on one balance and keeps the receipts not
yet withdrawn. Issued shares equal the outstanding ones, every unit is accounted
for, and the outstanding receipts never claim more than the balance holds. -/

namespace FrameSuite

open ShareBalance

variable {C : ShareConfig}

inductive ShareCall
  | deposit (asset : Nat)
  | withdraw (i : Nat)
  | mint (asset : Nat)
  | reap (asset : Nat)
  | drain
deriving DecidableEq

/-- One balance, its outstanding receipts and the totals moved so far. -/
structure Session (C : ShareConfig) where
  balance : VirtualBalance C
  outstanding : List (Receipt C)
  deposited : Nat
  minted : Nat
  reaped : Nat
  withdrawn : Nat

def Session.init : Session C :=
  { balance := none, outstanding := [], deposited := 0, minted := 0, reaped := 0, withdrawn := 0 }

def Session.step (s : Session C) : ShareCall → Except ShareBalanceError (Session C)
  | .deposit asset =>
    match deposit s.balance asset with
    | (.ok (deposited, receipt), balance) =>
      .ok { s with
        balance
        outstanding := s.outstanding ++ [receipt]
        deposited := s.deposited + deposited }
    | (.error e, _) => .error e
  | .withdraw i =>
    match s.outstanding[i]? with
    | none => .error .invalidReceipt
    | some receipt =>
      match withdraw s.balance (some receipt) with
      | (.ok paid, balance) =>
        .ok { s with
          balance
          outstanding := s.outstanding.eraseIdx i
          withdrawn := s.withdrawn + paid }
      | (.error e, _) => .error e
  | .mint asset =>
    match mint s.balance asset with
    | (.ok minted, balance) => .ok { s with balance, minted := s.minted + minted }
    | (.error e, _) => .error e
  | .reap asset =>
    match reap s.balance asset with
    | (.ok reaped, balance) => .ok { s with balance, reaped := s.reaped + reaped }
    | (.error e, _) => .error e
  | .drain =>
    match drain s.balance with
    | (.ok reaped, balance) => .ok { s with balance, reaped := s.reaped + reaped }
    | (.error e, _) => .error e

/-- The session after the calls, from the default balance and ignoring failed calls. -/
def Session.after (calls : List ShareCall) : Session C := run Session.step Session.init calls

def outstandingShares (receipts : List (Receipt C)) : Nat :=
  (receipts.map fun r => r.shares).sum

@[simp] theorem outstandingShares_nil : outstandingShares ([] : List (Receipt C)) = 0 := rfl

@[simp] theorem outstandingShares_cons (r : Receipt C) (rs : List (Receipt C)) :
    outstandingShares (r :: rs) = r.shares + outstandingShares rs := by
  simp [outstandingShares]

@[simp] theorem outstandingShares_append (rs ts : List (Receipt C)) :
    outstandingShares (rs ++ ts) = outstandingShares rs + outstandingShares ts := by
  simp [outstandingShares]

theorem outstandingShares_perm {rs ts : List (Receipt C)} (h : rs.Perm ts) :
    outstandingShares rs = outstandingShares ts :=
  (h.map _).sum_eq

theorem outstandingShares_eraseIdx {rs : List (Receipt C)} {i : Nat} {r : Receipt C}
    (h : rs[i]? = some r) : outstandingShares (rs.eraseIdx i) + r.shares = outstandingShares rs := by
  obtain ⟨hi, hr⟩ := List.getElem?_eq_some_iff.mp h
  rw [← outstandingShares_perm (List.getElem_cons_eraseIdx_perm hi), hr, outstandingShares_cons]
  omega

theorem le_outstandingShares {rs : List (Receipt C)} {r : Receipt C} (h : r ∈ rs) :
    r.shares ≤ outstandingShares rs :=
  List.single_le_sum (fun _ _ => Nat.zero_le _) _ (List.mem_map_of_mem h)

/-- The receipts outstanding on a balance carry exactly the shares it has issued. -/
structure Backs (balance : VirtualBalance C) (receipts : List (Receipt C)) : Prop where
  solvent : ∀ b, balance = some b → Solvent b
  issued_eq : issuedShares balance = outstandingShares receipts
  shares_ne : ∀ r ∈ receipts, r.shares ≠ 0

theorem backs_none : Backs (none : VirtualBalance C) [] :=
  ⟨fun b hb => by simp at hb, rfl, fun r hr => by simp at hr⟩

theorem issuedShares_isFreshBalance (balance : VirtualBalance C) :
    (isFreshBalance balance).issued = issuedShares balance := by
  cases balance <;> rfl

theorem totalValue_isFreshBalance (balance : VirtualBalance C) :
    (isFreshBalance balance).effective = totalValue balance := by
  cases balance <;> rfl

theorem Backs.deposit {balance nb : VirtualBalance C} {rs : List (Receipt C)} {asset : Nat}
    {out : Nat × Receipt C} (h : Backs balance rs)
    (hd : ShareBalance.deposit balance asset = (.ok out, nb)) :
    Backs nb (rs ++ [out.2]) ∧ totalValue nb = totalValue balance + out.1 := by
  obtain ⟨after, hout, rfl, hdep⟩ := deposit_eq_ok.mp hd
  have hsol := hdep.solvent (solvent_isFreshBalance h.solvent)
  have hissued := issuedShares_isFreshBalance balance
  have htotal := totalValue_isFreshBalance balance
  have heq := h.issued_eq
  refine ⟨⟨fun b hb => Option.some.inj hb ▸ hsol, ?_, ?_⟩, ?_⟩
  · simp only [hdep.after_eq, issuedShares_some, outstandingShares_append, outstandingShares_cons,
      outstandingShares_nil]
    omega
  · intro r hr
    rcases List.mem_append.mp hr with hr | hr
    · exact h.shares_ne r hr
    · rw [List.mem_singleton.mp hr]
      exact hdep.shares_ne
  · simp only [hdep.after_eq, totalValue_some]
    omega

theorem Backs.withdraw {balance nb : VirtualBalance C} {rs : List (Receipt C)} {i w : Nat}
    {r : Receipt C} (h : Backs balance rs) (hr : rs[i]? = some r)
    (hw : ShareBalance.withdraw balance (some r) = (.ok w, nb)) :
    Backs nb (rs.eraseIdx i) ∧ totalValue balance = totalValue nb + w := by
  obtain ⟨b, r', derived, after, rfl, hr', rfl, hwd⟩ := withdraw_eq_ok hw
  obtain rfl := Option.some.inj hr'
  have hs := h.solvent b rfl
  obtain ⟨heff, hiss⟩ := hwd.effective_add hs
  have heq := h.issued_eq
  have herase := outstandingShares_eraseIdx hr
  refine ⟨⟨fun c hc => Option.some.inj hc ▸ hwd.solvent hs, ?_, fun r hr => ?_⟩, heff.symm⟩
  · simp only [issuedShares_some] at heq ⊢
    omega
  · exact h.shares_ne r ((List.eraseIdx_subset) hr)

theorem Backs.mint {balance nb : VirtualBalance C} {rs : List (Receipt C)} {asset w : Nat}
    (h : Backs balance rs) (hm : ShareBalance.mint balance asset = (.ok w, nb)) :
    Backs nb rs ∧ totalValue nb = totalValue balance + w := by
  by_cases ha : asset = 0
  · rw [ha, mint_zero] at hm
    cases hm
    exact ⟨h, rfl⟩
  · obtain ⟨b, after, rfl, rfl, rfl, hmint⟩ := (mint_eq_ok ha).mp hm
    have hs := hmint.solvent (h.solvent b rfl)
    obtain ⟨bias, -, rfl⟩ := hmint.after_eq
    refine ⟨⟨fun c hc => Option.some.inj hc ▸ hs, ?_, h.shares_ne⟩, ?_⟩
    · simpa using h.issued_eq
    · simp

theorem Backs.reap {balance nb : VirtualBalance C} {rs : List (Receipt C)} {asset w : Nat}
    (h : Backs balance rs) (hm : ShareBalance.reap balance asset = (.ok w, nb)) :
    Backs nb rs ∧ totalValue balance = totalValue nb + w := by
  by_cases ha : asset = 0
  · rw [ha, reap_zero] at hm
    cases hm
    exact ⟨h, rfl⟩
  · obtain ⟨b, after, rfl, rfl, rfl, hreap⟩ := (reap_eq_ok ha).mp hm
    have hs := hreap.solvent (h.solvent b rfl)
    have hle := hreap.asset_le
    obtain ⟨bias, -, rfl⟩ := hreap.after_eq
    refine ⟨⟨fun c hc => Option.some.inj hc ▸ hs, ?_, h.shares_ne⟩, ?_⟩
    · simpa using h.issued_eq
    · simp only [totalValue_some, balanceCheckpoint_effective]
      omega

/-- What holds of a session after any calls. -/
structure Session.Sound (s : Session C) : Prop where
  backs : Backs s.balance s.outstanding
  conserved : s.deposited + s.minted = s.reaped + s.withdrawn + totalValue s.balance

theorem Session.step_sound {s t : Session C} {call : ShareCall} (h : s.Sound)
    (hstep : s.step call = .ok t) : t.Sound := by
  obtain ⟨hb, hc⟩ := h
  cases call with
  | deposit asset =>
    simp only [Session.step] at hstep
    split at hstep
    · rename_i hd
      cases hstep
      obtain ⟨hnb, hv⟩ := hb.deposit hd
      exact ⟨hnb, by dsimp only at *; omega⟩
    · cases hstep
  | withdraw i =>
    simp only [Session.step] at hstep
    split at hstep
    · cases hstep
    rename_i r hr
    split at hstep
    · rename_i hw
      cases hstep
      obtain ⟨hnb, hv⟩ := hb.withdraw hr hw
      exact ⟨hnb, by dsimp only at *; omega⟩
    · cases hstep
  | mint asset =>
    simp only [Session.step] at hstep
    split at hstep
    · rename_i hm
      cases hstep
      obtain ⟨hnb, hv⟩ := hb.mint hm
      exact ⟨hnb, by dsimp only at *; omega⟩
    · cases hstep
  | reap asset =>
    simp only [Session.step] at hstep
    split at hstep
    · rename_i hm
      cases hstep
      obtain ⟨hnb, hv⟩ := hb.reap hm
      exact ⟨hnb, by dsimp only at *; omega⟩
    · cases hstep
  | drain =>
    simp only [Session.step, ShareBalance.drain] at hstep
    split at hstep
    · rename_i hm
      cases hstep
      obtain ⟨hnb, hv⟩ := hb.reap hm
      exact ⟨hnb, by dsimp only at *; omega⟩
    · cases hstep

theorem Session.after_sound (calls : List ShareCall) : (Session.after calls : Session C).Sound :=
  run_invariant (fun _ _ _ h ht => Session.step_sound h ht) ⟨backs_none, rfl⟩ calls

/-- What a receipt would be paid now; a receipt that cannot be withdrawn is paid nothing. -/
def activeClaim (balance : VirtualBalance C) (r : Receipt C) : Nat :=
  match receiptActiveValue balance (some r) with
  | .ok v => v
  | .error _ => 0

def totalActiveClaims (balance : VirtualBalance C) (receipts : List (Receipt C)) : Nat :=
  (receipts.map (activeClaim balance)).sum

theorem activeClaim_cases {b : Balance C} {r : Receipt C} (hs : Solvent b) :
    activeClaim (some b) r * C.rational.div ≤ r.shares * b.bias.inner ∨
      (r.shares = b.issued ∧ activeClaim (some b) r = b.effective) := by
  unfold activeClaim receiptActiveValue
  cases hc : canWithdraw (some b) (some r) with
  | error e => simp
  | ok u =>
    cases hw : withdraw (some b) (some r) with
    | mk res nb =>
      cases res with
      | error e => simp
      | ok w =>
        obtain ⟨b', r', derived, after, hb', hr', rfl, hwd⟩ := withdraw_eq_ok hw
        obtain rfl := Option.some.inj hb'
        obtain rfl := Option.some.inj hr'
        rcases Nat.lt_or_eq_of_le hwd.shares_le with hlt | heq
        · left
          obtain ⟨rfl, -⟩ := hwd.part_eq hs hlt
          exact derivedValue_le hwd.derived_eq
        · right
          exact ⟨heq, (hwd.last_eq hs heq).1⟩

theorem totalActiveClaims_mul_le {b : Balance C} {rs : List (Receipt C)}
    (h : ∀ r ∈ rs, activeClaim (some b) r * C.rational.div ≤ r.shares * b.bias.inner) :
    totalActiveClaims (some b) rs * C.rational.div ≤ outstandingShares rs * b.bias.inner := by
  induction rs with
  | nil => simp [totalActiveClaims]
  | cons r rs ih =>
    have hr := h r (List.mem_cons_self ..)
    have ht := ih fun t ht => h t (List.mem_cons_of_mem _ ht)
    simp only [totalActiveClaims, List.map_cons, List.sum_cons, outstandingShares_cons,
      Nat.add_mul] at ht ⊢
    exact Nat.add_le_add hr ht

theorem Backs.eq_singleton {b : Balance C} {rs : List (Receipt C)} {r : Receipt C}
    (h : Backs (some b) rs) (hr : r ∈ rs) (heq : r.shares = b.issued) : rs = [r] := by
  obtain ⟨p, q, rfl⟩ := List.append_of_mem hr
  have hi := h.issued_eq
  simp only [issuedShares_some, outstandingShares_append, outstandingShares_cons] at hi
  have hnil {l : List (Receipt C)} (hl : outstandingShares l = 0)
      (hne : ∀ t ∈ l, t.shares ≠ 0) : l = [] := by
    cases l with
    | nil => rfl
    | cons t l =>
      rw [outstandingShares_cons] at hl
      exact absurd (by omega) (hne t (List.mem_cons_self ..))
  rw [hnil (by omega : outstandingShares p = 0) fun t ht => h.shares_ne t (by simp [ht]),
    hnil (by omega : outstandingShares q = 0) fun t ht => h.shares_ne t (by simp [ht])]
  rfl

theorem Backs.totalActiveClaims_le {balance : VirtualBalance C} {rs : List (Receipt C)}
    (h : Backs balance rs) : totalActiveClaims balance rs ≤ totalValue balance := by
  cases balance with
  | none =>
    have hz : activeClaim (none : VirtualBalance C) = fun _ => 0 := rfl
    simp [totalActiveClaims, hz]
  | some b =>
    have hs := h.solvent b rfl
    by_cases hl : ∃ r ∈ rs, r.shares = b.issued
    · obtain ⟨r, hr, heq⟩ := hl
      rw [h.eq_singleton hr heq]
      simp only [totalActiveClaims, List.map_cons, List.map_nil, List.sum_singleton,
        totalValue_some]
      rcases activeClaim_cases (r := r) hs with hle | ⟨-, he⟩
      · refine Nat.le_of_mul_le_mul_right (hle.trans ?_) C.rational.div_pos
        rw [heq, Nat.mul_comm]
        exact hs.bias_mul_le
      · exact he.le
    · have hle : totalActiveClaims (some b) rs * C.rational.div ≤ outstandingShares rs * b.bias.inner :=
        totalActiveClaims_mul_le fun r hr =>
          (activeClaim_cases hs).resolve_right fun hc => hl ⟨r, hr, hc.1⟩
      refine Nat.le_of_mul_le_mul_right (hle.trans ?_) C.rational.div_pos
      rw [← h.issued_eq, issuedShares_some, Nat.mul_comm]
      exact hs.bias_mul_le

/-- After any calls the price is backed, the cap on a withdrawal never binds and the
outstanding receipts never claim more than the balance holds. -/
theorem session_solvent (calls : List ShareCall) :
    let s : Session C := Session.after calls
    issuedShares s.balance = outstandingShares s.outstanding ∧
      (∀ b, s.balance = some b → b.bias.inner * b.issued ≤ b.effective * C.rational.div) ∧
      (∀ b, s.balance = some b → ∀ r ∈ s.outstanding, ∀ derived,
        derivedValue b r = .ok derived → min derived b.effective = derived) ∧
      totalActiveClaims s.balance s.outstanding ≤ totalValue s.balance := by
  intro s
  obtain ⟨h, -⟩ : s.Sound := Session.after_sound calls
  refine ⟨h.issued_eq, fun b hb => (h.solvent b hb).bias_mul_le, ?_, h.totalActiveClaims_le⟩
  intro b hb r hr derived hd
  have hle : r.shares ≤ b.issued := by
    have hi := h.issued_eq
    rw [hb, issuedShares_some] at hi
    exact hi ▸ le_outstandingShares hr
  exact Nat.min_eq_left ((h.solvent b hb).derived_le hle hd).1

theorem deposit_closed {b : Balance C} (hc : Closed b) {asset : Nat} (ha : asset ≠ 0)
    (hm : asset ≤ C.maxAsset) :
    ∃ r after, deposit (some b) asset = (.ok (asset, r), some after) ∧
      r.shares = asset ∧ r.bias = Fixed.one := by
  have hdiv : (Fixed.one : Fixed C.rational).inner ≠ 0 := C.rational.div_pos.ne'
  have hd : Deposited (some b) asset ⟨asset, asset, b.bias, b.checkpoint⟩
      { b with effective := b.effective + asset, issued := b.issued + asset } :=
    { asset_ne := ha
      bias_ne := by simpa [isFreshBalance, hc.bias_eq] using hdiv
      derived := by simp [deriveShares, isFreshBalance, hc.issued_eq]
      shares_ne := ha
      effective_le := by simpa [isFreshBalance, hc.effective_eq] using hm
      issued_le := by simpa [isFreshBalance, hc.issued_eq] using hm
      principal_eq := rfl
      bias_eq := rfl
      checkpoint_eq := rfl
      after_eq := rfl }
  exact ⟨_, _, deposit_eq_ok.mpr ⟨_, rfl, rfl, hd⟩, rfl, hc.bias_eq⟩

/-- Every unit that entered the balance has left it or is still there, and the last
withdrawal takes all that remains and leaves a balance that prices the next deposit 1:1. -/
theorem session_conserves (calls : List ShareCall) :
    let s : Session C := Session.after calls
    s.deposited + s.minted = s.reaped + s.withdrawn + totalValue s.balance ∧
      (∀ r w balance, s.outstanding = [r] → withdraw s.balance (some r) = (.ok w, balance) →
        w = totalValue s.balance ∧
        ∃ b, balance = some b ∧ Closed b ∧
          ∀ asset, asset ≠ 0 → asset ≤ C.maxAsset →
            ∃ receipt after, deposit balance asset = (.ok (asset, receipt), some after) ∧
              receipt.shares = asset ∧ receipt.bias = Fixed.one) ∧
      (s.outstanding = [] → ∀ b, s.balance = some b → Closed b) := by
  intro s
  obtain ⟨h, hc⟩ : s.Sound := Session.after_sound calls
  refine ⟨hc, ?_, ?_⟩
  · intro r w balance ho hw
    obtain ⟨b, r', derived, after, hb, hr', rfl, hwd⟩ := withdraw_eq_ok hw
    obtain rfl := Option.some.inj hr'
    have hi := h.issued_eq
    rw [hb, ho] at hi
    have heq : r.shares = b.issued := by simpa using hi.symm
    obtain ⟨hv, hcl⟩ := hwd.last_eq (h.solvent b hb) heq
    exact ⟨by rw [hb, totalValue_some, hv], after, rfl, hcl, fun asset => deposit_closed hcl⟩
  · intro ho b hb
    have hi := h.issued_eq
    rw [hb, ho] at hi
    obtain ⟨he, hbias⟩ := (h.solvent b hb).of_empty hi
    exact ⟨he, hi, hbias⟩

end FrameSuite
