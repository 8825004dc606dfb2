import FrameSuite.XpAtomic

/-! The XP pallet as a fungible asset: the free points are the balance, the reserves the holds and the locks
the freezes. A hold of nothing stays as an entry, a freeze of nothing is no entry at all. -/

namespace FrameSuite.XpAdapter

variable {T : XpConfig}

inductive Preservation
  | expendable
  | protect
  | preserve
deriving DecidableEq

inductive Provenance
  | minted
  | extant
deriving DecidableEq

inductive DepositConsequence
  | unknownAsset
  | success
  | blocked
  | overflow
deriving DecidableEq

inductive WithdrawConsequence
  | unknownAsset
  | success
  | balanceLow
deriving DecidableEq

section Inspect

def balance (who : T.AccountId) (s : XpState T) : Nat :=
  match getLiquidXp who s with
  | .ok balance => balance
  | .error _ => 0

def reducibleBalance (who : T.AccountId) (_ : Preservation) (_ : Fortitude) (s : XpState T) : Nat := balance who s

def canDeposit (who : T.AccountId) (amount : Nat) (provenance : Provenance) (s : XpState T) : DepositConsequence :=
  if (xpExists who s).isOk = false then .unknownAsset
  else if amount = 0 then .success
  else if provenance = .minted then .blocked
  else if checkedAdd T.maxXp (balance who s) amount = none then .overflow
  else .success

def canWithdraw (who : T.AccountId) (amount : Nat) (s : XpState T) : WithdrawConsequence :=
  if (xpExists who s).isOk = false then .unknownAsset
  else if amount = 0 then .success
  else if balance who s < amount then .balanceLow
  else .success

def balanceFrozen (id : T.LockReason) (who : T.AccountId) (s : XpState T) : Nat :=
  if (lockExists who id s).isOk = false then 0
  else
    match getLockXp who id s with
    | .ok frozen => frozen
    | .error _ => 0

end Inspect

section Mutate

def writeBalance (who : T.AccountId) (amount : Nat) : XpCall T Unit := setXp who amount

/-- The balance after an increase. -/
def increasedBalance (maxXp currentBalance amount : Nat) : Precision → Except Fault Nat
  | .bestEffort => .ok (saturatingAdd maxXp currentBalance amount)
  | .exact => okOr (checkedAdd maxXp currentBalance amount) (.error .xpCapOverflowed)

/-- The balance after a decrease. -/
def decreasedBalance (reducibleBalance amount : Nat) : Precision → Except Fault Nat
  | .bestEffort => .ok (reducibleBalance - min amount reducibleBalance)
  | .exact => okOr (checkedSub reducibleBalance amount) (.error .xpCapUnderflowed)

def increaseBalance (who : T.AccountId) (amount : Nat) (precision : Precision) : XpCall T Nat := do
  reads (xpExists who)
  let s ← get
  let currentBalance := balance who s
  let increased ← reads fun _ => increasedBalance T.maxXp currentBalance amount precision
  writeBalance who increased
  pure (increased - currentBalance)

def decreaseBalance (who : T.AccountId) (amount : Nat) (precision : Precision) (preservation : Preservation)
    (fortitude : Fortitude) : XpCall T Nat := do
  reads (xpExists who)
  let s ← get
  let reducible := reducibleBalance who preservation fortitude s
  let decreased ← reads fun _ => decreasedBalance reducible amount precision
  writeBalance who decreased
  pure (reducible - decreased)

def mintInto (who : T.AccountId) (amount : Nat) : XpCall T Nat := increaseBalance who amount .exact

def burnFrom (who : T.AccountId) (amount : Nat) (preservation : Preservation) (precision : Precision)
    (fortitude : Fortitude) : XpCall T Nat := do
  let s ← get
  let actual := min (reducibleBalance who preservation fortitude s) amount
  reads fun _ => ensure (actual = amount ∨ precision = .bestEffort) (.error .fundsUnavailable)
  decreaseBalance who actual .bestEffort preservation fortitude

def shelve (who : T.AccountId) (amount : Nat) : XpCall T Nat := do
  let s ← get
  let actual := min (reducibleBalance who .expendable .polite s) amount
  reads fun _ => ensure (actual = amount) (.error .fundsUnavailable)
  decreaseBalance who actual .bestEffort .expendable .polite

def restore (who : T.AccountId) (amount : Nat) : XpCall T Nat := increaseBalance who amount .exact

def setBalanceOnHold (reason : T.ReserveReason) (who : T.AccountId) (amount : Nat) : XpCall T Unit := do
  let s ← get
  if (reserveExists who reason s).isOk = false ∧ amount = 0 then pure ()
  else setReserve who reason amount

def thaw (id : T.LockReason) (who : T.AccountId) : XpCall T Unit := do
  reads (xpExists who)
  burnLock who id

def setFreeze (id : T.LockReason) (who : T.AccountId) (amount : Nat) : XpCall T Unit := do
  let s ← get
  if (lockExists who id s).isOk = true ∧ amount = 0 then thaw id who
  else setLock who id amount

def extendFreeze (id : T.LockReason) (who : T.AccountId) (amount : Nat) : XpCall T Unit := do
  if amount = 0 then pure ()
  else
    let freezeBalance ← reads (getLockXp who id)
    setLock who id (max freezeBalance amount)

/-- The default `set_frozen` of the token traits, which is not part of the pallet. -/
abbrev SetFrozen (T : XpConfig) := T.LockReason → T.AccountId → Nat → Fortitude → XpCall T Unit

def increaseFrozen (setFrozen : SetFrozen T) (id : T.LockReason) (who : T.AccountId) (amount : Nat) :
    XpCall T Unit := do
  let s ← get
  let a ← reads fun _ => okOr (checkedAdd T.maxXp (balanceFrozen id who s) amount) (.error .xpCapOverflowed)
  setFrozen id who a .force

end Mutate

/-- A call that adds to the balance what it returns and changes nothing else, or fails and changes nothing. -/
structure Credits (s : XpState T) (who : T.AccountId) (amount : Nat) (exact : Prop) (call : XpCall T Nat) : Prop where
  moved : ∀ actual t, call s = .ok actual t →
    ∃ xp, s.xpOf.get who = some xp ∧ t = s.withFree who xp (xp.free + actual) ∧ actual ≤ amount ∧
      (exact → actual = amount)
  atomic : AtomicAt s who call

/-- A call that takes off the balance what it returns and changes nothing else, or fails and changes
nothing. -/
structure Debits (s : XpState T) (who : T.AccountId) (amount : Nat) (exact : Prop) (call : XpCall T Nat) : Prop where
  moved : ∀ actual t, call s = .ok actual t →
    ∃ xp, s.xpOf.get who = some xp ∧ t = s.withFree who xp (xp.free - actual) ∧ actual ≤ xp.free ∧
      actual ≤ amount ∧ (exact → actual = amount)
  atomic : AtomicAt s who call

/-- The pocket holds so many points, its total followed, and free points and other pockets are as they
were. -/
structure EntryMoved (s t : XpState T) (who : T.AccountId) (pocket : Pocket T) (points : Nat) : Prop where
  entry : t.held who pocket = points
  free : ∀ k, (t.xpOf.get k).map Xp.free = (s.xpOf.get k).map Xp.free
  others : ∀ k other, (k, other) ≠ (who, pocket) → t.inPocket k other = s.inPocket k other
  aggregate : ∀ xp xp', s.xpOf.get who = some xp → t.xpOf.get who = some xp' →
    pocket.total xp' + s.held who pocket = pocket.total xp + t.held who pocket

/-- A call that makes the entry of a pocket so many points, or fails and changes nothing. -/
structure Enters (s : XpState T) (who : T.AccountId) (pocket : Pocket T) (points : Nat) (call : XpCall T Unit) :
    Prop where
  moved : ∀ t, call s = .ok () t → EntryMoved s t who pocket points
  atomic : AtomicAt s who call

/-- What the token traits promise of the balance, the holds and the freezes of an identity. -/
structure LedgerContract (setFrozen : SetFrozen T) (s : XpState T) (who : T.AccountId) : Prop where
  increases : ∀ amount precision,
    Credits s who amount (precision = .exact) (increaseBalance who amount precision)
  decreases : ∀ amount precision preservation fortitude,
    Debits s who amount (precision = .exact) (decreaseBalance who amount precision preservation fortitude)
  mints : ∀ amount, Credits s who amount True (mintInto who amount)
  burns : ∀ amount preservation precision fortitude,
    Debits s who amount (precision = .exact) (burnFrom who amount preservation precision fortitude)
  shelves : ∀ amount, Debits s who amount True (shelve who amount)
  restores : ∀ amount, Credits s who amount True (restore who amount)
  holds : ∀ reason amount, Enters s who (.reserve reason) amount (setBalanceOnHold reason who amount)
  freezes : ∀ id amount, Enters s who (.lock id) amount (setFreeze id who amount)
  extendsFrozen : ∀ id amount,
    Enters s who (.lock id) (max (s.held who (.lock id)) amount) (extendFreeze id who amount)
  increasesFrozen : ∀ id amount,
    Enters s who (.lock id) (s.held who (.lock id) + amount) (increaseFrozen setFrozen id who amount)
  thaws : ∀ id, Enters s who (.lock id) 0 (thaw id who)
  thawed : ∀ id t, thaw id who s = .ok () t → t.inPocket who (.lock id) = none
  deposits : ∀ amount, canDeposit who amount .extant s = .success ↔
    ∃ actual t, increaseBalance who amount .exact s = .ok actual t
  withdrawals : ∀ amount preservation fortitude, canWithdraw who amount s = .success ↔
    ∃ actual t, decreaseBalance who amount .exact preservation fortitude s = .ok actual t

section Balance

variable {s : XpState T} {who : T.AccountId} {xp : Xp} {amount : Nat} {precision : Precision}
  {preservation : Preservation} {fortitude : Fortitude} {exact : Prop} {call : XpCall T Nat}

theorem Credits.of_error {e : Fault} (h : call s = .error e s) : Credits s who amount exact call where
  moved actual t ht := by
    rw [h] at ht
    cases ht
  atomic := atomicAt_of_same h

theorem Debits.of_error {e : Fault} (h : call s = .error e s) : Debits s who amount exact call where
  moved actual t ht := by
    rw [h] at ht
    cases ht
  atomic := atomicAt_of_same h

theorem xpExists_of_none (hx : s.xpOf.get who = none) : xpExists who s = .error (.error .xpNotFound) := by
  have hin : ¬s.xpOf.containsKey who = true := by simp [StorageMap.containsKey, hx]
  exact if_neg hin

theorem balance_of_get (hx : s.xpOf.get who = some xp) : balance who s = xp.free := by
  unfold balance
  rw [getLiquidXp_of_get hx]

theorem increaseBalance_cases (hx : s.xpOf.get who = some xp) (hfree : xp.free ≤ T.maxXp) :
    (∃ actual, increaseBalance who amount precision s = .ok actual (s.withFree who xp (xp.free + actual)) ∧
        actual ≤ amount ∧ (precision = .exact → actual = amount ∧ xp.free + amount ≤ T.maxXp)) ∨
      precision = .exact ∧ T.maxXp < xp.free + amount ∧
        increaseBalance who amount precision s = .error (.error .xpCapOverflowed) s := by
  have hwrite (increased actual : Nat) (hsum : increased = xp.free + actual) :
      (writeBalance who increased >>= fun _ => pure (increased - xp.free) : XpCall T Nat) s =
        .ok actual (s.withFree who xp (xp.free + actual)) := by
    subst hsum
    have hset : writeBalance who (xp.free + actual) s = .ok () (s.withFree who xp (xp.free + actual)) :=
      setXp_eq_ok hx
    rw [bind_of_ok hset, Nat.add_sub_cancel_left]
    rfl
  unfold increaseBalance
  rw [reads_bind_of_ok (xpExists_of_get hx), get_bind, balance_of_get hx]
  cases precision with
  | bestEffort =>
    refine .inl ⟨saturatingAdd T.maxXp xp.free amount - xp.free, ?_, ?_, fun h => by cases h⟩
    · have hsum : increasedBalance T.maxXp xp.free amount .bestEffort =
          .ok (saturatingAdd T.maxXp xp.free amount) := rfl
      rw [check_bind_of_ok hsum]
      refine hwrite _ _ ?_
      unfold saturatingAdd
      omega
    · unfold saturatingAdd
      omega
  | exact =>
    by_cases hfits : xp.free + amount ≤ T.maxXp
    · refine .inl ⟨amount, ?_, le_rfl, fun _ => ⟨rfl, hfits⟩⟩
      have hsum : increasedBalance T.maxXp xp.free amount .exact = .ok (xp.free + amount) :=
        okOr_eq_ok.mpr (checkedAdd_eq_some.mpr ⟨rfl, hfits⟩)
      rw [check_bind_of_ok hsum]
      exact hwrite _ _ rfl
    · refine .inr ⟨rfl, Nat.not_le.mp hfits, check_bind_of_error ?_⟩
      unfold increasedBalance
      rw [checkedAdd, if_neg hfits]
      rfl

theorem increaseBalance_credits (hfree : ∀ xp, s.xpOf.get who = some xp → xp.free ≤ T.maxXp) :
    Credits s who amount (precision = .exact) (increaseBalance who amount precision) := by
  cases hx : s.xpOf.get who with
  | none => exact .of_error (reads_bind_of_error (xpExists_of_none hx))
  | some xp =>
    rcases @increaseBalance_cases T s who xp amount precision hx (hfree xp hx) with
      ⟨actual, hok, hle, hexact⟩ | ⟨-, -, herror⟩
    · refine ⟨fun actual' t ht => ?_, atomicAt_of_ok hok⟩
      rw [hok] at ht
      cases ht
      exact ⟨xp, hx, rfl, hle, fun h => (hexact h).1⟩
    · exact .of_error herror

theorem Credits.mono {exact' : Prop} (h : Credits s who amount exact call) (hexact : exact' → exact) :
    Credits s who amount exact' call where
  moved actual t ht := by
    obtain ⟨xp, hx, ht, hle, heq⟩ := h.moved actual t ht
    exact ⟨xp, hx, ht, hle, fun he => heq (hexact he)⟩
  atomic := h.atomic

theorem decreaseBalance_cases (hx : s.xpOf.get who = some xp) :
    (∃ actual, decreaseBalance who amount precision preservation fortitude s =
        .ok actual (s.withFree who xp (xp.free - actual)) ∧ actual = min amount xp.free ∧
          (precision = .exact → amount ≤ xp.free)) ∨
      precision = .exact ∧ xp.free < amount ∧
        decreaseBalance who amount precision preservation fortitude s = .error (.error .xpCapUnderflowed) s := by
  have hwrite (decreased actual : Nat) (hsum : decreased = xp.free - actual) (hle : actual ≤ xp.free) :
      (writeBalance who decreased >>= fun _ => pure (xp.free - decreased) : XpCall T Nat) s =
        .ok actual (s.withFree who xp (xp.free - actual)) := by
    subst hsum
    have hset : writeBalance who (xp.free - actual) s = .ok () (s.withFree who xp (xp.free - actual)) :=
      setXp_eq_ok hx
    rw [bind_of_ok hset, Nat.sub_sub_self hle]
    rfl
  unfold decreaseBalance reducibleBalance
  rw [reads_bind_of_ok (xpExists_of_get hx), get_bind, balance_of_get hx]
  cases precision with
  | bestEffort =>
    refine .inl ⟨min amount xp.free, ?_, rfl, fun h => by cases h⟩
    have hless : decreasedBalance xp.free amount .bestEffort = .ok (xp.free - min amount xp.free) := rfl
    rw [check_bind_of_ok hless]
    exact hwrite _ _ rfl (Nat.min_le_right _ _)
  | exact =>
    by_cases hcovers : amount ≤ xp.free
    · refine .inl ⟨amount, ?_, (Nat.min_eq_left hcovers).symm, fun _ => hcovers⟩
      have hless : decreasedBalance xp.free amount .exact = .ok (xp.free - amount) :=
        okOr_eq_ok.mpr (checkedSub_eq_some.mpr ⟨hcovers, (Nat.sub_add_cancel hcovers).symm⟩)
      rw [check_bind_of_ok hless]
      exact hwrite _ _ rfl hcovers
    · refine .inr ⟨rfl, Nat.not_le.mp hcovers, check_bind_of_error ?_⟩
      unfold decreasedBalance
      rw [checkedSub, if_neg hcovers]
      rfl

theorem decreaseBalance_debits :
    Debits s who amount (precision = .exact) (decreaseBalance who amount precision preservation fortitude) := by
  cases hx : s.xpOf.get who with
  | none => exact .of_error (reads_bind_of_error (xpExists_of_none hx))
  | some xp =>
    rcases @decreaseBalance_cases T s who xp amount precision preservation fortitude hx with
      ⟨actual, hok, rfl, hexact⟩ | ⟨-, -, herror⟩
    · refine ⟨fun actual' t ht => ?_, atomicAt_of_ok hok⟩
      rw [hok] at ht
      cases ht
      exact ⟨xp, hx, rfl, Nat.min_le_right _ _, Nat.min_le_left _ _, fun h => Nat.min_eq_left (hexact h)⟩
    · exact .of_error herror

/-- A burn asks for what there is, and for all of the amount unless less will do. -/
theorem burnFrom_debits :
    Debits s who amount (precision = .exact) (burnFrom who amount preservation precision fortitude) := by
  have hburn : burnFrom who amount preservation precision fortitude s =
      (reads (fun _ => ensure (min (balance who s) amount = amount ∨ precision = .bestEffort)
        (.error .fundsUnavailable)) >>= fun _ =>
          decreaseBalance who (min (balance who s) amount) .bestEffort preservation fortitude : XpCall T Nat) s := rfl
  by_cases havailable : min (balance who s) amount = amount ∨ precision = .bestEffort
  · have hcheck : ensure (min (balance who s) amount = amount ∨ precision = .bestEffort)
        (Fault.error .fundsUnavailable) = .ok () := if_pos havailable
    rw [check_bind_of_ok hcheck] at hburn
    have hless := @decreaseBalance_debits T s who (min (balance who s) amount) .bestEffort preservation fortitude
    refine ⟨fun actual t ht => ?_, fun e t ht => hless.atomic e t (hburn.symm.trans ht)⟩
    obtain ⟨xp, hx, -⟩ := hless.moved actual t (hburn.symm.trans ht)
    rcases @decreaseBalance_cases T s who xp (min (balance who s) amount) .bestEffort preservation fortitude hx with
      ⟨actual', hok, heq, -⟩ | ⟨hno, -⟩
    · rw [hburn, hok] at ht
      cases ht
      rw [balance_of_get hx] at heq havailable
      refine ⟨xp, hx, rfl, by omega, by omega, fun hexact => ?_⟩
      rw [hexact] at havailable
      have hall := havailable.resolve_right fun h => by cases h
      omega
    · cases hno
  · have hcheck : ensure (min (balance who s) amount = amount ∨ precision = .bestEffort)
        (Fault.error .fundsUnavailable) = .error (.error .fundsUnavailable) := if_neg havailable
    rw [check_bind_of_error hcheck] at hburn
    exact .of_error hburn

theorem shelve_eq_burnFrom : shelve who amount s = burnFrom who amount .expendable .exact .polite s := by
  unfold shelve burnFrom
  simp only [reduceCtorEq, or_false]

theorem shelve_debits : Debits s who amount True (shelve who amount) where
  moved actual t ht := by
    have hburn := (@burnFrom_debits T s who amount .exact .expendable .polite).moved actual t
      (shelve_eq_burnFrom.symm.trans ht)
    obtain ⟨xp, hx, ht, hle, hamount, heq⟩ := hburn
    exact ⟨xp, hx, ht, hle, hamount, fun _ => heq rfl⟩
  atomic e t ht :=
    (@burnFrom_debits T s who amount .exact .expendable .polite).atomic e t (shelve_eq_burnFrom.symm.trans ht)

theorem canDeposit_iff (hfree : ∀ xp, s.xpOf.get who = some xp → xp.free ≤ T.maxXp) :
    canDeposit who amount .extant s = .success ↔ ∃ actual t, increaseBalance who amount .exact s = .ok actual t := by
  unfold canDeposit
  cases hx : s.xpOf.get who with
  | none =>
    have hno := xpExists_of_none hx
    rw [if_pos (by rw [hno]; rfl)]
    refine iff_of_false (fun h => by cases h) fun ⟨actual, t, h⟩ => ?_
    rw [increaseBalance, reads_bind_of_error hno] at h
    cases h
  | some xp =>
    have hmax := hfree xp hx
    rw [if_neg (by rw [xpExists_of_get hx]; exact Bool.noConfusion), balance_of_get hx]
    rcases @increaseBalance_cases T s who xp amount .exact hx hmax with ⟨actual, hok, -, hexact⟩ | ⟨-, hmore, herror⟩
    · have hfits := (hexact rfl).2
      refine iff_of_true ?_ ⟨actual, _, hok⟩
      simp [checkedAdd, hfits]
    · have hpos : amount ≠ 0 := by omega
      have hnone : checkedAdd T.maxXp xp.free amount = none := if_neg (Nat.not_le.mpr hmore)
      rw [if_neg hpos, if_neg (by decide), if_pos hnone]
      refine iff_of_false (fun h => by cases h) fun ⟨actual, t, h⟩ => ?_
      rw [herror] at h
      cases h

theorem canWithdraw_iff : canWithdraw who amount s = .success ↔
    ∃ actual t, decreaseBalance who amount .exact preservation fortitude s = .ok actual t := by
  unfold canWithdraw
  cases hx : s.xpOf.get who with
  | none =>
    have hno := xpExists_of_none hx
    rw [if_pos (by rw [hno]; rfl)]
    refine iff_of_false (fun h => by cases h) fun ⟨actual, t, h⟩ => ?_
    rw [decreaseBalance, reads_bind_of_error hno] at h
    cases h
  | some xp =>
    rw [if_neg (by rw [xpExists_of_get hx]; exact Bool.noConfusion), balance_of_get hx]
    rcases @decreaseBalance_cases T s who xp amount .exact preservation fortitude hx with
      ⟨actual, hok, -, hexact⟩ | ⟨-, hmore, herror⟩
    · have hcovers := hexact rfl
      refine iff_of_true ?_ ⟨actual, _, hok⟩
      rw [if_neg (Nat.not_lt.mpr hcovers), ite_self]
    · rw [if_neg (by omega), if_pos hmore]
      refine iff_of_false (fun h => by cases h) fun ⟨actual, t, h⟩ => ?_
      rw [herror] at h
      cases h

end Balance

section Entries

variable {s t : XpState T} {who : T.AccountId} {xp : Xp} {pocket : Pocket T} {points total : Nat}
  {call call' : XpCall T Unit}

theorem EntryMoved.refl (h : s.held who pocket = points) : EntryMoved s s who pocket points where
  entry := h
  free _ := rfl
  others _ _ _ := rfl
  aggregate xp xp' hx hx' := by rw [Option.some.inj (hx.symm.trans hx')]

theorem EntryMoved.of_rebooked {new : Option Nat} (hx : s.xpOf.get who = some xp)
    (h : Rebooked s t who xp pocket new total) : EntryMoved s t who pocket (new.getD 0) where
  entry := h.held
  free k := by
    rw [h.record, StorageMap.get_insert]
    split <;> rename_i hk
    · rw [hk, hx, Option.map_some, Option.map_some, pocket.retotalled_free]
    · rfl
  others := h.others
  aggregate xp₀ xp' hx₀ hx' := by
    obtain rfl := Option.some.inj (hx.symm.trans hx₀)
    obtain rfl := Option.some.inj (h.get.symm.trans hx')
    have htotal : pocket.total (pocket.retotalled xp total) = total := by cases pocket <;> rfl
    rw [htotal, h.moved, h.held]

theorem Enters.of_error {e : Fault} (h : call s = .error e s) : Enters s who pocket points call where
  moved t ht := by
    rw [h] at ht
    cases ht
  atomic := atomicAt_of_same h

theorem Enters.of_ok (h : call s = .ok () t) (hmoved : EntryMoved s t who pocket points) :
    Enters s who pocket points call where
  moved t' ht := by
    rw [h] at ht
    cases ht
    exact hmoved
  atomic := atomicAt_of_ok h

theorem Enters.congr (heq : call s = call' s) (h : Enters s who pocket points call') :
    Enters s who pocket points call where
  moved t ht := h.moved t (heq.symm.trans ht)
  atomic e t ht := h.atomic e t (heq.symm.trans ht)

theorem set_of_none (hx : s.xpOf.get who = none) : ∃ e, pocket.set who points s = .error e s := by
  have hno {xp : Xp} (hx' : s.xpOf.get who = some xp) : False := by
    rw [hx] at hx'
    cases hx'
  cases pocket with
  | reserve reason =>
    change ∃ e, setReserve who reason points s = .error e s
    unfold setReserve
    rw [get_bind]
    split
    · cases hcan : canReserveMutate who reason points s with
      | error e => exact ⟨e, reads_bind_of_error hcan⟩
      | ok u =>
        obtain ⟨xp, -, -, hx', -⟩ := canReserveMutate_eq_ok hcan
        exact (hno hx').elim
    · cases hcan : canReserveNew who points s with
      | error e => exact ⟨e, reads_bind_of_error hcan⟩
      | ok u =>
        obtain ⟨xp, hx', -⟩ := canReserveNew_eq_ok hcan
        exact (hno hx').elim
  | lock id =>
    change ∃ e, setLock who id points s = .error e s
    unfold setLock
    rw [get_bind]
    split
    · cases hcan : canLockMutate who id points s with
      | error e => exact ⟨e, reads_bind_of_error hcan⟩
      | ok u =>
        obtain ⟨xp, -, -, hx', -⟩ := canLockMutate_eq_ok hcan
        exact (hno hx').elim
    · cases hcan : canLockNew who points s with
      | error e => exact ⟨e, reads_bind_of_error hcan⟩
      | ok u =>
        obtain ⟨xp, hx', -⟩ := canLockNew_eq_ok hcan
        exact (hno hx').elim

theorem set_enters (pocket : Pocket T) (points : Nat) : Enters s who pocket points (pocket.set who points) := by
  cases hx : s.xpOf.get who with
  | none =>
    obtain ⟨e, he⟩ := @set_of_none T s who pocket points hx
    exact .of_error he
  | some xp =>
    obtain ⟨htakes, hfails⟩ := @Pocket.set_spec T s who xp points pocket hx
    by_cases hcan : s.takes who xp pocket points
    · obtain ⟨t, total, ht, hb⟩ := htakes hcan
      exact .of_ok ht (.of_rebooked hx hb)
    · obtain ⟨e, he⟩ := hfails hcan
      exact .of_error he

/-- A hold of nothing is not opened; any other is set. -/
theorem setBalanceOnHold_enters (reason : T.ReserveReason) (amount : Nat) :
    Enters s who (.reserve reason) amount (setBalanceOnHold reason who amount) := by
  by_cases hskip : (reserveExists who reason s).isOk = false ∧ amount = 0
  · have hnone : s.inPocket who (.reserve reason) = none := by
      by_contra hsome
      have hex := inPocket_reserve_isSome.mpr (Option.ne_none_iff_exists'.mp hsome)
      rw [hskip.1] at hex
      cases hex
    have hok : setBalanceOnHold reason who amount s = .ok () s := by
      unfold setBalanceOnHold
      rw [get_bind, if_pos hskip]
      rfl
    refine .of_ok hok (.refl ?_)
    unfold XpState.held
    rw [hnone, hskip.2]
    rfl
  · refine Enters.congr ?_ (set_enters (.reserve reason) amount)
    unfold setBalanceOnHold
    rw [get_bind, if_neg hskip]
    rfl

theorem getLockXp_of_none {id : T.LockReason} (h : s.inPocket who (.lock id) = none) :
    getLockXp who id s = .error (.error .xpLockNotFound) := by
  change okOr (s.inPocket who (.lock id)) _ = _
  rw [h]
  rfl

/-- A freeze is thawed when the identity has a record with it; its points are then off the total. -/
theorem thaw_spec (hagg : Aggregated s) (id : T.LockReason) :
    (∃ e, thaw id who s = .error e s) ∨
      ∃ xp t total, s.xpOf.get who = some xp ∧ thaw id who s = .ok () t ∧
        Rebooked s t who xp (.lock id) none total := by
  unfold thaw
  cases hx : s.xpOf.get who with
  | none => exact .inl ⟨_, reads_bind_of_error (xpExists_of_none hx)⟩
  | some xp =>
    rw [reads_bind_of_ok (xpExists_of_get hx)]
    cases hin : s.inPocket who (.lock id) with
    | none => exact .inl ⟨_, reads_bind_of_error (getLockXp_of_none hin)⟩
    | some old =>
      obtain ⟨t, total, ht, hb⟩ := burnLock_spec hx hin (lock_covers (hagg who xp hx) hin)
      exact .inr ⟨xp, t, total, rfl, ht, hb⟩

theorem thaw_enters (hagg : Aggregated s) (id : T.LockReason) : Enters s who (.lock id) 0 (thaw id who) := by
  rcases @thaw_spec T s who hagg id with ⟨e, he⟩ | ⟨xp, t, total, hx, ht, hb⟩
  · exact .of_error he
  · exact .of_ok ht (.of_rebooked hx hb)

theorem setFreeze_enters (hagg : Aggregated s) (id : T.LockReason) (amount : Nat) :
    Enters s who (.lock id) amount (setFreeze id who amount) := by
  by_cases hthaw : (lockExists who id s).isOk = true ∧ amount = 0
  · have heq : setFreeze id who amount s = thaw id who s := by
      unfold setFreeze
      rw [get_bind, if_pos hthaw]
    rw [hthaw.2] at heq ⊢
    exact .congr heq (thaw_enters hagg id)
  · refine Enters.congr ?_ (set_enters (.lock id) amount)
    unfold setFreeze
    rw [get_bind, if_neg hthaw]
    rfl

theorem extendFreeze_enters (id : T.LockReason) (amount : Nat) :
    Enters s who (.lock id) (max (s.held who (.lock id)) amount) (extendFreeze id who amount) := by
  unfold extendFreeze
  by_cases hzero : amount = 0
  · rw [if_pos hzero, hzero, Nat.max_zero]
    exact .of_ok rfl (.refl rfl)
  · rw [if_neg hzero]
    cases hin : s.inPocket who (.lock id) with
    | none => exact .of_error (reads_bind_of_error (getLockXp_of_none hin))
    | some old =>
      have hheld : s.held who (.lock id) = old := by
        unfold XpState.held
        rw [hin]
        rfl
      rw [hheld]
      exact .congr (reads_bind_of_ok (okOr_eq_ok.mpr hin)) (set_enters (.lock id) (max old amount))

theorem balanceFrozen_eq_held (id : T.LockReason) : balanceFrozen id who s = s.held who (.lock id) := by
  unfold balanceFrozen XpState.held
  cases hin : s.inPocket who (.lock id) with
  | none =>
    have hex : (lockExists who id s).isOk = false := by
      by_contra hok
      obtain ⟨old, hold⟩ := inPocket_lock_isSome.mp (Bool.not_eq_false _ ▸ hok)
      rw [hin] at hold
      cases hold
    rw [if_pos hex]
    rfl
  | some old =>
    have hex : (lockExists who id s).isOk = true := inPocket_lock_isSome.mpr ⟨old, hin⟩
    have hread : getLockXp who id s = .ok old := okOr_eq_ok.mpr hin
    rw [if_neg (by rw [hex]; exact Bool.noConfusion), hread]
    rfl

theorem increaseFrozen_enters {setFrozen : SetFrozen T} (hagg : Aggregated s)
    (hforce : ∀ id who amount, setFrozen id who amount .force = setFreeze id who amount) (id : T.LockReason)
    (amount : Nat) :
    Enters s who (.lock id) (s.held who (.lock id) + amount) (increaseFrozen setFrozen id who amount) := by
  by_cases hfits : s.held who (.lock id) + amount ≤ T.maxXp
  · refine Enters.congr ?_ (setFreeze_enters hagg id (s.held who (.lock id) + amount))
    have hsum : okOr (checkedAdd T.maxXp (balanceFrozen id who s) amount) (Fault.error .xpCapOverflowed) =
        .ok (s.held who (.lock id) + amount) := by
      rw [balanceFrozen_eq_held]
      exact okOr_eq_ok.mpr (checkedAdd_eq_some.mpr ⟨rfl, hfits⟩)
    unfold increaseFrozen
    rw [get_bind, check_bind_of_ok hsum, hforce]
  · have hsum : okOr (checkedAdd T.maxXp (balanceFrozen id who s) amount) (Fault.error .xpCapOverflowed) =
        .error (.error .xpCapOverflowed) := by
      rw [balanceFrozen_eq_held, checkedAdd, if_neg hfits]
      rfl
    refine .of_error (e := .error .xpCapOverflowed) ?_
    unfold increaseFrozen
    rw [get_bind, check_bind_of_error hsum]

end Entries

/-- With totals that are those of their entries, and balances of their type, every identity is kept as the
token traits promise. -/
theorem keeps_ledger_contract {setFrozen : SetFrozen T} {s : XpState T} {who : T.AccountId} (hagg : Aggregated s)
    (hfree : ∀ xp, s.xpOf.get who = some xp → xp.free ≤ T.maxXp)
    (hforce : ∀ id who amount, setFrozen id who amount .force = setFreeze id who amount) :
    LedgerContract setFrozen s who where
  increases _ _ := increaseBalance_credits hfree
  decreases _ _ _ _ := decreaseBalance_debits
  mints _ := (increaseBalance_credits hfree).mono fun _ => rfl
  burns _ _ _ _ := burnFrom_debits
  shelves _ := shelve_debits
  restores _ := (increaseBalance_credits hfree).mono fun _ => rfl
  holds reason amount := setBalanceOnHold_enters reason amount
  freezes id amount := setFreeze_enters hagg id amount
  extendsFrozen id amount := extendFreeze_enters id amount
  increasesFrozen id amount := increaseFrozen_enters hagg hforce id amount
  thaws id := thaw_enters hagg id
  thawed id t ht := by
    rcases @thaw_spec T s who hagg id with ⟨e, he⟩ | ⟨xp, t', total, -, ht', hb⟩
    · rw [he] at ht
      cases ht
    · rw [ht'] at ht
      cases ht
      exact hb.entry
  deposits _ := canDeposit_iff hfree
  withdrawals _ _ _ := canWithdraw_iff

/-- The default of the token traits: a forced freeze is set, a polite one needs the balance. -/
def setFrozenByDefault : SetFrozen T := fun id who amount fortitude => do
  let s ← get
  reads fun _ => ensure (fortitude = .force ∨ amount ≤ reducibleBalance who .expendable .force s)
    (.error .fundsUnavailable)
  setFreeze id who amount

theorem brimming_aggregated : Aggregated brimming := by
  have hcreated := @Tallied.perform mockXp _ (tallied_build { mockGenesis with minPulse := 0 })
    (.createXp (1 : Nat) (7 : Nat)) ⟨by decide +kernel, by decide +kernel⟩
  have hlocked := @Tallied.perform mockXp _ hcreated (.lockXp (7 : Nat) Reason.staking 10) trivial
  exact (@Tallied.perform mockXp _ hlocked (.earnXp (7 : Nat) (2 ^ 64 - 1)) trivial).aggregated

theorem brimming_keeps_ledger_contract : LedgerContract (setFrozenByDefault (T := mockXp)) brimming (7 : Nat) := by
  refine @keeps_ledger_contract mockXp _ brimming (7 : Nat) brimming_aggregated (fun xp hx => ?_) fun id who amount => ?_
  · obtain rfl := Option.some.inj (hx.symm.trans brimming_get)
    decide
  · funext s
    have hforced : ensure ((Fortitude.force : Fortitude) = .force ∨ amount ≤ reducibleBalance who .expendable .force s)
        (Fault.error .fundsUnavailable) = .ok () := if_pos (.inl rfl)
    unfold setFrozenByDefault
    rw [get_bind, check_bind_of_ok hforced]

end FrameSuite.XpAdapter
