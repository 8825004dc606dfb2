import FrameSuite.CommitPallet
import FrameSuite.ShareSolvency

/-! The balances of all digests seen as one vault, indexed by reason, digest and variant
index. Every write of the pallet to a digest touches one location; the value held, the
solvency and the known digests follow from that location alone. -/

namespace FrameSuite

open ShareBalance

variable {T : Config}

abbrev Location (T : Config) := T.Reason × T.AccountId × Nat

def location (reason : T.Reason) (digest : T.AccountId) (variant : T.Position) : Location T :=
  (reason, digest, T.positionIndex variant)

def DigestInfo.at (info : DigestInfo T) (i : Nat) : LazyBalance T := (info.balances[i]?).getD none

/-- The balance at a location, default where nothing has been initiated. -/
def balanceAt (m : DigestMap T) (loc : Location T) : LazyBalance T :=
  match m.get (loc.1, loc.2.1) with
  | none => none
  | some info => info.at loc.2.2

/-- The location has a slot in the balance vector of its digest. -/
def Initiated (m : DigestMap T) (loc : Location T) : Prop :=
  ∃ info, m.get (loc.1, loc.2.1) = some info ∧ loc.2.2 < info.balances.length

def DigestInfo.value (info : DigestInfo T) : Nat := (info.balances.map totalValue).sum

/-- The effective value of all digests, each reason weighted. -/
def liveValue (w : T.Reason → Nat) (m : DigestMap T) : Nat :=
  m.sum fun key info => w key.1 * info.value

/-- The second map is the first with one balance changed. -/
structure Touch (m m' : DigestMap T) (loc : Location T) (b b' : LazyBalance T) : Prop where
  before : balanceAt m loc = b
  after : ∀ l, balanceAt m' l = if l = loc then b' else balanceAt m l
  live : ∀ w : T.Reason → Nat,
    liveValue w m' + w loc.1 * totalValue b = liveValue w m + w loc.1 * totalValue b'
  contains : ∀ key, m'.containsKey key = m.containsKey key
  initiated : Initiated m' loc
  keeps : ∀ l, Initiated m l → Initiated m' l

/-- The second vector of balances is the first with one balance changed. -/
structure InfoTouch (info info' : DigestInfo T) (i : Nat) (b b' : LazyBalance T) : Prop where
  before : info.at i = b
  after : ∀ j, info'.at j = if j = i then b' else info.at j
  value : info'.value + totalValue b = info.value + totalValue b'
  lt : i < info'.balances.length
  length_le : info.balances.length ≤ info'.balances.length

theorem InfoTouch.touch {m : DigestMap T} {reason : T.Reason} {digest : T.AccountId}
    {info info' : DigestInfo T} {i : Nat} {b b' : LazyBalance T}
    (hm : m.get (reason, digest) = some info) (h : InfoTouch info info' i b b') :
    Touch m (m.insert (reason, digest) info') (reason, digest, i) b b' := by
  refine ⟨?_, fun l => ?_, fun w => ?_, fun key => ?_, ?_, fun l hl => ?_⟩
  · simpa [balanceAt, hm] using h.before
  · obtain ⟨r, d, j⟩ := l
    by_cases hk : (r, d) = (reason, digest)
    · obtain ⟨rfl, rfl⟩ := Prod.mk.inj hk
      simp only [balanceAt, StorageMap.get_insert_self, hm, h.after, Prod.mk.injEq, true_and]
    · have hne : (r, d, j) ≠ (reason, digest, i) := fun he => hk (by
        obtain ⟨rfl, hd⟩ := Prod.mk.inj he
        rw [(Prod.mk.inj hd).1])
      simp only [balanceAt, StorageMap.get_insert_of_ne hk, if_neg hne]
  · have hs := StorageMap.sum_insert (fun key (info : DigestInfo T) => w key.1 * info.value) m
      (reason, digest) info'
    rw [hm, Option.elim_some] at hs
    have hv := congrArg (fun n => w reason * n) h.value
    simp only [Nat.mul_add] at hv
    unfold liveValue
    dsimp only at *
    omega
  · by_cases hk : key = (reason, digest)
    · simp [StorageMap.containsKey, hk, hm]
    · simp [StorageMap.containsKey, StorageMap.get_insert_of_ne hk]
  · exact ⟨info', StorageMap.get_insert_self .., h.lt⟩
  · obtain ⟨x, hx, hlt⟩ := hl
    by_cases hk : (l.1, l.2.1) = (reason, digest)
    · rw [hk, hm] at hx
      obtain rfl := Option.some.inj hx
      refine ⟨info', ?_, lt_of_lt_of_le hlt h.length_le⟩
      rw [hk, StorageMap.get_insert_self]
    · exact ⟨x, by rw [StorageMap.get_insert_of_ne hk, hx], hlt⟩

theorem sum_map_set {α : Type} (f : α → Nat) {l : List α} {i : Nat} {a : α} (h : l[i]? = some a)
    (b : α) : ((l.set i b).map f).sum + f a = (l.map f).sum + f b := by
  induction l generalizing i with
  | nil => simp at h
  | cons x l ih =>
    cases i with
    | zero =>
      simp only [List.getElem?_cons_zero, Option.some.injEq] at h
      simp only [List.set_cons_zero, List.map_cons, List.sum_cons, h]
      omega
    | succ i =>
      have := ih (i := i) (by simpa using h)
      simp only [List.set_cons_succ, List.map_cons, List.sum_cons]
      omega

theorem DigestInfo.setBalance_touch {info : DigestInfo T} {variant : T.Position} {b : LazyBalance T}
    (h : info.getBalance variant = some b) (b' : LazyBalance T) :
    InfoTouch info (info.setBalance variant b') (T.positionIndex variant) b b' := by
  unfold DigestInfo.getBalance at h
  have hlt := (List.getElem?_eq_some_iff.mp h).1
  refine ⟨by simp [DigestInfo.at, h], fun j => ?_, ?_, ?_, ?_⟩
  · unfold DigestInfo.at DigestInfo.setBalance
    rw [List.getElem?_set]
    by_cases hj : j = T.positionIndex variant
    · simp [hj, hlt]
    · rw [if_neg (Ne.symm hj), if_neg hj]
  · exact sum_map_set totalValue h b'
  · simpa [DigestInfo.setBalance] using hlt
  · simp [DigestInfo.setBalance]

theorem DigestInfo.initBalance_spec {info info' : DigestInfo T} {variant : T.Position}
    (h : info.initBalance variant = .ok info') :
    (∀ i, info'.at i = info.at i) ∧ info'.value = info.value ∧
      info.balances.length ≤ info'.balances.length := by
  unfold DigestInfo.initBalance at h
  dsimp only at h
  split at h
  · cases h
    refine ⟨fun i => ?_, ?_, by simp⟩
    · unfold DigestInfo.at
      dsimp only
      rw [List.getElem?_append]
      split
      · rfl
      · rename_i hlt
        rw [List.getElem?_replicate, List.getElem?_eq_none (Nat.le_of_not_lt hlt)]
        split <;> rfl
    · simp [DigestInfo.value]
  · cases h

theorem liftShare_eq_ok {α : Type} {outcome : ShareOutcome T.share α} {a : α} {b : LazyBalance T} :
    liftShare outcome = .ok (a, b) ↔ outcome = (.ok a, b) := by
  obtain ⟨r, b'⟩ := outcome
  cases r <;> simp [liftShare]

theorem DigestInfo.deposit_spec {info info' : DigestInfo T} {variant : T.Position}
    {value amount : Nat} {receipt : CommitInstance T}
    (h : info.deposit variant value = .ok (info', amount, receipt)) :
    ∃ r after, amount = value ∧ receipt = some r ∧
      Deposited (info.at (T.positionIndex variant)) value r after ∧
      InfoTouch info info' (T.positionIndex variant) (info.at (T.positionIndex variant))
        (some after) := by
  obtain ⟨mid, hmid, h⟩ := bind_eq_ok.mp h
  obtain ⟨b, hb, h⟩ := bind_eq_ok.mp h
  obtain ⟨⟨⟨deposited, r⟩, nb⟩, hd, h⟩ := bind_eq_ok.mp h
  simp only [pure_eq_ok, Prod.mk.injEq] at h
  obtain ⟨rfl, rfl, rfl⟩ := h
  rw [okOr_eq_ok] at hb
  obtain ⟨after, hval, rfl, hdep⟩ := deposit_eq_ok.mp (liftShare_eq_ok.mp hd)
  have hset := DigestInfo.setBalance_touch hb (some after)
  have hinit : (∀ i, mid.at i = info.at i) ∧ mid.value = info.value ∧
      info.balances.length ≤ mid.balances.length := by
    unfold DigestInfo.ensureBalance at hmid
    split at hmid
    · cases hmid
      exact ⟨fun _ => rfl, rfl, le_refl _⟩
    · exact DigestInfo.initBalance_spec hmid
  obtain ⟨hat, hvalue, hlen⟩ := hinit
  have hbe := hset.before
  rw [hat] at hbe
  refine ⟨r, after, hval, rfl, hbe ▸ hdep, rfl, fun j => ?_, ?_, hset.lt, hlen.trans hset.length_le⟩
  · rw [hset.after, hat]
  · rw [hbe, ← hvalue]
    exact hset.value

theorem DigestInfo.withdraw_spec {info info' : DigestInfo T} {variant : T.Position}
    {receipt : CommitInstance T} {take : Nat} (h : info.withdraw variant receipt = .ok (info', take)) :
    ∃ b r derived after, info.at (T.positionIndex variant) = some b ∧ receipt = some r ∧
      Withdrawn b r derived take after ∧
      InfoTouch info info' (T.positionIndex variant) (some b) (some after) := by
  obtain ⟨bal, hb, h⟩ := bind_eq_ok.mp h
  obtain ⟨⟨taken, nb⟩, hw, h⟩ := bind_eq_ok.mp h
  simp only [pure_eq_ok, Prod.mk.injEq] at h
  obtain ⟨rfl, rfl⟩ := h
  rw [okOr_eq_ok] at hb
  obtain ⟨b, r, derived, after, rfl, rfl, rfl, hwd⟩ := withdraw_eq_ok (liftShare_eq_ok.mp hw)
  have hset := DigestInfo.setBalance_touch hb (some after)
  exact ⟨b, r, derived, after, hset.before, rfl, hwd, hset⟩

/-- Every balance of the vault backs its price. -/
def AllSolvent (m : DigestMap T) : Prop := ∀ loc b, balanceAt m loc = some b → Solvent b

theorem Touch.allSolvent {m m' : DigestMap T} {loc : Location T} {b b' : LazyBalance T}
    (h : Touch m m' loc b b') (hm : AllSolvent m) (hb : ∀ c, b' = some c → Solvent c) :
    AllSolvent m' := by
  intro l c hc
  rw [h.after] at hc
  split at hc
  · exact hb c hc
  · exact hm l c hc

/-- The shares issued at a location. -/
def issuedAt (m : DigestMap T) (loc : Location T) : Nat := issuedShares (balanceAt m loc)

theorem Touch.issued {m m' : DigestMap T} {loc : Location T} {b b' : LazyBalance T}
    (h : Touch m m' loc b b') (l : Location T) :
    issuedAt m' l = if l = loc then issuedShares b' else issuedAt m l := by
  unfold issuedAt
  rw [h.after]
  split <;> rfl

theorem AllSolvent.fresh {m : DigestMap T} (hm : AllSolvent m) (loc : Location T) :
    Solvent (isFreshBalance (balanceAt m loc)) :=
  solvent_isFreshBalance fun b hb => hm loc b hb

theorem insert_default_spec {m : DigestMap T} {key : T.Reason × T.AccountId} (hm : m.get key = none) :
    (∀ l, balanceAt (m.insert key DigestInfo.default) l = balanceAt m l) ∧
      ∀ w, liveValue w (m.insert key DigestInfo.default) = liveValue w m := by
  refine ⟨fun l => ?_, fun w => ?_⟩
  · by_cases hk : (l.1, l.2.1) = key
    · simp [balanceAt, hk, hm, DigestInfo.at, DigestInfo.default]
    · simp [balanceAt, StorageMap.get_insert_of_ne hk]
  · have hs := StorageMap.sum_insert (fun key (info : DigestInfo T) => w key.1 * info.value) m key
      DigestInfo.default
    have hz : (DigestInfo.default : DigestInfo T).value = 0 := rfl
    rw [hm, Option.elim_none, hz, Nat.mul_zero] at hs
    exact hs

/-- Receipts with the location they were issued at. -/
abbrev Claims (T : Config) := List (Location T × Receipt T.share)

/-- The sum of a weight over receipts. -/
def tally (φ : Location T → Receipt T.share → Nat) (claims : Claims T) : Nat :=
  (claims.map fun c => φ c.1 c.2).sum

@[simp] theorem tally_nil (φ : Location T → Receipt T.share → Nat) : tally φ [] = 0 := rfl

@[simp] theorem tally_cons (φ : Location T → Receipt T.share → Nat) (loc : Location T)
    (r : Receipt T.share) (claims : Claims T) :
    tally φ ((loc, r) :: claims) = φ loc r + tally φ claims := by
  simp [tally]

@[simp] theorem tally_append (φ : Location T → Receipt T.share → Nat) (xs ys : Claims T) :
    tally φ (xs ++ ys) = tally φ xs + tally φ ys := by
  simp [tally]

def principalBy (w : T.Reason → Nat) (loc : Location T) (r : Receipt T.share) : Nat :=
  w loc.1 * r.principal

def sharesAt (l loc : Location T) (r : Receipt T.share) : Nat := if loc = l then r.shares else 0

/-- The second map is the first after deposits that issued the receipts, in order. -/
inductive Deposits : DigestMap T → Claims T → DigestMap T → Prop
  | nil (m : DigestMap T) : Deposits m [] m
  | cons {m m₁ m₂ : DigestMap T} {loc : Location T} {r : Receipt T.share} {after : Balance T.share}
      {claims : Claims T} (touch : Touch m m₁ loc (balanceAt m loc) (some after))
      (deposited : Deposited (balanceAt m loc) r.principal r after) (rest : Deposits m₁ claims m₂) :
      Deposits m ((loc, r) :: claims) m₂

/-- The second map is the first after withdrawals of the receipts, in order, that paid
the amount in total. -/
inductive Withdraws : DigestMap T → Claims T → Nat → DigestMap T → Prop
  | nil (m : DigestMap T) : Withdraws m [] 0 m
  | cons {m m₁ m₂ : DigestMap T} {loc : Location T} {b after : Balance T.share}
      {r : Receipt T.share} {derived w taken : Nat} {claims : Claims T}
      (touch : Touch m m₁ loc (some b) (some after)) (withdrawn : Withdrawn b r derived w after)
      (rest : Withdraws m₁ claims taken m₂) : Withdraws m ((loc, r) :: claims) (w + taken) m₂

theorem Deposits.append {m m₁ m₂ : DigestMap T} {xs ys : Claims T} (h : Deposits m xs m₁)
    (h' : Deposits m₁ ys m₂) : Deposits m (xs ++ ys) m₂ := by
  induction h with
  | nil m => exact h'
  | cons touch dep rest ih => exact .cons touch dep (ih h')

theorem Withdraws.append {m m₁ m₂ : DigestMap T} {xs ys : Claims T} {t t' : Nat}
    (h : Withdraws m xs t m₁) (h' : Withdraws m₁ ys t' m₂) : Withdraws m (xs ++ ys) (t + t') m₂ := by
  induction h with
  | nil m => simpa using h'
  | cons touch wd rest ih =>
    rw [Nat.add_assoc]
    exact .cons touch wd (ih h')

theorem Deposits.allSolvent {m m' : DigestMap T} {claims : Claims T} (h : Deposits m claims m')
    (hs : AllSolvent m) : AllSolvent m' := by
  induction h with
  | nil m => exact hs
  | cons touch dep rest ih =>
    exact ih (touch.allSolvent hs fun c hc => Option.some.inj hc ▸ dep.solvent (hs.fresh _))

theorem Withdraws.allSolvent {m m' : DigestMap T} {claims : Claims T} {taken : Nat}
    (h : Withdraws m claims taken m') (hs : AllSolvent m) : AllSolvent m' := by
  induction h with
  | nil m => exact hs
  | cons touch wd rest ih =>
    exact ih (touch.allSolvent hs fun c hc =>
      Option.some.inj hc ▸ wd.solvent (hs _ _ touch.before))

theorem Deposits.contains {m m' : DigestMap T} {claims : Claims T} (h : Deposits m claims m')
    (key : T.Reason × T.AccountId) : m'.containsKey key = m.containsKey key := by
  induction h with
  | nil m => rfl
  | cons touch dep rest ih => rw [ih, touch.contains]

theorem Withdraws.contains {m m' : DigestMap T} {claims : Claims T} {taken : Nat}
    (h : Withdraws m claims taken m') (key : T.Reason × T.AccountId) :
    m'.containsKey key = m.containsKey key := by
  induction h with
  | nil m => rfl
  | cons touch wd rest ih => rw [ih, touch.contains]

theorem Deposits.keeps {m m' : DigestMap T} {claims : Claims T} (h : Deposits m claims m')
    {l : Location T} (hl : Initiated m l) : Initiated m' l := by
  induction h with
  | nil m => exact hl
  | cons touch dep rest ih => exact ih (touch.keeps l hl)

theorem Withdraws.keeps {m m' : DigestMap T} {claims : Claims T} {taken : Nat}
    (h : Withdraws m claims taken m') {l : Location T} (hl : Initiated m l) : Initiated m' l := by
  induction h with
  | nil m => exact hl
  | cons touch wd rest ih => exact ih (touch.keeps l hl)

theorem Deposits.live {m m' : DigestMap T} {claims : Claims T} (h : Deposits m claims m')
    (w : T.Reason → Nat) : liveValue w m' = liveValue w m + tally (principalBy w) claims := by
  induction h with
  | nil m => rfl
  | @cons m m₁ m₂ loc r after claims touch dep rest ih =>
    have hl := touch.live w
    have hv : totalValue (some after) = totalValue (balanceAt m loc) + r.principal := by
      rw [dep.after_eq, totalValue_some, totalValue_isFreshBalance]
    rw [hv, Nat.mul_add] at hl
    rw [ih, tally_cons, principalBy]
    omega

theorem Deposits.issued {m m' : DigestMap T} {claims : Claims T} (h : Deposits m claims m')
    (l : Location T) : issuedAt m' l = issuedAt m l + tally (sharesAt l) claims := by
  induction h with
  | nil m => rfl
  | @cons m m₁ m₂ loc r after claims touch dep rest ih =>
    rw [ih, touch.issued, tally_cons, sharesAt]
    by_cases hl : l = loc
    · subst hl
      rw [if_pos rfl, if_pos rfl, dep.after_eq, issuedShares_some]
      dsimp only
      rw [issuedShares_isFreshBalance, issuedAt]
      omega
    · rw [if_neg hl, if_neg (Ne.symm hl)]
      omega

theorem Withdraws.live {m m' : DigestMap T} {claims : Claims T} {taken : Nat}
    (h : Withdraws m claims taken m') (hs : AllSolvent m) {reason : T.Reason}
    (hr : ∀ c ∈ claims, c.1.1 = reason) (w : T.Reason → Nat) :
    liveValue w m' + w reason * taken = liveValue w m := by
  induction h with
  | nil m => rfl
  | @cons m m₁ m₂ loc b after r derived v taken claims touch wd rest ih =>
    have hsb := hs _ _ touch.before
    have hl := touch.live w
    have hb := (wd.effective_add hsb).1
    have hr0 : loc.1 = reason := hr _ (List.mem_cons_self ..)
    have hi := ih (touch.allSolvent hs fun c hc => Option.some.inj hc ▸ wd.solvent hsb)
      fun c hc => hr c (List.mem_cons_of_mem _ hc)
    rw [totalValue_some, totalValue_some, ← hb, Nat.mul_add, hr0] at hl
    rw [Nat.mul_add]
    omega

theorem Withdraws.issued {m m' : DigestMap T} {claims : Claims T} {taken : Nat}
    (h : Withdraws m claims taken m') (hs : AllSolvent m) (l : Location T) :
    issuedAt m' l + tally (sharesAt l) claims = issuedAt m l := by
  induction h with
  | nil m => rfl
  | @cons m m₁ m₂ loc b after r derived v taken claims touch wd rest ih =>
    have hsb := hs _ _ touch.before
    have hi := ih (touch.allSolvent hs fun c hc => Option.some.inj hc ▸ wd.solvent hsb)
    have hb := (wd.effective_add hsb).2
    rw [touch.issued] at hi
    rw [tally_cons, sharesAt]
    by_cases hl : l = loc
    · subst hl
      have hbefore : issuedAt m l = b.issued := by rw [issuedAt, touch.before, issuedShares_some]
      rw [if_pos rfl, issuedShares_some] at hi
      rw [if_pos rfl, hbefore]
      omega
    · rw [if_neg hl] at hi
      rw [if_neg (Ne.symm hl)]
      omega

end FrameSuite
