import FrameSuite.CommitQueries
import FrameSuite.PoolProgress
import FrameSuite.PoolQueries
import FrameSuite.ShareRuns

/-! What the slots of a pool and the whole pool are shown to be worth, against what a release of the
pool returns and what its members are shown. A slot without funds is asked for the balance of a
variant that its digest may never have had. -/

namespace FrameSuite

open ShareBalance

variable {T : Config}

section Queries

def getSlotValue (s : State T) (reason : T.Reason) (poolOf slotOf : T.AccountId) :
    Except DispatchError Nat := do
  slotExists s reason poolOf slotOf
  let pool ← getPool s reason poolOf
  let slot ← okOr (pool.slots.find? fun slot => slot.digest = slotOf) .slotOfPoolNotFound
  let info ← okOr (s.digestMap.get (reason, slot.digest)) .slotDigestNotFound
  let balance ← okOr (info.getBalance slot.variant) .digestVariantBalanceNotFound
  if slot.commit = none then pure 0
  else (receiptActiveValue balance slot.commit).mapError DispatchError.balance

def slotsValues (s : State T) (reason : T.Reason) (poolOf : T.AccountId) :
    List (T.AccountId × Nat) → Except DispatchError (List (T.AccountId × Nat))
  | [] => .ok []
  | (slotOf, _) :: slots => do
    let value ← getSlotValue s reason poolOf slotOf
    let values ← slotsValues s reason poolOf slots
    pure ((slotOf, value) :: values)

def poolExists (s : State T) (reason : T.Reason) (poolOf : T.AccountId) : Except DispatchError Unit :=
  ensure (s.poolMap.containsKey (reason, poolOf) = true) .poolNotFound

def getSlotsValue (s : State T) (reason : T.Reason) (poolOf : T.AccountId) :
    Except DispatchError (List (T.AccountId × Nat)) := do
  poolExists s reason poolOf
  let slots ← getSlotsShares s reason poolOf
  slotsValues s reason poolOf slots

def getPoolValue (s : State T) (reason : T.Reason) (poolOf : T.AccountId) : Except DispatchError Nat := do
  poolExists s reason poolOf
  let values ← getSlotsValue s reason poolOf
  pure (values.foldl (fun value slot => saturatingAdd T.share.maxAsset value slot.2) 0)

end Queries

section Slots

/-- What a slot holds can be priced at its digest. A slot that holds nothing has a digest that was
initiated for the variant of the slot all the same. -/
def SlotShown (m : DigestMap T) (reason : T.Reason) (slot : SlotInfo T) : Prop :=
  match slot.commit with
  | none => Initiated m (location reason slot.digest slot.variant)
  | some r => ∃ b, balanceAt m (location reason slot.digest slot.variant) = some b ∧ redeemable b r = true

variable {s : State T} {reason : T.Reason} {poolOf : T.AccountId} {pool : PoolInfo T} {slot : SlotInfo T}

theorem Accounted.slot_shares (h : Accounted s) (hp : s.poolMap.get (reason, poolOf) = some pool)
    (hm : slot ∈ pool.slots) {r : Receipt T.share} (hc : slot.commit = some r) :
    r.shares ≠ 0 ∧ r.shares ≤ issuedAt s.digestMap (location reason slot.digest slot.variant) := by
  have hclaim := mem_slotClaims reason hm hc
  have hle : sharesAt (location reason slot.digest slot.variant) (location reason slot.digest slot.variant) r ≤
      tally (sharesAt (location reason slot.digest slot.variant)) (slotClaims reason pool.slots) := le_tally hclaim
  have hslots : tally (sharesAt (location reason slot.digest slot.variant)) (slotClaims reason pool.slots) ≤
      slotHeld (sharesAt (location reason slot.digest slot.variant)) s.poolMap :=
    StorageMap.le_sum (f := fun key (pool : PoolInfo T) => tally _ (slotClaims key.1 pool.slots)) hp
  have hd := h.digests (location reason slot.digest slot.variant)
  rw [sharesAt, if_pos rfl] at hle
  unfold positioned at hd
  exact ⟨(h.tidy _ pool hp).shares_ne slot hm r hc, by omega⟩

theorem SlotShown.initiated {m : DigestMap T} (h : SlotShown m reason slot) :
    ∃ info balance, m.get (reason, slot.digest) = some info ∧ info.getBalance slot.variant = some balance := by
  unfold SlotShown at h
  cases hc : slot.commit with
  | none =>
    rw [hc] at h
    have hinit : Initiated m (location reason slot.digest slot.variant) := h
    obtain ⟨info, hi, -⟩ := h
    obtain ⟨balance, hb⟩ := (initiated_iff hi).mp hinit
    exact ⟨info, balance, hi, hb⟩
  | some r =>
    rw [hc] at h
    obtain ⟨b, hb, -⟩ := h
    obtain ⟨info, hi, hb⟩ := getBalance_of_balanceAt hb
    exact ⟨info, some b, hi, hb⟩

theorem getSlotValue_eq_ok (h : Accounted s) (hp : s.poolMap.get (reason, poolOf) = some pool)
    (hm : slot ∈ pool.slots) {value : Nat} : getSlotValue s reason poolOf slot.digest = .ok value ↔
      SlotShown s.digestMap reason slot ∧ value = slotValue s.digestMap reason slot := by
  have hfind : (pool.slots.find? fun other => other.digest = slot.digest) = some slot := find?_key pool.nodup hm
  have hexists : slotExists s reason poolOf slot.digest = .ok () := by
    rw [slotExists, getPool, hp]
    exact ensure_eq_ok.mpr (List.any_eq_true.mpr ⟨slot, hm, by simp⟩)
  constructor
  · intro hv
    obtain ⟨_, -, hv⟩ := bind_eq_ok.mp hv
    obtain ⟨pool', hp', hv⟩ := bind_eq_ok.mp hv
    rw [getPool, okOr_eq_ok] at hp'
    obtain rfl := Option.some.inj (hp.symm.trans hp')
    obtain ⟨slot', hs', hv⟩ := bind_eq_ok.mp hv
    rw [okOr_eq_ok] at hs'
    obtain rfl := Option.some.inj (hfind.symm.trans hs')
    obtain ⟨info, hi, hv⟩ := bind_eq_ok.mp hv
    rw [okOr_eq_ok] at hi
    obtain ⟨balance, hb, hv⟩ := bind_eq_ok.mp hv
    rw [okOr_eq_ok] at hb
    have hat := balanceAt_of_getBalance hi hb
    unfold SlotShown slotValue
    rw [hat]
    by_cases hc : slot.commit = none
    · rw [if_pos hc] at hv ⊢
      rw [hc]
      exact ⟨(initiated_iff hi).mpr ⟨balance, hb⟩, (pure_eq_ok.mp hv).symm⟩
    · rw [if_neg hc, mapError_eq_ok] at hv
      rw [if_neg hc, hv]
      have hok : (receiptActiveValue balance slot.commit).isOk = true := by
        rw [hv]
        rfl
      obtain ⟨b, r, rfl, hr, hactive⟩ := active_iff.mp hok
      rw [hr]
      exact ⟨⟨b, rfl, hactive.redeemable⟩, rfl⟩
  · rintro ⟨hshown, rfl⟩
    obtain ⟨info, balance, hi, hb⟩ := hshown.initiated
    have hat := balanceAt_of_getBalance hi hb
    have hvalue : (if slot.commit = none then pure 0
        else (receiptActiveValue balance slot.commit).mapError DispatchError.balance) =
        Except.ok (slotValue s.digestMap reason slot) := by
      unfold slotValue
      rw [hat]
      by_cases hc : slot.commit = none
      · rw [if_pos hc, if_pos hc]
        rfl
      · obtain ⟨r, hr⟩ := Option.ne_none_iff_exists'.mp hc
        obtain ⟨hne, hle⟩ := h.slot_shares hp hm hr
        unfold SlotShown at hshown
        rw [hr] at hshown
        obtain ⟨b, hbal, hred⟩ := hshown
        rw [issuedAt, hbal, issuedShares_some] at hle
        obtain rfl := hat.symm.trans hbal
        obtain ⟨v, hv⟩ := exists_eq_ok (active_iff.mpr ⟨b, r, rfl, hr, hne, hle, hred⟩)
        rw [if_neg hc, if_neg hc, hv]
        rfl
    unfold getSlotValue
    rw [hexists]
    simp only [getPool, hp, hfind, hi, hb, okOr, bind, Except.bind]
    exact hvalue

end Slots

section Totals

variable {s : State T} {reason : T.Reason} {poolOf : T.AccountId} {pool : PoolInfo T}

theorem foldl_saturatingAdd {ι : Type} (bound : Nat) (values : List (ι × Nat)) (total : Nat)
    (h : total ≤ bound) : values.foldl (fun value item => saturatingAdd bound value item.2) total =
      min (total + (values.map Prod.snd).sum) bound := by
  induction values generalizing total with
  | nil => simp [h]
  | cons item values ih =>
    rw [List.foldl_cons, ih (saturatingAdd bound total item.2) (Nat.min_le_right ..), List.map_cons, List.sum_cons]
    unfold saturatingAdd
    omega

theorem slotsValues_eq_ok (h : Accounted s) (hp : s.poolMap.get (reason, poolOf) = some pool)
    {slots : List (SlotInfo T)} (hm : ∀ slot ∈ slots, slot ∈ pool.slots)
    {values : List (T.AccountId × Nat)} :
    slotsValues s reason poolOf (slots.map fun slot => (slot.digest, slot.shares)) = .ok values ↔
      (∀ slot ∈ slots, SlotShown s.digestMap reason slot) ∧
        values = slots.map fun slot => (slot.digest, slotValue s.digestMap reason slot) := by
  induction slots generalizing values with
  | nil => simp [slotsValues, eq_comm]
  | cons slot slots ih =>
    rw [List.forall_mem_cons] at hm ⊢
    rw [List.map_cons, slotsValues, bind_eq_ok]
    constructor
    · rintro ⟨value, hv, hrest⟩
      obtain ⟨rest, hr, hrest⟩ := bind_eq_ok.mp hrest
      obtain ⟨hshown, rfl⟩ := (getSlotValue_eq_ok h hp hm.1).mp hv
      obtain ⟨hothers, rfl⟩ := (ih hm.2).mp hr
      exact ⟨⟨hshown, hothers⟩, (pure_eq_ok.mp hrest).symm⟩
    · rintro ⟨⟨hshown, hothers⟩, rfl⟩
      exact ⟨_, (getSlotValue_eq_ok h hp hm.1).mpr ⟨hshown, rfl⟩,
        bind_eq_ok.mpr ⟨_, (ih hm.2).mpr ⟨hothers, rfl⟩, rfl⟩⟩

theorem getPoolValue_eq_ok (h : Accounted s) (hp : s.poolMap.get (reason, poolOf) = some pool) {value : Nat} :
    getPoolValue s reason poolOf = .ok value ↔ (∀ slot ∈ pool.slots, SlotShown s.digestMap reason slot) ∧
      value = min (pool.slots.map (slotValue s.digestMap reason)).sum T.share.maxAsset := by
  have hexists : poolExists s reason poolOf = .ok () :=
    ensure_eq_ok.mpr (StorageMap.containsKey_iff.mpr ⟨pool, hp⟩)
  have hshares : getSlotsShares s reason poolOf = .ok (pool.slots.map fun slot => (slot.digest, slot.shares)) := by
    simp [getSlotsShares, getPool, hp, okOr, bind, Except.bind, pure, Except.pure]
  have hvalues : getSlotsValue s reason poolOf =
      slotsValues s reason poolOf (pool.slots.map fun slot => (slot.digest, slot.shares)) := by
    simp [getSlotsValue, hexists, hshares, bind, Except.bind]
  have hsum (slots : List (SlotInfo T)) : ((slots.map fun slot =>
      (slot.digest, slotValue s.digestMap reason slot)).map Prod.snd) = slots.map (slotValue s.digestMap reason) := by
    simp [List.map_map, Function.comp_def]
  unfold getPoolValue
  rw [hexists, hvalues]
  constructor
  · intro hv
    obtain ⟨_, -, hv⟩ := bind_eq_ok.mp hv
    obtain ⟨values, hs, hv⟩ := bind_eq_ok.mp hv
    obtain ⟨hshown, rfl⟩ := (slotsValues_eq_ok h hp fun _ hm => hm).mp hs
    refine ⟨hshown, (pure_eq_ok.mp hv).symm.trans ?_⟩
    rw [foldl_saturatingAdd _ _ _ (Nat.zero_le _), hsum, Nat.zero_add]
  · rintro ⟨hshown, rfl⟩
    have hslots := (slotsValues_eq_ok h hp fun _ hm => hm).mpr ⟨hshown, rfl⟩
    refine bind_eq_ok.mpr ⟨(), rfl, bind_eq_ok.mpr ⟨_, hslots, ?_⟩⟩
    rw [foldl_saturatingAdd _ _ _ (Nat.zero_le _), hsum, Nat.zero_add]
    rfl

theorem releasePool_value {s' : State T} {balance : LazyBalance T} (h : Accounted s)
    (hp : s.poolMap.get (reason, poolOf) = some pool) (hr : releasePool s reason poolOf = .ok (s', balance)) :
    totalValue balance = (pool.slots.map (slotValue s.digestMap reason)).sum ∧
      totalValue balance ≤ T.share.maxAsset := by
  obtain ⟨pool', released, claims, m, hrel⟩ := releasePool_spec hr
  obtain rfl := Option.some.inj (hp.symm.trans hrel.found)
  obtain ⟨hvalue, -⟩ := adjustPoolBalance_spec hrel.adjusted
  obtain ⟨hsol, -⟩ := hrel.solvent h.sound
  refine ⟨?_, ?_⟩
  · rw [hvalue, poolValue]
    split
    · rename_i hnone
      refine (List.sum_eq_zero fun v hv => ?_).symm
      obtain ⟨slot, hm, rfl⟩ := List.mem_map.mp hv
      rw [slotValue, if_pos ((h.tidy _ pool hp).idle hnone slot hm)]
    · rfl
  · cases balance with
    | none => exact Nat.zero_le _
    | some b => exact (hsol b rfl).effective_le

end Totals

section Members

variable {s : State T} {who : T.AccountId} {reason : T.Reason} {poolOf : T.AccountId} {pool : PoolInfo T}

theorem slotActiveValues_sum {slots : List (SlotInfo T)} {taken taken' : Nat}
    (h : slotActiveValues s reason slots taken = .ok taken') :
    taken' = taken + (slots.map (slotValue s.digestMap reason)).sum := by
  induction slots generalizing taken with
  | nil =>
    cases h
    rfl
  | cons slot slots ih =>
    have hheld := slotActiveValues_held h slot (List.mem_cons_self ..)
    obtain ⟨info, hi, h⟩ := bind_eq_ok.mp h
    obtain ⟨balance, hb, h⟩ := bind_eq_ok.mp h
    rw [okOr_eq_ok] at hi hb
    obtain ⟨take, hv, h⟩ := bind_eq_ok.mp h
    rw [mapError_eq_ok] at hv
    obtain ⟨total, ht, h⟩ := bind_eq_ok.mp h
    rw [okOr_eq_ok, checkedAdd_eq_some] at ht
    have hvalue : slotValue s.digestMap reason slot = take := by
      rw [slotValue, if_neg hheld, balanceAt_of_getBalance hi hb, hv]
    rw [List.map_cons, List.sum_cons, ih h, hvalue]
    omega

/-- The shares a member holds of a pool. -/
def memberShares (s : State T) (reason : T.Reason) (poolOf who : T.AccountId) : Nat :=
  (s.commitMap.get (who, reason)).elim 0 fun info =>
    tally (sharesUnder (reason, poolOf)) (commitClaims (who, reason) info)

/-- A member is shown nothing, or the price of the receipts on the balance the pool would be
released with. -/
theorem poolCommitValue_paid {value : Nat} (hs : Sound s) (hp : s.poolMap.get (reason, poolOf) = some pool)
    (h : poolCommitValue s who reason poolOf = .ok value) : value = 0 ∨ ∃ b,
      adjustPoolBalance pool.balance (pool.slots.map (slotValue s.digestMap reason)).sum = .ok (some b) ∧
        (pool.slots.head pool.nonempty).commit ≠ none ∧
        (value * T.share.rational.div ≤ memberShares s reason poolOf who * b.bias.inner ∨
          memberShares s reason poolOf who = b.issued ∧ value ≤ b.effective) := by
  obtain ⟨pool', hget, h⟩ := bind_eq_ok.mp h
  rw [getPool, okOr_eq_ok] at hget
  obtain rfl := Option.some.inj (hp.symm.trans hget)
  obtain ⟨info, hc, h⟩ := bind_eq_ok.mp h
  rw [getCommit, okOr_eq_ok] at hc
  obtain ⟨_, hd, h⟩ := bind_eq_ok.mp h
  rw [ensure_eq_ok] at hd
  obtain ⟨_, -, h⟩ := bind_eq_ok.mp h
  obtain ⟨first, slots, hcons⟩ := List.exists_cons_of_ne_nil pool.nonempty
  simp only [hcons, List.head_cons] at h ⊢
  by_cases hfirst : first.commit = none
  · rw [if_pos hfirst] at h
    exact .inl (pure_eq_ok.mp h).symm
  · rw [if_neg hfirst] at h
    obtain ⟨taken, ht, h⟩ := bind_eq_ok.mp h
    have hsum := slotActiveValues_sum ht
    rw [Nat.zero_add] at hsum
    subst hsum
    obtain ⟨balance, hadj, h⟩ := bind_eq_ok.mp h
    obtain ⟨b, rfl⟩ : ∃ b, balance = some b := by
      obtain ⟨receipt, receipts, hrs⟩ := List.exists_cons_of_ne_nil info.commits.nonempty
      rw [hrs] at h
      obtain ⟨⟨take, nb⟩, hw, -⟩ := bind_eq_ok.mp h
      obtain ⟨b, -, -, -, rfl, -⟩ := withdraw_eq_ok (liftShare_eq_ok.mp hw)
      exact ⟨b, rfl⟩
    have hsol : Solvent b := (adjustPoolBalance_spec hadj).2.2 (hs.pools _ _ hp) b rfl
    obtain ⟨rs, hrs, -, -, hvalue⟩ := withdrawnValues_taken hsol h
    have hshares : memberShares s reason poolOf who = outstandingShares rs := by
      subst hd
      rw [memberShares, hc, Option.elim_some, commitClaims, hrs, tally_sharesUnder_location, tally_receiptsAt_map]
      rfl
    refine .inr ⟨b, hadj, hfirst, ?_⟩
    rw [hshares, hvalue, Nat.zero_add]
    by_cases hall : outstandingShares rs = b.issued
    · rw [if_pos hall]
      exact .inr ⟨hall, le_refl _⟩
    · rw [if_neg hall]
      exact .inl (totalQuote_mul_le b rs)

/-- What a query that fails shows counts nothing. -/
def shown (value : Except DispatchError Nat) : Nat :=
  match value with
  | .ok v => v
  | .error _ => 0

theorem shown_ne_zero {x : Except DispatchError Nat} (h : shown x ≠ 0) : x = .ok (shown x) := by
  cases x with
  | ok v => rfl
  | error e => exact absurd rfl h

theorem sum_memberShares_le (s : State T) (reason : T.Reason) (poolOf : T.AccountId) (members : Finset T.AccountId) :
    ∑ who ∈ members, memberShares s reason poolOf who ≤ commitHeld (sharesUnder (reason, poolOf)) s.commitMap :=
  StorageMap.sum_keys_le (fun key info => tally (sharesUnder (reason, poolOf)) (commitClaims key info)) s.commitMap
    members fun _ _ h => (Prod.mk.inj h).1

theorem sum_shown_le (h : Accounted s) (hp : s.poolMap.get (reason, poolOf) = some pool)
    (members : Finset T.AccountId) :
    ∑ who ∈ members, shown (poolCommitValue s who reason poolOf) ≤
      min (pool.slots.map (slotValue s.digestMap reason)).sum T.share.maxAsset := by
  by_cases hany : ∃ who ∈ members, shown (poolCommitValue s who reason poolOf) ≠ 0
  · obtain ⟨who, -, hne⟩ := hany
    obtain ⟨b, hadj, hfirst, -⟩ := (poolCommitValue_paid h.sound hp (shown_ne_zero hne)).resolve_left hne
    obtain ⟨hvalue, hissued, hsolvent⟩ := adjustPoolBalance_spec hadj
    have hsol : Solvent b := hsolvent (h.sound.pools _ _ hp) b rfl
    have hfree : s.digestMap.containsKey (reason, poolOf) = false := by
      rw [← Bool.not_eq_true]
      intro hk
      exact hfirst ((h.tidy _ pool hp).idle (h.idle _ pool hk hp) _ (List.head_mem _))
    have hheld := (sum_memberShares_le s reason poolOf members).trans (h.pools _ hfree)
    rw [poolShares_of_get hp, ← hissued, issuedShares_some] at hheld
    rw [totalValue_some] at hvalue
    have hle : ∑ who ∈ members, shown (poolCommitValue s who reason poolOf) ≤ b.effective := by
      refine sum_paid_le hsol (fun i _ => ?_) hheld
      by_cases hz : shown (poolCommitValue s i reason poolOf) = 0
      · rw [hz, Nat.zero_mul]
        exact .inl (Nat.zero_le _)
      · obtain ⟨b', hadj', -, hpaid⟩ := (poolCommitValue_paid h.sound hp (shown_ne_zero hz)).resolve_left hz
        obtain rfl := Option.some.inj (Except.ok.inj (hadj.symm.trans hadj'))
        exact hpaid
    have hmax := hsol.effective_le
    omega
  · have hzero : ∑ who ∈ members, shown (poolCommitValue s who reason poolOf) = 0 :=
      Finset.sum_eq_zero fun who hw => by
        by_contra hne
        exact hany ⟨who, hw, hne⟩
    rw [hzero]
    exact Nat.zero_le _

end Members

section Pools

/-- The slots and the pool are shown a value, a slot without funds none. The pool is shown what a release
returns, and its members no more than that together. -/
structure PoolShown (s : State T) (reason : T.Reason) (poolOf : T.AccountId) (pool : PoolInfo T) : Prop where
  slots : ∀ slot ∈ pool.slots, ∃ value, getSlotValue s reason poolOf slot.digest = .ok value ∧
    (slot.commit = none → value = 0)
  total : ∃ value, getPoolValue s reason poolOf = .ok value
  released : ∀ s' balance, releasePool s reason poolOf = .ok (s', balance) →
    getPoolValue s reason poolOf = .ok (totalValue balance)
  members : ∀ (members : Finset T.AccountId) value, getPoolValue s reason poolOf = .ok value →
    ∑ who ∈ members, shown (poolCommitValue s who reason poolOf) ≤ value

/-- The queries of a pool fail exactly where a slot without funds has a digest that was not initiated
for its variant, or the receipt of a slot cannot be priced. -/
theorem pool_shown_iff {s : State T} {reason : T.Reason} {poolOf : T.AccountId} {pool : PoolInfo T}
    (hs : Reachable s) (hp : s.poolMap.get (reason, poolOf) = some pool) :
    PoolShown s reason poolOf pool ↔ ∀ slot ∈ pool.slots, SlotShown s.digestMap reason slot := by
  have h := hs.accounted
  constructor
  · intro hshown slot hm
    obtain ⟨value, hv, -⟩ := hshown.slots slot hm
    exact ((getSlotValue_eq_ok h hp hm).mp hv).1
  · intro hall
    have hvalue : getPoolValue s reason poolOf =
        .ok (min (pool.slots.map (slotValue s.digestMap reason)).sum T.share.maxAsset) :=
      (getPoolValue_eq_ok h hp).mpr ⟨hall, rfl⟩
    refine ⟨fun slot hm => ?_, ⟨_, hvalue⟩, fun s' balance hr => ?_, fun members value hv => ?_⟩
    · refine ⟨_, (getSlotValue_eq_ok h hp hm).mpr ⟨hall slot hm, rfl⟩, fun hc => ?_⟩
      rw [slotValue, if_pos hc]
    · obtain ⟨hsum, hle⟩ := releasePool_value h hp hr
      rw [hvalue, ← hsum, Nat.min_eq_left hle]
    · obtain rfl := Except.ok.inj (hvalue.symm.trans hv)
      exact sum_shown_le h hp members

theorem pool_shown_thirds : ∃ pool, joinedThirds.poolMap.get ((0 : Nat), (30 : Nat)) = some pool ∧
    PoolShown joinedThirds (0 : Nat) (30 : Nat) pool := by
  have hvalues : (joinedThirds.poolMap.get ((0 : Nat), (30 : Nat))).all (fun pool => pool.slots.all fun slot =>
      decide (getSlotValue joinedThirds (0 : Nat) (30 : Nat) slot.digest = .ok 3)) = true := by decide +kernel
  obtain ⟨pool, hp⟩ : ∃ pool, joinedThirds.poolMap.get ((0 : Nat), (30 : Nat)) = some pool := ⟨_, rfl⟩
  have hs : Reachable joinedThirds := ⟨_, _, rfl⟩
  rw [hp, Option.all_some, List.all_eq_true] at hvalues
  refine ⟨pool, hp, (pool_shown_iff hs hp).mpr fun slot hm => ?_⟩
  exact ((getSlotValue_eq_ok hs.accounted hp hm).mp (of_decide_eq_true (hvalues slot hm))).1

/-- The first slot is moved to the side that nobody committed to at its digest. -/
def uninitiatedSlot : List (Call runtimeConfig) :=
  thirdsPool ++ [.setSlotOfVariant (T := runtimeConfig) 0 30 11 .contrary none]

theorem unfunded_slot_unshown :
    ¬∀ (s : State runtimeConfig) (reason poolOf : Nat) (pool : PoolInfo runtimeConfig), Reachable s →
      s.poolMap.get (reason, poolOf) = some pool → PoolShown s reason poolOf pool := by
  intro h
  have hfails : ((State.after fundedLedger uninitiatedSlot).poolMap.get ((0 : Nat), (30 : Nat))).any (fun pool =>
      pool.slots.any fun slot => decide (getSlotValue (State.after fundedLedger uninitiatedSlot) (0 : Nat)
        (30 : Nat) slot.digest = .error .digestVariantBalanceNotFound)) = true := by decide +kernel
  obtain ⟨pool, hp⟩ : ∃ pool,
      (State.after fundedLedger uninitiatedSlot).poolMap.get ((0 : Nat), (30 : Nat)) = some pool := ⟨_, rfl⟩
  rw [hp, Option.any_some, List.any_eq_true] at hfails
  obtain ⟨slot, hm, hfail⟩ := hfails
  obtain ⟨value, hv, -⟩ := (h _ 0 30 pool ⟨_, _, rfl⟩ hp).slots slot hm
  exact nomatch (of_decide_eq_true hfail).symm.trans hv

end Pools

end FrameSuite
