import FrameSuite.Equilibrium

/-! When the slot loops of a pool run through. Slots have distinct digests, so each is
served by its digest as it was before the loop. -/

namespace FrameSuite

open ShareBalance

variable {T : Config}

theorem withdraw_of_receiptActiveValue {b : LazyBalance T} {r : CommitInstance T} {v : Nat}
    (h : receiptActiveValue b r = .ok v) : ∃ nb, withdraw b r = (.ok v, nb) := by
  unfold receiptActiveValue at h
  split at h
  · cases h
  · exact ⟨(withdraw b r).2, Prod.ext h rfl⟩

/-- The digest of a slot pays out the commit the pool holds on it. -/
def SlotPays (m : DigestMap T) (reason : T.Reason) (slot : SlotInfo T) : Prop :=
  slot.commit = none ∨
    Initiated m (location reason slot.digest slot.variant) ∧
      (receiptActiveValue (balanceAt m (location reason slot.digest slot.variant)) slot.commit).isOk = true

/-- What is left at a slot's digest once the pool has withdrawn its commit. -/
def releasedBalance (m : DigestMap T) (reason : T.Reason) (slot : SlotInfo T) : LazyBalance T :=
  if slot.commit = none then balanceAt m (location reason slot.digest slot.variant)
  else (withdraw (balanceAt m (location reason slot.digest slot.variant)) slot.commit).2

/-- A balance that takes a deposit: it is not drained, the amount buys a share and
nothing overflows. -/
structure TakesDeposit (balance : LazyBalance T) (asset : Nat) : Prop where
  bias_ne : (isFreshBalance balance).bias.inner ≠ 0
  derives : ∃ shares, deriveShares (isFreshBalance balance) asset = .ok shares ∧ shares ≠ 0 ∧
    (isFreshBalance balance).issued + shares ≤ T.share.maxAsset
  effective_le : (isFreshBalance balance).effective + asset ≤ T.share.maxAsset

theorem deposit_isOk_iff {balance : LazyBalance T} {asset : Nat} (ha : asset ≠ 0) :
    (∃ out nb, deposit balance asset = (.ok out, nb)) ↔ TakesDeposit balance asset := by
  constructor
  · rintro ⟨out, nb, h⟩
    obtain ⟨after, -, -, hd⟩ := deposit_eq_ok.mp h
    exact ⟨hd.bias_ne, ⟨_, hd.derived, hd.shares_ne, hd.issued_le⟩, hd.effective_le⟩
  · rintro ⟨hb, ⟨shares, hd, hs, hi⟩, he⟩
    unfold deposit
    simp [ha, hb, hd, hs, Nat.not_lt.mpr he, Nat.not_lt.mpr hi]

/-- The digest of a slot exists and has, or can get, a balance for the variant. -/
def SlotReady (m : DigestMap T) (reason : T.Reason) (slot : SlotInfo T) : Prop :=
  m.containsKey (reason, slot.digest) = true ∧
    (Initiated m (location reason slot.digest slot.variant) ∨
      T.positionIndex slot.variant < T.variantCount)

theorem balanceAt_insert_of_ne {m : DigestMap T} {reason : T.Reason} {digest other : T.AccountId}
    {info : DigestInfo T} {i : Nat} (h : other ≠ digest) :
    balanceAt (m.insert (reason, digest) info) (reason, other, i) = balanceAt m (reason, other, i) := by
  have hk : (reason, other) ≠ (reason, digest) := fun he => h (Prod.mk.inj he).2
  simp only [balanceAt, StorageMap.get_insert_of_ne hk]

theorem initiated_insert_of_ne {m : DigestMap T} {reason : T.Reason} {digest other : T.AccountId}
    {info : DigestInfo T} {i : Nat} (h : other ≠ digest) :
    Initiated (m.insert (reason, digest) info) (reason, other, i) ↔ Initiated m (reason, other, i) := by
  have hk : (reason, other) ≠ (reason, digest) := fun he => h (Prod.mk.inj he).2
  simp only [Initiated, StorageMap.get_insert_of_ne hk]

theorem slotPays_insert {m : DigestMap T} {reason : T.Reason} {digest : T.AccountId}
    {info : DigestInfo T} {slot : SlotInfo T} (h : slot.digest ≠ digest) :
    SlotPays (m.insert (reason, digest) info) reason slot ↔ SlotPays m reason slot := by
  unfold SlotPays location
  rw [balanceAt_insert_of_ne h, initiated_insert_of_ne h]

theorem initiated_iff {m : DigestMap T} {reason : T.Reason} {digest : T.AccountId}
    {variant : T.Position} {info : DigestInfo T} (hi : m.get (reason, digest) = some info) :
    Initiated m (location reason digest variant) ↔ ∃ b, info.getBalance variant = some b := by
  unfold Initiated DigestInfo.getBalance location
  rw [hi]
  constructor
  · rintro ⟨x, hx, hlt⟩
    obtain rfl := Option.some.inj hx
    exact ⟨_, List.getElem?_eq_getElem hlt⟩
  · rintro ⟨b, hb⟩
    exact ⟨info, rfl, (List.getElem?_eq_some_iff.mp hb).1⟩

theorem balanceAt_of_getBalance {m : DigestMap T} {reason : T.Reason} {digest : T.AccountId}
    {variant : T.Position} {info : DigestInfo T} {b : LazyBalance T}
    (hi : m.get (reason, digest) = some info) (hb : info.getBalance variant = some b) :
    balanceAt m (location reason digest variant) = b := by
  unfold DigestInfo.getBalance at hb
  simp [balanceAt, location, hi, DigestInfo.at, hb]

theorem withdraw_isOk_iff {m : DigestMap T} {reason : T.Reason} {slot : SlotInfo T} {info : DigestInfo T}
    (hi : m.get (reason, slot.digest) = some info) (hc : slot.commit ≠ none) :
    (∃ out, info.withdraw slot.variant slot.commit = .ok out) ↔ SlotPays m reason slot := by
  unfold SlotPays
  rw [initiated_iff hi]
  constructor
  · rintro ⟨⟨info', take⟩, h⟩
    obtain ⟨b, hb, -⟩ := bind_eq_ok.mp h
    rw [okOr_eq_ok] at hb
    have hv := DigestInfo.withdraw_value h
    refine .inr ⟨⟨b, hb⟩, ?_⟩
    have hat : balanceAt m (location reason slot.digest slot.variant) =
        info.at (T.positionIndex slot.variant) := by simp [balanceAt, location, hi]
    rw [hat, hv]
    rfl
  · rintro (h | ⟨⟨b, hb⟩, hv⟩)
    · exact absurd h hc
    · rw [balanceAt_of_getBalance hi hb] at hv
      obtain ⟨v, hv⟩ := exists_eq_ok hv
      obtain ⟨nb, hw⟩ := withdraw_of_receiptActiveValue hv
      exact ⟨(info.setBalance slot.variant nb, v),
        bind_eq_ok.mpr ⟨b, okOr_eq_ok.mpr hb, bind_eq_ok.mpr ⟨(v, nb), liftShare_eq_ok.mpr hw, rfl⟩⟩⟩

theorem releaseSlots_isOk_iff {reason : T.Reason} {slots : List (SlotInfo T)} {m : DigestMap T}
    {taken : Nat} (hnd : (slots.map SlotInfo.digest).Nodup) (ht : taken ≤ T.share.maxAsset) :
    (∃ out, releaseSlots reason slots m taken = .ok out) ↔
      (∀ slot ∈ slots, SlotPays m reason slot) ∧
        taken + (slots.map (slotValue m reason)).sum ≤ T.share.maxAsset := by
  induction slots generalizing m taken with
  | nil => simp [releaseSlots, ht]
  | cons slot slots ih =>
    rw [List.map_cons, List.nodup_cons] at hnd
    rw [List.forall_mem_cons, List.map_cons, List.sum_cons]
    unfold releaseSlots
    by_cases hc : slot.commit = none
    · have hpays : SlotPays m reason slot := .inl hc
      rw [if_pos hc, ih hnd.2 ht, slotValue, if_pos hc, Nat.zero_add]
      simp [hpays]
    rw [if_neg hc]
    cases hi : m.get (reason, slot.digest) with
    | none =>
      have hno : ¬SlotPays m reason slot := by
        rintro (h | ⟨⟨info, hinfo, -⟩, -⟩)
        · exact hc h
        · exact absurd (hi.symm.trans hinfo) (by simp)
      simp [hno, okOr, bind, Except.bind]
    | some info =>
      have hne {other : SlotInfo T} (ho : other ∈ slots) : other.digest ≠ slot.digest :=
        fun he => hnd.1 (he ▸ List.mem_map_of_mem ho)
      have hiff := withdraw_isOk_iff hi hc
      cases hw : info.withdraw slot.variant slot.commit with
      | error e =>
        have hno : ¬SlotPays m reason slot := fun hp => by
          obtain ⟨out, ho⟩ := hiff.mpr hp
          rw [hw] at ho
          cases ho
        simp [hno, hw, okOr, bind, Except.bind]
      | ok out =>
        obtain ⟨info', take⟩ := out
        have hpays : SlotPays m reason slot := hiff.mp ⟨_, hw⟩
        have hv : slotValue m reason slot = take := by
          have hat : balanceAt m (location reason slot.digest slot.variant) =
              info.at (T.positionIndex slot.variant) := by simp [balanceAt, location, hi]
          rw [slotValue, if_neg hc, hat, DigestInfo.withdraw_value hw]
        have hrest : (∀ other ∈ slots, SlotPays (m.insert (reason, slot.digest) info') reason other) ↔
            ∀ other ∈ slots, SlotPays m reason other :=
          forall₂_congr fun other ho => slotPays_insert (hne ho)
        have hsum : slots.map (slotValue (m.insert (reason, slot.digest) info') reason) =
            slots.map (slotValue m reason) :=
          List.map_congr_left fun other ho => slotValue_insert (hne ho)
        rw [hv]
        by_cases hle : taken + take ≤ T.share.maxAsset
        · have hstep := ih (m := m.insert (reason, slot.digest) info') hnd.2 hle
          rw [hrest, hsum] at hstep
          simp [hw, okOr, bind, Except.bind, checkedAdd, hle, hstep, hpays, Nat.add_assoc]
        · have hbig : ¬taken + (take + (slots.map (slotValue m reason)).sum) ≤ T.share.maxAsset := by
            omega
          simp [hw, okOr, bind, Except.bind, checkedAdd, hle, hbig]

theorem releaseSlots_after {reason : T.Reason} {slots : List (SlotInfo T)} {m m' : DigestMap T}
    {taken taken' : Nat} (hnd : (slots.map SlotInfo.digest).Nodup)
    (h : releaseSlots reason slots m taken = .ok (m', taken')) :
    (∀ slot ∈ slots, balanceAt m' (location reason slot.digest slot.variant) =
      releasedBalance m reason slot) ∧
    (∀ digest i, digest ∉ slots.map SlotInfo.digest →
      balanceAt m' (reason, digest, i) = balanceAt m (reason, digest, i)) ∧
    (∀ key, m'.containsKey key = m.containsKey key) ∧ ∀ l, Initiated m' l ↔ Initiated m l := by
  induction slots generalizing m taken with
  | nil =>
    cases h
    simp
  | cons slot slots ih =>
    rw [List.map_cons, List.nodup_cons] at hnd
    have hne {other : SlotInfo T} (ho : other ∈ slots) : other.digest ≠ slot.digest :=
      fun he => hnd.1 (he ▸ List.mem_map_of_mem ho)
    unfold releaseSlots at h
    split at h
    · rename_i hc
      obtain ⟨hb, hother, hk, hin⟩ := ih hnd.2 h
      refine ⟨?_, fun digest i hd => hother digest i fun hm => hd (List.mem_cons_of_mem _ hm), hk, hin⟩
      rw [List.forall_mem_cons]
      refine ⟨?_, hb⟩
      rw [releasedBalance, if_pos hc]
      exact hother _ _ hnd.1
    · rename_i hc
      obtain ⟨info, hi, h⟩ := bind_eq_ok.mp h
      rw [okOr_eq_ok] at hi
      obtain ⟨⟨info', take⟩, h1, h⟩ := bind_eq_ok.mp h
      obtain ⟨_, -, h⟩ := bind_eq_ok.mp h
      obtain ⟨hb, hother, hk, hin⟩ := ih hnd.2 h
      obtain ⟨b, hg, h1⟩ := bind_eq_ok.mp h1
      rw [okOr_eq_ok] at hg
      obtain ⟨⟨w, nb⟩, hw, h1⟩ := bind_eq_ok.mp h1
      simp only [pure_eq_ok, Prod.mk.injEq] at h1
      obtain ⟨rfl, rfl⟩ := h1
      have ht := (DigestInfo.setBalance_touch hg nb).touch hi
      have hlen {l : Location T} : Initiated (m.insert (reason, slot.digest)
          (info.setBalance slot.variant nb)) l ↔ Initiated m l := by
        refine ⟨?_, ht.keeps l⟩
        rintro ⟨x, hx, hlt⟩
        rw [StorageMap.get_insert] at hx
        split at hx
        · rename_i he
          obtain rfl := Option.some.inj hx
          refine ⟨info, he ▸ hi, ?_⟩
          simpa [DigestInfo.setBalance] using hlt
        · exact ⟨x, hx, hlt⟩
      refine ⟨?_, fun digest i hd => ?_, fun key => (hk key).trans (ht.contains key),
        fun l => (hin l).trans hlen⟩
      · rw [List.forall_mem_cons]
        refine ⟨?_, fun other ho => ?_⟩
        · have hval : (withdraw b slot.commit).2 = nb := by rw [liftShare_eq_ok.mp hw]
          rw [releasedBalance, if_neg hc, balanceAt_of_getBalance hi hg, hval]
          refine (hother _ _ hnd.1).trans ?_
          rw [ht.after]
          exact if_pos rfl
        · rw [hb other ho]
          unfold releasedBalance location
          rw [balanceAt_insert_of_ne (hne ho)]
      · rw [hother digest i fun hm => hd (List.mem_cons_of_mem _ hm)]
        exact balanceAt_insert_of_ne fun he => hd (he ▸ List.mem_cons_self ..)

theorem ensureBalance_isOk_iff {m : DigestMap T} {reason : T.Reason} {digest : T.AccountId}
    {variant : T.Position} {info : DigestInfo T} (hi : m.get (reason, digest) = some info) :
    (∃ info', info.ensureBalance variant = .ok info') ↔
      Initiated m (location reason digest variant) ∨ T.positionIndex variant < T.variantCount := by
  rw [initiated_iff hi]
  unfold DigestInfo.ensureBalance
  cases hg : info.getBalance variant with
  | some b => simp
  | none =>
    have hlen : info.balances.length ≤ T.positionIndex variant := by
      unfold DigestInfo.getBalance at hg
      exact List.getElem?_eq_none_iff.mp hg
    have hmiss : T.positionIndex variant + 1 - info.balances.length ≠ 0 := by omega
    unfold DigestInfo.initBalance
    simp only [hmiss, false_or, reduceCtorEq, exists_false]
    split <;> rename_i hlt <;> simp [hlt]

theorem DigestInfo.ensureBalance_spec {info info' : DigestInfo T} {variant : T.Position}
    (h : info.ensureBalance variant = .ok info') :
    info'.getBalance variant = some (info.at (T.positionIndex variant)) := by
  unfold DigestInfo.ensureBalance at h
  split at h
  · rename_i b hg
    cases h
    unfold DigestInfo.getBalance at hg ⊢
    simp [DigestInfo.at, hg]
  · rename_i hg
    unfold DigestInfo.getBalance at hg ⊢
    have hlen := List.getElem?_eq_none_iff.mp hg
    unfold DigestInfo.initBalance at h
    dsimp only at h
    split at h
    · cases h
      rw [List.getElem?_append_right hlen, List.getElem?_replicate, if_pos (by omega)]
      simp [DigestInfo.at, hg]
    · cases h

theorem DigestInfo.deposit_isOk_iff {m : DigestMap T} {reason : T.Reason} {digest : T.AccountId}
    {variant : T.Position} {info : DigestInfo T} {part : Nat} (hi : m.get (reason, digest) = some info)
    (hp : part ≠ 0) :
    (∃ out, info.deposit variant part = .ok out) ↔
      (Initiated m (location reason digest variant) ∨ T.positionIndex variant < T.variantCount) ∧
        TakesDeposit (balanceAt m (location reason digest variant)) part := by
  have hat : balanceAt m (location reason digest variant) = info.at (T.positionIndex variant) := by
    simp [balanceAt, location, hi]
  rw [hat, ← ensureBalance_isOk_iff hi, ← FrameSuite.deposit_isOk_iff hp]
  constructor
  · rintro ⟨out, h⟩
    obtain ⟨info', he, h⟩ := bind_eq_ok.mp h
    obtain ⟨b, hb, h⟩ := bind_eq_ok.mp h
    rw [okOr_eq_ok, DigestInfo.ensureBalance_spec he] at hb
    obtain rfl := Option.some.inj hb
    obtain ⟨⟨out', nb⟩, hd, -⟩ := bind_eq_ok.mp h
    exact ⟨⟨info', he⟩, out', nb, liftShare_eq_ok.mp hd⟩
  · rintro ⟨⟨info', he⟩, out', nb, hd⟩
    exact ⟨_, bind_eq_ok.mpr ⟨info', he, bind_eq_ok.mpr ⟨_, okOr_eq_ok.mpr
      (DigestInfo.ensureBalance_spec he), bind_eq_ok.mpr ⟨(out', nb), liftShare_eq_ok.mpr hd, rfl⟩⟩⟩⟩

theorem slotDeposit_eq_part {effective shares capital : Nat} (hc : capital ≠ 0)
    (hle : shares ≤ capital) :
    slotDeposit T effective shares capital = .ok (slotPart T effective capital shares) := by
  have hex : ∃ part, slotDeposit T effective shares capital = .ok part := by
    have hfactor : (Fixed.saturatingFromRational (F := T.share.rational) shares capital).inner ≤
        T.share.rational.div := by
      rw [Fixed.saturatingFromRational, if_neg hc]
      refine (Nat.min_le_left _ _).trans (Nat.div_le_of_le_mul ?_)
      exact Nat.mul_le_mul_right _ hle
    have hmul : (Fixed.saturatingFromInteger (F := T.share.rational) effective).inner *
        (Fixed.saturatingFromRational (F := T.share.rational) shares capital).inner /
          T.share.rational.div ≤ T.share.rational.maxInner := by
      refine Nat.div_le_of_le_mul ?_
      rw [Nat.mul_comm]
      exact Nat.mul_le_mul hfactor (Fixed.saturatingFromInteger effective).inner_le
    exact ⟨_, bind_eq_ok.mpr ⟨⟨_, hmul⟩, okOr_eq_ok.mpr (Fixed.checkedMul_eq_some.mpr rfl), rfl⟩⟩
  obtain ⟨part, hp⟩ := hex
  rw [slotPart, hp]

theorem setSlotCommit_isOk {pool : PoolInfo T} {slot : SlotInfo T} (h : slot ∈ pool.slots)
    (commit : CommitInstance T) : ∃ pool', pool.setSlotCommit slot.digest commit = .ok pool' := by
  unfold PoolInfo.setSlotCommit
  rw [if_pos (List.mem_map_of_mem h)]
  exact ⟨_, rfl⟩

/-- The digest of a slot takes the part of the pool's value that falls to the slot. -/
def SlotTakes (m : DigestMap T) (reason : T.Reason) (slot : SlotInfo T) (part : Nat) : Prop :=
  part = 0 ∨ SlotReady m reason slot ∧
    TakesDeposit (balanceAt m (location reason slot.digest slot.variant)) part

theorem slotTakes_insert {m : DigestMap T} {reason : T.Reason} {digest : T.AccountId}
    {info : DigestInfo T} {slot : SlotInfo T} {part : Nat} (h : slot.digest ≠ digest) :
    SlotTakes (m.insert (reason, digest) info) reason slot part ↔ SlotTakes m reason slot part := by
  have hk : (reason, slot.digest) ≠ (reason, digest) := fun he => h (Prod.mk.inj he).2
  unfold SlotTakes SlotReady location
  rw [balanceAt_insert_of_ne h, initiated_insert_of_ne h, StorageMap.containsKey,
    StorageMap.get_insert_of_ne hk, ← StorageMap.containsKey]

theorem recoverSlots_isOk_iff {reason : T.Reason} {effective : Nat} {slots done : List (SlotInfo T)}
    {m : DigestMap T} {pool : PoolInfo T} {taken : Nat} (hs : pool.slots = done ++ slots)
    (hc : pool.capital ≠ 0)
    (hbound : taken + (slotParts T effective pool.capital (slots.map SlotInfo.shares)).sum ≤
      T.share.maxAsset) :
    (∃ out, recoverSlots reason effective slots m pool taken = .ok out) ↔
      ∀ slot ∈ slots, SlotTakes m reason slot (slotPart T effective pool.capital slot.shares) := by
  induction slots generalizing m pool taken done with
  | nil => simp [recoverSlots]
  | cons slot slots ih =>
    have hmem : slot ∈ pool.slots := by simp [hs]
    have hle : slot.shares ≤ pool.capital := by
      rw [pool.capital_eq]
      exact List.le_sum_of_mem (List.mem_map_of_mem hmem)
    have hnd := pool.nodup
    rw [hs, List.map_append, List.map_cons, List.nodup_append] at hnd
    have hne {other : SlotInfo T} (ho : other ∈ slots) : other.digest ≠ slot.digest :=
      fun he => (List.nodup_cons.mp hnd.2.1).1 (he ▸ List.mem_map_of_mem ho)
    have hnext {pool' : PoolInfo T} {commit : CommitInstance T}
        (h : pool.setSlotCommit slot.digest commit = .ok pool') :
        pool'.slots = (done ++ [slot.setCommit commit]) ++ slots ∧ pool'.capital = pool.capital := by
      obtain ⟨h1, h2, -⟩ := setSlotCommit_spec h hs
      exact ⟨by simpa using h1, h2⟩
    rw [List.map_cons, slotParts, List.map_cons, List.sum_cons, ← slotParts] at hbound
    rw [List.forall_mem_cons]
    unfold recoverSlots
    rw [slotDeposit_eq_part hc hle]
    generalize hpart : slotPart T effective pool.capital slot.shares = part at *
    by_cases hz : part = 0
    · obtain ⟨pool', hp'⟩ := setSlotCommit_isOk hmem none
      obtain ⟨hs', hc'⟩ := hnext hp'
      have hbound' : taken + (slotParts T effective pool'.capital (slots.map SlotInfo.shares)).sum ≤
          T.share.maxAsset := by
        rw [hc']
        omega
      have hrest := ih (m := m) hs' (hc' ▸ hc) hbound'
      rw [hc'] at hrest
      have htakes : SlotTakes m reason slot part := .inl hz
      simp [bind, Except.bind, hz, hp', hrest, hz ▸ htakes]
    · simp only [bind, Except.bind, hz, if_false]
      cases hi : m.get (reason, slot.digest) with
      | none =>
        have hno : ¬SlotTakes m reason slot part := by
          rintro (h | ⟨⟨hk, -⟩, -⟩)
          · exact hz h
          · simp [StorageMap.containsKey, hi] at hk
        simp [okOr, hno]
      | some info =>
        have hk : m.containsKey (reason, slot.digest) = true := StorageMap.containsKey_iff.mpr ⟨_, hi⟩
        have hiff : (∃ out, info.deposit slot.variant part = .ok out) ↔ SlotReady m reason slot ∧
            TakesDeposit (balanceAt m (location reason slot.digest slot.variant)) part := by
          rw [DigestInfo.deposit_isOk_iff hi hz, SlotReady, hk]
          simp only [true_and]
        cases hd : info.deposit slot.variant part with
        | error e =>
          have hno : ¬SlotTakes m reason slot part := by
            rintro (h | h)
            · exact hz h
            · obtain ⟨out, ho⟩ := hiff.mpr h
              rw [hd] at ho
              cases ho
          simp [okOr, hd, hno]
        | ok out =>
          obtain ⟨info', deposited, receipt⟩ := out
          have htakes : SlotTakes m reason slot part := .inr (hiff.mp ⟨_, hd⟩)
          obtain ⟨r, after, rfl, rfl, -, -⟩ := DigestInfo.deposit_spec hd
          obtain ⟨pool', hp'⟩ := setSlotCommit_isOk hmem (some r)
          obtain ⟨hs', hc'⟩ := hnext hp'
          have hacc : taken + deposited ≤ T.share.maxAsset := by omega
          have hbound' : taken + deposited +
              (slotParts T effective pool'.capital (slots.map SlotInfo.shares)).sum ≤
              T.share.maxAsset := by
            rw [hc']
            omega
          have hrest := ih (m := m.insert (reason, slot.digest) info') hs' (hc' ▸ hc) hbound'
          rw [hc'] at hrest
          have hmove : (∀ other ∈ slots, SlotTakes (m.insert (reason, slot.digest) info') reason other
              (slotPart T effective pool.capital other.shares)) ↔
              ∀ other ∈ slots, SlotTakes m reason other (slotPart T effective pool.capital other.shares) :=
            forall₂_congr fun other ho => slotTakes_insert (hne ho)
          rw [hmove] at hrest
          simp [okOr, hd, ensure, checkedAdd, hacc, hp', hrest, htakes]

end FrameSuite
