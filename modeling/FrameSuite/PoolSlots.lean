import FrameSuite.CommitSettle

/-! Changes to the slots of a pool, and the reaping of digests and pools. A slot change
releases the pool and recovers it with other slots at the same value. -/

namespace FrameSuite

open ShareBalance

variable {T : Config}

/-- The shares of the slots other than the given one. -/
def otherShares (slots : List (SlotInfo T)) (slotOf : T.AccountId) : List Nat :=
  ((slotShapes slots).filter fun t => t.1 ≠ slotOf).map fun t => t.2.1

theorem find?_key {α κ : Type} [DecidableEq κ] {key : α → κ} {l : List α} {a : α} (hnd : (l.map key).Nodup)
    (hm : a ∈ l) : (l.find? fun b => key b = key a) = some a := by
  induction l with
  | nil => cases hm
  | cons b l ih =>
    rw [List.map_cons, List.nodup_cons] at hnd
    rcases List.mem_cons.mp hm with rfl | hm
    · simp
    · have hne : key b ≠ key a := fun he => hnd.1 (he ▸ List.mem_map_of_mem hm)
      simp [hne, ih hnd.2 hm]

theorem eraseIdx_findIdx_eq_filter {α κ : Type} [DecidableEq κ] {key : α → κ} {l : List α} {k : κ}
    (hnd : (l.map key).Nodup) (hm : k ∈ l.map key) :
    l.eraseIdx (l.findIdx fun a => key a = k) = l.filter fun a => key a ≠ k := by
  induction l with
  | nil => simp at hm
  | cons a l ih =>
    rw [List.map_cons, List.nodup_cons] at hnd
    rw [List.findIdx_cons]
    by_cases hd : key a = k
    · have hkeep : l.filter (fun a => key a ≠ k) = l := by
        refine List.filter_eq_self.mpr fun other ho => ?_
        have hne : key other ≠ k := fun he => hnd.1 (hd ▸ he ▸ List.mem_map_of_mem ho)
        simpa using hne
      rw [List.filter_cons_of_neg (by simp [hd]), hkeep]
      simp [hd]
    · have hm' : k ∈ l.map key := by
        rcases List.mem_cons.mp hm with he | hm
        · exact absurd he.symm hd
        · exact hm
      have := ih hnd.2 hm'
      simp [hd] at this ⊢
      exact this

theorem filter_slotShapes (slots : List (SlotInfo T)) (slotOf : T.AccountId) :
    slotShapes (slots.filter fun s => s.digest ≠ slotOf) = (slotShapes slots).filter fun t => t.1 ≠ slotOf := by
  rw [slotShapes, slotShapes, List.filter_map]
  rfl

theorem map_slotShapes (slots : List (SlotInfo T)) :
    (slotShapes slots).map (fun t => t.2.1) = slots.map SlotInfo.shares := by
  rw [slotShapes, List.map_map]
  rfl

theorem removeSlot_spec {pool pool' : PoolInfo T} {slotOf : T.AccountId}
    (h : pool.removeSlot slotOf = .ok pool') :
    pool'.slots = pool.slots.filter (fun s => s.digest ≠ slotOf) ∧ pool'.balance = pool.balance ∧
      pool'.commission = pool.commission := by
  unfold PoolInfo.removeSlot at h
  split at h
  · dsimp only at h
    split at h
    · rename_i hlt
      obtain ⟨⟨capital, hc⟩, -, h⟩ := bind_eq_ok.mp h
      obtain rfl := pure_eq_ok.mp h
      refine ⟨eraseIdx_findIdx_eq_filter pool.nodup ?_, rfl, rfl⟩
      obtain ⟨slot, hm, hd⟩ := List.findIdx_lt_length.mp hlt
      exact of_decide_eq_true hd ▸ List.mem_map_of_mem hm
    · cases h
  · cases h

theorem dropSlot_spec {pool pool' : PoolInfo T} {slotOf : T.AccountId}
    (h : pool.dropSlot slotOf = .ok pool') :
    pool'.slots = pool.slots.filter (fun s => s.digest ≠ slotOf) ∧ pool'.balance = pool.balance ∧
      pool'.commission = pool.commission := by
  unfold PoolInfo.dropSlot at h
  split at h
  · exact removeSlot_spec h
  · rename_i hm
    cases h
    refine ⟨(List.filter_eq_self.mpr fun slot hs => ?_).symm, rfl, rfl⟩
    have hne : slot.digest ≠ slotOf := fun he => hm (he ▸ List.mem_map_of_mem hs)
    simpa using hne

theorem addSlot_spec {pool pool' : PoolInfo T} {entry : EntryInfo T}
    (h : pool.addSlot entry = .ok pool') :
    pool'.slots = pool.slots ++ [SlotInfo.ofEntry entry] ∧ pool'.balance = pool.balance ∧
      pool'.commission = pool.commission := by
  unfold PoolInfo.addSlot at h
  dsimp only at h
  split at h
  · cases h
  split at h
  · obtain ⟨⟨capital, hc⟩, -, h⟩ := bind_eq_ok.mp h
    obtain rfl := pure_eq_ok.mp h
    exact ⟨rfl, rfl, rfl⟩
  · cases h

theorem Rebalanced.settles {s s' : State T} {reason : T.Reason} {value dust : Nat}
    (h : Rebalanced s s' reason value value dust) : Settles s s' dust := by
  have h1 := h.live
  refine ⟨⟨h.sound, fun w => ?_, ?_⟩, h.flow.of_eq (by omega)⟩
  · have h3 := h.totals w
    have h4 := h.liveOf w
    omega
  · unfold disequilibrium depositsOwed
    rw [h.commits, h.entries, h.issue, h.reap]
    omega

/-- The dust of a slot change, known before it. -/
def slotLeak (s : State T) (reason : T.Reason) (poolOf slotOf : T.AccountId) (shares : List Nat) : Int :=
  match s.poolMap.get (reason, poolOf) with
  | none => 0
  | some pool => splitDust T (otherShares pool.slots slotOf ++ shares) (poolValue s.digestMap reason pool)

theorem Released.getPool {s s' : State T} {reason : T.Reason} {poolOf : T.AccountId}
    {balance : LazyBalance T} {pool released pool' : PoolInfo T} {claims : Claims T} {m : DigestMap T}
    (h : Released s s' reason poolOf balance pool released claims m)
    (hp : getPool s' reason poolOf = .ok pool') : pool' = released := by
  rw [FrameSuite.getPool, okOr_eq_ok, h.state_eq, StorageMap.get_insert_self] at hp
  exact (Option.some.inj hp).symm

theorem EntryInfo.new_eq_ok {digest : T.AccountId} {shares : Nat} {variant : T.Position}
    {entry : EntryInfo T} (h : EntryInfo.new digest shares variant = .ok entry) :
    entry.digest = digest ∧ entry.shares = shares ∧ entry.variant = variant := by
  unfold EntryInfo.new at h
  split at h
  · cases h
  · obtain ⟨_, -, h⟩ := bind_eq_ok.mp h
    obtain ⟨_, -, h⟩ := bind_eq_ok.mp h
    obtain rfl := pure_eq_ok.mp h
    exact ⟨rfl, rfl, rfl⟩

/-- The pool was released and recovered with other slots: the given one is left out, and the added ones follow
the rest. -/
structure Reslotted (s s₁ s' : State T) (reason : T.Reason) (poolOf slotOf : T.AccountId)
    (added : List (T.AccountId × Nat × T.Position)) (balance : LazyBalance T)
    (pool released pool' : PoolInfo T) (claims : Claims T) (m : DigestMap T) : Prop where
  releases : releasePool s reason poolOf = .ok (s₁, balance)
  release : Released s s₁ reason poolOf balance pool released claims m
  shapes : slotShapes pool'.slots = (slotShapes pool.slots).filter (fun t => t.1 ≠ slotOf) ++ added
  balance_eq : pool'.balance = released.balance
  commission_eq : pool'.commission = released.commission
  recovers : recoverPool { s₁ with poolMap := s₁.poolMap.insert (reason, poolOf) pool' } reason poolOf
    balance = .ok s'

section Slots

variable {s s₁ s' : State T} {reason : T.Reason} {poolOf slotOf : T.AccountId}
  {added : List (T.AccountId × Nat × T.Position)} {balance : LazyBalance T} {pool released pool' : PoolInfo T}
  {claims : Claims T} {m : DigestMap T}

theorem removePoolSlot_reslotted (h : removePoolSlot s reason poolOf slotOf = .ok s') :
    ∃ s₁ balance pool released pool' claims m,
      Reslotted s s₁ s' reason poolOf slotOf [] balance pool released pool' claims m := by
  obtain ⟨⟨s₁, balance⟩, h1, h⟩ := bind_eq_ok.mp h
  obtain ⟨pool, released, claims, m, hrel⟩ := releasePool_spec h1
  obtain ⟨pool1, hp, h⟩ := bind_eq_ok.mp h
  obtain rfl := hrel.getPool hp
  obtain ⟨pool', h2, h⟩ := bind_eq_ok.mp h
  obtain ⟨hslots, hb, hc⟩ := removeSlot_spec h2
  obtain ⟨_, -, h⟩ := bind_eq_ok.mp h
  refine ⟨s₁, balance, pool, pool1, pool', claims, m, h1, hrel, ?_, hb, hc, h⟩
  rw [hslots, filter_slotShapes, hrel.shapes, List.append_nil]

theorem setPoolSlot_reslotted {shares : Nat} {variant : T.Position}
    (h : setPoolSlot s reason poolOf slotOf shares variant = .ok s') :
    ∃ s₁ balance pool released pool' claims m,
      Reslotted s s₁ s' reason poolOf slotOf [(slotOf, shares, variant)] balance pool released pool' claims m := by
  obtain ⟨_, -, h⟩ := bind_eq_ok.mp h
  obtain ⟨⟨s₁, balance⟩, h1, h⟩ := bind_eq_ok.mp h
  obtain ⟨pool, released, claims, m, hrel⟩ := releasePool_spec h1
  obtain ⟨pool1, hp, h⟩ := bind_eq_ok.mp h
  obtain rfl := hrel.getPool hp
  obtain ⟨pool2, h2, h⟩ := bind_eq_ok.mp h
  obtain ⟨hslots, hb, hc⟩ := dropSlot_spec h2
  obtain ⟨entry, he, h⟩ := bind_eq_ok.mp h
  obtain ⟨hd, hshares, hvariant⟩ := EntryInfo.new_eq_ok he
  obtain ⟨pool', h3, h⟩ := bind_eq_ok.mp h
  obtain ⟨hslots', hb', hc'⟩ := addSlot_spec h3
  refine ⟨s₁, balance, pool, pool1, pool', claims, m, h1, hrel, ?_, hb'.trans hb, hc'.trans hc, h⟩
  rw [hslots', hslots, slotShapes, List.map_append, ← slotShapes, filter_slotShapes, hrel.shapes]
  simp [SlotInfo.ofEntry, hd, hshares, hvariant]

theorem Reslotted.recovered (hs : Sound s)
    (h : Reslotted s s₁ s' reason poolOf slotOf added balance pool released pool' claims m) :
    ∃ recovered m' dust,
      Recovered { s₁ with poolMap := s₁.poolMap.insert (reason, poolOf) pool' } s' reason poolOf balance pool'
        recovered m' dust ∧
      Rebalanced s s' reason (poolValue s.digestMap reason pool) (poolValue s.digestMap reason pool) dust := by
  obtain ⟨hsb, hs₁⟩ := h.release.solvent hs
  have hs₂ : Sound { s₁ with poolMap := s₁.poolMap.insert (reason, poolOf) pool' } := by
    refine hs₁.insertPool hs₁.digests ?_ rfl rfl
    rw [h.balance_eq, h.release.idle]
    exact fun b hb => nomatch hb
  obtain ⟨pool1, recovered, m', dust, hrec⟩ := recoverPool_spec hsb h.recovers
  have hreb := h.release.rebalanced hs ⟨_, rfl⟩ hs₂ hrec
  rw [(adjustPoolBalance_spec h.release.adjusted).1] at hreb
  obtain rfl : pool' = pool1 := by
    have hf := hrec.found
    dsimp only at hf
    rw [StorageMap.get_insert_self] at hf
    exact Option.some.inj hf
  exact ⟨recovered, m', dust, hrec, hreb⟩

theorem Reslotted.settles (hs : Sound s)
    (h : Reslotted s s₁ s' reason poolOf slotOf added balance pool released pool' claims m) :
    Settles s s' (slotLeak s reason poolOf slotOf (added.map fun t => t.2.1)) := by
  obtain ⟨recovered, m', dust, hrec, hreb⟩ := h.recovered hs
  have hdust : dust = splitDust T (otherShares pool.slots slotOf ++ added.map fun t => t.2.1)
      (poolValue s.digestMap reason pool) := by
    rw [hrec.dust_eq, ← map_slotShapes, h.shapes, List.map_append, otherShares,
      (adjustPoolBalance_spec h.release.adjusted).1]
  simpa [slotLeak, h.release.found, ← hdust] using hreb.settles

theorem removePoolSlot_settles (hs : Sound s) (h : removePoolSlot s reason poolOf slotOf = .ok s') :
    Settles s s' (slotLeak s reason poolOf slotOf []) := by
  obtain ⟨s₁, balance, pool, released, pool', claims, m, hr⟩ := removePoolSlot_reslotted h
  have hsettles := hr.settles hs
  rwa [List.map_nil] at hsettles

theorem setPoolSlot_settles {shares : Nat} {variant : T.Position} (hs : Sound s)
    (h : setPoolSlot s reason poolOf slotOf shares variant = .ok s') :
    Settles s s' (slotLeak s reason poolOf slotOf [shares]) := by
  obtain ⟨s₁, balance, pool, released, pool', claims, m, hr⟩ := setPoolSlot_reslotted h
  have hsettles := hr.settles hs
  rwa [List.map_singleton] at hsettles

end Slots

def slotSharesLeak (s : State T) (reason : T.Reason) (poolOf slotOf : T.AccountId) (shares : Nat) : Int :=
  if shares ≠ 0 then slotLeak s reason poolOf slotOf [shares]
  else if (findSlot s reason poolOf slotOf).isSome then slotLeak s reason poolOf slotOf []
  else 0

def slotVariantLeak (s : State T) (reason : T.Reason) (poolOf slotOf : T.AccountId)
    (shares : Option Nat) : Int :=
  match findSlot s reason poolOf slotOf, shares with
  | some slot, none => slotLeak s reason poolOf slotOf [slot.shares]
  | none, none => 0
  | _, some shares => slotSharesLeak s reason poolOf slotOf shares

theorem setSlotShares_settles {s s' : State T} {reason : T.Reason}
    {poolOf slotOf : T.AccountId} {shares : Nat} (hs : Sound s)
    (h : setSlotShares s reason poolOf slotOf shares = .ok s') :
    Settles s s' (slotSharesLeak s reason poolOf slotOf shares) := by
  unfold setSlotShares at h
  split at h
  · rename_i slot hf
    split at h
    · rename_i hz
      simpa [slotSharesLeak, hz, hf] using removePoolSlot_settles hs h
    · rename_i hz
      simpa [slotSharesLeak, hz] using setPoolSlot_settles hs h
  · rename_i hf
    split at h
    · rename_i hz
      obtain rfl := pure_eq_ok.mp h
      simpa [slotSharesLeak, hz, hf] using Settles.refl hs
    · rename_i hz
      obtain ⟨_, -, h⟩ := bind_eq_ok.mp h
      simpa [slotSharesLeak, hz] using setPoolSlot_settles hs h

theorem setSlotOfVariant_settles {s s' : State T} {reason : T.Reason}
    {poolOf slotOf : T.AccountId} {variant : T.Position} {shares : Option Nat} (hs : Sound s)
    (h : setSlotOfVariant s reason poolOf slotOf variant shares = .ok s') :
    Settles s s' (slotVariantLeak s reason poolOf slotOf shares) := by
  unfold setSlotOfVariant at h
  split at h
  · rename_i slot n hf
    split at h
    · rename_i hz
      simpa [slotVariantLeak, slotSharesLeak, hz, hf] using removePoolSlot_settles hs h
    · rename_i hz
      simpa [slotVariantLeak, slotSharesLeak, hz, hf] using setPoolSlot_settles hs h
  · rename_i slot hf
    simpa [slotVariantLeak, hf] using setPoolSlot_settles hs h
  · rename_i n hf
    split at h
    · rename_i hz
      obtain rfl := pure_eq_ok.mp h
      simpa [slotVariantLeak, slotSharesLeak, hz, hf] using Settles.refl hs
    · rename_i hz
      obtain ⟨_, -, h⟩ := bind_eq_ok.mp h
      simpa [slotVariantLeak, slotSharesLeak, hz, hf] using setPoolSlot_settles hs h
  · cases h

theorem hasDeposits_eq_false {b : Balance T.share} (hs : Solvent b)
    (h : (hasDeposits (some b)).isOk = false) : b.effective = 0 := by
  unfold hasDeposits at h
  dsimp only at h
  split at h
  · rename_i hi
    exact (hs.of_empty hi).1
  · cases h

theorem issued_eq_zero {balance : LazyBalance T} (h : (hasDeposits balance).isOk = false) :
    issuedShares balance = 0 := by
  cases balance with
  | none => rfl
  | some b =>
    unfold hasDeposits at h
    dsimp only at h
    split at h
    · assumption
    · cases h

theorem mapM_position {l : List (LazyBalance T × Nat)} {balances : List (LazyBalance T)}
    (h : (l.mapM fun p => do
      let _ ← okOr (T.positionOf p.2) DispatchError.invalidCommitVariantIndex
      pure p.1) = .ok balances) : balances = l.map Prod.fst := by
  induction l generalizing balances with
  | nil =>
    cases h
    rfl
  | cons p l ih =>
    rw [List.mapM_cons] at h
    obtain ⟨b, hb, h⟩ := bind_eq_ok.mp h
    obtain ⟨bs, hbs, h⟩ := bind_eq_ok.mp h
    obtain ⟨_, -, hb⟩ := bind_eq_ok.mp hb
    obtain rfl := pure_eq_ok.mp hb
    obtain rfl := pure_eq_ok.mp h
    rw [ih hbs]
    rfl

theorem mem_occupied {info : DigestInfo T} {balances : List (LazyBalance T)} (ho : info.occupied = .ok balances)
    {i : Nat} {b : Balance T.share} (h : info.balances[i]? = some (some b)) : some b ∈ balances := by
  rw [mapM_position ho]
  exact List.mem_map.mpr ⟨(some b, i), List.mem_filter.mpr ⟨List.mem_zipIdx_iff_getElem?.mpr (by simp [h]), rfl⟩, rfl⟩

theorem value_of_noDeposits {s : State T} {reason : T.Reason} {digest : T.AccountId}
    {info : DigestInfo T} {balances : List (LazyBalance T)} (hs : Sound s)
    (hi : s.digestMap.get (reason, digest) = some info) (ho : info.occupied = .ok balances)
    (hd : ∀ balance ∈ balances, (hasDeposits balance).isOk = false) :
    (∀ balance ∈ balances, totalValue balance = 0) ∧ info.value = 0 := by
  have hb := mapM_position ho
  have hmem {i : Nat} {b : Balance T.share} (h : info.balances[i]? = some (some b)) : Solvent b := by
    refine hs.digests (reason, digest, i) b ?_
    simp [balanceAt, hi, DigestInfo.at, h]
  have hzero : ∀ balance ∈ balances, totalValue balance = 0 := by
    intro balance hm
    have hm' := hm
    rw [hb] at hm'
    obtain ⟨⟨c, i⟩, hp, rfl⟩ := List.mem_map.mp hm'
    obtain ⟨hz, hsome⟩ := List.mem_filter.mp hp
    cases c with
    | none => rfl
    | some b =>
      have hg : info.balances[i]? = some (some b) := by
        simpa using List.mem_zipIdx_iff_getElem?.mp hz
      exact hasDeposits_eq_false (hmem hg) (hd _ hm)
  refine ⟨hzero, ?_⟩
  refine List.sum_eq_zero fun v hv => ?_
  obtain ⟨c, hc, rfl⟩ := List.mem_map.mp hv
  cases c with
  | none => rfl
  | some b =>
    obtain ⟨i, hlt, hg⟩ := List.mem_iff_getElem.mp hc
    exact hzero _ (mem_occupied ho (by rw [List.getElem?_eq_getElem hlt, hg]))

theorem reapDigest_spec {s s' : State T} {digest : T.AccountId} {reason : T.Reason} (hs : Sound s)
    (h : reapDigest s digest reason = .ok s') :
    ∃ info, s.digestMap.get (reason, digest) = some info ∧ info.value = 0 ∧
      (∀ i, issuedShares (info.at i) = 0) ∧
      s' = { s with digestMap := s.digestMap.remove (reason, digest) } := by
  obtain ⟨info, hi, h⟩ := bind_eq_ok.mp h
  rw [okOr_eq_ok] at hi
  obtain ⟨balances, ho, h⟩ := bind_eq_ok.mp h
  obtain ⟨_, hd, h⟩ := bind_eq_ok.mp h
  rw [ensure_eq_ok] at hd
  obtain ⟨hz, hv⟩ := value_of_noDeposits hs hi ho hd
  have hrem : (balances.getLast?.map totalValue).getD 0 = 0 := by
    cases hl : balances.getLast? with
    | none => rfl
    | some b => exact hz b (List.mem_of_getLast? hl)
  dsimp only at h
  rw [hrem, State.unlessZero, if_pos rfl] at h
  obtain ⟨s1, h1, h⟩ := bind_eq_ok.mp h
  obtain rfl := Except.ok.inj h1
  obtain rfl := pure_eq_ok.mp h
  refine ⟨info, hi, hv, fun i => ?_, rfl⟩
  unfold DigestInfo.at
  cases hb : info.balances[i]? with
  | none => rfl
  | some b =>
    cases b with
    | none => rfl
    | some b => exact issued_eq_zero (hd _ (mem_occupied ho hb))

theorem reapDigest_settles {s s' : State T} {digest : T.AccountId}
    {reason : T.Reason} (hs : Sound s) (h : reapDigest s digest reason = .ok s') : Settles s s' 0 := by
  obtain ⟨info, hi, hv, -, rfl⟩ := reapDigest_spec hs h
  have hl (w : T.Reason → Nat) :
      liveValue w (s.digestMap.remove (reason, digest)) = liveValue w s.digestMap := by
    have hr := StorageMap.sum_remove (fun key (info : DigestInfo T) => w key.1 * info.value) s.digestMap
      (reason, digest)
    rw [hi, Option.elim_some, hv, Nat.mul_zero, Nat.add_zero] at hr
    exact hr
  have hdv := hl fun _ => 1
  rw [liveValue_one, liveValue_one] at hdv
  refine ⟨⟨⟨fun loc b hb => hs.digests loc b ?_, hs.pools⟩, fun w => ?_, ?_⟩, (Flow.refl _).of_eq ?_⟩
  · unfold balanceAt at hb ⊢
    rw [StorageMap.get_remove] at hb
    split at hb
    · cases hb
    · rename_i info' hg
      split at hg
      · cases hg
      · rw [hg]
        exact hb
  · have := hl w
    dsimp only
    omega
  · unfold disequilibrium depositsOwed digestsValue
    dsimp only
    omega
  · unfold digestsValue
    dsimp only
    omega

theorem reapPool_spec {s s' : State T} {reason : T.Reason} {poolOf : T.AccountId}
    (hs : Sound s) (h : reapPool s reason poolOf = .ok s') :
    ∃ pool, s.poolMap.get (reason, poolOf) = some pool ∧ issuedShares pool.balance = 0 ∧
      s' = { s with
        poolMap := s.poolMap.remove (reason, poolOf)
        poolManager := s.poolManager.remove (reason, poolOf) } := by
  obtain ⟨pool, hp, h⟩ := bind_eq_ok.mp h
  rw [getPool, okOr_eq_ok] at hp
  obtain ⟨_, hd, h⟩ := bind_eq_ok.mp h
  rw [ensure_eq_ok] at hd
  have hz : totalValue pool.balance = 0 := by
    cases hb : pool.balance with
    | none => rfl
    | some b => exact hasDeposits_eq_false (hs.pools _ _ hp b hb) (hb ▸ hd)
  dsimp only at h
  rw [hz, State.unlessZero, if_pos rfl] at h
  obtain ⟨s1, h1, h⟩ := bind_eq_ok.mp h
  obtain rfl := Except.ok.inj h1
  exact ⟨pool, hp, issued_eq_zero hd, (pure_eq_ok.mp h).symm⟩

theorem reapPool_settles {s s' : State T} {reason : T.Reason} {poolOf : T.AccountId}
    (hs : Sound s) (h : reapPool s reason poolOf = .ok s') : Settles s s' 0 := by
  obtain ⟨pool, -, -, rfl⟩ := reapPool_spec hs h
  refine ⟨⟨⟨hs.digests, fun key pool' hk => ?_⟩, fun _ => rfl, ?_⟩, (Flow.refl _).of_eq ?_⟩
  · dsimp only at hk
    rw [StorageMap.get_remove] at hk
    split at hk
    · cases hk
    · exact hs.pools key pool' hk
  · rw [Int.add_zero]
    rfl
  · exact (Int.sub_self _).symm

end FrameSuite
