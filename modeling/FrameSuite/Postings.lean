import FrameSuite.Custody
import FrameSuite.Outstanding

/-! What the deposits, withdrawals and slot changes of the pallet post between the holders of shares,
in whatever state they are made: also where a digest was given to a pool or an index again. -/

namespace FrameSuite

open ShareBalance

variable {T : Config}

/-- The shares a receipt has at a location, where its digest is known. -/
def directShares (m : DigestMap T) (l loc : Location T) (r : Receipt T.share) : Nat :=
  if m.containsKey (loc.1, loc.2.1) = true then sharesAt l loc r else 0

/-- The slots of a pool without a balance hold nothing, and no slot holds a receipt without shares. -/
structure PoolInfo.Tidy (pool : PoolInfo T) : Prop where
  idle : pool.balance = none → ∀ slot ∈ pool.slots, slot.commit = none
  shares_ne : ∀ slot ∈ pool.slots, ∀ r, slot.commit = some r → r.shares ≠ 0

/-- A pool before and after a step that gains and loses shares of it. A pool whose digest is known
cannot be deposited to. -/
structure PoolPosted (known : Prop) (pool pool' : PoolInfo T) (gained lost : Nat) : Prop where
  issued : ¬known → issuedShares pool.balance + gained ≤ issuedShares pool'.balance + lost
  idle : known → pool.balance = none → pool'.balance = none
  tidy : pool.Tidy → pool'.Tidy

theorem PoolPosted.same {known : Prop} {gained lost : Nat} (pool : PoolInfo T) (h : ¬known → gained ≤ lost) :
    PoolPosted known pool pool gained lost :=
  ⟨fun hn => Nat.add_le_add_left (h hn) _, fun _ h => h, id⟩

/-- A step that leaves the commits alone. It books the gained receipts at the location before a
commit holds them, and releases the lost ones while their commit still does. -/
structure Posting (s s' : State T) (loc : Location T) (gained lost : List (CommitInstance T))
    (dropped : EntryKey T → Prop) : Prop where
  sound : Sound s'
  commits : s'.commitMap = s.commitMap
  digestKeys : ∀ key, s'.digestMap.containsKey key = s.digestMap.containsKey key
  indexEntries : ∀ key, (s'.indexMap.get key).map IndexInfo.entries = (s.indexMap.get key).map IndexInfo.entries
  poolKeys : ∀ key, s'.poolMap.containsKey key = s.poolMap.containsKey key
  newEntries : ∀ key, s'.entryMap.get key ≠ none → s.entryMap.get key ≠ none ∨ EntryValid s.indexMap key
  oldEntries : ∀ key, s.entryMap.get key ≠ none → dropped key ∨ s'.entryMap.get key ≠ none
  located : s.digestMap.containsKey (loc.1, loc.2.1) = true ∨ s.poolMap.containsKey (loc.1, loc.2.1) = true ∨
    receiptsAt loc gained = []
  digests : ∀ l, issuedAt s.digestMap l + tally (directShares s.digestMap l) (receiptsAt loc gained) +
      positioned s' l ≤
    issuedAt s'.digestMap l + tally (directShares s.digestMap l) (receiptsAt loc lost) + positioned s l
  pools : ∀ key pool', s'.poolMap.get key = some pool' → ∃ pool, s.poolMap.get key = some pool ∧
    PoolPosted (s.digestMap.containsKey key = true) pool pool' (tally (sharesUnder key) (receiptsAt loc gained))
      (tally (sharesUnder key) (receiptsAt loc lost))

section Digests

theorem directShares_of_known {m : DigestMap T} {l loc : Location T} (h : m.containsKey (loc.1, loc.2.1) = true) :
    directShares m l loc = sharesAt l loc := by
  funext r
  simp [directShares, h]

theorem directShares_of_unknown {m : DigestMap T} {l loc : Location T} (h : m.containsKey (loc.1, loc.2.1) = false)
    (r : Receipt T.share) : directShares m l loc r = 0 := by
  simp [directShares, h]

theorem sharesUnder_eq_zero {key : T.Reason × T.AccountId} {loc : Location T} (h : (loc.1, loc.2.1) ≠ key)
    (r : Receipt T.share) : sharesUnder key loc r = 0 := if_neg h

theorem Posting.of_digests {s : State T} {m : DigestMap T} {loc : Location T}
    {gained lost : List (CommitInstance T)} (hs : Sound s) (hm : AllSolvent m)
    (hk : ∀ key, m.containsKey key = s.digestMap.containsKey key)
    (hloc : s.digestMap.containsKey (loc.1, loc.2.1) = true)
    (hi : ∀ l, issuedAt s.digestMap l + tally (sharesAt l) (receiptsAt loc gained) ≤
      issuedAt m l + tally (sharesAt l) (receiptsAt loc lost)) (dropped : EntryKey T → Prop) :
    Posting s { s with digestMap := m } loc gained lost dropped where
  sound := ⟨hm, hs.pools⟩
  commits := rfl
  digestKeys := hk
  indexEntries _ := rfl
  poolKeys _ := rfl
  newEntries _ h := .inl h
  oldEntries _ h := .inr h
  located := .inl hloc
  digests l := by
    have hown := directShares_of_known (l := l) hloc
    have hl := hi l
    have hpos : positioned { s with digestMap := m } l = positioned s l := rfl
    rw [tally_congr hown, tally_congr hown, hpos]
    dsimp only
    omega
  pools key pool hp := by
    refine ⟨pool, hp, .same pool fun hn => ?_⟩
    have hne : (loc.1, loc.2.1) ≠ key := fun he => hn (he ▸ hloc)
    rw [tally_eq_zero (sharesUnder_eq_zero hne)]
    exact Nat.zero_le _

theorem depositToDigest_posting {s s' : State T} {reason : T.Reason} {digest : T.AccountId}
    {value amount : Nat} {variant : T.Position} {receipt : CommitInstance T} (hs : Sound s)
    (h : depositToDigest s reason digest value variant = .ok (s', receipt, amount)) :
    ∃ r, receipt = some r ∧ r.shares ≠ 0 ∧ s.digestMap.containsKey (reason, digest) = true ∧
      Posting s s' (location reason digest variant) [receipt] [] fun _ => False := by
  have hk : s.digestMap.containsKey (reason, digest) = true := by
    obtain ⟨info, hi, -⟩ := bind_eq_ok.mp h
    rw [okOr_eq_ok] at hi
    exact StorageMap.containsKey_iff.mpr ⟨info, hi⟩
  obtain ⟨-, r, m, rfl, -, hne, rfl, hd⟩ := depositToDigest_spec h
  refine ⟨r, rfl, hne, hk, .of_digests hs (hd.allSolvent hs.digests) hd.contains hk (fun l => ?_) _⟩
  have hi := hd.issued l
  simp only [tally_cons, tally_nil, receiptsAt_some, receiptsAt_nil, Nat.add_zero] at hi ⊢
  exact hi.ge

theorem withdrawFromDigest_posting {s s' : State T} {who : T.AccountId} {reason : T.Reason}
    {digest : T.AccountId} {d : AssetDelta} {info : CommitInfo T} (hs : Sound s)
    (hi : s.commitMap.get (who, reason) = some info)
    (hk : s.digestMap.containsKey (reason, digest) = true)
    (h : withdrawFromDigest s who reason digest = .ok (s', d)) (dropped : EntryKey T → Prop) :
    Posting s s' (location reason digest info.variant) [] info.commits.receipts dropped := by
  obtain ⟨commit, m, hc, rfl, hw, -⟩ := withdrawFromDigest_spec h
  obtain rfl : info = commit := Option.some.inj (hi.symm.trans hc)
  refine .of_digests hs (hw.allSolvent hs.digests) hw.contains hk (fun l => ?_) _
  have := hw.issued hs.digests l
  simp only [receiptsAt_nil, tally_nil]
  omega

theorem setDigestVariantValue_posting {s s' : State T} {reason : T.Reason} {digest : T.AccountId}
    {value reached : Nat} {variant : T.Position} (hs : Sound s)
    (h : setDigestVariantValue s reason digest value variant = .ok (s', reached)) :
    ∃ m, SameMaps { s with digestMap := m } s' ∧ s'.commitMap = s.commitMap ∧
      Posting s { s with digestMap := m } (location reason digest variant) [] [] fun _ => False := by
  obtain ⟨m, rv, b, b', gain, loss, rfl, ht, hr, -, -, hk⟩ := setDigestVariantValue_spec h
  have hm := ht.allSolvent hs.digests (hr.solvent fun c hc => hs.digests _ c (ht.before.trans hc))
  refine ⟨m, ⟨rfl, rfl, rfl, rfl⟩, rfl, .of_digests hs hm ht.contains hk (fun l => ?_) _⟩
  rw [ht.issued]
  split
  · rename_i hl
    rw [hl, issuedAt, ht.before, hr.issued]
  · exact le_refl _

end Digests

section Indexes

theorem addEntryCommit_keys {s s' : State T} {key : EntryKey T} {receipt : CommitInstance T}
    (h : addEntryCommit s key receipt = .ok s') :
    s'.entryMap.get key ≠ none ∧ ∀ k, s.entryMap.get k ≠ none → s'.entryMap.get k ≠ none := by
  obtain ⟨commits, -, h⟩ := bind_eq_ok.mp h
  obtain rfl := pure_eq_ok.mp h
  refine ⟨by simp, fun k hk => ?_⟩
  dsimp only
  rw [StorageMap.get_insert]
  split
  · exact Option.some_ne_none _
  · exact hk

theorem depositToEntries_keys {who : T.AccountId} {reason : T.Reason} {indexOf : T.AccountId}
    {value capital : Nat} {entries : List (EntryInfo T)} {s s' : State T} {actual actual' : Nat}
    (h : depositToEntries who reason indexOf value capital entries s actual = .ok (s', actual')) :
    (∀ k, s.entryMap.get k ≠ none → s'.entryMap.get k ≠ none) ∧
      ∀ entry ∈ entries, ∀ part, entryDeposit T value entry.shares capital = .ok part →
        T.share.rational.div ≤ part.inner →
          s'.entryMap.get (reason, indexOf, entry.digest, who) ≠ none := by
  induction entries generalizing s actual with
  | nil =>
    cases h
    exact ⟨fun _ hk => hk, fun _ he => nomatch he⟩
  | cons entry entries ih =>
    obtain ⟨part, hp, h⟩ := bind_eq_ok.mp h
    split at h
    · rename_i hlt
      obtain ⟨hkeep, hnew⟩ := ih h
      refine ⟨hkeep, fun e he part' hp' hle => ?_⟩
      rcases List.mem_cons.mp he with rfl | he
      · obtain rfl := Except.ok.inj (hp.symm.trans hp')
        omega
      · exact hnew e he part' hp' hle
    · obtain ⟨⟨s1, receipt, amount⟩, h1, h⟩ := bind_eq_ok.mp h
      obtain ⟨-, r, m1, rfl, -, -, rfl, -⟩ := depositToDigest_spec h1
      obtain ⟨s2, h2, h⟩ := bind_eq_ok.mp h
      obtain ⟨hown, hold⟩ := addEntryCommit_keys h2
      obtain ⟨act, -, h⟩ := bind_eq_ok.mp h
      obtain ⟨hkeep, hnew⟩ := ih h
      refine ⟨fun k hk => hkeep k (hold k hk), fun e he part' hp' hle => ?_⟩
      rcases List.mem_cons.mp he with rfl | he
      · exact hkeep _ hown
      · exact hnew e he part' hp' hle

theorem depositToIndex_keys {s s' : State T} {who : T.AccountId} {reason : T.Reason}
    {indexOf : T.AccountId} {value amount : Nat} {receipt : CommitInstance T}
    (h : depositToIndex s who reason indexOf value = .ok (s', receipt, amount)) :
    ∃ info, s.indexMap.get (reason, indexOf) = some info ∧
      (∀ k, s.entryMap.get k ≠ none → s'.entryMap.get k ≠ none) ∧
      ∀ entry ∈ info.entries.list, ∀ part, entryDeposit T value entry.shares info.capital = .ok part →
        T.share.rational.div ≤ part.inner →
          s'.entryMap.get (reason, indexOf, entry.digest, who) ≠ none := by
  obtain ⟨info, hi, h⟩ := bind_eq_ok.mp h
  rw [getIndex, okOr_eq_ok] at hi
  obtain ⟨_, -, h⟩ := bind_eq_ok.mp h
  obtain ⟨⟨s1, actual⟩, h1, h⟩ := bind_eq_ok.mp h
  obtain ⟨s2, h2, h⟩ := bind_eq_ok.mp h
  obtain ⟨l, rfl, -⟩ := unlessZero_increase_spec h2
  obtain ⟨_, -, h⟩ := bind_eq_ok.mp h
  simp only [pure_eq_ok, Prod.mk.injEq] at h
  obtain ⟨rfl, -, -⟩ := h
  obtain ⟨hkeep, hnew⟩ := depositToEntries_keys h1
  exact ⟨info, hi, hkeep, hnew⟩

theorem indexEntries_setBalance {im : StorageMap (T.Reason × T.AccountId) (IndexInfo T)}
    {key : T.Reason × T.AccountId} {info : IndexInfo T} (h : im.get key = some info) (principal : Nat)
    (k : T.Reason × T.AccountId) :
    ((im.insert key (info.setBalance principal)).get k).map IndexInfo.entries =
      (im.get k).map IndexInfo.entries := by
  rw [StorageMap.get_insert]
  split
  · rename_i hk
    rw [hk, h]
    rfl
  · rfl

theorem tally_none (φ : Location T → Receipt T.share → Nat) (loc : Location T) :
    tally φ (receiptsAt loc [none]) = 0 := rfl

theorem depositToIndex_posting {s s' : State T} {who : T.AccountId} {reason : T.Reason}
    {indexOf : T.AccountId} {value amount : Nat} {receipt : CommitInstance T} (hs : Sound s)
    (h : depositToIndex s who reason indexOf value = .ok (s', receipt, amount)) (loc : Location T) :
    receipt = none ∧ Posting s s' loc [none] [] fun _ => False := by
  obtain ⟨-, -, hkeys, -⟩ := depositToIndex_keys h
  obtain ⟨info, m, e, l, claims, hi, hrec, rfl, hd, -, -, -, -, he, hk⟩ := depositToIndex_spec h
  have hents := indexEntries_setBalance hi (info.principal + amount)
  refine ⟨hrec, ⟨hd.allSolvent hs.digests, hs.pools⟩, rfl, hd.contains, hents, fun _ => rfl,
    fun key hkey => ?_, fun key hkey => .inr (hkeys key hkey), .inr (.inr rfl), fun l => ?_,
    fun key pool hp => ⟨pool, hp, .same pool fun _ => le_refl _⟩⟩
  · rcases hk key hkey with ho | ⟨entry, hm, rfl⟩
    · exact .inl ho
    · exact .inr ⟨info, entry, hi, hm, rfl⟩
  · have hiss := hd.issued l
    have hheld := he (sharesAt l) (entryLocation s.indexMap) fun entry hm => by
      rw [entryLocation_of_mem hi hm]
    have hloc : (entryLocation (s.indexMap.insert (reason, indexOf) (info.setBalance (info.principal + amount)))) =
        entryLocation s.indexMap := funext fun key => entryLocation_congr (hents _)
    unfold positioned
    dsimp only
    rw [hloc, hheld, hiss, tally_none]
    simp only [receiptsAt_nil, tally_nil]
    omega

theorem withdrawEntries_keys {who : T.AccountId} {reason : T.Reason} {indexOf : T.AccountId}
    {entries : List (EntryInfo T)} {s s' : State T} {d d' : AssetDelta}
    (h : withdrawEntries who reason indexOf entries s d = .ok (s', d')) (key : EntryKey T)
    (hk : s.entryMap.get key ≠ none) : (key.2.2.2 = who ∧ key.1 = reason) ∨ s'.entryMap.get key ≠ none := by
  induction entries generalizing s d with
  | nil =>
    cases h
    exact .inr hk
  | cons entry entries ih =>
    obtain ⟨commits, -, h⟩ := bind_eq_ok.mp h
    obtain ⟨⟨m1, d1⟩, -, h⟩ := bind_eq_ok.mp h
    by_cases he : key = (reason, indexOf, entry.digest, who)
    · subst he
      exact .inl ⟨rfl, rfl⟩
    · refine ih h ?_
      dsimp only
      rwa [StorageMap.get_remove_of_ne he]

theorem withdrawFromIndex_posting {s s' : State T} {who : T.AccountId} {reason : T.Reason}
    {indexOf : T.AccountId} {d : AssetDelta} (hs : Sound s)
    (h : withdrawFromIndex s who reason indexOf = .ok (s', d)) (loc : Location T)
    (lost : List (CommitInstance T)) :
    Posting s s' loc [] lost fun key => key.2.2.2 = who ∧ key.1 = reason := by
  have hkeys : ∀ k, s.entryMap.get k ≠ none →
      (k.2.2.2 = who ∧ k.1 = reason) ∨ s'.entryMap.get k ≠ none := by
    obtain ⟨info, -, h⟩ := bind_eq_ok.mp h
    obtain ⟨⟨s1, d1⟩, h1, h⟩ := bind_eq_ok.mp h
    obtain ⟨_, -, h⟩ := bind_eq_ok.mp h
    simp only [pure_eq_ok, Prod.mk.injEq] at h
    obtain ⟨rfl, -⟩ := h
    exact fun k hk => withdrawEntries_keys h1 k hk
  obtain ⟨info, m, e, claims, hi, -, rfl, hw, -, -, -, he, hk⟩ := withdrawFromIndex_spec h
  have hents := indexEntries_setBalance hi (info.principal - d.deposit)
  refine ⟨⟨hw.allSolvent hs.digests, hs.pools⟩, rfl, hw.contains, hents, fun _ => rfl,
    fun key hkey => .inl (hk key hkey), hkeys, .inr (.inr rfl), fun l => ?_,
    fun key pool hp => ⟨pool, hp, .same pool fun _ => ?_⟩⟩
  · have hiss := hw.issued hs.digests l
    have hheld := he (sharesAt l) (entryLocation s.indexMap) fun entry hm => by
      rw [entryLocation_of_mem hi hm]
    have hloc : (entryLocation (s.indexMap.insert (reason, indexOf) (info.setBalance (info.principal - d.deposit)))) =
        entryLocation s.indexMap := funext fun key => entryLocation_congr (hents _)
    unfold positioned
    dsimp only
    rw [hloc]
    simp only [receiptsAt_nil, tally_nil]
    omega
  · simp only [receiptsAt_nil, tally_nil]
    omega

end Indexes

section Pools

theorem Deposits.principal_ne {m m' : DigestMap T} {claims : Claims T} (h : Deposits m claims m') :
    ∀ c ∈ claims, c.2.principal ≠ 0 := by
  induction h with
  | nil m => exact fun c hc => absurd hc List.not_mem_nil
  | cons touch dep rest ih => exact List.forall_mem_cons.mpr ⟨dep.asset_ne, ih⟩

theorem mem_slotClaims (reason : T.Reason) {slots : List (SlotInfo T)} {slot : SlotInfo T} {r : Receipt T.share}
    (hm : slot ∈ slots) (hc : slot.commit = some r) :
    (location reason slot.digest slot.variant, r) ∈ slotClaims reason slots :=
  List.mem_filterMap.mpr ⟨slot, hm, by simp [slotClaim, hc]⟩

/-- A recovered pool spreads all it is worth, so that without a balance its slots hold nothing. -/
theorem Recovered.tidy {s s' : State T} {reason : T.Reason} {poolOf : T.AccountId} {balance : LazyBalance T}
    {pool recovered : PoolInfo T} {m : DigestMap T} {dust : Nat}
    (h : Recovered s s' reason poolOf balance pool recovered m dust) : recovered.Tidy where
  idle hn slot hm := by
    have hvalue := h.value
    have hspread := h.spread
    rw [hn, totalValue_none, Nat.zero_add] at hvalue
    by_contra hc
    obtain ⟨r, hr⟩ := Option.ne_none_iff_exists'.mp hc
    have hclaim := mem_slotClaims reason hm hr
    have hle : principal (location reason slot.digest slot.variant) r ≤
        tally principal (slotClaims reason recovered.slots) :=
      le_tally hclaim
    have hne := h.deposits.principal_ne _ hclaim
    unfold principal at hle hspread
    dsimp only at hne
    omega
  shares_ne slot hm r hr := h.shares_ne _ (mem_slotClaims _ hm hr)

theorem Recovered.idle {s s' : State T} {reason : T.Reason} {poolOf : T.AccountId} {balance : LazyBalance T}
    {pool recovered : PoolInfo T} {m : DigestMap T} {dust : Nat}
    (h : Recovered s s' reason poolOf balance pool recovered m dust) (hn : balance = none) :
    recovered.balance = none := by
  have hvalue := h.value
  rw [hn, totalValue_none] at hvalue
  rw [h.exact (by omega), hn]

theorem Released.idle_balance {s s' : State T} {reason : T.Reason} {poolOf : T.AccountId} {balance : LazyBalance T}
    {pool released : PoolInfo T} {claims : Claims T} {m : DigestMap T}
    (h : Released s s' reason poolOf balance pool released claims m) (hn : pool.balance = none) : balance = none := by
  have hadj := h.adjusted
  rw [hn, poolValue, if_pos hn] at hadj
  exact (Except.ok.inj hadj).symm

/-- A pool that was released and recovered, perhaps with other slots and another balance. -/
theorem rebalanced_posting {s s₁ s₂ s₃ : State T} {reason : T.Reason} {poolOf : T.AccountId}
    {balance balance' : LazyBalance T} {pool released pool' recovered : PoolInfo T} {claims : Claims T}
    {m m' : DigestMap T} {dust : Nat} {loc : Location T} {gained lost : List (CommitInstance T)}
    (hs : Sound s) (hrel : Released s s₁ reason poolOf balance pool released claims m)
    (hmid : s₂ = { s₁ with poolMap := s₁.poolMap.insert (reason, poolOf) pool' })
    (hrec : Recovered s₂ s₃ reason poolOf balance' pool' recovered m' dust)
    (hsound : Sound s₃) (hloc : (loc.1, loc.2.1) = (reason, poolOf))
    (hfree : s.digestMap.containsKey (reason, poolOf) = false ∨ balance' = balance ∧ gained = [] ∧ lost = [])
    (hiss : issuedShares balance + tally (sharesUnder (reason, poolOf)) (receiptsAt loc gained) ≤
      issuedShares balance' + tally (sharesUnder (reason, poolOf)) (receiptsAt loc lost))
    (dropped : EntryKey T → Prop) : Posting s s₃ loc gained lost dropped := by
  have hkey : s.poolMap.containsKey (loc.1, loc.2.1) = true := by
    rw [hloc]
    exact StorageMap.containsKey_iff.mpr ⟨pool, hrel.found⟩
  have hown (l : Location T) : tally (directShares s.digestMap l) (receiptsAt loc gained) = 0 ∧
      tally (directShares s.digestMap l) (receiptsAt loc lost) = 0 := by
    rcases hfree with hfree | ⟨-, rfl, rfl⟩
    · rw [← hloc] at hfree
      exact ⟨tally_eq_zero (directShares_of_unknown hfree) _, tally_eq_zero (directShares_of_unknown hfree) _⟩
    · exact ⟨rfl, rfl⟩
  obtain ⟨l, rv, hs₃, -⟩ := hrec.state_eq
  have hpm : s₃.poolMap = s.poolMap.insert (reason, poolOf) recovered := by
    rw [hs₃, hmid, hrel.state_eq]
    dsimp only
    rw [StorageMap.insert_insert, StorageMap.insert_insert]
  have hdm : s₃.digestMap = m' := by rw [hs₃]
  have hrest : s₃.commitMap = s.commitMap ∧ s₃.indexMap = s.indexMap ∧ s₃.entryMap = s.entryMap := by
    rw [hs₃, hmid, hrel.state_eq]
    exact ⟨rfl, rfl, rfl⟩
  obtain ⟨hcm, him, hem⟩ := hrest
  have hmid_m : s₂.digestMap = m := by rw [hmid, hrel.state_eq]
  have hdep := hrec.deposits
  rw [hmid_m] at hdep
  have hadj := adjustPoolBalance_spec hrel.adjusted
  refine ⟨hsound, hcm, fun key => ?_, fun key => by rw [him], fun key => ?_, fun key hk => .inl (hem ▸ hk),
    fun key hk => .inr (hem.symm ▸ hk), .inr (.inl hkey), fun l => ?_, fun key pool₃ hp => ?_⟩
  · rw [hdm, hdep.contains, hrel.withdraws.contains]
  · rw [hpm, StorageMap.containsKey, StorageMap.get_insert]
    split
    · rename_i hk
      rw [hk]
      exact (StorageMap.containsKey_iff.mpr ⟨pool, hrel.found⟩).symm
    · rfl
  · have h1 := hdep.issued l
    have h2 := hrel.withdraws.issued hs.digests l
    have h3 := StorageMap.sum_insert (fun key (pool : PoolInfo T) => tally (sharesAt l) (slotClaims key.1 pool.slots))
      s.poolMap (reason, poolOf) recovered
    rw [hrel.found, Option.elim_some] at h3
    have h4 : tally (sharesAt l) claims ≤ tally (sharesAt l) (slotClaims reason pool.slots) := by
      rcases hrel.claims_eq with ⟨-, rfl⟩ | rfl
      · exact Nat.zero_le _
      · exact le_refl _
    rw [(hown l).1, (hown l).2, hdm]
    unfold positioned slotHeld
    rw [hpm, him, hem]
    dsimp only at h3
    omega
  · rw [hpm, StorageMap.get_insert] at hp
    split at hp
    · rename_i hk
      obtain rfl := Option.some.inj hp
      refine ⟨pool, hk ▸ hrel.found, fun _ => ?_, fun hknown hn => ?_, fun _ => hrec.tidy⟩
      · rw [hrec.issued, hk]
        omega
      · rcases hfree with hfree | ⟨hsame, -, -⟩
        · rw [hk, hfree] at hknown
          cases hknown
        · exact hrec.idle (hsame.trans (hrel.idle_balance hn))
    · rename_i hk
      have hne : (loc.1, loc.2.1) ≠ key := fun he => hk (he.symm.trans hloc)
      refine ⟨pool₃, hp, .same pool₃ fun _ => ?_⟩
      rw [tally_eq_zero (sharesUnder_eq_zero hne)]
      exact Nat.zero_le _

theorem Released.mid_eq {s s₁ : State T} {reason : T.Reason} {poolOf : T.AccountId} {balance : LazyBalance T}
    {pool released : PoolInfo T} {claims : Claims T} {m : DigestMap T}
    (h : Released s s₁ reason poolOf balance pool released claims m) :
    s₁ = { s₁ with poolMap := s₁.poolMap.insert (reason, poolOf) released } := by
  rw [h.state_eq]
  dsimp only
  rw [StorageMap.insert_insert]

theorem tally_sharesUnder_location (reason : T.Reason) (poolOf : T.AccountId) (variant : T.Position)
    (receipts : List (CommitInstance T)) :
    tally (sharesUnder (reason, poolOf)) (receiptsAt (location reason poolOf variant) receipts) =
      tally (fun _ r => r.shares) (receiptsAt (location reason poolOf variant) receipts) :=
  tally_congr (funext fun _ => if_pos rfl) receipts

theorem depositToPool_posting {s s' : State T} {reason : T.Reason} {poolOf : T.AccountId}
    {value amount : Nat} {receipt : CommitInstance T} (hs : Sound s)
    (hfree : s.digestMap.containsKey (reason, poolOf) = false)
    (h : depositToPool s reason poolOf value = .ok (s', receipt, amount)) (variant : T.Position) :
    ∃ r, receipt = some r ∧ r.shares ≠ 0 ∧
      Posting s s' (location reason poolOf variant) [receipt] [] fun _ => False := by
  obtain ⟨-, pool, released, recovered, claims, m, m', balance, r, after, s1, rfl, hd⟩ :=
    depositToPool_spec hs h
  obtain ⟨pool₀, -, heff⟩ := depositToPool_effect hs h
  refine ⟨r, rfl, hd.deposit.shares_ne,
    rebalanced_posting hs hd.release hd.release.mid_eq hd.recover heff.sound rfl (.inl hfree) ?_ _⟩
  rw [tally_sharesUnder_location, hd.deposit.after_eq, issuedShares_some]
  simp only [receiptsAt_some, receiptsAt_nil, tally_cons, tally_nil, issuedShares_isFreshBalance]
  omega

theorem withdrawFromPool_posting {s s' : State T} {who : T.AccountId} {reason : T.Reason}
    {poolOf : T.AccountId} {d : AssetDelta} {info : CommitInfo T} (hs : Sound s)
    (hfree : s.digestMap.containsKey (reason, poolOf) = false)
    (hi : s.commitMap.get (who, reason) = some info)
    (h : withdrawFromPool s who reason poolOf = .ok (s', d)) (variant : T.Position)
    (dropped : EntryKey T → Prop) : ∃ s₁, SameMaps s₁ s' ∧ s'.commitMap = s₁.commitMap ∧
      Posting s s₁ (location reason poolOf variant) [] info.commits.receipts dropped := by
  obtain ⟨commit, hc, h⟩ := bind_eq_ok.mp h
  rw [getCommit, okOr_eq_ok] at hc
  obtain rfl : info = commit := Option.some.inj (hi.symm.trans hc)
  obtain ⟨⟨s1, balance⟩, h1, h⟩ := bind_eq_ok.mp h
  obtain ⟨pool, released, claims, m, hrel⟩ := releasePool_spec h1
  obtain ⟨hsb, hs1⟩ := hrel.solvent hs
  obtain ⟨⟨nb, d1⟩, h2, h⟩ := bind_eq_ok.mp h
  obtain ⟨hnb, -, hloc, hmax⟩ := withdrawReceipts_spec hsb h2
  obtain ⟨s2, h3, h⟩ := bind_eq_ok.mp h
  obtain ⟨pool1, recovered, m', dust, hrec⟩ := recoverPool_spec hnb h3
  have hsound := (hrel.rebalanced hs ⟨s1.poolMap, rfl⟩ hs1 hrec).sound
  obtain rfl : released = pool1 := by
    have hf := hrec.found
    rw [hrel.state_eq, StorageMap.get_insert_self] at hf
    exact Option.some.inj hf
  have hp2 : s2.poolMap.get (reason, poolOf) = some recovered := by
    obtain ⟨l, rv, rfl, -, -⟩ := hrec.state_eq
    exact StorageMap.get_insert_self ..
  obtain ⟨-, l, rv, rfl, -, -⟩ := payCommission_spec hp2 (hmax (Nat.zero_le _)) h
  refine ⟨s2, ⟨rfl, rfl, rfl, rfl⟩, rfl,
    rebalanced_posting hs hrel hrel.mid_eq hrec hsound rfl (.inl hfree) ?_ _⟩
  rw [tally_sharesUnder_location, tally_sharesUnder_location]
  have := (hloc (location reason poolOf variant)).2
  simp only [receiptsAt_nil, tally_nil]
  omega

theorem Reslotted.posting {s s₁ s' : State T} {reason : T.Reason} {poolOf slotOf : T.AccountId}
    {added : List (T.AccountId × Nat × T.Position)} {balance : LazyBalance T} {pool released pool' : PoolInfo T}
    {claims : Claims T} {m : DigestMap T} (hs : Sound s)
    (h : Reslotted s s₁ s' reason poolOf slotOf added balance pool released pool' claims m) (variant : T.Position) :
    Posting s s' (location reason poolOf variant) [] [] fun _ => False := by
  obtain ⟨recovered, m', dust, hrec, hreb⟩ := h.recovered hs
  exact rebalanced_posting hs h.release rfl hrec hreb.sound rfl (.inr ⟨rfl, rfl, rfl⟩) (le_refl _) _

theorem removePoolSlot_posting {s s' : State T} {reason : T.Reason} {poolOf slotOf : T.AccountId}
    (hs : Sound s) (h : removePoolSlot s reason poolOf slotOf = .ok s') (variant : T.Position) :
    Posting s s' (location reason poolOf variant) [] [] fun _ => False := by
  obtain ⟨s₁, balance, pool, released, pool', claims, m, hr⟩ := removePoolSlot_reslotted h
  exact hr.posting hs variant

theorem setPoolSlot_posting {s s' : State T} {reason : T.Reason} {poolOf slotOf : T.AccountId}
    {shares : Nat} {slotVariant : T.Position} (hs : Sound s)
    (h : setPoolSlot s reason poolOf slotOf shares slotVariant = .ok s') (variant : T.Position) :
    Posting s s' (location reason poolOf variant) [] [] fun _ => False := by
  obtain ⟨s₁, balance, pool, released, pool', claims, m, hr⟩ := setPoolSlot_reslotted h
  exact hr.posting hs variant

theorem setSlotShares_posting {s s' : State T} {reason : T.Reason} {poolOf slotOf : T.AccountId}
    {shares : Nat} (hs : Sound s) (h : setSlotShares s reason poolOf slotOf shares = .ok s')
    (variant : T.Position) : s' = s ∨ Posting s s' (location reason poolOf variant) [] [] fun _ => False := by
  unfold setSlotShares at h
  split at h <;> split at h
  · exact .inr (removePoolSlot_posting hs h variant)
  · exact .inr (setPoolSlot_posting hs h variant)
  · exact .inl (pure_eq_ok.mp h).symm
  · obtain ⟨_, -, h⟩ := bind_eq_ok.mp h
    exact .inr (setPoolSlot_posting hs h variant)

theorem setSlotOfVariant_posting {s s' : State T} {reason : T.Reason} {poolOf slotOf : T.AccountId}
    {slotVariant : T.Position} {shares : Option Nat} (hs : Sound s)
    (h : setSlotOfVariant s reason poolOf slotOf slotVariant shares = .ok s') (variant : T.Position) :
    s' = s ∨ Posting s s' (location reason poolOf variant) [] [] fun _ => False := by
  unfold setSlotOfVariant at h
  split at h
  · split at h
    · exact .inr (removePoolSlot_posting hs h variant)
    · exact .inr (setPoolSlot_posting hs h variant)
  · exact .inr (setPoolSlot_posting hs h variant)
  · split at h
    · exact .inl (pure_eq_ok.mp h).symm
    · obtain ⟨_, -, h⟩ := bind_eq_ok.mp h
      exact .inr (setPoolSlot_posting hs h variant)
  · cases h

end Pools

end FrameSuite
