import FrameSuite.PoolValues
import FrameSuite.StorageIter
import FrameSuite.VariantChanges

/-! What the entries of an index and the whole index are shown to be worth, to one account and to all, and what a
member of a pool is shown of its slots. What is shown of an entry is the sum over those who hold it, which stays
within the balance of its digest. -/

namespace FrameSuite

open ShareBalance

variable {T : Config}

section Queries

/-- The accounts with a commit on an entry. -/
def entryHolders (s : State T) (reason : T.Reason) (indexOf entryOf : T.AccountId) : Finset T.AccountId :=
  (s.entryMap.keys.filter fun key => (key.1, key.2.1, key.2.2.1) = (reason, indexOf, entryOf)).image
    fun key => key.2.2.2

def entryValues (s : State T) (reason : T.Reason) (indexOf entryOf : T.AccountId) :
    List T.AccountId → Nat → Except DispatchError Nat
  | [], actual => .ok actual
  | who :: holders, actual => do
    let value ← indexEntryCommitValue s who reason indexOf entryOf
    entryValues s reason indexOf entryOf holders (saturatingAdd T.share.maxAsset actual value)

def getEntryValue (order : HashOrder T.AccountId) (s : State T) (reason : T.Reason)
    (indexOf entryOf : T.AccountId) : Except DispatchError Nat := do
  entryExists s reason indexOf entryOf
  entryValues s reason indexOf entryOf (order.sorted (entryHolders s reason indexOf entryOf)) 0

/-- The value of each part of an index or a pool, or the first error. -/
def valuesOf (query : T.AccountId → Except DispatchError Nat) :
    List (T.AccountId × Nat) → Except DispatchError (List (T.AccountId × Nat))
  | [] => .ok []
  | (part, _) :: parts => do
    let value ← query part
    let values ← valuesOf query parts
    pure ((part, value) :: values)

def indexExists (s : State T) (reason : T.Reason) (indexOf : T.AccountId) : Except DispatchError Unit :=
  ensure (s.indexMap.containsKey (reason, indexOf) = true) .indexNotFound

def getEntriesValue (order : HashOrder T.AccountId) (s : State T) (reason : T.Reason) (indexOf : T.AccountId) :
    Except DispatchError (List (T.AccountId × Nat)) := do
  indexExists s reason indexOf
  let entries ← getEntriesShares s reason indexOf
  valuesOf (getEntryValue order s reason indexOf) entries

def getIndexValue (order : HashOrder T.AccountId) (s : State T) (reason : T.Reason) (indexOf : T.AccountId) :
    Except DispatchError Nat := do
  indexExists s reason indexOf
  let values ← getEntriesValue order s reason indexOf
  pure (values.foldl (fun value entry => saturatingAdd T.share.maxAsset value entry.2) 0)

def getEntriesValueFor (s : State T) (who : T.AccountId) (reason : T.Reason) (indexOf : T.AccountId) :
    Except DispatchError (List (T.AccountId × Nat)) := do
  indexExists s reason indexOf
  let entries ← getEntriesShares s reason indexOf
  valuesOf (getEntryValueFor s who reason indexOf) entries

def getIndexValueFor (s : State T) (who : T.AccountId) (reason : T.Reason) (indexOf : T.AccountId) :
    Except DispatchError Nat := do
  indexExists s reason indexOf
  let values ← getEntriesValueFor s who reason indexOf
  pure (values.foldl (fun value entry => saturatingAdd T.share.maxAsset value entry.2) 0)

def getSlotsValueFor (s : State T) (who : T.AccountId) (reason : T.Reason) (poolOf : T.AccountId) :
    Except DispatchError (List (T.AccountId × Nat)) := do
  poolExists s reason poolOf
  let slots ← getSlotsShares s reason poolOf
  valuesOf (getSlotValueFor s who reason poolOf) slots

theorem mem_entryHolders {s : State T} {who : T.AccountId} {reason : T.Reason} {indexOf entryOf : T.AccountId} :
    who ∈ entryHolders s reason indexOf entryOf ↔ s.entryMap.get (reason, indexOf, entryOf, who) ≠ none := by
  rw [← s.entryMap.mem_keys, entryHolders, Finset.mem_image]
  constructor
  · rintro ⟨⟨r, i, e, w⟩, hkey, rfl⟩
    obtain ⟨hkey, heq⟩ := Finset.mem_filter.mp hkey
    simp only [Prod.mk.injEq] at heq
    obtain ⟨rfl, rfl, rfl⟩ := heq
    simpa using hkey
  · intro hkey
    exact ⟨_, Finset.mem_filter.mpr ⟨hkey, rfl⟩, rfl⟩

end Queries

section Loops

theorem valuesOf_eq_ok {query : T.AccountId → Except DispatchError Nat} {parts values : List (T.AccountId × Nat)} :
    valuesOf query parts = .ok values ↔ (∀ part ∈ parts, ∃ value, query part.1 = .ok value) ∧
      values = parts.map fun part => (part.1, shown (query part.1)) := by
  induction parts generalizing values with
  | nil => simp [valuesOf, eq_comm]
  | cons part parts ih =>
    rw [List.forall_mem_cons, List.map_cons, valuesOf, bind_eq_ok]
    constructor
    · rintro ⟨value, hv, h⟩
      obtain ⟨rest, hr, h⟩ := bind_eq_ok.mp h
      obtain ⟨hrest, rfl⟩ := ih.mp hr
      rw [← pure_eq_ok.mp h, hv]
      exact ⟨⟨⟨value, rfl⟩, hrest⟩, rfl⟩
    · rintro ⟨⟨⟨value, hv⟩, hrest⟩, rfl⟩
      refine ⟨value, hv, bind_eq_ok.mpr ⟨_, ih.mpr ⟨hrest, rfl⟩, ?_⟩⟩
      rw [hv]
      rfl

theorem entryValues_eq_ok {s : State T} {reason : T.Reason} {indexOf entryOf : T.AccountId}
    {holders : List T.AccountId} {total value : Nat} (hmax : total ≤ T.share.maxAsset) :
    entryValues s reason indexOf entryOf holders total = .ok value ↔
      (∀ who ∈ holders, ∃ v, indexEntryCommitValue s who reason indexOf entryOf = .ok v) ∧
        value = min (total + (holders.map fun who => shown (indexEntryCommitValue s who reason indexOf entryOf)).sum)
          T.share.maxAsset := by
  induction holders generalizing total with
  | nil =>
    simp only [entryValues, Except.ok.injEq, List.not_mem_nil, false_implies, implies_true, List.map_nil,
      List.sum_nil, true_and]
    omega
  | cons who holders ih =>
    rw [List.forall_mem_cons, List.map_cons, List.sum_cons, entryValues, bind_eq_ok]
    have hbound (v : Nat) : saturatingAdd T.share.maxAsset total v ≤ T.share.maxAsset := Nat.min_le_right ..
    have hstep (v : Nat) : min (saturatingAdd T.share.maxAsset total v + (holders.map fun who =>
        shown (indexEntryCommitValue s who reason indexOf entryOf)).sum) T.share.maxAsset =
        min (total + (v + (holders.map fun who =>
          shown (indexEntryCommitValue s who reason indexOf entryOf)).sum)) T.share.maxAsset := by
      unfold saturatingAdd
      omega
    constructor
    · rintro ⟨v, hv, h⟩
      obtain ⟨hrest, rfl⟩ := (ih (hbound v)).mp h
      rw [hstep, hv]
      exact ⟨⟨⟨v, rfl⟩, hrest⟩, rfl⟩
    · rintro ⟨⟨⟨v, hv⟩, hrest⟩, rfl⟩
      refine ⟨v, hv, (ih (hbound v)).mpr ⟨hrest, ?_⟩⟩
      rw [hstep, hv]
      rfl

theorem activeValues_eq_ok {receipts : List (CommitInstance T)} {balance : LazyBalance T} {total value : Nat}
    (h : activeValues balance receipts total = .ok value) :
    ∃ rs, receipts = rs.map some ∧ (∀ r ∈ rs, ∃ b, balance = some b ∧ Active b r) ∧
      value = total + totalActiveClaims balance rs := by
  induction receipts generalizing total with
  | nil =>
    cases h
    exact ⟨[], rfl, fun r hr => absurd hr List.not_mem_nil, rfl⟩
  | cons receipt receipts ih =>
    obtain ⟨take, hv, h⟩ := bind_eq_ok.mp h
    rw [mapError_eq_ok] at hv
    obtain ⟨sum, ht, hrest⟩ := bind_eq_ok.mp h
    rw [okOr_eq_ok, checkedAdd_eq_some] at ht
    have hok : (receiptActiveValue balance receipt).isOk = true := by
      rw [hv]
      rfl
    obtain ⟨b, r, rfl, rfl, hactive⟩ := active_iff.mp hok
    have hclaim : activeClaim (some b) r = take := by rw [activeClaim, hv]
    obtain ⟨rs, rfl, hall, hvalue⟩ := ih hrest
    refine ⟨r :: rs, rfl, List.forall_mem_cons.mpr ⟨⟨b, rfl, hactive⟩, hall⟩, ?_⟩
    have hsum : totalActiveClaims (some b) (r :: rs) = take + totalActiveClaims (some b) rs := by
      simp [totalActiveClaims, hclaim]
    omega

end Loops

section Entries

variable {s : State T} {who : T.AccountId} {reason : T.Reason} {indexOf : T.AccountId} {index : IndexInfo T}
  {entry : EntryInfo T}

/-- The shares that an account holds of the digest of an entry. -/
def entryShares (s : State T) (reason : T.Reason) (indexOf : T.AccountId) (entry : EntryInfo T)
    (who : T.AccountId) : Nat :=
  (s.entryMap.get (reason, indexOf, entry.digest, who)).elim 0 fun commits =>
    tally (sharesAt (location reason entry.digest entry.variant))
      (receiptsAt (location reason entry.digest entry.variant) commits.receipts)

theorem entryShares_of_get {commits : Commits T} {rs : List (Receipt T.share)}
    (hc : s.entryMap.get (reason, indexOf, entry.digest, who) = some commits)
    (hrs : commits.receipts = rs.map some) : entryShares s reason indexOf entry who = outstandingShares rs := by
  rw [entryShares, hc, Option.elim_some, hrs, tally_receiptsAt_map, sharesAt_self]
  rfl

theorem Accounted.sum_entryShares_le (h : Accounted s) (hi : s.indexMap.get (reason, indexOf) = some index)
    (he : entry ∈ index.entries.list) (members : Finset T.AccountId) :
    ∑ who ∈ members, entryShares s reason indexOf entry who ≤
      issuedAt s.digestMap (location reason entry.digest entry.variant) := by
  have hkey : Function.Injective fun who : T.AccountId => ((reason, indexOf, entry.digest, who) : EntryKey T) :=
    fun _ _ heq => by simpa using heq
  have hkeys := StorageMap.sum_keys_le (fun key (commits : Commits T) =>
    tally (sharesAt (location reason entry.digest entry.variant))
      (receiptsAt (entryLocation s.indexMap key) commits.receipts)) s.entryMap members hkey
  simp only [entryLocation_of_mem hi he] at hkeys
  have hd := h.digests (location reason entry.digest entry.variant)
  unfold positioned entryHeld at hd
  exact hkeys.trans (by omega)

theorem Accounted.entryShares_le (h : Accounted s) (hi : s.indexMap.get (reason, indexOf) = some index)
    (he : entry ∈ index.entries.list) (who : T.AccountId) : entryShares s reason indexOf entry who ≤
      issuedAt s.digestMap (location reason entry.digest entry.variant) := by
  have hsum := h.sum_entryShares_le hi he {who}
  rwa [Finset.sum_singleton] at hsum

/-- All that an account holds on an entry can be priced at its digest. -/
def Priced (s : State T) (reason : T.Reason) (entry : EntryInfo T) (commits : Commits T) : Prop :=
  ∃ (b : Balance T.share) (rs : List (Receipt T.share)),
    balanceAt s.digestMap (location reason entry.digest entry.variant) = some b ∧
    commits.receipts = rs.map some ∧ ∀ r ∈ rs, Active b r

theorem indexEntryCommitValue_eq_ok (h : Accounted s) (hi : s.indexMap.get (reason, indexOf) = some index)
    (he : entry ∈ index.entries.list) {value : Nat} :
    indexEntryCommitValue s who reason indexOf entry.digest = .ok value ↔
      ∃ (commits : Commits T) (b : Balance T.share) (rs : List (Receipt T.share)),
        s.entryMap.get (reason, indexOf, entry.digest, who) = some commits ∧
        balanceAt s.digestMap (location reason entry.digest entry.variant) = some b ∧
        commits.receipts = rs.map some ∧ (∀ r ∈ rs, Active b r) ∧ value = totalActiveClaims (some b) rs := by
  have hfind : (index.entries.list.find? fun other => other.digest = entry.digest) = some entry :=
    find?_key index.entries.nodup he
  constructor
  · intro hv
    obtain ⟨index', hi', hv⟩ := bind_eq_ok.mp hv
    rw [getIndex, okOr_eq_ok] at hi'
    obtain rfl := Option.some.inj (hi.symm.trans hi')
    obtain ⟨entry', he', hv⟩ := bind_eq_ok.mp hv
    rw [okOr_eq_ok] at he'
    obtain rfl := Option.some.inj (hfind.symm.trans he')
    obtain ⟨commits, hc, hv⟩ := bind_eq_ok.mp hv
    obtain ⟨info, hd, hv⟩ := bind_eq_ok.mp hv
    obtain ⟨balance, hb, hv⟩ := bind_eq_ok.mp hv
    rw [okOr_eq_ok] at hc hd hb
    obtain ⟨rs, hrs, hall, rfl⟩ := activeValues_eq_ok hv
    obtain ⟨r, hr⟩ : ∃ r, r ∈ rs := by
      refine List.exists_mem_of_ne_nil rs fun hnil => commits.nonempty ?_
      rw [hrs, hnil, List.map_nil]
    obtain ⟨b, rfl, -⟩ := hall r hr
    refine ⟨commits, b, rs, hc, balanceAt_of_getBalance hd hb, hrs, fun t ht => ?_, Nat.zero_add _⟩
    obtain ⟨c, hc, hactive⟩ := hall t ht
    exact Option.some.inj hc ▸ hactive
  · rintro ⟨commits, b, rs, hc, hb, hrs, hall, rfl⟩
    have hle := h.entryShares_le hi he who
    rw [entryShares_of_get hc hrs, issuedAt, hb, issuedShares_some] at hle
    have hsol := h.sound.digests _ b hb
    have hfits := totalActiveClaims_le hsol hall hle
    have hmax := hsol.effective_le
    have hvalue := activeValues_eq 0 hall (by omega)
    rw [Nat.zero_add] at hvalue
    obtain ⟨info, hd, hbal⟩ := getBalance_of_balanceAt hb
    simp [indexEntryCommitValue, getIndex, hi, hfind, hc, hd, hbal, hrs, hvalue, okOr, bind, Except.bind]

/-- What the accounts are shown of an entry stays within the balance of its digest. -/
theorem sum_entry_shown_le (h : Accounted s) (hi : s.indexMap.get (reason, indexOf) = some index)
    (he : entry ∈ index.entries.list) (members : Finset T.AccountId) :
    ∑ who ∈ members, shown (indexEntryCommitValue s who reason indexOf entry.digest) ≤
      totalValue (balanceAt s.digestMap (location reason entry.digest entry.variant)) := by
  have hshown (who : T.AccountId) : shown (indexEntryCommitValue s who reason indexOf entry.digest) = 0 ∨
      ∃ b, balanceAt s.digestMap (location reason entry.digest entry.variant) = some b ∧
        (shown (indexEntryCommitValue s who reason indexOf entry.digest) * T.share.rational.div ≤
          entryShares s reason indexOf entry who * b.bias.inner ∨
        entryShares s reason indexOf entry who = b.issued ∧
          shown (indexEntryCommitValue s who reason indexOf entry.digest) ≤ b.effective) := by
    by_cases hz : shown (indexEntryCommitValue s who reason indexOf entry.digest) = 0
    · exact .inl hz
    · obtain ⟨commits, b, rs, hc, hb, hrs, hall, hvalue⟩ :=
        (indexEntryCommitValue_eq_ok h hi he).mp (shown_ne_zero hz)
      have hle := h.entryShares_le hi he who
      have hheld := entryShares_of_get hc hrs
      rw [hheld, issuedAt, hb, issuedShares_some] at hle
      rw [hvalue, hheld]
      exact .inr ⟨b, hb, totalActiveClaims_paid (h.sound.digests _ b hb) hall hle⟩
  obtain hnone | ⟨b, hb⟩ :=
    (balanceAt s.digestMap (location reason entry.digest entry.variant)).eq_none_or_eq_some
  · have hzero : ∑ who ∈ members, shown (indexEntryCommitValue s who reason indexOf entry.digest) = 0 :=
      Finset.sum_eq_zero fun who _ => by
        rcases hshown who with hz | ⟨b, hb, -⟩
        · exact hz
        · cases hnone.symm.trans hb
    rw [hzero]
    exact Nat.zero_le _
  · have hheld := h.sum_entryShares_le hi he members
    rw [issuedAt, hb, issuedShares_some] at hheld
    rw [hb, totalValue_some]
    refine sum_paid_le (h.sound.digests _ b hb) (fun who _ => ?_) hheld
    rcases hshown who with hz | ⟨c, hc, hpaid⟩
    · rw [hz, Nat.zero_mul]
      exact .inl (Nat.zero_le _)
    · exact Option.some.inj (hb.symm.trans hc) ▸ hpaid

def EntryShown (s : State T) (reason : T.Reason) (indexOf : T.AccountId) (entry : EntryInfo T) : Prop :=
  ∀ who commits, s.entryMap.get (reason, indexOf, entry.digest, who) = some commits → Priced s reason entry commits

def entryValue (s : State T) (reason : T.Reason) (indexOf : T.AccountId) (entry : EntryInfo T) : Nat :=
  ∑ who ∈ entryHolders s reason indexOf entry.digest,
    shown (indexEntryCommitValue s who reason indexOf entry.digest)

theorem sum_sorted (order : HashOrder T.AccountId) (members : Finset T.AccountId) (f : T.AccountId → Nat) :
    ((order.sorted members).map f).sum = ∑ who ∈ members, f who := by
  rw [Finset.sum, ← order.coe_sorted, Multiset.map_coe, Multiset.sum_coe]

theorem entryValue_le (h : Accounted s) (hi : s.indexMap.get (reason, indexOf) = some index)
    (he : entry ∈ index.entries.list) : entryValue s reason indexOf entry ≤ T.share.maxAsset := by
  have hle := sum_entry_shown_le h hi he (entryHolders s reason indexOf entry.digest)
  obtain hnone | ⟨b, hb⟩ :=
    (balanceAt s.digestMap (location reason entry.digest entry.variant)).eq_none_or_eq_some
  · rw [hnone] at hle
    exact hle.trans (Nat.zero_le _)
  · rw [hb, totalValue_some] at hle
    exact hle.trans (h.sound.digests _ b hb).effective_le

theorem entryShown_iff (h : Accounted s) (hi : s.indexMap.get (reason, indexOf) = some index)
    (he : entry ∈ index.entries.list) : EntryShown s reason indexOf entry ↔
      ∀ who ∈ entryHolders s reason indexOf entry.digest,
        ∃ value, indexEntryCommitValue s who reason indexOf entry.digest = .ok value := by
  constructor
  · intro hshown who hw
    obtain ⟨commits, hc⟩ := Option.ne_none_iff_exists'.mp (mem_entryHolders.mp hw)
    obtain ⟨b, rs, hb, hrs, hactive⟩ := hshown who commits hc
    exact ⟨_, (indexEntryCommitValue_eq_ok h hi he).mpr ⟨commits, b, rs, hc, hb, hrs, hactive, rfl⟩⟩
  · intro hall who commits hc
    obtain ⟨value, hv⟩ := hall who (mem_entryHolders.mpr (by simp [hc]))
    obtain ⟨commits', b, rs, hc', hb, hrs, hactive, -⟩ := (indexEntryCommitValue_eq_ok h hi he).mp hv
    obtain rfl := Option.some.inj (hc.symm.trans hc')
    exact ⟨b, rs, hb, hrs, hactive⟩

theorem getEntryValue_eq_ok {order : HashOrder T.AccountId} (h : Accounted s)
    (hi : s.indexMap.get (reason, indexOf) = some index) (he : entry ∈ index.entries.list) {value : Nat} :
    getEntryValue order s reason indexOf entry.digest = .ok value ↔
      EntryShown s reason indexOf entry ∧ value = entryValue s reason indexOf entry := by
  have hexists : entryExists s reason indexOf entry.digest = .ok () := by
    rw [entryExists, getIndex, hi]
    exact ensure_eq_ok.mpr (List.any_eq_true.mpr ⟨entry, he, by simp⟩)
  have hloop : entryValues s reason indexOf entry.digest
      (order.sorted (entryHolders s reason indexOf entry.digest)) 0 = .ok value ↔ _ :=
    entryValues_eq_ok (Nat.zero_le _)
  simp only [HashOrder.mem_sorted, sum_sorted] at hloop
  rw [← entryShown_iff h hi he, Nat.zero_add, ← entryValue, Nat.min_eq_left (entryValue_le h hi he)] at hloop
  rw [← hloop]
  simp [getEntryValue, hexists, bind, Except.bind]

end Entries

section Totals

variable {s : State T} {who : T.AccountId} {reason : T.Reason} {indexOf : T.AccountId} {index : IndexInfo T}

theorem Totalled.sum_entries_le (h : Totalled s) {entries : List (EntryInfo T)}
    (hnd : (entries.map EntryInfo.digest).Nodup) : (entries.map fun entry =>
      totalValue (balanceAt s.digestMap (location reason entry.digest entry.variant))).sum ≤
        getTotalValue s reason := by
  have hkey : Function.Injective fun digest : T.AccountId => (reason, digest) := fun _ _ heq => (Prod.mk.inj heq).2
  have hlive := StorageMap.sum_keys_le (fun key (info : DigestInfo T) => if key.1 = reason then info.value else 0)
    s.digestMap (entries.map EntryInfo.digest).toFinset hkey
  rw [List.sum_toFinset _ hnd, List.map_map] at hlive
  rw [h.total_eq]
  refine le_trans (List.sum_le_sum fun entry _ => ?_) hlive
  obtain hnone | ⟨info, hd⟩ := (s.digestMap.get (reason, entry.digest)).eq_none_or_eq_some
  · simp [balanceAt, location, hnone]
  · have hat := info.sum_at_le {T.positionIndex entry.variant}
    rw [Finset.sum_singleton] at hat
    simpa [balanceAt, location, hd] using hat

theorem foldl_parts (bound : Nat) (entries : List (EntryInfo T)) (value : T.AccountId → Nat) :
    ((entries.map fun entry => (entry.digest, value entry.digest)).foldl
      (fun total part => saturatingAdd bound total part.2) 0) =
        min (entries.map fun entry => value entry.digest).sum bound := by
  rw [foldl_saturatingAdd _ _ _ (Nat.zero_le _), Nat.zero_add, List.map_map]
  rfl

theorem foldl_valuesOf_eq_ok {query : T.AccountId → Except DispatchError Nat} {entries : List (EntryInfo T)}
    {value : Nat} : (valuesOf query (entries.map fun entry => (entry.digest, entry.shares)) >>= fun values =>
        pure (values.foldl (fun value entry => saturatingAdd T.share.maxAsset value entry.2) 0)) = Except.ok value ↔
      (∀ entry ∈ entries, ∃ v, query entry.digest = .ok v) ∧
        value = min (entries.map fun entry => shown (query entry.digest)).sum T.share.maxAsset := by
  rw [bind_eq_ok]
  constructor
  · rintro ⟨values, hv, h⟩
    obtain ⟨hall, rfl⟩ := valuesOf_eq_ok.mp hv
    rw [List.forall_mem_map] at hall
    rw [List.map_map] at h
    exact ⟨hall, (pure_eq_ok.mp h).symm.trans (foldl_parts _ _ fun part => shown (query part))⟩
  · rintro ⟨hall, rfl⟩
    refine ⟨_, valuesOf_eq_ok.mpr ⟨List.forall_mem_map.mpr hall, rfl⟩, ?_⟩
    rw [List.map_map, pure_eq_ok]
    exact foldl_parts _ _ fun part => shown (query part)

theorem entries_listed (hi : s.indexMap.get (reason, indexOf) = some index) :
    indexExists s reason indexOf = .ok () ∧ getEntriesShares s reason indexOf =
      .ok (index.entries.list.map fun entry => (entry.digest, entry.shares)) := by
  refine ⟨ensure_eq_ok.mpr (StorageMap.containsKey_iff.mpr ⟨index, hi⟩), ?_⟩
  simp [getEntriesShares, getIndex, hi, okOr, bind, Except.bind, pure, Except.pure]

theorem getIndexValue_sum {order : HashOrder T.AccountId} (hi : s.indexMap.get (reason, indexOf) = some index)
    {value : Nat} : getIndexValue order s reason indexOf = .ok value ↔
      (∀ entry ∈ index.entries.list, ∃ v, getEntryValue order s reason indexOf entry.digest = .ok v) ∧
        value = min (index.entries.list.map fun entry =>
          shown (getEntryValue order s reason indexOf entry.digest)).sum T.share.maxAsset := by
  obtain ⟨hexists, hshares⟩ := entries_listed hi
  rw [← foldl_valuesOf_eq_ok]
  unfold getIndexValue getEntriesValue
  rw [hexists, hshares]
  rfl

theorem getIndexValueFor_sum (hi : s.indexMap.get (reason, indexOf) = some index) {value : Nat} :
    getIndexValueFor s who reason indexOf = .ok value ↔
      (∀ entry ∈ index.entries.list, ∃ v, getEntryValueFor s who reason indexOf entry.digest = .ok v) ∧
        value = min (index.entries.list.map fun entry =>
          shown (getEntryValueFor s who reason indexOf entry.digest)).sum T.share.maxAsset := by
  obtain ⟨hexists, hshares⟩ := entries_listed hi
  rw [← foldl_valuesOf_eq_ok]
  unfold getIndexValueFor getEntriesValueFor
  rw [hexists, hshares]
  rfl

theorem sum_entryValue_le (hs : Reachable s) (hi : s.indexMap.get (reason, indexOf) = some index) :
    (index.entries.list.map (entryValue s reason indexOf)).sum ≤ getTotalValue s reason :=
  (List.sum_le_sum fun _ he => sum_entry_shown_le hs.accounted hi he _).trans
    (hs.totalled.sum_entries_le index.entries.nodup)

/-- The sum over the entries never saturates. -/
theorem getIndexValue_eq_ok {order : HashOrder T.AccountId} (hs : Reachable s)
    (hi : s.indexMap.get (reason, indexOf) = some index) {value : Nat} :
    getIndexValue order s reason indexOf = .ok value ↔
      (∀ entry ∈ index.entries.list, EntryShown s reason indexOf entry) ∧
        value = (index.entries.list.map (entryValue s reason indexOf)).sum := by
  have h := hs.accounted
  have hsum (hshown : ∀ entry ∈ index.entries.list, EntryShown s reason indexOf entry) :
      (index.entries.list.map fun entry => shown (getEntryValue order s reason indexOf entry.digest)) =
        index.entries.list.map (entryValue s reason indexOf) :=
    List.map_congr_left fun entry he => by
      rw [(getEntryValue_eq_ok h hi he).mpr ⟨hshown entry he, rfl⟩]
      rfl
  have hfits := (sum_entryValue_le hs hi).trans (hs.bounded.totals reason)
  rw [getIndexValue_sum hi]
  constructor
  · rintro ⟨hall, rfl⟩
    have hshown : ∀ entry ∈ index.entries.list, EntryShown s reason indexOf entry := by
      intro entry he
      obtain ⟨v, hv⟩ := hall entry he
      exact ((getEntryValue_eq_ok h hi he).mp hv).1
    exact ⟨hshown, by rw [hsum hshown, Nat.min_eq_left hfits]⟩
  · rintro ⟨hshown, rfl⟩
    refine ⟨fun entry he => ⟨_, (getEntryValue_eq_ok h hi he).mpr ⟨hshown entry he, rfl⟩⟩, ?_⟩
    rw [hsum hshown, Nat.min_eq_left hfits]

theorem shown_getEntryValueFor_le (who : T.AccountId) (reason : T.Reason) (indexOf entryOf : T.AccountId) :
    shown (getEntryValueFor s who reason indexOf entryOf) ≤
      shown (indexEntryCommitValue s who reason indexOf entryOf) := by
  by_cases hz : shown (getEntryValueFor s who reason indexOf entryOf) = 0
  · omega
  · obtain ⟨_, -, hv⟩ := bind_eq_ok.mp (shown_ne_zero hz)
    obtain ⟨_, -, hv⟩ := bind_eq_ok.mp hv
    obtain ⟨_, -, hv⟩ := bind_eq_ok.mp hv
    rw [hv]
    exact le_refl _

theorem shown_getIndexValueFor_le (hi : s.indexMap.get (reason, indexOf) = some index) (who : T.AccountId) :
    shown (getIndexValueFor s who reason indexOf) ≤ (index.entries.list.map fun entry =>
      shown (indexEntryCommitValue s who reason indexOf entry.digest)).sum := by
  by_cases hz : shown (getIndexValueFor s who reason indexOf) = 0
  · omega
  · rw [((getIndexValueFor_sum hi).mp (shown_ne_zero hz)).2]
    exact (Nat.min_le_left ..).trans (List.sum_le_sum fun entry _ => shown_getEntryValueFor_le ..)

theorem sum_list_comm {ι α : Type} (members : Finset ι) (parts : List α) (f : ι → α → Nat) :
    ∑ i ∈ members, (parts.map (f i)).sum = (parts.map fun a => ∑ i ∈ members, f i a).sum := by
  induction parts with
  | nil => simp
  | cons a parts ih => simp only [List.map_cons, List.sum_cons, Finset.sum_add_distrib, ih]

theorem sum_members_le (hi : s.indexMap.get (reason, indexOf) = some index) (members : Finset T.AccountId) :
    ∑ who ∈ members, shown (getIndexValueFor s who reason indexOf) ≤
      (index.entries.list.map (entryValue s reason indexOf)).sum := by
  calc ∑ who ∈ members, shown (getIndexValueFor s who reason indexOf)
      ≤ ∑ who ∈ members, (index.entries.list.map fun entry =>
          shown (indexEntryCommitValue s who reason indexOf entry.digest)).sum :=
        Finset.sum_le_sum fun who _ => shown_getIndexValueFor_le hi who
    _ = (index.entries.list.map fun entry => ∑ who ∈ members,
          shown (indexEntryCommitValue s who reason indexOf entry.digest)).sum := sum_list_comm ..
    _ ≤ (index.entries.list.map (entryValue s reason indexOf)).sum := by
        refine List.sum_le_sum fun entry _ => Finset.sum_le_sum_of_ne_zero fun who _ hne => ?_
        have hv := shown_ne_zero hne
        obtain ⟨_, -, hv⟩ := bind_eq_ok.mp hv
        obtain ⟨_, -, hv⟩ := bind_eq_ok.mp hv
        obtain ⟨commits, hc, -⟩ := bind_eq_ok.mp hv
        rw [okOr_eq_ok] at hc
        exact mem_entryHolders.mpr (by simp [hc])

end Totals

section Indexes

/-- The entries and the index are shown a value: an entry what its holders are shown together, within the balance
of its digest, and the index the sum of its entries, within the total of its reason and no less than its members
are shown together. -/
structure IndexShown (order : HashOrder T.AccountId) (s : State T) (reason : T.Reason) (indexOf : T.AccountId)
    (index : IndexInfo T) : Prop where
  entries : ∀ entry ∈ index.entries.list,
    getEntryValue order s reason indexOf entry.digest = .ok (entryValue s reason indexOf entry) ∧
      entryValue s reason indexOf entry ≤
        totalValue (balanceAt s.digestMap (location reason entry.digest entry.variant))
  total : ∃ value, getIndexValue order s reason indexOf = .ok value ∧
    value = (index.entries.list.map (entryValue s reason indexOf)).sum ∧ value ≤ getTotalValue s reason ∧
    ∀ members : Finset T.AccountId, ∑ who ∈ members, shown (getIndexValueFor s who reason indexOf) ≤ value

/-- The queries of an index fail exactly where something held on one of its entries cannot be priced. -/
theorem index_shown_iff {s : State T} {reason : T.Reason} {indexOf : T.AccountId} {index : IndexInfo T}
    (order : HashOrder T.AccountId) (hs : Reachable s) (hi : s.indexMap.get (reason, indexOf) = some index) :
    IndexShown order s reason indexOf index ↔
      ∀ entry ∈ index.entries.list, EntryShown s reason indexOf entry := by
  constructor
  · intro hshown entry he
    exact ((getEntryValue_eq_ok hs.accounted hi he).mp (hshown.entries entry he).1).1
  · intro hall
    refine ⟨fun entry he => ?_, _, (getIndexValue_eq_ok hs hi).mpr ⟨hall, rfl⟩, rfl, ?_, sum_members_le hi⟩
    · exact ⟨(getEntryValue_eq_ok hs.accounted hi he).mpr ⟨hall entry he, rfl⟩,
        sum_entry_shown_le hs.accounted hi he _⟩
    · exact sum_entryValue_le hs hi

/-- Twelve units on three equal entries, held by one account and worth four each. -/
theorem index_shown_raised : ∃ index, (State.after fundedLedger raisedIndex).indexMap.get ((0 : Nat), (20 : Nat)) =
      some index ∧
    IndexShown HashOrder.natural (State.after fundedLedger raisedIndex) (0 : Nat) (20 : Nat) index := by
  have hs : Reachable (State.after fundedLedger raisedIndex) := ⟨_, _, rfl⟩
  obtain ⟨index, hi⟩ : ∃ index, (State.after fundedLedger raisedIndex).indexMap.get ((0 : Nat), (20 : Nat)) =
    some index := ⟨_, rfl⟩
  have hvalue : getIndexValue HashOrder.natural (State.after fundedLedger raisedIndex) (0 : Nat) (20 : Nat) =
    .ok 12 := by decide +kernel
  exact ⟨index, hi, (index_shown_iff HashOrder.natural hs hi).mpr ((getIndexValue_eq_ok hs hi).mp hvalue).1⟩

end Indexes

section Slots

variable {s : State T} {who : T.AccountId} {reason : T.Reason} {poolOf : T.AccountId} {pool : PoolInfo T}
  {slot : SlotInfo T}

theorem poolCommitValue_member {value : Nat} (hp : s.poolMap.get (reason, poolOf) = some pool)
    (h : poolCommitValue s who reason poolOf = .ok value) :
    getCommitDigest s who reason = .ok poolOf ∧ pool.capital ≠ 0 := by
  obtain ⟨pool', hget, h⟩ := bind_eq_ok.mp h
  rw [getPool, okOr_eq_ok] at hget
  obtain rfl := Option.some.inj (hp.symm.trans hget)
  obtain ⟨info, hc, h⟩ := bind_eq_ok.mp h
  obtain ⟨_, hd, h⟩ := bind_eq_ok.mp h
  rw [ensure_eq_ok] at hd
  obtain ⟨_, hcap, -⟩ := bind_eq_ok.mp h
  refine ⟨?_, ensure_eq_ok.mp hcap⟩
  rw [getCommitDigest, hc, ← hd]
  rfl

/-- A slot's part of what the member is shown of the pool, rounded down. -/
theorem getSlotValueFor_of_pool {value : Nat} (hp : s.poolMap.get (reason, poolOf) = some pool)
    (hm : slot ∈ pool.slots) (h : poolCommitValue s who reason poolOf = .ok value) :
    ∃ part, getSlotValueFor s who reason poolOf slot.digest = .ok part ∧
      part * pool.capital ≤ value * slot.shares := by
  obtain ⟨hdigest, hcap⟩ := poolCommitValue_member hp h
  have hfind : (pool.slots.find? fun other => other.digest = slot.digest) = some slot := find?_key pool.nodup hm
  have hexists : slotExists s reason poolOf slot.digest = .ok () := by
    rw [slotExists, getPool, hp]
    exact ensure_eq_ok.mpr (List.any_eq_true.mpr ⟨slot, hm, by simp⟩)
  have hle : slot.shares ≤ pool.capital := by
    rw [pool.capital_eq]
    exact List.single_le_sum (fun _ _ => Nat.zero_le _) _ (List.mem_map_of_mem hm)
  obtain ⟨f, hf, hone, hratio⟩ := Fixed.exists_checkedFromRational (F := T.share.rational) hcap hle
  obtain ⟨p, hmul, -⟩ := Fixed.exists_checkedMul (x := Fixed.saturatingFromInteger value) hone
  have hpart := Fixed.toInteger_share_le hratio hmul
  refine ⟨if p.inner < T.share.rational.div then 0 else p.toInteger, ?_, ?_⟩
  · have hown (e : DispatchError) : ensure True e = .ok () := ensure_eq_ok.mpr trivial
    simp [getSlotValueFor, hdigest, hexists, hown, poolSlotCommitValue, h, getPool, hp, hfind, hf, hmul, okOr, bind,
      Except.bind, pure, Except.pure]
    split <;> rfl
  · split
    · rw [Nat.zero_mul]
      exact Nat.zero_le _
    · exact hpart

theorem poolCommitValue_of_slot {slotOf : T.AccountId} {part : Nat}
    (h : getSlotValueFor s who reason poolOf slotOf = .ok part) :
    ∃ value, poolCommitValue s who reason poolOf = .ok value := by
  obtain ⟨_, -, h⟩ := bind_eq_ok.mp h
  obtain ⟨_, -, h⟩ := bind_eq_ok.mp h
  obtain ⟨_, -, h⟩ := bind_eq_ok.mp h
  obtain ⟨value, hv, -⟩ := bind_eq_ok.mp h
  exact ⟨value, hv⟩

/-- A member is shown the slots of a pool exactly if it is shown the pool, and together no more than that. -/
theorem pool_slots_shown (who : T.AccountId) (hp : s.poolMap.get (reason, poolOf) = some pool) :
    ((∃ values, getSlotsValueFor s who reason poolOf = .ok values) ↔
      ∃ value, poolCommitValue s who reason poolOf = .ok value) ∧
    ∀ values value, getSlotsValueFor s who reason poolOf = .ok values →
      poolCommitValue s who reason poolOf = .ok value →
      values.map Prod.fst = pool.slots.map SlotInfo.digest ∧ (values.map Prod.snd).sum ≤ value := by
  have hvalues : getSlotsValueFor s who reason poolOf = valuesOf (getSlotValueFor s who reason poolOf)
      (pool.slots.map fun slot => (slot.digest, slot.shares)) := by
    have hexists : poolExists s reason poolOf = .ok () :=
      ensure_eq_ok.mpr (StorageMap.containsKey_iff.mpr ⟨pool, hp⟩)
    simp [getSlotsValueFor, hexists, getSlotsShares, getPool, hp, okOr, bind, Except.bind, pure, Except.pure]
  rw [hvalues]
  refine ⟨⟨?_, ?_⟩, ?_⟩
  · rintro ⟨values, hv⟩
    obtain ⟨hall, -⟩ := valuesOf_eq_ok.mp hv
    obtain ⟨slot, hm⟩ := List.exists_mem_of_ne_nil _ pool.nonempty
    obtain ⟨part, hpart⟩ := hall _ (List.mem_map_of_mem hm)
    exact poolCommitValue_of_slot hpart
  · rintro ⟨value, hv⟩
    refine ⟨_, valuesOf_eq_ok.mpr ⟨List.forall_mem_map.mpr fun slot hm => ?_, rfl⟩⟩
    obtain ⟨part, hpart, -⟩ := getSlotValueFor_of_pool hp hm hv
    exact ⟨part, hpart⟩
  · intro values value hv hvalue
    obtain ⟨-, rfl⟩ := valuesOf_eq_ok.mp hv
    have hpart : ∀ slot ∈ pool.slots,
        shown (getSlotValueFor s who reason poolOf slot.digest) * pool.capital ≤ value * slot.shares := by
      intro slot hm
      obtain ⟨part, hpart, hle⟩ := getSlotValueFor_of_pool hp hm hvalue
      rw [hpart]
      exact hle
    simp only [List.map_map, Function.comp_def]
    refine ⟨trivial, Nat.le_of_mul_le_mul_right ?_ (Nat.pos_of_ne_zero (poolCommitValue_member hp hvalue).2)⟩
    calc (pool.slots.map fun slot => shown (getSlotValueFor s who reason poolOf slot.digest)).sum * pool.capital
        = (pool.slots.map fun slot =>
            shown (getSlotValueFor s who reason poolOf slot.digest) * pool.capital).sum := by
          rw [List.sum_map_mul_right]
      _ ≤ (pool.slots.map fun slot => value * slot.shares).sum := List.sum_le_sum hpart
      _ = value * pool.capital := by
          rw [List.sum_map_mul_left, pool.capital_eq]

theorem pool_slots_shown_thirds : ∃ pool values,
    joinedThirds.poolMap.get ((0 : Nat), (30 : Nat)) = some pool ∧
    getSlotsValueFor joinedThirds (4 : Nat) (0 : Nat) (30 : Nat) = .ok values ∧
    values.map Prod.fst = pool.slots.map SlotInfo.digest ∧ (values.map Prod.snd).sum ≤ 9 := by
  obtain ⟨pool, hp⟩ : ∃ pool, joinedThirds.poolMap.get ((0 : Nat), (30 : Nat)) = some pool := ⟨_, rfl⟩
  have hvalue : poolCommitValue joinedThirds (4 : Nat) (0 : Nat) (30 : Nat) = .ok 9 := by decide +kernel
  obtain ⟨hshown, hparts⟩ := pool_slots_shown (4 : Nat) hp
  obtain ⟨values, hv⟩ := hshown.mpr ⟨9, hvalue⟩
  exact ⟨pool, values, hp, hv, hparts values 9 hv hvalue⟩

end Slots

end FrameSuite
