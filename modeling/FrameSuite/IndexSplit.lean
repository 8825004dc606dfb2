import FrameSuite.DepositSpec
import FrameSuite.RuntimeConfig

/-! The split of a value over the entries of an index. Every entry is assigned its part rounded down,
so the parts never exceed the value, and what is left is paid back. -/

namespace FrameSuite

variable {T : Config}

/-- What an entry is assigned of a value: the whole units of its part. -/
def entryAmount (T : Config) (value shares capital : Nat) : Nat :=
  match entryDeposit T value shares capital with
  | .ok part => part.toInteger
  | .error _ => 0

def assigned (T : Config) (value capital : Nat) (entries : List (EntryInfo T)) : List Nat :=
  entries.map fun entry => entryAmount T value entry.shares capital

/-- The error of a factor above one or of a part that overflows. -/
def OverAllocated (e : DispatchError) : Prop := e = .factorGreaterThanOne ∨ e = .depositDeriveOverflowed

section Parts

variable {value shares capital : Nat}

theorem exists_entryDeposit (hc : capital ≠ 0) (hs : shares ≤ capital) :
    ∃ part, entryDeposit T value shares capital = .ok part := by
  obtain ⟨f, hf, hle, -⟩ := Fixed.exists_checkedFromRational (F := T.share.rational) hc hs
  obtain ⟨part, hp, -⟩ := Fixed.exists_checkedMul (x := Fixed.saturatingFromInteger value) hle
  refine ⟨part, bind_eq_ok.mpr ⟨(), ensure_eq_ok.mpr hs, ?_⟩⟩
  exact bind_eq_ok.mpr ⟨f, okOr_eq_ok.mpr hf, okOr_eq_ok.mpr hp⟩

theorem entryAmount_of_ok {part : Fixed T.share.rational} (h : entryDeposit T value shares capital = .ok part) :
    entryAmount T value shares capital = part.toInteger := by
  rw [entryAmount, h]

theorem entryAmount_of_lt {part : Fixed T.share.rational} (h : entryDeposit T value shares capital = .ok part)
    (hlt : part.inner < T.share.rational.div) : entryAmount T value shares capital = 0 := by
  rw [entryAmount_of_ok h]
  exact Nat.div_eq_of_lt hlt

theorem entryAmount_mul_le (value shares capital : Nat) :
    entryAmount T value shares capital * T.share.rational.div * capital ≤
      (Fixed.saturatingFromInteger value : Fixed T.share.rational).inner * shares := by
  unfold entryAmount
  split
  · rename_i part h
    obtain ⟨_, -, h⟩ := bind_eq_ok.mp h
    obtain ⟨f, hf, h⟩ := bind_eq_ok.mp h
    rw [okOr_eq_ok, Fixed.checkedFromRational_eq_some] at hf
    exact Fixed.toInteger_mul_share_le (hf.2 ▸ Nat.div_mul_le_self _ _) (okOr_eq_ok.mp h)
  · simp

theorem entryAmount_le (hc : capital ≠ 0) : entryAmount T value shares capital ≤ value * shares / capital := by
  rw [Nat.le_div_iff_mul_le (Nat.pos_of_ne_zero hc)]
  unfold entryAmount
  split
  · rename_i part h
    exact entryDeposit_mul_le h
  · simp

theorem assigned_sum_mul_le (value capital : Nat) (entries : List (EntryInfo T)) :
    (assigned T value capital entries).sum * T.share.rational.div * capital ≤
      (Fixed.saturatingFromInteger value : Fixed T.share.rational).inner * (entries.map EntryInfo.shares).sum := by
  induction entries with
  | nil => simp [assigned]
  | cons entry entries ih =>
    have hentry := entryAmount_mul_le (T := T) value entry.shares capital
    simp only [assigned, List.map_cons, List.sum_cons] at ih ⊢
    rw [Nat.add_mul, Nat.add_mul, Nat.mul_add]
    omega

/-- The parts of an index together are at most the value, and they fit the carrier of the factors. -/
theorem assigned_sum_le (info : IndexInfo T) (hc : info.capital ≠ 0) (value : Nat) :
    (assigned T value info.capital info.entries.list).sum ≤ value ∧
      (assigned T value info.capital info.entries.list).sum ≤ T.share.maxAsset := by
  have hdiv := T.share.rational.div_pos
  have h := assigned_sum_mul_le value info.capital info.entries.list
  rw [← info.capital_eq] at h
  have hinner := Nat.le_of_mul_le_mul_right h (Nat.pos_of_ne_zero hc)
  constructor
  · exact Nat.le_of_mul_le_mul_right (hinner.trans (Fixed.saturatingFromInteger_le value)) hdiv
  · calc (assigned T value info.capital info.entries.list).sum
        ≤ (assigned T value info.capital info.entries.list).sum * T.share.rational.div :=
          Nat.le_mul_of_pos_right _ hdiv
      _ ≤ (Fixed.saturatingFromInteger value : Fixed T.share.rational).inner := hinner
      _ ≤ T.share.rational.maxInner := Fixed.inner_le _
      _ ≤ T.share.maxAsset := T.share.inner_le_asset

end Parts

section Splits

variable {s s' : State T} {who : T.AccountId} {reason : T.Reason} {indexOf : T.AccountId} {value capital : Nat}

/-- What is deposited at the entries, each at its own digest and variant. Nothing is deposited for
an entry that is assigned nothing. -/
def splitDeposits (T : Config) (reason : T.Reason) (value capital : Nat) (entries : List (EntryInfo T)) :
    List (Location T × Nat) :=
  (entries.map fun entry =>
    (location reason entry.digest entry.variant, entryAmount T value entry.shares capital)).filter fun d => d.2 ≠ 0

theorem depositToDigest_failsOnly {p : DispatchError → Prop} (hb : ∀ e, p (.balance e))
    (hv : p .variantsExhausted) (hn : p .digestVariantBalanceNotFound) (hd : p .digestNotFound)
    (digest : T.AccountId) (variant : T.Position) :
    FailsOnly p (depositToDigest s reason digest value variant) :=
  .bind (.okOr hd) fun info _ => .bind (info.deposit_failsOnly hb hv hn _ _) fun _ _ => .pure _

theorem addEntryCommit_failsOnly {p : DispatchError → Prop} (hm : p .maxCommitsReached) (hz : p .zeroMaxCommits)
    (key : EntryKey T) (receipt : CommitInstance T) : FailsOnly p (addEntryCommit s key receipt) := by
  refine .bind ?_ fun _ _ => .pure _
  unfold Commits.extend
  split
  · exact .ite (.ok _) (.error hm)
  · exact .ite (.error hz) (.ok _)

theorem depositToEntries_within {entries : List (EntryInfo T)} {actual : Nat} (hc : capital ≠ 0)
    (hs : ∀ entry ∈ entries, entry.shares ≤ capital)
    (hfit : actual + (assigned T value capital entries).sum ≤ T.share.maxAsset) :
    FailsOnly (fun e => ¬OverAllocated e) (depositToEntries who reason indexOf value capital entries s actual) := by
  induction entries generalizing s actual with
  | nil => exact .ok _
  | cons entry entries ih =>
    obtain ⟨part, hp⟩ : ∃ part, entryDeposit T value entry.shares capital = .ok part :=
      exists_entryDeposit hc (hs entry (List.mem_cons_self ..))
    have hrest := fun e he => hs e (List.mem_cons_of_mem _ he)
    rw [assigned, List.map_cons, List.sum_cons, ← assigned, entryAmount_of_ok hp] at hfit
    rw [depositToEntries, hp]
    refine .bind (.ok _) fun part' hp' => ?_
    obtain rfl := Except.ok.inj hp'
    refine .ite (ih hrest (by omega)) (.bind ?_ fun d h1 => .bind ?_ fun s2 _ => .bind ?_ fun total ht => ?_)
    · exact depositToDigest_failsOnly (by simp [OverAllocated]) (by simp [OverAllocated]) (by simp [OverAllocated])
        (by simp [OverAllocated]) _ _
    · exact addEntryCommit_failsOnly (by simp [OverAllocated]) (by simp [OverAllocated]) _ _
    · obtain ⟨s1, receipt, amount⟩ := d
      obtain ⟨rfl, -⟩ := depositToDigest_spec h1
      rw [checkedAdd, if_pos (by dsimp only; omega)]
      exact .ok _
    · obtain ⟨s1, receipt, amount⟩ := d
      obtain ⟨rfl, -⟩ := depositToDigest_spec h1
      rw [okOr_eq_ok, checkedAdd_eq_some] at ht
      dsimp only at ht
      exact ih hrest (by omega)

theorem depositToEntries_assigned {entries : List (EntryInfo T)} {actual actual' : Nat}
    (h : depositToEntries who reason indexOf value capital entries s actual = .ok (s', actual')) :
    actual' = actual + (assigned T value capital entries).sum ∧
      ∃ claims, claims.map (fun c => (c.1, c.2.principal)) = splitDeposits T reason value capital entries ∧
        Deposits s.digestMap claims s'.digestMap := by
  induction entries generalizing s actual with
  | nil =>
    cases h
    exact ⟨rfl, [], rfl, .nil _⟩
  | cons entry entries ih =>
    rw [assigned, List.map_cons, List.sum_cons, ← assigned, splitDeposits, List.map_cons]
    obtain ⟨part, hp, h⟩ := bind_eq_ok.mp h
    split at h
    · rename_i hlt
      obtain ⟨rfl, claims, hclaims, hd⟩ := ih h
      have hz := entryAmount_of_lt hp hlt
      refine ⟨by rw [hz, Nat.zero_add], claims, ?_, hd⟩
      rw [List.filter_cons_of_neg (by simp [hz]), hclaims, splitDeposits]
    · rename_i hge
      have hamount := entryAmount_of_ok hp
      have hne : part.toInteger ≠ 0 := by
        unfold Fixed.toInteger
        have := Nat.div_pos (Nat.le_of_not_lt hge) T.share.rational.div_pos
        omega
      obtain ⟨⟨s1, receipt, amount⟩, h1, h⟩ := bind_eq_ok.mp h
      obtain ⟨rfl, r, m1, rfl, hpr, -, rfl, hd1⟩ := depositToDigest_spec h1
      obtain ⟨s2, h2, h⟩ := bind_eq_ok.mp h
      obtain ⟨e2, rfl, -⟩ := addEntryCommit_spec h2
      obtain ⟨total, ht, h⟩ := bind_eq_ok.mp h
      rw [okOr_eq_ok, checkedAdd_eq_some] at ht
      obtain ⟨rfl, claims, hclaims, hd⟩ := ih h
      refine ⟨by omega, _ :: claims, ?_, hd1.append hd⟩
      rw [List.filter_cons_of_pos (by simp [hamount, hne]), List.map_cons, hclaims, splitDeposits, hamount, hpr]

end Splits

/-- The value went to the entries, each by at most its floored part, and back to the proprietor; the
principal of the index grew by what the entries were assigned. -/
structure SplitExactly (s s' : State T) (who : T.AccountId) (reason : T.Reason) (indexOf : T.AccountId)
    (info : IndexInfo T) (value amount : Nat) : Prop where
  bounded : ∀ entry ∈ info.entries.list,
    entryAmount T value entry.shares info.capital ≤ value * entry.shares / info.capital
  total : amount = (assigned T value info.capital info.entries.list).sum
  deposited : ∃ claims, claims.map (fun c => (c.1, c.2.principal)) =
    splitDeposits T reason value info.capital info.entries.list ∧ Deposits s.digestMap claims s'.digestMap
  refunded : ∃ refund, amount + refund = value ∧
    (refund = 0 ∧ s'.ledger = s.ledger ∨ T.asset.increaseBalance s.ledger who refund = .ok s'.ledger)
  principal : s'.indexMap = s.indexMap.insert (reason, indexOf) (info.setBalance (info.principal + amount))

theorem IndexInfo.shares_le_capital (info : IndexInfo T) :
    ∀ entry ∈ info.entries.list, entry.shares ≤ info.capital := by
  intro entry he
  rw [info.capital_eq]
  exact List.le_sum_of_mem (List.mem_map_of_mem he)

theorem depositToIndex_split {s s' : State T} {who : T.AccountId} {reason : T.Reason} {indexOf : T.AccountId}
    {info : IndexInfo T} {value amount : Nat} {receipt : CommitInstance T}
    (hi : s.indexMap.get (reason, indexOf) = some info)
    (h : depositToIndex s who reason indexOf value = .ok (s', receipt, amount)) :
    SplitExactly s s' who reason indexOf info value amount := by
  obtain ⟨info', hi', h⟩ := bind_eq_ok.mp h
  obtain rfl := Option.some.inj (hi.symm.trans (okOr_eq_ok.mp hi'))
  obtain ⟨_, hc, h⟩ := bind_eq_ok.mp h
  rw [ensure_eq_ok] at hc
  obtain ⟨⟨s1, actual⟩, h1, h⟩ := bind_eq_ok.mp h
  obtain ⟨m, e, -, hs1, -⟩ := depositToEntries_spec h1
  obtain ⟨hactual, claims, hclaims, hd⟩ := depositToEntries_assigned h1
  rw [Nat.zero_add] at hactual
  have hle := (assigned_sum_le info hc value).1
  obtain ⟨s2, h2, h⟩ := bind_eq_ok.mp h
  obtain ⟨principal, hpr, h⟩ := bind_eq_ok.mp h
  rw [okOr_eq_ok, checkedAdd_eq_some] at hpr
  simp only [pure_eq_ok, Prod.mk.injEq] at h
  obtain ⟨rfl, -, rfl⟩ := h
  have hrefund : ∃ l, s2 = { s1 with ledger := l } ∧
      (value - actual = 0 ∧ l = s.ledger ∨ T.asset.increaseBalance s.ledger who (value - actual) = .ok l) := by
    unfold State.unlessZero at h2
    split at h2
    · rename_i hz
      cases h2
      exact ⟨s1.ledger, rfl, .inl ⟨hz, by rw [hs1]⟩⟩
    · obtain ⟨l, hl, rfl⟩ := onLedger_eq_ok h2
      exact ⟨l, rfl, .inr (by rwa [hs1] at hl)⟩
  obtain ⟨l, rfl, hledger⟩ := hrefund
  refine ⟨fun entry _ => entryAmount_le hc, hactual, ⟨claims, hclaims, hd⟩, ?_, ?_⟩
  · exact ⟨value - actual, by omega, hledger⟩
  · rw [hpr.1, hs1]

/-- A split never assigns more than the value, whatever the entries and the number format. -/
theorem index_split_exact (ha : ∀ l who v, FailsOnly (fun e => ¬OverAllocated e) (T.asset.increaseBalance l who v))
    {s : State T} {who : T.AccountId} {reason : T.Reason} {indexOf : T.AccountId} {info : IndexInfo T}
    (hi : s.indexMap.get (reason, indexOf) = some info) (value : Nat) :
    FailsOnly (fun e => ¬OverAllocated e) (depositToIndex s who reason indexOf value) ∧
      ∀ s' receipt amount, depositToIndex s who reason indexOf value = .ok (s', receipt, amount) →
        SplitExactly s s' who reason indexOf info value amount := by
  refine ⟨?_, fun s' receipt amount h => depositToIndex_split hi h⟩
  refine .bind (.okOr (by simp [OverAllocated])) fun info' hi' => ?_
  obtain rfl := Option.some.inj (hi.symm.trans (okOr_eq_ok.mp hi'))
  refine .bind (.ensure (by simp [OverAllocated])) fun _ hc => ?_
  rw [ensure_eq_ok] at hc
  refine .bind ?_ fun out _ => .bind (.ite (.ok _) (.bind (ha _ _ _) fun _ _ => .pure _)) fun _ _ => ?_
  · refine depositToEntries_within hc info.shares_le_capital ?_
    rw [Nat.zero_add]
    exact (assigned_sum_le info hc value).2
  · exact .bind (.okOr (by simp [OverAllocated])) fun _ _ => .pure _

theorem token_within (l : TokenLedger) (who v : Nat) :
    FailsOnly (fun e => ¬OverAllocated e) (runtimeConfig.asset.increaseBalance l who v) :=
  .ite (.error (by simp [OverAllocated])) (.ok _)

/-- Ten units over three equal entries are three for each, and one comes back. -/
theorem thirds_split_exact :
    let s := State.after fundedLedger thirdsPool
    ∃ s' receipt, depositToIndex s (4 : Nat) (0 : Nat) (20 : Nat) 10 = .ok (s', receipt, 9) ∧
      SplitExactly s s' (4 : Nat) (0 : Nat) (20 : Nat) thirdsIndex 10 9 := by
  have hamount : (depositToIndex (State.after fundedLedger thirdsPool) (4 : Nat) (0 : Nat) (20 : Nat) 10).map
      (·.2.2) = .ok 9 := by decide +kernel
  obtain ⟨⟨s', receipt, amount⟩, h, rfl⟩ := map_eq_ok.mp hamount
  exact ⟨s', receipt, h, (index_split_exact token_within rfl 10).2 _ _ _ h⟩

end FrameSuite
