import FrameSuite.Books

/-! The receipts outstanding on the vault and who holds them: proprietors with a direct
commit, proprietors with commits on the entries of an index, and pools on their slots. -/

namespace FrameSuite

open ShareBalance

variable {T : Config}

/-- The receipts of a list of commit instances, at one location. -/
def receiptsAt (loc : Location T) (receipts : List (CommitInstance T)) : Claims T :=
  receipts.filterMap fun receipt => receipt.map fun r => (loc, r)

@[simp] theorem receiptsAt_nil (loc : Location T) : receiptsAt loc [] = [] := rfl

@[simp] theorem receiptsAt_none (loc : Location T) (rs : List (CommitInstance T)) :
    receiptsAt loc (none :: rs) = receiptsAt loc rs := rfl

@[simp] theorem receiptsAt_some (loc : Location T) (r : Receipt T.share)
    (rs : List (CommitInstance T)) : receiptsAt loc (some r :: rs) = (loc, r) :: receiptsAt loc rs :=
  rfl

@[simp] theorem receiptsAt_append (loc : Location T) (rs ts : List (CommitInstance T)) :
    receiptsAt loc (rs ++ ts) = receiptsAt loc rs ++ receiptsAt loc ts := by
  simp [receiptsAt]

theorem reason_of_mem_receiptsAt {loc : Location T} {rs : List (CommitInstance T)}
    {c : Location T × Receipt T.share} (h : c ∈ receiptsAt loc rs) : c.1 = loc := by
  unfold receiptsAt at h
  obtain ⟨receipt, -, hr⟩ := List.mem_filterMap.mp h
  cases receipt with
  | none => cases hr
  | some r =>
    obtain rfl := Option.some.inj hr
    rfl

theorem tally_receiptsAt_congr {φ : Location T → Receipt T.share → Nat} {loc loc' : Location T}
    (h : φ loc = φ loc') (rs : List (CommitInstance T)) :
    tally φ (receiptsAt loc rs) = tally φ (receiptsAt loc' rs) := by
  induction rs with
  | nil => rfl
  | cons receipt rs ih =>
    cases receipt with
    | none => simpa using ih
    | some r => rw [receiptsAt_some, receiptsAt_some, tally_cons, tally_cons, h, ih]

def commitClaims (key : T.AccountId × T.Reason) (info : CommitInfo T) : Claims T :=
  receiptsAt (location key.2 info.digest info.variant) info.commits.receipts

/-- The variant index at which an index commits to an entry. -/
def entryVariant (indexMap : StorageMap (T.Reason × T.AccountId) (IndexInfo T)) (reason : T.Reason)
    (indexOf entryOf : T.AccountId) : Nat :=
  match indexMap.get (reason, indexOf) with
  | none => 0
  | some info =>
    match info.entries.list.find? fun entry => entry.digest = entryOf with
    | none => 0
    | some entry => T.positionIndex entry.variant

def entryLocation (indexMap : StorageMap (T.Reason × T.AccountId) (IndexInfo T)) (key : EntryKey T) :
    Location T :=
  (key.1, key.2.2.1, entryVariant indexMap key.1 key.2.1 key.2.2.1)

def slotClaim (reason : T.Reason) (slot : SlotInfo T) : Option (Location T × Receipt T.share) :=
  slot.commit.map fun r => (location reason slot.digest slot.variant, r)

def slotClaims (reason : T.Reason) (slots : List (SlotInfo T)) : Claims T :=
  slots.filterMap (slotClaim reason)

theorem reason_of_mem_slotClaims {reason : T.Reason} {slots : List (SlotInfo T)}
    {c : Location T × Receipt T.share} (h : c ∈ slotClaims reason slots) : c.1.1 = reason := by
  obtain ⟨slot, -, hs⟩ := List.mem_filterMap.mp h
  obtain ⟨r, -, rfl⟩ := Option.map_eq_some_iff.mp hs
  rfl

section Held

variable (φ : Location T → Receipt T.share → Nat)

def commitHeld (m : CommitMap T) : Nat := m.sum fun key info => tally φ (commitClaims key info)

/-- Entry commits weighted, each at the location given for its key. -/
def entryHeld (at_ : EntryKey T → Location T) (m : EntryMap T) : Nat :=
  m.sum fun key commits => tally φ (receiptsAt (at_ key) commits.receipts)

def slotHeld (m : StorageMap (T.Reason × T.AccountId) (PoolInfo T)) : Nat :=
  m.sum fun key pool => tally φ (slotClaims key.1 pool.slots)

end Held

theorem Commits.extend_receipts {commits : Option (Commits T)} {c : CommitInstance T}
    {commits' : Commits T} (h : Commits.extend commits c = .ok commits') :
    commits'.receipts = (commits.elim [] Commits.receipts) ++ [c] := by
  cases commits with
  | none =>
    simp only [Commits.extend, Commits.new] at h
    split at h
    · cases h
    · cases h
      rfl
  | some commits =>
    simp only [Commits.extend, Commits.addCommit] at h
    split at h
    · cases h
      rfl
    · cases h

theorem addEntryCommit_spec {s s' : State T} {key : EntryKey T} {r : Receipt T.share}
    (h : addEntryCommit s key (some r) = .ok s') :
    ∃ e, s' = { s with entryMap := e } ∧
      (∀ φ at_, entryHeld φ at_ e = entryHeld φ at_ s.entryMap + φ (at_ key) r) ∧
      ∀ k, e.get k ≠ none ↔ (s.entryMap.get k ≠ none ∨ k = key) := by
  obtain ⟨commits, hc, h⟩ := bind_eq_ok.mp h
  obtain rfl := pure_eq_ok.mp h
  refine ⟨_, rfl, fun φ at_ => ?_, fun k => ?_⟩
  · have hs := StorageMap.sum_insert
      (fun key (commits : Commits T) => tally φ (receiptsAt (at_ key) commits.receipts)) s.entryMap
      key commits
    have hr := Commits.extend_receipts hc
    unfold entryHeld
    cases hg : s.entryMap.get key with
    | none =>
      rw [hg] at hs hr
      simp only [Option.elim_none, List.nil_append] at hr hs
      rw [hr] at hs
      simp only [receiptsAt_some, receiptsAt_nil, tally_cons, tally_nil] at hs
      omega
    | some old =>
      rw [hg] at hs hr
      simp only [Option.elim_some] at hr hs
      rw [hr, receiptsAt_append, tally_append] at hs
      simp only [receiptsAt_some, receiptsAt_nil, tally_cons, tally_nil] at hs
      omega
  · rw [StorageMap.get_insert]
    by_cases hk : k = key <;> simp [hk]

/-- The digests, shares and variants of slots, without their commits. -/
def slotShapes (slots : List (SlotInfo T)) : List (T.AccountId × Nat × T.Position) :=
  slots.map fun slot => (slot.digest, slot.shares, slot.variant)

theorem slotShapes_mapCommits (pool : PoolInfo T) (f : SlotInfo T → CommitInstance T) :
    slotShapes (pool.mapCommits f).slots = slotShapes pool.slots := by
  unfold slotShapes PoolInfo.mapCommits
  dsimp only
  rw [List.map_map]
  rfl

end FrameSuite
