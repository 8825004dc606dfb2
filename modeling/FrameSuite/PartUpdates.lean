import FrameSuite.CommitFrame
import FrameSuite.RuntimeConfig
import Mathlib.Data.List.Perm.Basic

/-! Updates of a slot of a pool or of an entry of an index. An update removes the part and adds it
again with its new shares and variant, so it needs a second part that stays in between. -/

namespace FrameSuite

variable {T : Config}

abbrev PartShape (T : Config) := T.AccountId × Nat × T.Position

def entryShapes (entries : List (EntryInfo T)) : List (PartShape T) :=
  entries.map fun entry => (entry.digest, entry.shares, entry.variant)

/-- Where the part is: a slot of a pool, or an entry of an index that is copied to a new digest. -/
inductive PartTarget (T : Config)
  | pool (poolOf : T.AccountId)
  | index (indexOf generated : T.AccountId)

inductive PartChange (T : Config)
  | shares (shares : Nat)
  | variant (variant : T.Position) (shares : Option Nat)

structure PartUpdate (T : Config) where
  reason : T.Reason
  target : PartTarget T
  part : T.AccountId
  change : PartChange T

/-- Whether the part stays: zero shares ask for its removal. -/
def PartChange.Stays : PartChange T → Prop
  | .shares n => n ≠ 0
  | .variant _ n => n ≠ some 0

instance (change : PartChange T) : Decidable change.Stays :=
  match change with
  | .shares n => inferInstanceAs (Decidable (n ≠ 0))
  | .variant _ n => inferInstanceAs (Decidable (n ≠ some 0))

def PartChange.given (old : Nat × T.Position) : PartChange T → Nat × T.Position
  | .shares n => (n, old.2)
  | .variant v n => (n.getD old.1, v)

namespace PartUpdate

def call (u : PartUpdate T) : Call T :=
  match u.target, u.change with
  | .pool poolOf, .shares shares => .setSlotShares u.reason poolOf u.part shares
  | .pool poolOf, .variant variant shares => .setSlotOfVariant u.reason poolOf u.part variant shares
  | .index indexOf generated, .shares shares => .setEntryShares u.reason indexOf u.part shares generated
  | .index indexOf generated, .variant variant shares =>
    .setEntryOfVariant u.reason indexOf u.part variant shares generated

/-- The slots of the pool or the entries of the index. -/
def parts (u : PartUpdate T) (s : State T) : List (PartShape T) :=
  match u.target with
  | .pool poolOf => ((s.poolMap.get (u.reason, poolOf)).map fun pool => slotShapes pool.slots).getD []
  | .index indexOf _ =>
    ((s.indexMap.get (u.reason, indexOf)).map fun index => entryShapes index.entries.list).getD []

/-- The funds of the pool cannot be taken back from its slots, so that its slots are not touched. -/
def Unreleasable (u : PartUpdate T) (s : State T) : Prop :=
  match u.target with
  | .pool poolOf => (releasePool s u.reason poolOf).isOk = false
  | .index _ _ => False

end PartUpdate

/-- Distinct digests, at least one part, shares that are not zero and the capital their sum. -/
structure WellFormed (parts : List (PartShape T)) (capital : Nat) : Prop where
  distinct : (parts.map Prod.fst).Nodup
  nonempty : parts ≠ []
  shares : ∀ part ∈ parts, part.2.1 ≠ 0
  capital_eq : capital = (parts.map fun part => part.2.1).sum

structure Structured (s : State T) : Prop where
  pools : ∀ key pool, s.poolMap.get key = some pool → WellFormed (slotShapes pool.slots) pool.capital
  indexes : ∀ key index, s.indexMap.get key = some index →
    WellFormed (entryShapes index.entries.list) index.capital

/-- An error by which slots or entries do not refuse an update. A list within its bound has room. -/
def Unrefused (fits : Prop) (e : DispatchError) : Prop :=
  e ∉ [.emptySlotsNotAllowed, .emptyEntriesNotAllowed, DispatchError.duplicateSlot, .duplicateEntry] ∧
    (fits → e ∉ [DispatchError.maxSlotsReached, .maxEntriesReached])

/-- The parts with one of them replaced. -/
def replacePart (parts : List (PartShape T)) (digest : T.AccountId) (given : Nat × T.Position) :
    List (PartShape T) :=
  parts.map fun part => if part.1 = digest then (digest, given) else part

/-- The update changed the part and no other, up to the order of the parts. A pool keeps its commission
and its manager, an index stays and the changed copy starts without funds. -/
def OnlyPart (u : PartUpdate T) (given : Nat × T.Position) (s s' : State T) : Prop :=
  match u.target with
  | .pool poolOf => ∃ pool pool' after, s.poolMap.get (u.reason, poolOf) = some pool ∧
      s'.poolMap.get (u.reason, poolOf) = some pool' ∧ pool'.commission = pool.commission ∧
      SlotsSet s s' u.reason poolOf after ∧ after.Perm (replacePart (u.parts s) u.part given)
  | .index _ generated => ∃ index, s.indexMap.containsKey (u.reason, generated) = false ∧
      s' = { s with indexMap := s.indexMap.insert (u.reason, generated) index } ∧ index.principal = 0 ∧
      (entryShapes index.entries.list).Perm (replacePart (u.parts s) u.part given)

/-- The update is not refused, and where it goes through it changes the part and no other. -/
structure UpdateHonoured (u : PartUpdate T) (old : Nat × T.Position) (s : State T) : Prop where
  accepted : FailsOnly (Unrefused ((u.parts s).length ≤ T.maxIndexEntries)) (s.apply u.call)
  structured : ∀ s', s.apply u.call = .ok s' → Structured s'
  others : ∀ s', s.apply u.call = .ok s' → OnlyPart u (u.change.given old) s s'

theorem structured (s : State T) : Structured s := by
  refine ⟨fun _ pool _ => ⟨?_, ?_, ?_, ?_⟩, fun _ index _ => ⟨?_, ?_, ?_, ?_⟩⟩
  · simpa [slotShapes, Function.comp_def] using pool.nodup
  · simpa [slotShapes] using pool.nonempty
  · simp only [slotShapes, List.mem_map, forall_exists_index, and_imp, forall_apply_eq_imp_iff₂]
    exact fun slot _ => slot.shares_ne
  · simpa [slotShapes, Function.comp_def] using pool.capital_eq
  · simpa [entryShapes, Function.comp_def] using index.entries.nodup
  · simpa [entryShapes] using index.entries.nonempty
  · simp only [entryShapes, List.mem_map, forall_exists_index, and_imp, forall_apply_eq_imp_iff₂]
    exact fun entry _ => entry.shares_ne
  · simpa [entryShapes, Function.comp_def] using index.capital_eq

section Lists

variable {α β : Type} [DecidableEq α]

theorem filter_append_perm {l : List (α × β)} {a : α} (b : β) (hnd : (l.map Prod.fst).Nodup)
    (hm : a ∈ l.map Prod.fst) :
    (l.filter (fun t => t.1 ≠ a) ++ [(a, b)]).Perm (l.map fun t => if t.1 = a then (a, b) else t) := by
  induction l with
  | nil => simp at hm
  | cons t l ih =>
    rw [List.map_cons, List.nodup_cons] at hnd
    by_cases ht : t.1 = a
    · have hne : ∀ t' ∈ l, t'.1 ≠ a := fun t' hm' he =>
        hnd.1 (by rw [ht, ← he]; exact List.mem_map_of_mem hm')
      have hkeep : l.filter (fun t' => t'.1 ≠ a) = l :=
        List.filter_eq_self.mpr fun t' hm' => by simpa using hne t' hm'
      have hsame : l.map (fun t' => if t'.1 = a then (a, b) else t') = l := by
        conv_rhs => rw [← List.map_id l]
        exact List.map_congr_left fun t' hm' => if_neg (hne t' hm')
      rw [List.filter_cons_of_neg (by simp [ht]), List.map_cons, if_pos ht, hkeep, hsame]
      exact List.perm_append_singleton _ _
    · have hm' : a ∈ l.map Prod.fst := by
        rcases List.mem_cons.mp hm with he | hm
        · exact absurd he.symm ht
        · exact hm
      rw [List.filter_cons_of_pos (by simp [ht]), List.map_cons, if_neg ht]
      exact (ih hnd.2 hm').cons t

end Lists

section Errors

variable {fits : Prop} {s : State T} {reason : T.Reason}

theorem liftShare_unrefused {α : Type} (x : ShareOutcome T.share α) : FailsOnly (Unrefused fits) (liftShare x) :=
  liftShare_failsOnly (by simp [Unrefused]) x

theorem DigestInfo.deposit_unrefused (info : DigestInfo T) (variant : T.Position) (value : Nat) :
    FailsOnly (Unrefused fits) (info.deposit variant value) :=
  info.deposit_failsOnly (by simp [Unrefused]) (by simp [Unrefused]) (by simp [Unrefused]) _ _

theorem DigestInfo.withdraw_unrefused (info : DigestInfo T) (variant : T.Position) (receipt : CommitInstance T) :
    FailsOnly (Unrefused fits) (info.withdraw variant receipt) :=
  .bind (.okOr (by simp [Unrefused])) fun _ _ => .bind (liftShare_unrefused _) fun _ _ => .pure _

theorem releaseSlots_unrefused (slots : List (SlotInfo T)) (m : DigestMap T) (taken : Nat) :
    FailsOnly (Unrefused fits) (releaseSlots reason slots m taken) := by
  induction slots generalizing m taken with
  | nil => exact .ok _
  | cons slot slots ih =>
    rw [releaseSlots]
    refine .ite (ih _ _) (.bind (.okOr (by simp [Unrefused])) fun info _ => ?_)
    refine .bind (info.withdraw_unrefused _ _) fun _ _ => ?_
    exact .bind (.okOr (by simp [Unrefused])) fun _ _ => ih _ _

theorem adjustPoolBalance_unrefused (balance : LazyBalance T) (taken : Nat) :
    FailsOnly (Unrefused fits) (adjustPoolBalance balance taken) := by
  unfold adjustPoolBalance
  refine .ite ?_ (.ite ?_ (.pure _))
  · exact .bind (liftShare_unrefused _) fun _ _ => .bind (.ensure (by simp [Unrefused])) fun _ _ => .pure _
  · exact .bind (liftShare_unrefused _) fun _ _ => .bind (.ensure (by simp [Unrefused])) fun _ _ => .pure _

theorem releasePool_unrefused (s : State T) (reason : T.Reason) (poolOf : T.AccountId) :
    FailsOnly (Unrefused fits) (releasePool s reason poolOf) := by
  refine .bind (.okOr (by simp [Unrefused])) fun pool _ => .ite (.pure _) ?_
  refine .bind (.ensure (by simp [Unrefused])) fun _ _ => .bind (releaseSlots_unrefused _ _ _) fun _ _ => ?_
  exact .bind (adjustPoolBalance_unrefused _ _) fun _ _ => .pure _

theorem setSlotCommit_unrefused (pool : PoolInfo T) (digest : T.AccountId) (commit : CommitInstance T) :
    FailsOnly (Unrefused fits) (pool.setSlotCommit digest commit) :=
  .ite (.ok _) (.error (by simp [Unrefused]))

theorem recoverSlots_unrefused {effective : Nat} (slots : List (SlotInfo T)) (m : DigestMap T)
    (pool : PoolInfo T) (taken : Nat) :
    FailsOnly (Unrefused fits) (recoverSlots reason effective slots m pool taken) := by
  induction slots generalizing m pool taken with
  | nil => exact .ok _
  | cons slot slots ih =>
    refine .bind (.bind (.okOr (by simp [Unrefused])) fun _ _ => .pure _) fun part _ => .ite ?_ ?_
    · exact .bind (setSlotCommit_unrefused _ _ _) fun _ _ => ih _ _ _
    · refine .bind (.okOr (by simp [Unrefused])) fun info _ => .bind (info.deposit_unrefused _ _) fun _ _ => ?_
      refine .bind (.ensure (by simp [Unrefused])) fun _ _ => .bind (.okOr (by simp [Unrefused])) fun _ _ => ?_
      exact .bind (setSlotCommit_unrefused _ _ _) fun _ _ => ih _ _ _

theorem recoverPool_unrefused
    (ha : ∀ l who v, FailsOnly (Unrefused fits) (T.asset.increaseBalance l who v))
    (s : State T) (reason : T.Reason) (poolOf : T.AccountId) (balance : LazyBalance T) :
    FailsOnly (Unrefused fits) (recoverPool s reason poolOf balance) := by
  refine .bind (.okOr (by simp [Unrefused])) fun pool _ => .bind (.ensure (by simp [Unrefused])) fun _ _ => ?_
  refine .bind (.ensure (by simp [Unrefused])) fun _ _ => .bind (recoverSlots_unrefused _ _ _ _) fun _ _ => ?_
  refine .ite (.pure _) (.bind ?_ fun _ _ => .bind ?_ fun _ _ => .bind ?_ fun _ _ => ?_)
  · exact .bind (.ensure (by simp [Unrefused])) fun _ _ => .okOr (by simp [Unrefused])
  · unfold resolveImbalance
    simp only [lt_self_iff_false, if_false, if_true]
    exact .bind (.bind (ha _ _ _) fun _ _ => .pure _) fun _ _ => .pure _
  · exact .bind (.okOr (by simp [Unrefused])) fun _ _ => .pure _
  · refine .bind (liftShare_unrefused _) fun _ _ => .bind (.ensure (by simp [Unrefused])) fun _ _ => .pure _

theorem totalShares_unrefused (shares : List Nat) : FailsOnly (Unrefused fits) (totalShares T shares) :=
  .ite (.ok _) (.error (by simp [Unrefused]))

theorem EntryInfo.new_unrefused (digest : T.AccountId) (shares : Nat) (variant : T.Position) :
    FailsOnly (Unrefused fits) (EntryInfo.new digest shares variant) := by
  unfold EntryInfo.new
  split
  · exact .error (by simp [Unrefused])
  · exact .bind (.okOr (by simp [Unrefused])) fun _ _ => .bind (.ensure (by simp [Unrefused])) fun _ _ => .pure _

theorem dropSlot_unrefused {pool : PoolInfo T} {slotOf : T.AccountId} (h : 1 < pool.slots.length) :
    FailsOnly (Unrefused fits) (pool.dropSlot slotOf) := by
  refine .ite ?_ (.ok _)
  unfold PoolInfo.removeSlot
  rw [dif_pos h]
  dsimp only
  split
  · exact .bind (totalShares_unrefused _) fun _ _ => .pure _
  · exact .error (by simp [Unrefused])

theorem addSlot_unrefused {pool : PoolInfo T} {entry : EntryInfo T}
    (hd : entry.digest ∉ pool.slots.map SlotInfo.digest) (hl : fits → pool.slots.length < T.maxIndexEntries) :
    FailsOnly (Unrefused fits) (pool.addSlot entry) := by
  unfold PoolInfo.addSlot
  dsimp only
  split
  · rename_i hfull
    exact .error ⟨by simp, fun hf => absurd (hl hf) (by omega)⟩
  split
  · exact .bind (totalShares_unrefused _) fun _ _ => .pure _
  · rename_i hdup
    refine absurd ?_ hdup
    rw [List.map_append, List.nodup_append]
    refine ⟨pool.nodup, by simp, ?_⟩
    rintro _ hm _ hs rfl
    obtain rfl : _ = entry.digest := by simpa [SlotInfo.ofEntry] using hs
    exact hd hm

/-- The only slot cannot be removed, not even to come back with other shares. -/
theorem dropSlot_refused {pool : PoolInfo T} {slotOf : T.AccountId} (hm : slotOf ∈ pool.slots.map SlotInfo.digest)
    (h : pool.slots.length = 1) : pool.dropSlot slotOf = .error .emptySlotsNotAllowed := by
  unfold PoolInfo.dropSlot PoolInfo.removeSlot
  rw [if_pos hm, dif_neg (by omega)]

theorem dropEntry_spec {entries entries' : Entries T} {entryOf : T.AccountId}
    (h : entries.dropEntry entryOf = .ok entries') :
    entries'.list = entries.list.filter fun e => e.digest ≠ entryOf := by
  unfold Entries.dropEntry at h
  split at h
  · rename_i hm
    unfold Entries.removeEntry at h
    split at h
    · dsimp only at h
      split at h
      · cases h
        exact eraseIdx_findIdx_eq_filter entries.nodup hm
      · cases h
    · cases h
  · rename_i hm
    cases h
    refine (List.filter_eq_self.mpr fun entry he => ?_).symm
    have hne : entry.digest ≠ entryOf := fun hd => hm (hd ▸ List.mem_map_of_mem he)
    simpa using hne

theorem dropEntry_unrefused {entries : Entries T} {entryOf : T.AccountId} (h : 1 < entries.list.length) :
    FailsOnly (Unrefused fits) (entries.dropEntry entryOf) := by
  refine .ite ?_ (.ok _)
  unfold Entries.removeEntry
  rw [dif_pos h]
  dsimp only
  split
  · exact .ok _
  · exact .error (by simp [Unrefused])

theorem addEntry_unrefused {entries : Entries T} {entry : EntryInfo T}
    (hd : entry.digest ∉ entries.list.map EntryInfo.digest)
    (hl : fits → entries.list.length < T.maxIndexEntries) :
    FailsOnly (Unrefused fits) (entries.addEntry entry) := by
  unfold Entries.addEntry
  split
  · rename_i hfull
    exact .error ⟨by simp, fun hf => absurd (hl hf) (by omega)⟩
  split
  · exact .ok _
  · rename_i hdup
    refine absurd ?_ hdup
    rw [List.map_append, List.nodup_append]
    refine ⟨entries.nodup, by simp, ?_⟩
    rintro _ hm _ hs rfl
    obtain rfl : _ = entry.digest := by simpa using hs
    exact hd hm

theorem addEntry_spec {entries entries' : Entries T} {entry : EntryInfo T}
    (h : entries.addEntry entry = .ok entries') : entries'.list = entries.list ++ [entry] := by
  unfold Entries.addEntry at h
  split at h
  · cases h
  split at h
  · cases h
    rfl
  · cases h

theorem dropEntry_refused {entries : Entries T} {entryOf : T.AccountId}
    (hm : entryOf ∈ entries.list.map EntryInfo.digest) (h : entries.list.length = 1) :
    entries.dropEntry entryOf = .error .emptyEntriesNotAllowed := by
  unfold Entries.dropEntry Entries.removeEntry
  rw [if_pos hm, dif_neg (by omega)]

end Errors

section Pools

variable {s s' s₁ : State T} {reason : T.Reason} {poolOf slotOf : T.AccountId} {shares : Nat} {variant : T.Position}
  {pool : PoolInfo T} {balance : LazyBalance T}

theorem digests_of_slotShapes {slots slots' : List (SlotInfo T)} (h : slotShapes slots' = slotShapes slots) :
    slots'.map SlotInfo.digest = slots.map SlotInfo.digest := by
  have hd := congrArg (List.map Prod.fst) h
  simpa [slotShapes, Function.comp_def] using hd

theorem length_of_slotShapes {slots slots' : List (SlotInfo T)} (h : slotShapes slots' = slotShapes slots) :
    slots'.length = slots.length := by
  simpa [slotShapes] using congrArg List.length h

theorem length_filter_digest {α κ : Type} [DecidableEq κ] {key : α → κ} {l : List α} {k : κ}
    (hnd : (l.map key).Nodup) (hm : k ∈ l.map key) : (l.filter fun a => key a ≠ k).length + 1 = l.length := by
  rw [← eraseIdx_findIdx_eq_filter hnd hm]
  refine List.length_eraseIdx_add_one (List.findIdx_lt_length.mpr ?_)
  obtain ⟨a, ha, hk⟩ := List.mem_map.mp hm
  exact ⟨a, ha, decide_eq_true hk⟩

theorem setPoolSlot_unrefused {fits : Prop}
    (ha : ∀ l who v, FailsOnly (Unrefused fits) (T.asset.increaseBalance l who v))
    (hp : s.poolMap.get (reason, poolOf) = some pool) (hm : slotOf ∈ pool.slots.map SlotInfo.digest)
    (hlen : 1 < pool.slots.length) (hfits : fits → pool.slots.length ≤ T.maxIndexEntries) :
    FailsOnly (Unrefused fits) (setPoolSlot s reason poolOf slotOf shares variant) := by
  refine .bind (.ensure (by simp [Unrefused])) fun _ _ => .bind (releasePool_unrefused _ _ _) fun p hrel => ?_
  obtain ⟨s1, balance⟩ := p
  refine .bind (.okOr (by simp [Unrefused])) fun released hr => ?_
  obtain ⟨pool', hp', hshapes⟩ := released_shapes (releasePool_moved hrel) hr
  obtain rfl := Option.some.inj (hp.symm.trans hp')
  have hlen' := length_of_slotShapes hshapes
  have hm' : slotOf ∈ released.slots.map SlotInfo.digest := by rwa [digests_of_slotShapes hshapes]
  refine .bind (dropSlot_unrefused (by omega)) fun dropped hdrop => ?_
  obtain ⟨hsl, -⟩ := dropSlot_spec hdrop
  refine .bind (EntryInfo.new_unrefused _ _ _) fun entry he => ?_
  refine .bind (addSlot_unrefused ?_ fun hf => ?_) fun _ _ => recoverPool_unrefused ha _ _ _ _
  · rw [hsl, (EntryInfo.new_eq_ok he).1]
    simp
  · have := length_filter_digest released.nodup hm'
    have := hfits hf
    rw [hsl]
    omega

theorem setPoolSlot_refused (hz : shares ≠ 0) (hrel : releasePool s reason poolOf = .ok (s₁, balance))
    (hp : s.poolMap.get (reason, poolOf) = some pool) (hm : slotOf ∈ pool.slots.map SlotInfo.digest)
    (hlen : pool.slots.length = 1) :
    setPoolSlot s reason poolOf slotOf shares variant = .error .emptySlotsNotAllowed := by
  obtain ⟨released, hr⟩ : ∃ released, getPool s₁ reason poolOf = .ok released := by
    have hs := (releasePool_moved hrel).slots (reason, poolOf)
    rw [hp] at hs
    obtain ⟨released, hr, -⟩ := Option.map_eq_some_iff.mp hs
    exact ⟨released, okOr_eq_ok.mpr hr⟩
  obtain ⟨pool', hp', hshapes⟩ := released_shapes (releasePool_moved hrel) hr
  obtain rfl := Option.some.inj (hp.symm.trans hp')
  have hdrop : released.dropSlot slotOf = .error .emptySlotsNotAllowed :=
    dropSlot_refused (by rwa [digests_of_slotShapes hshapes]) ((length_of_slotShapes hshapes).trans hlen)
  unfold setPoolSlot
  rw [(ensure_eq_ok (u := ())).mpr hz, hrel]
  change (getPool s₁ reason poolOf >>= _) = _
  rw [hr]
  change (released.dropSlot slotOf >>= _) = _
  rw [hdrop]
  rfl

theorem setPoolSlot_unreleased {fits : Prop} (hrel : (releasePool s reason poolOf).isOk = false) :
    FailsOnly (Unrefused fits) (setPoolSlot s reason poolOf slotOf shares variant) ∧
      ∀ s', setPoolSlot s reason poolOf slotOf shares variant ≠ .ok s' := by
  have hno : ∀ p, releasePool s reason poolOf ≠ .ok p := fun p h => by
    rw [h] at hrel
    cases hrel
  refine ⟨.bind (.ensure (by simp [Unrefused])) fun _ _ => .bind (releasePool_unrefused _ _ _) fun p h => ?_, ?_⟩
  · exact absurd h (hno p)
  · intro s' h
    obtain ⟨_, -, h⟩ := bind_eq_ok.mp h
    obtain ⟨p, h, -⟩ := bind_eq_ok.mp h
    exact hno p h

theorem setPoolSlot_commission (hs : Sound s) (hp : s.poolMap.get (reason, poolOf) = some pool)
    (h : setPoolSlot s reason poolOf slotOf shares variant = .ok s') :
    ∃ pool', s'.poolMap.get (reason, poolOf) = some pool' ∧ pool'.commission = pool.commission := by
  obtain ⟨s₁, balance, pool0, released, pool', claims, m, hr⟩ := setPoolSlot_reslotted h
  obtain rfl := Option.some.inj (hp.symm.trans hr.release.found)
  obtain ⟨recovered, m', dust, hrec, -⟩ := hr.recovered hs
  obtain ⟨l, rv, hstate, -⟩ := hrec.state_eq
  refine ⟨recovered, by rw [hstate, StorageMap.get_insert_self], ?_⟩
  rw [hrec.commission_eq, hr.commission_eq, hr.release.commission_eq]

end Pools

section Indexes

variable {s s' : State T} {reason : T.Reason} {indexOf entryOf generated : T.AccountId} {shares : Nat}
  {variant : T.Position} {index : IndexInfo T}

theorem setIndexEntry_unrefused {fits : Prop} (hi : s.indexMap.get (reason, indexOf) = some index)
    (hm : entryOf ∈ index.entries.list.map EntryInfo.digest) (hlen : 1 < index.entries.list.length)
    (hfits : fits → index.entries.list.length ≤ T.maxIndexEntries) :
    FailsOnly (Unrefused fits) (setIndexEntry s reason indexOf entryOf shares variant generated) := by
  refine .bind (.ensure (by simp [Unrefused])) fun _ _ => .bind (.okOr (by simp [Unrefused])) fun index' hi' => ?_
  obtain rfl := Option.some.inj (hi.symm.trans (okOr_eq_ok.mp hi'))
  refine .bind (dropEntry_unrefused hlen) fun dropped hdrop => ?_
  have hlist := dropEntry_spec hdrop
  refine .bind (EntryInfo.new_unrefused _ _ _) fun entry he => ?_
  refine .bind (addEntry_unrefused ?_ fun hf => ?_) fun _ _ =>
    .bind (.bind (totalShares_unrefused _) fun _ _ => ?_) ?_
  · rw [hlist, (EntryInfo.new_eq_ok he).1]
    simp
  · have := length_filter_digest index.entries.nodup hm
    have := hfits hf
    rw [hlist]
    omega
  · exact .bind (.ensure (by simp [Unrefused])) fun _ _ => .pure _
  · exact fun _ _ => .bind (.ensure (by simp [Unrefused])) fun _ _ => .pure _

theorem setIndexEntry_refused (hz : shares ≠ 0) (hi : s.indexMap.get (reason, indexOf) = some index)
    (hm : entryOf ∈ index.entries.list.map EntryInfo.digest) (hlen : index.entries.list.length = 1) :
    setIndexEntry s reason indexOf entryOf shares variant generated = .error .emptyEntriesNotAllowed := by
  unfold setIndexEntry getIndex
  rw [(ensure_eq_ok (u := ())).mpr hz, okOr_eq_ok.mpr hi]
  change (index.entries.dropEntry entryOf >>= _) = _
  rw [dropEntry_refused hm hlen]
  rfl

theorem setIndexEntry_copies (hi : s.indexMap.get (reason, indexOf) = some index)
    (h : setIndexEntry s reason indexOf entryOf shares variant generated = .ok s') :
    ∃ copy, s.indexMap.containsKey (reason, generated) = false ∧
      s' = { s with indexMap := s.indexMap.insert (reason, generated) copy } ∧ copy.principal = 0 ∧
      entryShapes copy.entries.list =
        ((entryShapes index.entries.list).filter fun t => t.1 ≠ entryOf) ++ [(entryOf, shares, variant)] := by
  obtain ⟨_, -, h⟩ := bind_eq_ok.mp h
  obtain ⟨index', hi', h⟩ := bind_eq_ok.mp h
  obtain rfl := Option.some.inj (hi.symm.trans (okOr_eq_ok.mp hi'))
  obtain ⟨dropped, hdrop, h⟩ := bind_eq_ok.mp h
  obtain ⟨entry, he, h⟩ := bind_eq_ok.mp h
  obtain ⟨hd, hsh, hv⟩ := EntryInfo.new_eq_ok he
  obtain ⟨added, hadd, h⟩ := bind_eq_ok.mp h
  obtain ⟨copy, hc, h⟩ := bind_eq_ok.mp h
  obtain ⟨hfree, rfl⟩ := setIndex_spec h
  have hprincipal : copy.principal = 0 := by
    obtain ⟨⟨capital, _⟩, -, hc⟩ := bind_eq_ok.mp hc
    obtain ⟨_, -, hc⟩ := bind_eq_ok.mp hc
    obtain rfl := pure_eq_ok.mp hc
    rfl
  refine ⟨copy, ?_, rfl, hprincipal, ?_⟩
  · simpa [StorageMap.containsKey] using hfree
  · rw [entries_of_new hc, addEntry_spec hadd, dropEntry_spec hdrop, entryShapes, List.map_append, entryShapes,
      List.filter_map]
    simp [hd, hsh, hv, Function.comp_def]

end Indexes

section Calls

variable {s : State T} {u : PartUpdate T} {old : Nat × T.Position}

theorem given_ne {parts : List (PartShape T)} (hs : ∀ part ∈ parts, part.2.1 ≠ 0) (hz : u.change.Stays)
    (hold : (u.part, old) ∈ parts) : (u.change.given old).1 ≠ 0 := by
  have hne := hs _ hold
  cases hc : u.change with
  | shares n => simpa [hc, PartChange.Stays, PartChange.given] using hz
  | variant v n =>
    rw [hc] at hz
    cases n with
    | none => exact hne
    | some n => exact fun h => hz (congrArg some h)

theorem exists_pool {poolOf : T.AccountId} (ht : u.target = .pool poolOf) (hold : (u.part, old) ∈ u.parts s) :
    ∃ pool, s.poolMap.get (u.reason, poolOf) = some pool ∧ u.parts s = slotShapes pool.slots := by
  unfold PartUpdate.parts at hold ⊢
  rw [ht] at hold ⊢
  cases hp : s.poolMap.get (u.reason, poolOf) with
  | none => simp [hp] at hold
  | some pool => exact ⟨pool, rfl, by simp [hp]⟩

theorem exists_index {indexOf generated : T.AccountId} (ht : u.target = .index indexOf generated)
    (hold : (u.part, old) ∈ u.parts s) :
    ∃ index, s.indexMap.get (u.reason, indexOf) = some index ∧ u.parts s = entryShapes index.entries.list := by
  unfold PartUpdate.parts at hold ⊢
  rw [ht] at hold ⊢
  cases hi : s.indexMap.get (u.reason, indexOf) with
  | none => simp [hi] at hold
  | some index => exact ⟨index, rfl, by simp [hi]⟩

theorem findSlot_of_mem {reason : T.Reason} {poolOf slotOf : T.AccountId} {pool : PoolInfo T}
    (hp : s.poolMap.get (reason, poolOf) = some pool) (hold : (slotOf, old) ∈ slotShapes pool.slots) :
    ∃ slot, findSlot s reason poolOf slotOf = some slot ∧ old = (slot.shares, slot.variant) := by
  obtain ⟨slot, hm, he⟩ := List.mem_map.mp hold
  obtain ⟨rfl, rfl⟩ := Prod.mk.inj he
  exact ⟨slot, by simp [findSlot, hp, find?_key pool.nodup hm], rfl⟩

theorem findEntry_of_mem {reason : T.Reason} {indexOf entryOf : T.AccountId} {index : IndexInfo T}
    (hi : s.indexMap.get (reason, indexOf) = some index) (hold : (entryOf, old) ∈ entryShapes index.entries.list) :
    ∃ entry, findEntry s reason indexOf entryOf = some entry ∧ old = (entry.shares, entry.variant) := by
  obtain ⟨entry, hm, he⟩ := List.mem_map.mp hold
  obtain ⟨rfl, rfl⟩ := Prod.mk.inj he
  exact ⟨entry, by simp [findEntry, hi, find?_key index.entries.nodup hm], rfl⟩

theorem apply_pool {poolOf : T.AccountId} {pool : PoolInfo T} (ht : u.target = .pool poolOf)
    (hz : u.change.Stays) (hp : s.poolMap.get (u.reason, poolOf) = some pool)
    (hold : (u.part, old) ∈ slotShapes pool.slots) :
    s.apply u.call =
      setPoolSlot s u.reason poolOf u.part (u.change.given old).1 (u.change.given old).2 := by
  obtain ⟨slot, hf, rfl⟩ := findSlot_of_mem hp hold
  unfold PartUpdate.call
  rw [ht]
  cases hc : u.change with
  | shares n =>
    rw [hc] at hz
    change setSlotShares s u.reason poolOf u.part n = _
    rw [setSlotShares, hf]
    exact if_neg hz
  | variant v n =>
    rw [hc] at hz
    change setSlotOfVariant s u.reason poolOf u.part v n = _
    unfold setSlotOfVariant
    rw [hf]
    cases n with
    | none => rfl
    | some n => exact if_neg fun h => hz (congrArg some h)

theorem apply_index {indexOf generated : T.AccountId} {index : IndexInfo T}
    (ht : u.target = .index indexOf generated) (hz : u.change.Stays)
    (hi : s.indexMap.get (u.reason, indexOf) = some index) (hold : (u.part, old) ∈ entryShapes index.entries.list) :
    s.apply u.call = setIndexEntry s u.reason indexOf u.part (u.change.given old).1 (u.change.given old).2
      generated := by
  obtain ⟨entry, hf, rfl⟩ := findEntry_of_mem hi hold
  unfold PartUpdate.call
  rw [ht]
  cases hc : u.change with
  | shares n =>
    rw [hc] at hz
    change setEntryShares s u.reason indexOf u.part n generated = _
    rw [setEntryShares, hf]
    exact if_neg hz
  | variant v n =>
    rw [hc] at hz
    change setEntryOfVariant s u.reason indexOf u.part v n generated = _
    unfold setEntryOfVariant
    rw [hf]
    cases n with
    | none => rfl
    | some n => exact if_neg fun h => hz (congrArg some h)

theorem pool_honoured_iff {poolOf : T.AccountId}
    (ha : ∀ l who v, FailsOnly (Unrefused True) (T.asset.increaseBalance l who v)) (hs : Sound s)
    (ht : u.target = .pool poolOf) (hz : u.change.Stays) (hold : (u.part, old) ∈ u.parts s) :
    UpdateHonoured u old s ↔ 1 < (u.parts s).length ∨ u.Unreleasable s := by
  obtain ⟨pool, hp, hparts⟩ := exists_pool ht hold
  rw [hparts] at hold
  have hcall := apply_pool ht hz hp hold
  have hwf := (structured s).pools _ pool hp
  have hne := given_ne hwf.shares hz hold
  have hm : u.part ∈ (slotShapes pool.slots).map Prod.fst := List.mem_map_of_mem hold
  have hm' : u.part ∈ pool.slots.map SlotInfo.digest := by
    simpa [slotShapes, Function.comp_def] using hm
  have hlen : (u.parts s).length = pool.slots.length := by rw [hparts, slotShapes, List.length_map]
  have hrel : u.Unreleasable s ↔ (releasePool s u.reason poolOf).isOk = false := by
    rw [PartUpdate.Unreleasable, ht]
  rw [hlen, hrel]
  constructor
  · intro h
    by_contra hno
    rw [not_or, Bool.not_eq_false] at hno
    obtain ⟨⟨s1, balance⟩, h1⟩ := exists_eq_ok hno.2
    have hpos : pool.slots.length ≠ 0 := fun hl => pool.nonempty (List.length_eq_zero_iff.mp hl)
    have herr : setPoolSlot s u.reason poolOf u.part (u.change.given old).1 (u.change.given old).2 =
        .error .emptySlotsNotAllowed := setPoolSlot_refused hne h1 hp hm' (by omega)
    exact (h.accepted _ (hcall.trans herr)).1 (by simp)
  · intro h
    have hun : FailsOnly (Unrefused (pool.slots.length ≤ T.maxIndexEntries)) (s.apply u.call) := by
      rw [hcall]
      by_cases hlong : 1 < pool.slots.length
      · refine setPoolSlot_unrefused (fun l who v e he => ?_) hp hm' hlong id
        have := ha l who v e he
        exact ⟨this.1, fun _ => this.2 trivial⟩
      · exact (setPoolSlot_unreleased (h.resolve_left hlong)).1
    refine ⟨by rwa [hlen], fun s' _ => structured s', fun s' h' => ?_⟩
    rw [hcall] at h'
    obtain ⟨pool', hp', hset⟩ := setPoolSlot_slots h'
    obtain rfl := Option.some.inj (hp.symm.trans hp')
    obtain ⟨pool', hp', hc⟩ := setPoolSlot_commission hs hp h'
    unfold OnlyPart
    rw [ht, hparts]
    exact ⟨pool, pool', _, hp, hp', hc, hset, filter_append_perm _ hwf.distinct hm⟩

theorem index_honoured_iff {indexOf generated : T.AccountId} (ht : u.target = .index indexOf generated)
    (hz : u.change.Stays) (hold : (u.part, old) ∈ u.parts s) :
    UpdateHonoured u old s ↔ 1 < (u.parts s).length ∨ u.Unreleasable s := by
  obtain ⟨index, hi, hparts⟩ := exists_index ht hold
  rw [hparts] at hold
  have hcall := apply_index ht hz hi hold
  have hwf := (structured s).indexes _ index hi
  have hne := given_ne hwf.shares hz hold
  have hm : u.part ∈ (entryShapes index.entries.list).map Prod.fst := List.mem_map_of_mem hold
  have hm' : u.part ∈ index.entries.list.map EntryInfo.digest := by
    simpa [entryShapes, Function.comp_def] using hm
  have hlen : (u.parts s).length = index.entries.list.length := by rw [hparts, entryShapes, List.length_map]
  have hrel : ¬u.Unreleasable s := by
    rw [PartUpdate.Unreleasable, ht]
    exact id
  rw [hlen, or_iff_left hrel]
  constructor
  · intro h
    by_contra hno
    have hpos : index.entries.list.length ≠ 0 := fun hl => index.entries.nonempty (List.length_eq_zero_iff.mp hl)
    have herr : setIndexEntry s u.reason indexOf u.part (u.change.given old).1 (u.change.given old).2 generated =
        .error .emptyEntriesNotAllowed := setIndexEntry_refused hne hi hm' (by omega)
    exact (h.accepted _ (hcall.trans herr)).1 (by simp)
  · intro hlong
    refine ⟨?_, fun s' _ => structured s', fun s' h' => ?_⟩
    · rw [hcall, hlen]
      exact setIndexEntry_unrefused hi hm' hlong id
    · rw [hcall] at h'
      obtain ⟨copy, hfree, hs', hprincipal, hshapes⟩ := setIndexEntry_copies hi h'
      unfold OnlyPart
      rw [ht, hparts]
      refine ⟨copy, hfree, hs', hprincipal, ?_⟩
      rw [hshapes]
      exact filter_append_perm _ hwf.distinct hm

end Calls

/-- Slots and entries keep their structure in every reachable state. An update of one that is there is
honoured exactly where another part stays meanwhile, or where its pool is not even released. -/
theorem part_updates_iff (ha : ∀ l who v, FailsOnly (Unrefused True) (T.asset.increaseBalance l who v))
    {s : State T} (hs : Reachable s) : Structured s ∧
    ∀ (u : PartUpdate T) (old : Nat × T.Position), u.change.Stays → (u.part, old) ∈ u.parts s →
      (UpdateHonoured u old s ↔ 1 < (u.parts s).length ∨ u.Unreleasable s) := by
  refine ⟨structured s, fun u old hz hold => ?_⟩
  cases ht : u.target with
  | pool poolOf => exact pool_honoured_iff ha hs.sound ht hz hold
  | index indexOf generated => exact index_honoured_iff ht hz hold

theorem token_unrefused (l : TokenLedger) (who v : Nat) :
    FailsOnly (Unrefused True) (runtimeConfig.asset.increaseBalance l who v) :=
  .ite (.error (by simp [Unrefused])) (.ok _)

/-- The first of three slots gets a second share. -/
def widerSlot : PartUpdate runtimeConfig :=
  { reason := (0 : Nat), target := .pool (30 : Nat), part := (11 : Nat), change := .shares 2 }

theorem third_slot_updated :
    UpdateHonoured widerSlot ((1, Disposition.affirmative) : Nat × Disposition)
      (State.after fundedLedger thirdsPool) :=
  ((part_updates_iff token_unrefused ⟨_, _, rfl⟩).2 widerSlot _ (by decide) (by decide +kernel)).mpr
    (.inl (by decide +kernel))

def soleIndex : IndexInfo runtimeConfig :=
  { principal := 0
    capital := 1
    entries := { list := [unitEntry 11], nonempty := List.cons_ne_nil _ _, nodup := by decide }
    capital_eq := rfl }

/-- A pool whose only slot is the only entry of its index. -/
def solePool : List (Call runtimeConfig) :=
  [place 1 11 5, .setIndex (T := runtimeConfig) (0 : Nat) soleIndex (20 : Nat),
    .setPool (T := runtimeConfig) (9 : Nat) (0 : Nat) (30 : Nat) (20 : Nat) { parts := 0, parts_le := zero_le_accuracy }]

def soleEntry : PartUpdate runtimeConfig :=
  { reason := (0 : Nat), target := .index (20 : Nat) (21 : Nat), part := (11 : Nat),
    change := .variant Disposition.contrary none }

/-- The only slot keeps its shares and the only entry its variant, whatever is asked for. -/
theorem sole_parts_refused :
    let s := State.after fundedLedger solePool
    let old : Nat × Disposition := (1, .affirmative)
    Reachable s ∧ widerSlot.change.Stays ∧ soleEntry.change.Stays ∧
      (widerSlot.part, old) ∈ widerSlot.parts s ∧ (soleEntry.part, old) ∈ soleEntry.parts s ∧
      ¬UpdateHonoured widerSlot old s ∧ ¬UpdateHonoured soleEntry old s := by
  refine ⟨⟨_, _, rfl⟩, by decide, by decide, by decide +kernel, by decide +kernel, fun h => ?_, fun h => ?_⟩
  · exact (h.accepted .emptySlotsNotAllowed rfl).1 (by simp)
  · exact (h.accepted .emptyEntriesNotAllowed rfl).1 (by simp)

end FrameSuite
