import FrameSuite.FinalizedStorage
import FrameSuite.ForkIsolation
import FrameSuite.Run

/-! What a count of observations is worth. The moments at which a value is read are remembered beside the
storage; a count is compared with the moment of the last read alone, so a moment that comes back may count
again. -/

namespace FrameSuite

variable {H K I V ε : Type} [DecidableEq H] [DecidableEq K] [DecidableEq I] [DecidableEq ε]

/-- Which observation a call starts anew or adds to. -/
inductive Sighting (K I : Type)
  | fresh (key : K) (hash : I)
  | again (key : K) (hash : I)

def FinalizedCall.sighting (E : FinalizedErrors ε) (policy : FinalityTerms) (hashOf : V → I)
    (s : FinalizedStorage H K I V) (call : FinalizedCall H K V ε) : Option (Sighting K I) :=
  match call.op with
  | .insert key value =>
    match (s.insert E hashOf call.view call.now call.contention key value).1 with
    | .ok _ => some (.fresh key (hashOf value))
    | .error _ => none
  | .get key =>
    match (s.get E policy call.view call.now call.contention key).1, (s.markers.get E.forks call.view key).1 with
    | .ok (some _), .ok (some hash) => some (.again key hash)
    | _, _ => none
  | .remove _ => none
  | .mutate key f =>
    match s.handed E call.view key with
    | .error _ => none
    | .ok current =>
      match (s.revise E hashOf call.now call.contention.ledger key f current).1 with
      | .ok hash => some (.fresh key hash)
      | .error _ => none

section Effects

namespace FinalizedStorage

variable {E : FinalizedErrors ε} {s t : FinalizedStorage H K I V} {key : K} {v : View H}

/-- Every observation of the second storage is one of the first. -/
def LedgersWithin (s t : FinalizedStorage H K I V) : Prop :=
  ∀ key ledger hash seen, t.ledgers key = .stored ledger → ledger.get hash = some seen →
    ∃ old, s.ledgers key = .stored old ∧ old.get hash = some seen

/-- One observation is written, and the others are old ones. -/
def Observes (s t : FinalizedStorage H K I V) (key : K) (hash : I) (seen : Observation V) : Prop :=
  ∃ base : Ledger I V, t.ledgers = Function.update s.ledgers key (.stored (base.insert hash seen)) ∧
    ∀ other seen', base.get other = some seen' → ∃ old, s.ledgers key = .stored old ∧ old.get other = some seen'

omit [DecidableEq H] [DecidableEq K] [DecidableEq I] in
theorem LedgersWithin.of_eq (h : t.ledgers = s.ledgers) : LedgersWithin s t := by
  intro key ledger hash seen hledger hseen
  exact ⟨ledger, by rw [← h, hledger], hseen⟩

omit [DecidableEq H] [DecidableEq I] [DecidableEq ε] in
theorem mutateLedger_map (contended : Bool) (g : Option (Ledger I V) → Ledger I V) :
    s.mutateLedger E contended key (Except.map g) =
      match (s.ledgers key).decode with
      | none => (.error E.decodeFailed, s)
      | some ledger =>
        if contended then (.error E.concurrentMutation, s) else (.ok (), s.setLedger key (.stored (g ledger))) := by
  unfold mutateLedger
  cases (s.ledgers key).decode <;> rfl

omit [DecidableEq H] [DecidableEq ε] in
theorem mutateLedger_observes (E : FinalizedErrors ε) (s : FinalizedStorage H K I V) (key : K) (contended : Bool)
    {base : Option (Ledger I V) → Ledger I V} (hash : I) (seen : Observation V)
    (hbase : ∀ ledger other seen', (base ledger).get other = some seen' →
      ∃ old, ledger = some old ∧ old.get other = some seen') :
    ((s.mutateLedger E contended key (Except.map fun ledger => (base ledger).insert hash seen)).1 = .ok () ∧
        Observes s (s.mutateLedger E contended key (Except.map fun ledger => (base ledger).insert hash seen)).2
          key hash seen) ∨
      ((∃ e, (s.mutateLedger E contended key (Except.map fun ledger => (base ledger).insert hash seen)).1 = .error e) ∧
        (s.mutateLedger E contended key (Except.map fun ledger => (base ledger).insert hash seen)).2 = s) := by
  rw [mutateLedger_map]
  cases hdecode : (s.ledgers key).decode with
  | none => exact .inr ⟨⟨_, rfl⟩, rfl⟩
  | some ledger =>
    cases contended with
    | true => exact .inr ⟨⟨_, rfl⟩, rfl⟩
    | false =>
      refine .inl ⟨rfl, base ledger, rfl, fun other seen' hget => ?_⟩
      obtain ⟨old, rfl, hold⟩ := hbase ledger other seen' hget
      exact ⟨old, Slot.decode_eq_stored.mp hdecode, hold⟩

omit [DecidableEq I] in
theorem of_get_getD {ledger : Option (Ledger I V)} {hash : I} {seen : Observation V}
    (h : (ledger.getD .empty).get hash = some seen) : ∃ old, ledger = some old ∧ old.get hash = some seen := by
  cases ledger with
  | none => cases h
  | some old => exact ⟨old, rfl, h⟩

omit [DecidableEq ε] in
theorem of_get_rest {current : Except ε (Option I)} {ledger : Option (Ledger I V)} {hash : I} {seen : Observation V}
    (h : (rest current ledger).get hash = some seen) : ∃ old, ledger = some old ∧ old.get hash = some seen := by
  unfold rest at h
  split at h
  · rw [StorageMap.get_remove] at h
    split at h
    · cases h
    · exact of_get_getD h
  · exact of_get_getD h

omit [DecidableEq I] [DecidableEq ε] in
theorem dropMarker_ledgers (e : ε) : (s.dropMarker E v key e).2.ledgers = s.ledgers := by
  unfold dropMarker
  split <;> rfl

omit [DecidableEq H] [DecidableEq ε] in
/-- An observation after a write is the one that was written, or was there before under another hash or key. -/
theorem Observes.cases {key k : K} {hash h : I} {seen o : Observation V}
    {ledger : Ledger I V} (hobserves : Observes s t key hash seen) (hledger : t.ledgers k = .stored ledger)
    (hget : ledger.get h = some o) :
    (k = key ∧ h = hash ∧ o = seen) ∨
      (¬(k = key ∧ h = hash) ∧ ∃ old, s.ledgers k = .stored old ∧ old.get h = some o) := by
  obtain ⟨base, hwritten, hbase⟩ := hobserves
  rw [hwritten] at hledger
  by_cases hk : k = key
  · subst hk
    rw [Function.update_self] at hledger
    obtain rfl := Slot.stored.inj hledger
    by_cases hh : h = hash
    · subst hh
      rw [StorageMap.get_insert_self] at hget
      exact .inl ⟨rfl, rfl, (Option.some.inj hget).symm⟩
    · rw [StorageMap.get_insert_of_ne hh] at hget
      exact .inr ⟨fun heq => hh heq.2, hbase h o hget⟩
  · rw [Function.update_of_ne hk] at hledger
    exact .inr ⟨fun heq => hk heq.1, ledger, hledger, hget⟩

end FinalizedStorage

open FinalizedStorage

/-- What a call does to the observations: it adds none, writes a new one, or reads one. -/
inductive CallEffect (policy : FinalityTerms) (call : FinalizedCall H K V ε) (s t : FinalizedStorage H K I V) :
    Option (Sighting K I) → FinalizedReply V ε → Prop
  | none {reply : FinalizedReply V ε} (within : LedgersWithin s t) (unread : ∀ c, reply ≠ .read (.ok (some c))) :
      CallEffect policy call s t none reply
  | fresh {key : K} {hash : I} {value : V} {reply : FinalizedReply V ε}
      (written : Observes s t key hash (Finalized.observe call.now value)) (unread : ∀ c, reply ≠ .read (.ok (some c))) :
      CallEffect policy call s t (some (.fresh key hash)) reply
  | again {key : K} {hash : I} {ledger : Ledger I V} {seen : Observation V} (stored : s.ledgers key = .stored ledger)
      (found : ledger.get hash = some seen)
      (written : Observes s t key hash (Finalized.seeAgain policy call.now seen)) :
      CallEffect policy call s t (some (.again key hash)) (.read (.ok (some (Finalized.confidence policy seen))))

variable {E : FinalizedErrors ε} {policy : FinalityTerms} {hashOf : V → I} {s : FinalizedStorage H K I V}

theorem insert_effect {call : FinalizedCall H K V ε} {key : K} {value : V} (hop : call.op = .insert key value) :
    CallEffect policy call s (call.perform E policy hashOf s).2 (call.sighting E policy hashOf s)
      (call.perform E policy hashOf s).1 := by
  simp only [FinalizedCall.perform, FinalizedCall.sighting, hop, FinalizedStorage.insert]
  cases hmarked : s.markers.insert E.forks call.view key (hashOf value) with
  | mk marked markers =>
    cases marked with
    | error e => exact .none (.of_eq rfl) nofun
    | ok _ =>
      dsimp only
      obtain ⟨hok, hobserves⟩ | ⟨⟨e, herror⟩, hsame⟩ :=
        mutateLedger_observes E { s with markers } key call.contention.ledger (hashOf value)
          (Finalized.observe call.now value) fun _ _ _ hget => of_get_getD hget
      · rw [hok]
        exact .fresh hobserves nofun
      · rw [herror, hsame]
        exact .none (.of_eq rfl) nofun

theorem get_effect {call : FinalizedCall H K V ε} {key : K} (hop : call.op = .get key) :
    CallEffect policy call s (call.perform E policy hashOf s).2 (call.sighting E policy hashOf s)
      (call.perform E policy hashOf s).1 := by
  simp only [FinalizedCall.perform, FinalizedCall.sighting, hop, FinalizedStorage.get]
  cases hmarker : (s.markers.get E.forks call.view key).1 with
  | error e => exact .none (.of_eq rfl) nofun
  | ok marker =>
    cases marker with
    | none => exact .none (.of_eq rfl) nofun
    | some hash =>
      dsimp only
      cases hdecode : (s.ledgers key).decode with
      | none => exact .none (.of_eq rfl) nofun
      | some stored =>
        cases stored with
        | none => exact .none (.of_eq (dropMarker_ledgers _)) nofun
        | some ledger =>
          dsimp only
          cases hseen : ledger.get hash with
          | none => exact .none (.of_eq (dropMarker_ledgers _)) nofun
          | some seen =>
            dsimp only
            cases call.contention.ledger with
            | true => exact .none (.of_eq rfl) nofun
            | false =>
              have hstored := Slot.decode_eq_stored.mp hdecode
              exact .again hstored hseen ⟨ledger, rfl, fun _ _ hget => ⟨ledger, hstored, hget⟩⟩

theorem remove_effect {call : FinalizedCall H K V ε} {key : K} (hop : call.op = .remove key) :
    CallEffect policy call s (call.perform E policy hashOf s).2 (call.sighting E policy hashOf s)
      (call.perform E policy hashOf s).1 := by
  simp only [FinalizedCall.perform, FinalizedCall.sighting, hop]
  refine .none (fun k ledger hash seen hledger hget => ?_) nofun
  simp only [FinalizedStorage.remove] at hledger
  split at hledger
  · exact ⟨ledger, hledger, hget⟩
  · exact ⟨ledger, hledger, hget⟩
  · rename_i removed hmarker
    split at hledger
    · exact ⟨ledger, hledger, hget⟩
    · split at hledger
      · exact ⟨ledger, hledger, hget⟩
      · exact ⟨ledger, hledger, hget⟩
      · rename_i old hdecode
        split at hledger
        · exact ⟨ledger, hledger, hget⟩
        · change Function.update s.ledgers key _ k = _ at hledger
          by_cases hkey : k = key
          · subst hkey
            rw [Function.update_self] at hledger
            split at hledger
            · cases hledger
            · obtain rfl := Slot.stored.inj hledger
              refine ⟨old, Slot.decode_eq_stored.mp hdecode, ?_⟩
              rw [StorageMap.get_remove] at hget
              split at hget
              · cases hget
              · exact hget
          · rw [Function.update_of_ne hkey] at hledger
            exact ⟨ledger, hledger, hget⟩

omit [DecidableEq H] [DecidableEq ε] in
theorem revise_effect (E : FinalizedErrors ε) (hashOf : V → I) (s : FinalizedStorage H K I V) (key : K) (now : Nat)
    (contended : Bool) (f : Except ε (Option V) → Except ε V) (current : Except ε (Option I)) :
    (∃ new, (s.revise E hashOf now contended key f current).1 = .ok (hashOf new) ∧
        Observes s (s.revise E hashOf now contended key f current).2 key (hashOf new) (Finalized.observe now new)) ∨
      ((∃ e, (s.revise E hashOf now contended key f current).1 = .error e) ∧
        (s.revise E hashOf now contended key f current).2 = s) := by
  unfold FinalizedStorage.revise
  cases s.currentValue E key current with
  | error e => exact .inr ⟨⟨e, rfl⟩, rfl⟩
  | ok value =>
    dsimp only
    cases f (.ok value) with
    | error e => exact .inr ⟨⟨e, rfl⟩, rfl⟩
    | ok new =>
      dsimp only
      obtain ⟨hok, hobserves⟩ | ⟨⟨e, herror⟩, hsame⟩ :=
        mutateLedger_observes E s key contended (hashOf new) (Finalized.observe now new)
          fun _ _ _ hget => of_get_rest hget
      · exact .inl ⟨new, by rw [hok]; rfl, hobserves⟩
      · exact .inr ⟨⟨e, by rw [herror]; rfl⟩, hsame⟩

theorem mutate_effect {call : FinalizedCall H K V ε} {key : K} {f : Except ε (Option V) → Except ε V}
    (hop : call.op = .mutate key f) :
    CallEffect policy call s (call.perform E policy hashOf s).2 (call.sighting E policy hashOf s)
      (call.perform E policy hashOf s).1 := by
  simp only [FinalizedCall.perform, FinalizedCall.sighting, hop]
  have hmutated : ∀ current, s.handed E call.view key = .ok current →
      (s.mutate E hashOf call.view call.now call.contention key f).2.ledgers =
        (s.revise E hashOf call.now call.contention.ledger key f current).2.ledgers := by
    intro current hhanded
    simp only [FinalizedStorage.mutate, hhanded]
    split
    · rename_i hwritten
      exact (congrArg (fun result : Except ε Unit × FinalizedStorage H K I V => result.2.ledgers) hwritten).symm
    · rename_i hwritten
      have hledgers := (congrArg (fun result : Except ε Unit × FinalizedStorage H K I V => result.2.ledgers) hwritten).symm
      split
      · exact (dropMarker_ledgers _).trans hledgers
      · exact hledgers
  cases hhanded : s.handed E call.view key with
  | error e =>
    refine .none (.of_eq ?_) nofun
    simp only [FinalizedStorage.mutate, hhanded]
    split
    · exact dropMarker_ledgers _
    · rfl
  | ok current =>
    dsimp only
    obtain ⟨new, hok, base, hledgers, hbase⟩ | ⟨⟨e, herror⟩, hsame⟩ :=
      revise_effect E hashOf s key call.now call.contention.ledger f current
    · rw [hok]
      exact .fresh ⟨base, (hmutated current hhanded).trans hledgers, hbase⟩ nofun
    · rw [herror]
      exact .none (.of_eq ((hmutated current hhanded).trans (congrArg FinalizedStorage.ledgers hsame))) nofun

theorem FinalizedCall.effect (call : FinalizedCall H K V ε) (E : FinalizedErrors ε) (policy : FinalityTerms)
    (hashOf : V → I) (s : FinalizedStorage H K I V) :
    CallEffect policy call s (call.perform E policy hashOf s).2 (call.sighting E policy hashOf s)
      (call.perform E policy hashOf s).1 := by
  cases hop : call.op with
  | insert key value => exact insert_effect hop
  | get key => exact get_effect hop
  | remove key => exact remove_effect hop
  | mutate key f => exact mutate_effect hop

end Effects

section Watching

/-- The storage with the moments at which each observation was read since it was started, the latest first. -/
structure WatchedStorage (H K I V : Type) where
  storage : FinalizedStorage H K I V
  reads : K → I → List Nat

/-- The fork graph moves on, or a worker makes a call. -/
inductive FinalizedStep (H K V ε : Type)
  | forks (forks : LocalStorage H (ForkLocalDepot K))
  | call (call : FinalizedCall H K V ε)

/-- The moment from which on a value is old enough. -/
def Finalized.windowEnd (policy : FinalityTerms) (seen : Observation V) : Nat :=
  saturatingAdd policy.maxMoment seen.firstSeen policy.finalityAfter

/-- The read raises the count. -/
def Finalized.Ticks (policy : FinalityTerms) (now : Nat) (seen : Observation V) : Prop :=
  windowEnd policy seen ≤ seen.lastSeen ∧ seen.blocksSeen < policy.finalityTicks ∧ seen.lastSeen < now

instance (policy : FinalityTerms) (now : Nat) (seen : Observation V) : Decidable (Finalized.Ticks policy now seen) :=
  inferInstanceAs (Decidable (_ ∧ _ ∧ _))

theorem Finalized.blocksSeen_seeAgain (policy : FinalityTerms) (now : Nat) (seen : Observation V) :
    (seeAgain policy now seen).blocksSeen = if Ticks policy now seen then seen.blocksSeen + 1 else seen.blocksSeen := rfl

/-- A safe value was last seen when it was old enough, and its count has reached the threshold. -/
theorem Finalized.of_confidence_safe {policy : FinalityTerms} {seen : Observation V} {value : V}
    (h : confidence policy seen = .safe value) :
    windowEnd policy seen ≤ seen.lastSeen ∧ policy.finalityTicks ≤ seen.blocksSeen := by
  unfold confidence at h
  split at h
  · cases h
  · rename_i hwindow
    split at h
    · cases h
    · rename_i hcount
      exact ⟨not_lt.mp hwindow, not_lt.mp hcount⟩

namespace WatchedStorage

/-- Sets the list of one observation. -/
def record (lists : K → I → List Nat) (key : K) (hash : I) (moments : List Nat) : K → I → List Nat :=
  Function.update lists key (Function.update (lists key) hash moments)

def note (now : Nat) (reads : K → I → List Nat) : Option (Sighting K I) → K → I → List Nat
  | none => reads
  | some (.fresh key hash) => record reads key hash []
  | some (.again key hash) => record reads key hash (now :: reads key hash)

def perform (E : FinalizedErrors ε) (policy : FinalityTerms) (hashOf : V → I) (w : WatchedStorage H K I V)
    (call : FinalizedCall H K V ε) : WatchedStorage H K I V where
  storage := (call.perform E policy hashOf w.storage).2
  reads := note call.now w.reads (call.sighting E policy hashOf w.storage)

def apply (E : FinalizedErrors ε) (policy : FinalityTerms) (hashOf : V → I) (w : WatchedStorage H K I V) :
    FinalizedStep H K V ε → Except Unit (WatchedStorage H K I V)
  | .forks forks => .ok { w with storage := { w.storage with markers := { w.storage.markers with forks } } }
  | .call call => .ok (w.perform E policy hashOf call)

def unread (s : FinalizedStorage H K I V) : WatchedStorage H K I V := ⟨s, fun _ _ => []⟩

/-- The distinct moments at which an observation was read since it was started and old enough. -/
def moments (policy : FinalityTerms) (w : WatchedStorage H K I V) (key : K) (hash : I) (seen : Observation V) :
    Finset Nat :=
  ((w.reads key hash).filter fun moment => Finalized.windowEnd policy seen ≤ moment).toFinset

/-- The count of every observation is backed by distinct moments. -/
def CountsBacked (policy : FinalityTerms) (w : WatchedStorage H K I V) : Prop :=
  ∀ key ledger hash seen, w.storage.ledgers key = .stored ledger → ledger.get hash = some seen →
    seen.blocksSeen ≤ (w.moments policy key hash seen).card

/-- A value that is read as safe has its distinct moments, and was last seen when it was old enough. -/
def SafeBacked (E : FinalizedErrors ε) (policy : FinalityTerms) (hashOf : V → I) (w : WatchedStorage H K I V) :
    FinalizedStep H K V ε → Prop
  | .forks _ => True
  | .call call => ∀ value, (call.perform E policy hashOf w.storage).1 = .read (.ok (some (.safe value))) →
      ∃ key hash ledger seen, call.sighting E policy hashOf w.storage = some (.again key hash) ∧
        w.storage.ledgers key = .stored ledger ∧ ledger.get hash = some seen ∧ seen.value = value ∧
        policy.finalityTicks ≤ (w.moments policy key hash seen).card ∧ Finalized.windowEnd policy seen ≤ seen.lastSeen

/-- A value is read at no moment before one at which it has been read. -/
def ReadsAdvance (E : FinalizedErrors ε) (policy : FinalityTerms) (hashOf : V → I) (w : WatchedStorage H K I V) :
    FinalizedStep H K V ε → Prop
  | .forks _ => True
  | .call call => ∀ key hash, call.sighting E policy hashOf w.storage = some (.again key hash) →
      ∀ moment ∈ w.reads key hash, moment ≤ call.now

/-- Every count is backed, and what was last seen is no earlier than any read. -/
structure InOrder (policy : FinalityTerms) (w : WatchedStorage H K I V) : Prop where
  backed : CountsBacked policy w
  latest : ∀ key ledger hash seen, w.storage.ledgers key = .stored ledger → ledger.get hash = some seen →
    ∀ moment ∈ w.reads key hash, moment ≤ seen.lastSeen

variable {E : FinalizedErrors ε} {policy : FinalityTerms} {hashOf : V → I} {w : WatchedStorage H K I V}

omit [DecidableEq H] [DecidableEq ε] in
theorem record_self (lists : K → I → List Nat) (key : K) (hash : I) (moments : List Nat) :
    record lists key hash moments key hash = moments := by
  rw [record, Function.update_self, Function.update_self]

omit [DecidableEq H] [DecidableEq ε] in
theorem record_other {lists : K → I → List Nat} {key k : K} {hash h : I} {moments : List Nat}
    (hne : ¬(k = key ∧ h = hash)) : record lists key hash moments k h = lists k h := by
  unfold record
  by_cases hk : k = key
  · subst hk
    have hh : h ≠ hash := fun heq => hne ⟨rfl, heq⟩
    rw [Function.update_self, Function.update_of_ne hh]
  · rw [Function.update_of_ne hk]

section Order

open FinalizedStorage

variable {t : FinalizedStorage H K I V} {key : K} {hash : I} {seen : Observation V} {now : Nat}

omit [DecidableEq H] [DecidableEq ε] in
theorem moments_again :
    moments policy ⟨t, record w.reads key hash (now :: w.reads key hash)⟩ key hash
        (Finalized.seeAgain policy now seen) =
      if Finalized.windowEnd policy seen ≤ now then insert now (w.moments policy key hash seen)
      else w.moments policy key hash seen := by
  have hwindow : Finalized.windowEnd policy (Finalized.seeAgain policy now seen) =
      Finalized.windowEnd policy seen := rfl
  simp only [moments, record_self, hwindow, List.filter_cons, decide_eq_true_eq]
  split
  · rw [List.toFinset_cons]
  · rfl

omit [DecidableEq H] [DecidableEq ε] in
/-- A read that counts is later than every one before it, so its moment is new. -/
theorem card_moments_again (hcount : seen.blocksSeen ≤ (w.moments policy key hash seen).card)
    (hlatest : ∀ moment ∈ w.reads key hash, moment ≤ seen.lastSeen) :
    (Finalized.seeAgain policy now seen).blocksSeen ≤
      (moments policy ⟨t, record w.reads key hash (now :: w.reads key hash)⟩ key hash
        (Finalized.seeAgain policy now seen)).card := by
  rw [Finalized.blocksSeen_seeAgain, moments_again]
  by_cases htick : Finalized.Ticks policy now seen
  · have hlater := htick.2.2
    have hnew : now ∉ w.moments policy key hash seen := fun hmem => by
      have hread := hlatest now (List.mem_of_mem_filter (List.mem_toFinset.mp hmem))
      omega
    rw [if_pos htick, if_pos (htick.1.trans hlater.le), Finset.card_insert_of_notMem hnew]
    exact Nat.succ_le_succ hcount
  · rw [if_neg htick]
    split
    · exact hcount.trans (Finset.card_le_card (Finset.subset_insert _ _))
    · exact hcount

omit [DecidableEq H] [DecidableEq ε] in
theorem moments_record_other {k : K} {hash' : I} {read : List Nat} (hne : ¬(k = key ∧ hash' = hash)) :
    moments policy ⟨t, record w.reads key hash read⟩ k hash' seen = w.moments policy k hash' seen := by
  unfold moments
  dsimp only
  rw [record_other hne]

omit [DecidableEq H] [DecidableEq ε] in
theorem InOrder.fresh (h : InOrder policy w) {value : V}
    (hwritten : Observes w.storage t key hash (Finalized.observe now value)) :
    InOrder policy ⟨t, record w.reads key hash []⟩ := by
  refine ⟨fun k ledger hash' seen hledger hget => ?_, fun k ledger hash' seen hledger hget => ?_⟩
  · obtain ⟨rfl, rfl, rfl⟩ | ⟨hne, old, hold, hseen⟩ := hwritten.cases hledger hget
    · exact Nat.zero_le _
    · rw [moments_record_other hne]
      exact h.backed k old hash' seen hold hseen
  · dsimp only
    obtain ⟨rfl, rfl, rfl⟩ | ⟨hne, old, hold, hseen⟩ := hwritten.cases hledger hget
    · rw [record_self]
      exact fun moment hmem => absurd hmem List.not_mem_nil
    · rw [record_other hne]
      exact h.latest k old hash' seen hold hseen

omit [DecidableEq H] [DecidableEq ε] in
theorem InOrder.again (h : InOrder policy w) {ledger : Ledger I V}
    (hledger : w.storage.ledgers key = .stored ledger) (hseen : ledger.get hash = some seen)
    (hwritten : Observes w.storage t key hash (Finalized.seeAgain policy now seen))
    (hadvances : ∀ moment ∈ w.reads key hash, moment ≤ now) :
    InOrder policy ⟨t, record w.reads key hash (now :: w.reads key hash)⟩ := by
  refine ⟨fun k after hash' seen' hafter hget => ?_, fun k after hash' seen' hafter hget => ?_⟩
  · obtain ⟨rfl, rfl, rfl⟩ | ⟨hne, old, hold, hother⟩ := hwritten.cases hafter hget
    · exact card_moments_again (h.backed _ _ _ _ hledger hseen) (h.latest _ _ _ _ hledger hseen)
    · rw [moments_record_other hne]
      exact h.backed k old hash' seen' hold hother
  · dsimp only
    obtain ⟨rfl, rfl, rfl⟩ | ⟨hne, old, hold, hother⟩ := hwritten.cases hafter hget
    · intro moment hmem
      rw [record_self] at hmem
      obtain rfl | hmem := List.mem_cons.mp hmem
      · exact le_rfl
      · exact hadvances moment hmem
    · rw [record_other hne]
      exact h.latest k old hash' seen' hold hother

end Order

theorem InOrder.perform (h : InOrder policy w) {call : FinalizedCall H K V ε}
    (hadvances : ReadsAdvance E policy hashOf w (.call call)) : InOrder policy (w.perform E policy hashOf call) := by
  have heffect := call.effect E policy hashOf w.storage
  simp only [ReadsAdvance] at hadvances
  unfold WatchedStorage.perform
  generalize call.sighting E policy hashOf w.storage = sighting at heffect hadvances
  generalize (call.perform E policy hashOf w.storage).1 = reply at heffect
  generalize (call.perform E policy hashOf w.storage).2 = t at heffect
  cases heffect with
  | none within _ =>
    refine ⟨fun k ledger hash seen hledger hget => ?_, fun k ledger hash seen hledger hget => ?_⟩
    · obtain ⟨old, hold, hseen⟩ := within k ledger hash seen hledger hget
      exact h.backed k old hash seen hold hseen
    · obtain ⟨old, hold, hseen⟩ := within k ledger hash seen hledger hget
      exact h.latest k old hash seen hold hseen
  | fresh written _ => exact h.fresh written
  | again hledger hseen written => exact h.again hledger hseen written (hadvances _ _ rfl)

theorem CountsBacked.safeBacked (h : CountsBacked policy w) (step : FinalizedStep H K V ε) :
    SafeBacked E policy hashOf w step := by
  cases step with
  | forks forks => trivial
  | call call =>
    intro value hreply
    have heffect := call.effect E policy hashOf w.storage
    generalize call.sighting E policy hashOf w.storage = sighting at heffect
    generalize (call.perform E policy hashOf w.storage).1 = reply at heffect hreply
    cases heffect with
    | none _ unread => exact absurd hreply (unread _)
    | fresh _ unread => exact absurd hreply (unread _)
    | @again key hash ledger seen hledger hseen _ =>
      injection hreply with hreply
      injection hreply with hreply
      have hsafe : Finalized.confidence policy seen = .safe value := Option.some.inj hreply
      refine ⟨key, hash, ledger, seen, rfl, hledger, hseen, (Finalized.value_of_safe hsafe).symm, ?_⟩
      obtain ⟨hwindow, hticks⟩ := Finalized.of_confidence_safe hsafe
      exact ⟨hticks.trans (h key ledger hash seen hledger hseen), hwindow⟩

theorem InOrder.apply (h : InOrder policy w) {step : FinalizedStep H K V ε} {t : WatchedStorage H K I V}
    (hadvances : ReadsAdvance E policy hashOf w step) (happly : apply E policy hashOf w step = .ok t) :
    InOrder policy t := by
  cases step with
  | forks forks =>
    cases happly
    exact ⟨h.backed, h.latest⟩
  | call call =>
    cases happly
    exact h.perform hadvances

omit [DecidableEq H] [DecidableEq K] [DecidableEq I] [DecidableEq ε] in
theorem InOrder.unread {s : FinalizedStorage H K I V} (hempty : ∀ key, s.ledgers key = .missing) :
    InOrder policy (unread s) := by
  refine ⟨fun key ledger hash seen hledger => ?_, fun key ledger hash seen hledger => ?_⟩
  · rw [WatchedStorage.unread, hempty] at hledger
    cases hledger
  · rw [WatchedStorage.unread, hempty] at hledger
    cases hledger

/-- In runs in which the reads of a value never go back in time, every count is at most the number of distinct
moments at which the value was read since it was stored and old enough, and a value that is read as safe has
enough of them. -/
theorem confidence_backed (E : FinalizedErrors ε) (policy : FinalityTerms) (hashOf : V → I)
    {s : FinalizedStorage H K I V} (hempty : ∀ key, s.ledgers key = .missing) {steps : List (FinalizedStep H K V ε)}
    (hadvances : RunMeets (apply E policy hashOf) (ReadsAdvance E policy hashOf) (unread s) steps) :
    (∀ pre, pre <+: steps → CountsBacked policy (run (apply E policy hashOf) (unread s) pre)) ∧
      RunMeets (apply E policy hashOf) (SafeBacked E policy hashOf) (unread s) steps := by
  have hstart : InOrder policy (unread s) := InOrder.unread hempty
  refine ⟨fun pre hpre => ?_, RunMeets.of_invariant (fun w step t hw hq happly => ?_) hstart hadvances⟩
  · obtain ⟨rest, rfl⟩ := hpre
    exact (run_invariant_of_meets (fun w step t hw => hw.apply) hstart hadvances.of_append.1).backed
  · exact ⟨hw.apply hq happly, hw.backed.safeBacked step⟩

end WatchedStorage

end Watching

section Examples

open WatchedStorage

def finalizedErrors : FinalizedErrors Nat := ⟨forkErrors, 4, 5, 6, 7⟩

/-- Three forks above block 2 and no finalized value yet. -/
def unseenStorage : FinalizedStorage Nat Nat Nat Nat := ⟨forkedStorage, fun _ => .missing⟩

/-- A call by the worker of a fork at its block 4, with no other writer. -/
def callOn (fork now : Nat) (op : FinalizedOp Nat Nat Nat) : FinalizedStep Nat Nat Nat Nat :=
  .call ⟨forkView fork 4, now, ⟨false, false⟩, op⟩

/-- A value counts as final when it is 5 old and three moments have counted. -/
def shortFinality : FinalityTerms := ⟨5, 3, 1000⟩

/-- Two forks store the same value and read it in turn, one behind the other. -/
def alternatingCalls : List (FinalizedStep Nat Nat Nat Nat) :=
  [callOn 1 0 (.insert 7 10), callOn 2 0 (.insert 7 10), callOn 1 6 (.get 7), callOn 2 7 (.get 7),
    callOn 1 6 (.get 7), callOn 2 7 (.get 7), callOn 1 6 (.get 7), callOn 2 7 (.get 7)]

/-- Two forks store the same value and read it in turn, side by side. -/
def advancingCalls : List (FinalizedStep Nat Nat Nat Nat) :=
  [callOn 1 0 (.insert 7 10), callOn 2 0 (.insert 7 10), callOn 1 6 (.get 7), callOn 2 6 (.get 7),
    callOn 1 7 (.get 7), callOn 2 7 (.get 7)]

theorem confidence_backed_advancing :
    (∀ pre, pre <+: advancingCalls →
        CountsBacked shortFinality (run (apply finalizedErrors shortFinality id) (unread unseenStorage) pre)) ∧
      RunMeets (apply finalizedErrors shortFinality id) (SafeBacked finalizedErrors shortFinality id)
        (unread unseenStorage) advancingCalls := by
  refine confidence_backed finalizedErrors shortFinality id (fun _ => rfl) ⟨?_, ?_, ?_, ?_, ?_, ?_, trivial⟩
  · intro t _ key hash hsighting
    cases hsighting
  · intro t _ key hash hsighting
    cases hsighting
  all_goals
    intro t _ key hash hsighting
    cases hsighting
    decide

/-- Moment 7 counts three times, and the value is read as safe after two distinct moments. -/
theorem moments_count_again :
    ¬CountsBacked shortFinality
        (run (apply finalizedErrors shortFinality id) (unread unseenStorage) alternatingCalls) ∧
      ¬SafeBacked finalizedErrors shortFinality id
        (run (apply finalizedErrors shortFinality id) (unread unseenStorage) alternatingCalls) (callOn 1 8 (.get 7)) := by
  refine ⟨fun hbacked => ?_, fun hsafe => ?_⟩
  · exact absurd (hbacked 7 _ 10 _ rfl rfl) (by decide)
  · obtain ⟨key, hash, ledger, seen, hsighting, hledger, hseen, -, hticks, -⟩ := hsafe 10 rfl
    cases hsighting
    cases hledger
    cases hseen
    exact absurd hticks (by decide)

end Examples

end FrameSuite
