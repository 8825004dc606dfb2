import FrameSuite.FinalizedCounts

/-! On one branch, with no other writer, the finalized storage of a key is a map cell, as long as no ledger
keeps an observation of a value that an insert replaced, and no closure fails with the error that reports a
marker without a value. -/

namespace FrameSuite

variable {H K I V ε : Type} [DecidableEq H] [DecidableEq K]

section Markers

/-- What the branch reads under a key. -/
def Marks (b : BranchKey H) (key : K) (m : NodeStorage H K I) (marker : Option I) : Prop :=
  ∃ branch, m.forks.branch b = .stored branch ∧
    match marker with
    | none => branch.scope.sees key = true → m.items key = .missing
    | some hash => branch.scope.sees key = true ∧ m.items key = .stored hash

/-- The worker of the view is on the branch, which reads a marker under a key. -/
structure Beside (b : BranchKey H) (v : View H) (key : K) (marker : Option I) (m : NodeStorage H K I) : Prop where
  routed : m.forks.getBranchHash v.current = some b
  marks : Marks b key m marker

variable {E : ForkErrors ε} {b : BranchKey H} {v : View H} {key : K} {m : NodeStorage H K I} {marker : Option I}

omit [DecidableEq H] in
theorem given_of_marks {branch : Branch H (ForkLocalDepot K)} (hbranch : m.forks.branch b = .stored branch)
    (h : Marks b key m marker) : ForkCall.given E branch.scope key (m.items key) = .ok marker := by
  obtain ⟨branch', hbranch', hmarker⟩ := h
  obtain rfl := Slot.stored.inj (hbranch.symm.trans hbranch')
  cases marker with
  | none =>
    unfold ForkCall.given
    split
    · rename_i hsees
      rw [hmarker hsees]
      rfl
    · rfl
  | some hash =>
    rw [ForkCall.given, if_pos hmarker.1, hmarker.2]
    rfl

theorem Beside.perform (h : Beside b v key marker m) {call : ForkCall K I ε} (hne : key ≠ call.key) :
    Beside b v key marker (call.perform E v m).2 := by
  obtain ⟨hrouted, branch, hbranch, hmarker⟩ := h
  rw [ForkCall.perform_of_routed hrouted hbranch]
  refine ⟨hrouted, _, Function.update_self .., ?_⟩
  have hitem : (m.settle b { branch with scope := (call.onBranch E branch.scope (m.items call.key)).2.1 } call.key
      (call.onBranch E branch.scope (m.items call.key)).2.2).items key = m.items key := Function.update_of_ne hne ..
  dsimp only
  rw [hitem, ForkCall.sees_onBranch_of_ne hne]
  exact hmarker

theorem Beside.get (h : Beside b v key marker m) (E : ForkErrors ε) : (m.get E v key).1 = .ok marker := by
  obtain ⟨hrouted, branch, hbranch, hmarker⟩ := h
  have hperform := congrArg Prod.fst (ForkCall.perform_of_routed (E := E) hrouted hbranch (.get key))
  rw [← given_of_marks (E := E) hbranch ⟨branch, hbranch, hmarker⟩]
  exact Reply.read.inj hperform

theorem Beside.insert (h : Beside b v key marker m) (E : ForkErrors ε) (hash : I) :
    (m.insert E v key hash).1 = .ok () ∧ Beside b v key (some hash) (m.insert E v key hash).2 := by
  obtain ⟨hrouted, branch, hbranch, -⟩ := h
  have hperform := ForkCall.perform_of_routed (E := E) hrouted hbranch (.insert key hash)
  refine ⟨Reply.wrote.inj (congrArg Prod.fst hperform), ?_⟩
  have hafter := congrArg Prod.snd hperform
  change (m.insert E v key hash).2 = _ at hafter
  rw [hafter]
  refine ⟨hrouted, _, Function.update_self .., ?_, Function.update_self ..⟩
  exact ForkLocalDepot.sees_addToLocal.mpr (.inl rfl)

theorem Beside.remove (h : Beside b v key marker m) (E : ForkErrors ε) :
    (m.remove E v key).1 = .ok marker ∧ Beside b v key none (m.remove E v key).2 := by
  obtain ⟨hrouted, branch, hbranch, hmarker⟩ := h
  have hperform := ForkCall.perform_of_routed (E := E) hrouted hbranch (.remove key)
  have hgiven := given_of_marks (E := E) hbranch ⟨branch, hbranch, hmarker⟩
  refine ⟨?_, ?_⟩
  · have hread := congrArg Prod.fst hperform
    dsimp only [ForkCall.onBranch] at hread
    rw [← hgiven]
    split at hread <;> exact Reply.read.inj hread
  · have hafter := congrArg Prod.snd hperform
    change (m.remove E v key).2 = _ at hafter
    rw [hafter]
    refine ⟨hrouted, _, Function.update_self .., ?_⟩
    change _ → Function.update m.items key _ key = _
    rw [Function.update_self]
    dsimp only [ForkCall.onBranch, ForkCall.key]
    split
    · exact fun _ => rfl
    · -- a key that is seen has an entry that decodes
      rename_i hkept
      intro hsees
      cases marker with
      | none => exact absurd ⟨hsees, by rw [hmarker hsees]; rfl⟩ hkept
      | some hash => exact absurd ⟨hsees, by rw [hmarker.2]; rfl⟩ hkept

theorem Beside.mutate_error (h : Beside b v key marker m) (E : ForkErrors ε) (contended : Bool) (e : ε) :
    m.mutate E v contended key (fun _ => .error e) = (.error e, m) := by
  obtain ⟨hrouted, branch, hbranch, -⟩ := h
  have hperform := ForkCall.perform_of_routed (E := E) hrouted hbranch (.mutate contended key fun _ => .error e)
  rw [ForkCall.onBranch, NodeStorage.settle_self hbranch] at hperform
  have hafter := congrArg Prod.snd hperform
  exact Prod.ext (Reply.wrote.inj (congrArg Prod.fst hperform)) hafter

theorem Beside.mutate_ok (h : Beside b v key marker m) (E : ForkErrors ε) (hash : I) :
    (m.mutate E v false key fun _ => .ok hash).1 = .ok () ∧
      Beside b v key (some hash) (m.mutate E v false key fun _ => .ok hash).2 := by
  obtain ⟨hrouted, branch, hbranch, hmarker⟩ := h
  have hperform := ForkCall.perform_of_routed (E := E) hrouted hbranch (.mutate false key fun _ => .ok hash)
  obtain ⟨depot, hsees, honBranch⟩ : ∃ depot : ForkLocalDepot K, depot.sees key = true ∧
      (ForkCall.mutate false key fun _ => .ok hash).onBranch E branch.scope (m.items key) =
        (.wrote (.ok ()), depot, .stored hash) := by
    dsimp only [ForkCall.onBranch]
    cases hseen : branch.scope.sees key with
    | false => exact ⟨_, ForkLocalDepot.sees_addToLocal.mpr (.inl rfl), rfl⟩
    | true => exact ⟨_, hseen, rfl⟩
  rw [ForkCall.key, honBranch] at hperform
  refine ⟨Reply.wrote.inj (congrArg Prod.fst hperform), ?_⟩
  have hafter := congrArg Prod.snd hperform
  change (m.mutate E v false key fun _ => .ok hash).2 = _ at hafter
  rw [hafter]
  exact ⟨hrouted, _, Function.update_self .., hsees, Function.update_self ..⟩

end Markers

section Calls

variable {E : FinalizedErrors ε} {b : BranchKey H} {v : View H} {key : K} {s : FinalizedStorage H K I V}

omit [DecidableEq H] in
theorem Beside.handed {marker : Option I} (h : Beside b v key marker s.markers) :
    s.handed E v key = .ok (.ok marker) := by
  obtain ⟨hrouted, branch, hbranch, hmarker⟩ := h
  rw [FinalizedStorage.handed, LocalStorage.scopeItemExists_of_routed hrouted hbranch]
  cases hsees : branch.scope.sees key with
  | false =>
    cases marker with
    | none => rfl
    | some hash => exact absurd hmarker.1 (by simp [hsees])
  | true =>
    cases marker with
    | none =>
      dsimp only
      rw [hmarker hsees]
      rfl
    | some hash =>
      dsimp only
      rw [hmarker.2]
      rfl

/-- The ledger of a key has an observation of the value, or there is neither. -/
def Observed (hashOf : V → I) (value : Option V) (slot : Slot (Ledger I V)) : Prop :=
  match value with
  | none => slot = .missing
  | some held => ∃ ledger seen, slot = .stored ledger ∧ ledger.get (hashOf held) = some seen ∧ seen.value = held

/-- The storage holds the value of a map cell: its hash as the marker of the branch, and an observation of it. -/
structure Mirrors (hashOf : V → I) (b : BranchKey H) (key : K) (value : Option V) (s : FinalizedStorage H K I V) :
    Prop where
  marks : Marks b key s.markers (value.map hashOf)
  ledger : Observed hashOf value (s.ledgers key)

variable {hashOf : V → I} {value : Option V}

omit [DecidableEq H] in
theorem Mirrors.beside (h : Mirrors hashOf b key value s) (hrouted : s.markers.forks.getBranchHash v.current = some b) :
    Beside b v key (value.map hashOf) s.markers := ⟨hrouted, h.marks⟩

omit [DecidableEq H] in
theorem Mirrors.decode (h : Mirrors hashOf b key value s) : ∃ ledger, (s.ledgers key).decode = some ledger := by
  cases value with
  | none =>
    have hmissing : s.ledgers key = .missing := h.ledger
    rw [hmissing]
    exact ⟨none, rfl⟩
  | some held =>
    obtain ⟨ledger, -, hstored, -⟩ := h.ledger
    rw [hstored]
    exact ⟨some ledger, rfl⟩

omit [DecidableEq H] in
theorem Mirrors.of_missing {branch : Branch H (ForkLocalDepot K)} (hbranch : s.markers.forks.branch b = .stored branch)
    (hitem : s.markers.items key = .missing) (hledger : s.ledgers key = .missing) : Mirrors hashOf b key none s :=
  ⟨⟨branch, hbranch, fun _ => hitem⟩, hledger⟩

omit [DecidableEq H] in
theorem Mirrors.currentValue (h : Mirrors hashOf b key value s) (E : FinalizedErrors ε) :
    s.currentValue E key (.ok (value.map hashOf)) = .ok value := by
  cases value with
  | none => rfl
  | some held =>
    obtain ⟨ledger, seen, hledger, hseen, rfl⟩ := h.ledger
    simp [FinalizedStorage.currentValue, hledger, Slot.decode, hseen]

variable [DecidableEq I] {now : Nat} {policy : FinalityTerms}

theorem Mirrors.get (h : Mirrors hashOf b key value s) (hrouted : s.markers.forks.getBranchHash v.current = some b)
    (E : FinalizedErrors ε) (policy : FinalityTerms) (now : Nat) :
    ∃ read, (s.get E policy v now ⟨false, false⟩ key).1 = .ok read ∧ read.map Confidence.value = value ∧
      Mirrors hashOf b key value (s.get E policy v now ⟨false, false⟩ key).2 := by
  have hmarker := (h.beside hrouted).get E.forks
  unfold FinalizedStorage.get
  rw [hmarker]
  cases value with
  | none => exact ⟨none, rfl, rfl, h⟩
  | some held =>
    obtain ⟨ledger, seen, hledger, hseen, rfl⟩ := h.ledger
    simp only [Option.map_some, hledger, Slot.decode, hseen]
    refine ⟨_, rfl, congrArg some (Finalized.value_confidence policy seen), h.marks, ?_⟩
    exact ⟨_, _, Function.update_self .., StorageMap.get_insert_self .., rfl⟩

theorem Mirrors.insert (h : Mirrors hashOf b key value s) (hrouted : s.markers.forks.getBranchHash v.current = some b)
    (E : FinalizedErrors ε) (now : Nat) (new : V) :
    (s.insert E hashOf v now ⟨false, false⟩ key new).1 = .ok () ∧
      Mirrors hashOf b key (some new) (s.insert E hashOf v now ⟨false, false⟩ key new).2 := by
  obtain ⟨hok, hbeside⟩ := (h.beside hrouted).insert E.forks (hashOf new)
  obtain ⟨ledger, hdecode⟩ := h.decode
  unfold FinalizedStorage.insert
  cases hinsert : s.markers.insert E.forks v key (hashOf new) with
  | mk result markers =>
    rw [hinsert] at hok hbeside
    obtain rfl := hok
    dsimp only
    rw [FinalizedStorage.mutateLedger_map, hdecode]
    exact ⟨rfl, hbeside.marks, _, _, Function.update_self .., StorageMap.get_insert_self .., rfl⟩

/-- No observation but that of the value is in the ledger of the key. -/
def AloneInLedger (hashOf : V → I) (key : K) (value : Option V) (s : FinalizedStorage H K I V) : Prop :=
  ∀ ledger hash, s.ledgers key = .stored ledger → ledger.get hash ≠ none → value.map hashOf = some hash

theorem Mirrors.remove (h : Mirrors hashOf b key value s) (hrouted : s.markers.forks.getBranchHash v.current = some b)
    (E : FinalizedErrors ε) :
    (s.remove E v ⟨false, false⟩ key).1 = .ok value ∧
      Beside b v key none (s.remove E v ⟨false, false⟩ key).2.markers ∧
      ((s.remove E v ⟨false, false⟩ key).2.ledgers key = .missing ↔ AloneInLedger hashOf key value s) := by
  have hmarker := (h.beside hrouted).get E.forks
  obtain ⟨hok, hbeside⟩ := (h.beside hrouted).remove E.forks
  unfold FinalizedStorage.remove
  rw [hmarker]
  cases value with
  | none =>
    have hmissing : s.ledgers key = .missing := h.ledger
    refine ⟨rfl, h.beside hrouted, iff_of_true hmissing fun ledger hash hledger => ?_⟩
    rw [hmissing] at hledger
    cases hledger
  | some held =>
    obtain ⟨ledger, seen, hledger, hseen, rfl⟩ := h.ledger
    dsimp only [Option.map_some]
    cases hremove : s.markers.remove E.forks v key with
    | mk result markers =>
      rw [hremove] at hok hbeside
      obtain rfl := hok
      simp only [Option.map_some, hledger, Slot.decode, Bool.false_eq_true, if_false, hseen]
      refine ⟨trivial, hbeside, ?_⟩
      have halone : AloneInLedger hashOf key (some seen.value) s ↔ (ledger.remove (hashOf seen.value)).keys = ∅ := by
        rw [Finset.eq_empty_iff_forall_notMem]
        simp only [StorageMap.mem_keys, StorageMap.get_remove, AloneInLedger, hledger, Option.map_some, Slot.stored.injEq,
          Option.some.injEq]
        constructor
        · intro halone hash
          by_cases heq : hash = hashOf seen.value
          · simp [heq]
          · rw [if_neg heq]
            exact fun hget => heq (halone ledger hash rfl hget).symm
        · rintro hempty _ hash rfl hget
          by_contra hne
          exact hempty hash (by rwa [if_neg fun heq => hne heq.symm])
      rw [halone]
      change Function.update s.ledgers key _ key = _ ↔ _
      rw [Function.update_self]
      split <;> simp_all

variable [DecidableEq ε]

/-- A closure that fails leaves the storage as it was, unless its error is the one that drops a marker. -/
theorem Mirrors.mutate_error (h : Mirrors hashOf b key value s)
    (hrouted : s.markers.forks.getBranchHash v.current = some b) (E : FinalizedErrors ε) (now : Nat)
    {f : Except ε (Option V) → Except ε V} {e : ε} (hf : f (.ok value) = .error e) :
    (s.mutate E hashOf v now ⟨false, false⟩ key f).1 = .error e ∧
      (s.mutate E hashOf v now ⟨false, false⟩ key f).2.ledgers = s.ledgers ∧
      Beside b v key (if e = E.hangingValue then none else value.map hashOf)
        (s.mutate E hashOf v now ⟨false, false⟩ key f).2.markers := by
  have hbeside := h.beside hrouted
  have hrevised : s.revise E hashOf now false key f (.ok (value.map hashOf)) = (.error e, s) := by
    rw [FinalizedStorage.revise, h.currentValue]
    dsimp only
    rw [hf]
  simp only [FinalizedStorage.mutate, hbeside.handed, hrevised, hbeside.mutate_error]
  by_cases he : e = E.hangingValue
  · obtain ⟨hok, hdropped⟩ := hbeside.remove E.forks
    simp only [if_pos he, FinalizedStorage.dropMarker]
    cases hremove : s.markers.remove E.forks v key with
    | mk result markers =>
      rw [hremove] at hok hdropped
      obtain rfl := hok
      exact ⟨rfl, rfl, hdropped⟩
  · simp only [if_neg he]
    exact ⟨trivial, trivial, hbeside⟩

theorem Mirrors.mutate_unchanged (h : Mirrors hashOf b key value s)
    (hrouted : s.markers.forks.getBranchHash v.current = some b) (E : FinalizedErrors ε) (now : Nat)
    {f : Except ε (Option V) → Except ε V} {e : ε} (hf : f (.ok value) = .error e)
    (hsame : ((s.mutate E hashOf v now ⟨false, false⟩ key f).2.markers.get E.forks v key).1 =
      (s.markers.get E.forks v key).1) :
    Mirrors hashOf b key value (s.mutate E hashOf v now ⟨false, false⟩ key f).2 := by
  obtain ⟨-, hledgers, hbeside⟩ := h.mutate_error hrouted E now hf
  have hmarker := (hbeside.get E.forks).symm.trans (hsame.trans ((h.beside hrouted).get E.forks))
  rw [Except.ok.inj hmarker] at hbeside
  refine ⟨hbeside.marks, ?_⟩
  rw [hledgers]
  exact h.ledger

theorem Mirrors.mutate_ok (h : Mirrors hashOf b key value s)
    (hrouted : s.markers.forks.getBranchHash v.current = some b) (E : FinalizedErrors ε) (now : Nat)
    {f : Except ε (Option V) → Except ε V} {new : V} (hf : f (.ok value) = .ok new) :
    (s.mutate E hashOf v now ⟨false, false⟩ key f).1 = .ok () ∧
      Mirrors hashOf b key (some new) (s.mutate E hashOf v now ⟨false, false⟩ key f).2 := by
  have hbeside := h.beside hrouted
  obtain ⟨ledger, hdecode⟩ := h.decode
  have hrevised : s.revise E hashOf now false key f (.ok (value.map hashOf)) =
      (.ok (hashOf new), s.setLedger key (.stored
        ((FinalizedStorage.rest (.ok (value.map hashOf) : Except ε (Option I)) ledger).insert (hashOf new)
          (Finalized.observe now new)))) := by
    rw [FinalizedStorage.revise, h.currentValue]
    dsimp only
    rw [hf]
    dsimp only
    rw [FinalizedStorage.mutateLedger_map, hdecode]
    rfl
  obtain ⟨hok, hwritten⟩ := hbeside.mutate_ok E.forks (hashOf new)
  simp only [FinalizedStorage.mutate, hbeside.handed, hrevised]
  cases hmutate : s.markers.mutate E.forks v false key fun _ => .ok (hashOf new) with
  | mk result markers =>
    rw [hmutate] at hok hwritten
    obtain rfl := hok
    have hsame : (s.setLedger key (.stored ((FinalizedStorage.rest (.ok (value.map hashOf) : Except ε (Option I))
        ledger).insert (hashOf new) (Finalized.observe now new)))).markers = s.markers := rfl
    simp only [hsame, hmutate]
    exact ⟨trivial, hwritten.marks, _, _, Function.update_self .., StorageMap.get_insert_self .., rfl⟩

end Calls

section OtherKeys

open FinalizedStorage

variable [DecidableEq I]

/-- The second storage has what the first one has under a key: its ledger, and what a worker of the branch reads. -/
structure Spares (b : BranchKey H) (v : View H) (key : K) (s t : FinalizedStorage H K I V) : Prop where
  ledger : t.ledgers key = s.ledgers key
  marker : ∀ marker, Beside b v key marker s.markers → Beside b v key marker t.markers

variable {E : FinalizedErrors ε} {b : BranchKey H} {v : View H} {key other : K} {s t u : FinalizedStorage H K I V}

omit [DecidableEq H] [DecidableEq I] in
theorem Spares.refl (s : FinalizedStorage H K I V) : Spares b v key s s := ⟨rfl, fun _ h => h⟩

omit [DecidableEq H] [DecidableEq I] in
theorem Spares.trans (h : Spares b v key s t) (h' : Spares b v key t u) : Spares b v key s u :=
  ⟨h'.ledger.trans h.ledger, fun marker hs => h'.marker marker (h.marker marker hs)⟩

omit [DecidableEq H] [DecidableEq I] in
theorem Spares.setLedger (hne : key ≠ other) (s : FinalizedStorage H K I V) (slot : Slot (Ledger I V)) :
    Spares b v key s (s.setLedger other slot) := ⟨Function.update_of_ne hne .., fun _ h => h⟩

omit [DecidableEq I] in
theorem Spares.perform (E : ForkErrors ε) (call : ForkCall K I ε) (hne : key ≠ call.key)
    (s : FinalizedStorage H K I V) :
    Spares b v key s { s with markers := (call.perform E v s.markers).2 } := ⟨rfl, fun _ h => h.perform hne⟩

omit [DecidableEq H] [DecidableEq I] in
theorem Spares.mutateLedger (hne : key ≠ other) (contended : Bool)
    (f : Except ε (Option (Ledger I V)) → Except ε (Ledger I V)) (s : FinalizedStorage H K I V) :
    Spares b v key s (s.mutateLedger E contended other f).2 := by
  unfold FinalizedStorage.mutateLedger
  dsimp only
  split
  · exact .refl s
  · split
    · exact .refl s
    · exact .setLedger hne s _

omit [DecidableEq I] in
theorem Spares.dropMarker (hne : key ≠ other) (e : ε) (s : FinalizedStorage H K I V) :
    Spares b v key s (s.dropMarker E v other e).2 := by
  have hdropped : (s.dropMarker E v other e).2 = { s with markers := (s.markers.remove E.forks v other).2 } := by
    unfold FinalizedStorage.dropMarker
    split <;> simp_all
  rw [hdropped]
  exact .perform E.forks (.remove other) hne s

theorem Spares.insert (hne : key ≠ other) (hashOf : V → I) (now : Nat) (c : Contention) (value : V)
    (s : FinalizedStorage H K I V) : Spares b v key s (s.insert E hashOf v now c other value).2 := by
  have hmarked : Spares b v key s { s with markers := (s.markers.insert E.forks v other (hashOf value)).2 } :=
    .perform E.forks (.insert other (hashOf value)) hne s
  unfold FinalizedStorage.insert
  split
  · rename_i hinsert
    rwa [hinsert] at hmarked
  · rename_i hinsert
    rw [hinsert] at hmarked
    exact hmarked.trans (.mutateLedger hne _ _ _)

theorem Spares.get (hne : key ≠ other) (policy : FinalityTerms) (now : Nat) (c : Contention)
    (s : FinalizedStorage H K I V) : Spares b v key s (s.get E policy v now c other).2 := by
  unfold FinalizedStorage.get
  split
  · exact .refl s
  · exact .refl s
  · split
    · exact .refl s
    · exact .dropMarker hne _ s
    · split
      · exact .dropMarker hne _ s
      · split
        · exact .refl s
        · exact .setLedger hne s _

theorem Spares.remove (hne : key ≠ other) (c : Contention) (s : FinalizedStorage H K I V) :
    Spares b v key s (s.remove E v c other).2 := by
  have hdropped : Spares b v key s { s with markers := (s.markers.remove E.forks v other).2 } :=
    .perform E.forks (.remove other) hne s
  unfold FinalizedStorage.remove
  split
  · exact .refl s
  · exact .refl s
  · split
    · rename_i hremove
      rwa [hremove] at hdropped
    · rename_i hremove
      rw [hremove] at hdropped
      dsimp only
      split
      · exact hdropped
      · exact hdropped
      · split
        · exact hdropped
        · exact hdropped.trans (.setLedger hne _ _)

omit [DecidableEq H] in
theorem Spares.revise (hne : key ≠ other) (hashOf : V → I) (now : Nat) (contended : Bool)
    (f : Except ε (Option V) → Except ε V) (current : Except ε (Option I)) (s : FinalizedStorage H K I V) :
    Spares b v key s (s.revise E hashOf now contended other f current).2 := by
  unfold FinalizedStorage.revise
  split
  · exact .refl s
  · split
    · exact .refl s
    · exact .mutateLedger hne _ _ _

theorem Spares.mutate [DecidableEq ε] (hne : key ≠ other) (hashOf : V → I) (now : Nat) (c : Contention)
    (f : Except ε (Option V) → Except ε V) (s : FinalizedStorage H K I V) :
    Spares b v key s (s.mutate E hashOf v now c other f).2 := by
  unfold FinalizedStorage.mutate
  cases s.handed E v other with
  | error e =>
    dsimp only
    split
    · exact .dropMarker hne _ s
    · exact .refl s
  | ok current =>
    dsimp only
    have hrevised := Spares.revise (b := b) (v := v) (E := E) hne hashOf now c.ledger f current s
    generalize s.revise E hashOf now c.ledger other f current = revised at hrevised
    have hwritten := hrevised.trans
      (.perform E.forks (.mutate c.marker other fun _ => revised.1) hne revised.2)
    change Spares b v key s { revised.2 with markers :=
      (revised.2.markers.mutate E.forks v c.marker other fun _ => revised.1).2 } at hwritten
    split
    · rename_i happly
      obtain ⟨-, rfl⟩ := Prod.mk.inj happly
      exact hwritten
    · rename_i happly
      obtain ⟨-, rfl⟩ := Prod.mk.inj happly
      split
      · exact hwritten.trans (.dropMarker hne _ _)
      · exact hwritten

theorem FinalizedCall.spares [DecidableEq ε] {call : FinalizedCall H K V ε} (hne : key ≠ call.op.key)
    (E : FinalizedErrors ε) (policy : FinalityTerms) (hashOf : V → I) (s : FinalizedStorage H K I V) :
    Spares b call.view key s (call.perform E policy hashOf s).2 := by
  unfold FinalizedCall.perform
  cases hop : call.op with
  | insert other value => exact .insert (by rwa [hop] at hne) hashOf call.now call.contention value s
  | get other => exact .get (by rwa [hop] at hne) policy call.now call.contention s
  | remove other => exact .remove (by rwa [hop] at hne) call.contention s
  | mutate other f => exact .mutate (by rwa [hop] at hne) hashOf call.now call.contention f s

end OtherKeys

section Map

/-- What a call makes of the cell of a plain map. -/
def FinalizedOp.onCell (cell : Option V) : FinalizedOp K V ε → Option V
  | insert _ value => some value
  | get _ => cell
  | remove _ => none
  | mutate _ f =>
    match f (.ok cell) with
    | .ok value => some value
    | .error _ => cell

/-- The finalized storage beside the cell of one key in a plain map. -/
structure MappedStorage (H K I V : Type) where
  storage : FinalizedStorage H K I V
  cell : Option V

namespace MappedStorage

variable [DecidableEq I] [DecidableEq ε]

def apply (E : FinalizedErrors ε) (policy : FinalityTerms) (hashOf : V → I) (key : K) (x : MappedStorage H K I V) :
    FinalizedStep H K V ε → Except Unit (MappedStorage H K I V)
  | .forks forks => .ok { x with storage := { x.storage with markers := { x.storage.markers with forks } } }
  | .call call => .ok
      { storage := (call.perform E policy hashOf x.storage).2
        cell := if call.op.key = key then call.op.onCell x.cell else x.cell }

omit [DecidableEq I] [DecidableEq ε] in
/-- The fork graph keeps the branch and what it sees, calls are made on the branch, and those for the key have no
other writer. -/
def OnBranch (b : BranchKey H) (key : K) (x : MappedStorage H K I V) : FinalizedStep H K V ε → Prop
  | .forks forks => ∀ branch, x.storage.markers.forks.branch b = .stored branch →
      ∃ grown, forks.branch b = .stored grown ∧ grown.scope = branch.scope
  | .call call => x.storage.markers.forks.getBranchHash call.view.current = some b ∧
      (call.op.key = key → call.contention = ⟨false, false⟩)

/-- A call for the key answers as the map does; a remove leaves nothing, and a mutation that fails changes nothing. -/
def AnswersAsMap (E : FinalizedErrors ε) (policy : FinalityTerms) (hashOf : V → I) (key : K)
    (x : MappedStorage H K I V) : FinalizedStep H K V ε → Prop
  | .forks _ => True
  | .call call => call.op.key = key →
      let (reply, t) := call.perform E policy hashOf x.storage
      match call.op with
      | .insert _ _ => reply = .wrote (.ok ())
      | .get _ => ∃ read, reply = .read (.ok read) ∧ read.map Confidence.value = x.cell
      | .remove _ => reply = .removed (.ok x.cell) ∧ (t.markers.get E.forks call.view key).1 = .ok none ∧
          t.ledgers key = .missing
      | .mutate _ f =>
        match f (.ok x.cell) with
        | .ok _ => reply = .wrote (.ok ())
        | .error e => reply = .wrote (.error e) ∧
            (t.markers.get E.forks call.view key).1 = (x.storage.markers.get E.forks call.view key).1 ∧
            t.ledgers key = x.storage.ledgers key

/-- A remove finds no observation but that of the value it removes, and no closure fails over a value with the error
that drops the marker. -/
def KeepsMap (E : FinalizedErrors ε) (hashOf : V → I) (key : K) (x : MappedStorage H K I V) :
    FinalizedStep H K V ε → Prop
  | .forks _ => True
  | .call call => call.op.key = key →
      match call.op with
      | .remove _ => AloneInLedger hashOf key x.cell x.storage
      | .mutate _ f => f (.ok x.cell) = .error E.hangingValue → x.cell = none
      | _ => True

variable {E : FinalizedErrors ε} {policy : FinalityTerms} {hashOf : V → I} {b : BranchKey H} {key : K}
  {x t : MappedStorage H K I V} {step : FinalizedStep H K V ε}

theorem answersAsMap_iff_step (h : Mirrors hashOf b key x.cell x.storage) (hon : x.OnBranch b key step) :
    x.AnswersAsMap E policy hashOf key step ↔ x.KeepsMap E hashOf key step := by
  cases step with
  | forks forks => exact Iff.rfl
  | call call =>
    obtain ⟨hrouted, hcontention⟩ := hon
    refine forall_congr' fun hkey => ?_
    obtain hcontention := hcontention hkey
    obtain ⟨v, now, c, op⟩ := call
    dsimp only at hrouted hcontention hkey ⊢
    subst hcontention
    cases op with
    | insert other value =>
      obtain rfl : other = key := hkey
      exact iff_of_true (congrArg FinalizedReply.wrote (h.insert hrouted E now value).1) trivial
    | get other =>
      obtain rfl : other = key := hkey
      obtain ⟨read, hread, hvalue, -⟩ := h.get hrouted E policy now
      exact iff_of_true ⟨read, congrArg FinalizedReply.read hread, hvalue⟩ trivial
    | remove other =>
      obtain rfl : other = key := hkey
      obtain ⟨hremoved, hbeside, hledger⟩ := h.remove hrouted E
      dsimp only
      rw [← hledger]
      exact ⟨fun hanswers => hanswers.2.2,
        fun hmissing => ⟨congrArg FinalizedReply.removed hremoved, hbeside.get E.forks, hmissing⟩⟩
    | mutate other f =>
      obtain rfl : other = key := hkey
      dsimp only
      cases hf : f (.ok x.cell) with
      | ok value =>
        exact iff_of_true (congrArg FinalizedReply.wrote (h.mutate_ok hrouted E now hf).1) nofun
      | error e =>
        obtain ⟨hfailed, hledgers, hbeside⟩ := h.mutate_error hrouted E now hf
        have hbefore := (h.beside hrouted).get E.forks
        have hafter := hbeside.get E.forks
        dsimp only [FinalizedCall.perform]
        rw [hfailed, hafter, hbefore, hledgers, Except.error.injEq]
        by_cases he : e = E.hangingValue
        · rw [if_pos he]
          cases x.cell <;> simp [he]
        · simp [he]

theorem mirrors_apply (h : Mirrors hashOf b key x.cell x.storage) (hon : x.OnBranch b key step)
    (hanswers : x.AnswersAsMap E policy hashOf key step) (happly : x.apply E policy hashOf key step = .ok t) :
    Mirrors hashOf b key t.cell t.storage := by
  cases step with
  | forks forks =>
    cases happly
    obtain ⟨⟨branch, hbranch, hmarker⟩, hledger⟩ := h
    obtain ⟨grown, hgrown, hscope⟩ := hon branch hbranch
    exact ⟨⟨grown, hgrown, by rwa [hscope]⟩, hledger⟩
  | call call =>
    cases happly
    obtain ⟨hrouted, hcontention⟩ := hon
    dsimp only
    by_cases hkey : call.op.key = key
    · obtain hcontention := hcontention hkey
      obtain hanswers := hanswers hkey
      rw [if_pos hkey]
      obtain ⟨v, now, c, op⟩ := call
      dsimp only at hrouted hcontention hkey hanswers ⊢
      subst hcontention
      cases op with
      | insert other value =>
        obtain rfl : other = key := hkey
        exact (h.insert hrouted E now value).2
      | get other =>
        obtain rfl : other = key := hkey
        obtain ⟨-, -, -, hmirrors⟩ := h.get hrouted E policy now
        exact hmirrors
      | remove other =>
        obtain rfl : other = key := hkey
        exact ⟨(h.remove hrouted E).2.1.marks, hanswers.2.2⟩
      | mutate other f =>
        obtain rfl : other = key := hkey
        dsimp only [FinalizedOp.onCell] at hanswers ⊢
        cases hf : f (.ok x.cell) with
        | ok value => exact (h.mutate_ok hrouted E now hf).2
        | error e =>
          rw [hf] at hanswers
          exact h.mutate_unchanged hrouted E now hf hanswers.2.1
    · rw [if_neg hkey]
      have hspares : Spares b call.view key x.storage (call.perform E policy hashOf x.storage).2 :=
        call.spares (Ne.symm hkey) E policy hashOf x.storage
      refine ⟨(hspares.marker _ (h.beside hrouted)).marks, ?_⟩
      rw [hspares.ledger]
      exact h.ledger

/-- On one branch with no other writer the storage answers every call for a key as a map does if and only if no remove
finds an observation of another value, and no closure fails over a value with the error that drops the marker. -/
theorem answersAsMap_iff (E : FinalizedErrors ε) (policy : FinalityTerms) (hashOf : V → I)
    (h : Mirrors hashOf b key x.cell x.storage) {steps : List (FinalizedStep H K V ε)}
    (hon : RunMeets (apply E policy hashOf key) (OnBranch b key) x steps) :
    RunMeets (apply E policy hashOf key) (AnswersAsMap E policy hashOf key) x steps ↔
      RunMeets (apply E policy hashOf key) (KeepsMap E hashOf key) x steps :=
  RunMeets.iff_of_invariant (P := fun x => Mirrors hashOf b key x.cell x.storage)
    (fun _ _ _ hmirrors hstep _ => answersAsMap_iff_step hmirrors hstep)
    (fun _ _ _ hmirrors hstep hanswers happly => mirrors_apply hmirrors hstep hanswers happly) h hon

end MappedStorage

end Map

section Examples

open MappedStorage

def unmapped : MappedStorage Nat Nat Nat Nat := ⟨unseenStorage, none⟩

/-- A value is stored, read, replaced by a mutation and removed. -/
def mappedCalls : List (FinalizedStep Nat Nat Nat Nat) :=
  [callOn 1 0 (.insert 7 10), callOn 1 6 (.get 7), callOn 1 7 (.mutate 7 fun _ => .ok 20), callOn 1 8 (.remove 7)]

theorem answersAsMap_mapped :
    RunMeets (apply finalizedErrors shortFinality id 7) (AnswersAsMap finalizedErrors shortFinality id 7) unmapped
      mappedCalls := by
  refine (answersAsMap_iff (b := ⟨0, [0]⟩) finalizedErrors shortFinality id (.of_missing rfl rfl rfl) ?_).mpr ?_
  · exact ⟨fun _ _ => ⟨by decide, fun _ => rfl⟩, fun _ _ => ⟨by decide, fun _ => rfl⟩,
      fun _ _ => ⟨by decide, fun _ => rfl⟩, fun _ _ => ⟨by decide, fun _ => rfl⟩, trivial⟩
  · refine ⟨fun _ _ _ => trivial, fun _ _ _ => trivial, fun _ _ _ => nofun, fun _ _ _ => ?_, trivial⟩
    intro ledger hash hledger hget
    have hkeys : ledger.keys = {20} := by
      cases hledger
      decide
    have hmem := (ledger.mem_keys hash).mpr hget
    rw [hkeys, Finset.mem_singleton] at hmem
    rw [hmem]
    rfl

/-- A value is replaced by an insert and removed. -/
def replacedCalls : List (FinalizedStep Nat Nat Nat Nat) :=
  [callOn 1 0 (.insert 7 10), callOn 1 1 (.insert 7 20), callOn 1 2 (.remove 7)]

/-- A closure fails with the error that reports a marker without a value. -/
def failedCalls : List (FinalizedStep Nat Nat Nat Nat) :=
  [callOn 1 0 (.insert 7 10), callOn 1 1 (.mutate 7 fun _ => .error 7)]

/-- The first run leaves the ledger with the replaced value, the second one drops the marker. -/
theorem map_not_answered :
    RunMeets (apply finalizedErrors shortFinality id 7) (OnBranch ⟨0, [0]⟩ 7) unmapped replacedCalls ∧
      ¬RunMeets (apply finalizedErrors shortFinality id 7) (AnswersAsMap finalizedErrors shortFinality id 7) unmapped
        replacedCalls ∧
      RunMeets (apply finalizedErrors shortFinality id 7) (OnBranch ⟨0, [0]⟩ 7) unmapped failedCalls ∧
      ¬RunMeets (apply finalizedErrors shortFinality id 7) (AnswersAsMap finalizedErrors shortFinality id 7) unmapped
        failedCalls := by
  refine ⟨?_, fun ⟨_, _, hremove, _⟩ => ?_, ?_, fun ⟨_, hmutate, _⟩ => ?_⟩
  · exact ⟨fun _ _ => ⟨by decide, fun _ => rfl⟩, fun _ _ => ⟨by decide, fun _ => rfl⟩,
      fun _ _ => ⟨by decide, fun _ => rfl⟩, trivial⟩
  · have hmissing := (hremove _ rfl rfl).2.2
    exact absurd hmissing nofun
  · exact ⟨fun _ _ => ⟨by decide, fun _ => rfl⟩, fun _ _ => ⟨by decide, fun _ => rfl⟩, trivial⟩
  · have hmarker := (hmutate _ rfl rfl).2.1
    exact absurd hmarker (by decide)

end Examples

end FrameSuite
