import FrameSuite.ChillEffect
import FrameSuite.ValidatorConsent

/-! Elections are held by their own candidates. Only a declaration makes a key for the session after next, so
who runs the election with one, in a block of its own, has an affidavit for the next session itself. -/

namespace FrameSuite

variable {A : AuthorConfig} {P : ChainParameters A} {s t : ChainState P.chain} {who runner : A.AccountId}
  {call : ChainCall P.chain} {origin : Origin A.AccountId}

/-- An election was run in the state, in its window and by the author of the block. But in the last sessions
that can be numbered, the author is a candidate as well. -/
structure HoldsElection (past : ChainHistory P) (s : ChainState P.chain) (runner : A.AccountId) : Prop where
  signed : ∃ signer signature, (s, .dispatch .none (.elect signer signature)) ∈ past ∧
    P.verify (.elect signer) signature = true ∧
      s.affidavitKeys.get (s.nextAffidavitSession, P.intoAccount signer) = some runner
  author : s.blockAuthor = some runner
  inWindow : canProcessElection s = .ok ()
  candidate : s.nextSession < P.maxSession → runner ∈ (prepareCandidates s).map Prod.fst

/-- The runner that is recorded has held its election, and what is revealed was elected in one. -/
structure ChainState.ElectionsHeld (s : ChainState P.chain) (past : ChainHistory P) : Prop where
  runners : ∀ session runner block, s.electsPreparedBy.get session = some (runner, block) →
    ∃ e, HoldsElection past e runner ∧ e.nextSession = session ∧ e.blockNumber = block
  revealed : ∀ who ∈ (reveal s.authors).getD [], ∃ e runner, HoldsElection past e runner ∧
    e.blockNumber = s.authors.recentElectedOn ∧ who ∈ A.electionModel (prepareCandidates e)

/-- Who has a key for the session after next has declared itself for the next one. -/
def ChainState.Declared (s : ChainState P.chain) : Prop :=
  s.nextSession < P.maxSession → ∀ pub author, s.affidavitKeys.get (s.nextAffidavitSession, pub) = some author →
    s.authorAffidavits.containsKey (s.nextSession, author) = true

/-- The authors that an election in the state stores. -/
def electedIn (e : ChainState P.chain) : List A.AccountId :=
  keptElects e.authors (A.electionModel (prepareCandidates e))

/-- The invariant: all results were elected, not only the last one, and each with all of its election. -/
structure ChainState.Held (past : ChainHistory P) (s : ChainState P.chain) : Prop where
  inScope : s.Scoped
  declared : s.Declared
  runners : ∀ session runner block, s.electsPreparedBy.get session = some (runner, block) →
    ∃ e, HoldsElection past e runner ∧ e.nextSession = session ∧ e.blockNumber = block
  results : ∀ k, s.authors.elected.containsKey k = true → ∃ e runner, HoldsElection past e runner ∧
    e.blockNumber = k.1 ∧ k.2 ∈ electedIn e ∧ ∀ w ∈ electedIn e, s.authors.elected.containsKey (k.1, w) = true

theorem HoldsElection.later {past : ChainHistory P} {e : ChainState P.chain × ChainCall P.chain}
    (h : HoldsElection past s runner) : HoldsElection (past ++ [e]) s runner := by
  obtain ⟨signer, signature, hmem, hrest⟩ := h.signed
  exact ⟨⟨signer, signature, List.mem_append_left _ hmem, hrest⟩, h.author, h.inWindow, h.candidate⟩

theorem mem_model_of_electedIn {e : ChainState P.chain} (h : who ∈ electedIn e) :
    who ∈ A.electionModel (prepareCandidates e) := by
  unfold electedIn keptElects at h
  split at h
  · exact List.mem_of_mem_take h
  · exact h

section Keys

theorem nextAffidavitSession_of_lt (h : s.nextSession < P.maxSession) :
    s.nextAffidavitSession = s.nextSession + 1 := Nat.min_eq_left h

/-- A call other than a rotation sets keys for the session after next by declarations only. -/
theorem KeyStep.declared_or_kept (hk : KeyStep s t call) (hlt : s.nextSession < P.maxSession)
    {pub : P.AffidavitId} {author : A.AccountId}
    (h : t.affidavitKeys.get (s.nextAffidavitSession, pub) = some author) :
    s.affidavitKeys.get (s.nextAffidavitSession, pub) = some author ∨
      ∃ signer rotate signature, call = .dispatch .none (.declare signer rotate signature) ∧
        s.affidavitKeys.get (s.nextSession, P.intoAccount signer) = some author := by
  have hnext := nextAffidavitSession_of_lt hlt
  cases hk with
  | validated he =>
    rw [he, StorageMap.get_insert] at h
    split_ifs at h with hsame
    · have hsession := congrArg Prod.fst hsame
      simp only at hsession
      omega
    · exact .inl h
  | declared _ ho he =>
    rw [he, StorageMap.get_insert] at h
    split_ifs at h with hsame
    · exact .inr ⟨_, _, _, rfl, Option.some.inj h ▸ ho⟩
    · exact .inl h
  | chilled _ he => exact .inl (get_of_remove (he ▸ h))
  | kept _ he => exact .inl (he ▸ h)

/-- A key that is new belongs to the session after next at most. -/
theorem KeyStep.scope_le (hk : KeyStep s t call) (hs : s.Scoped) {key : Nat × P.AffidavitId} {author : A.AccountId}
    (h : t.affidavitKeys.get key = some author) : key.1 ≤ s.nextAffidavitSession := by
  cases hk with
  | validated he =>
    rw [he, StorageMap.get_insert] at h
    split_ifs at h with hsame
    · exact hsame ▸ nextSession_le_nextAffidavitSession s
    · exact hs.keys key author h
  | declared _ _ he =>
    rw [he, StorageMap.get_insert] at h
    split_ifs at h with hsame
    · exact hsame ▸ le_rfl
    · exact hs.keys key author h
  | chilled _ he => exact hs.keys key author (get_of_remove (he ▸ h))
  | kept _ he => exact hs.keys key author (he ▸ h)

theorem ChainState.Declared.apply (hd : s.Declared) (hs : s.Scoped) (h : s.apply call = .ok t) : t.Declared := by
  intro hlt pub author hkey
  have hk := apply_keyStep h
  cases hstep : apply_sessionStep h with
  | rotated hnext ha =>
    have hle := hk.scope_le hs hkey
    have hlate := nextAffidavitSession_of_lt hlt
    have hearly := nextAffidavitSession_of_lt (hnext.trans hlt)
    omega
  | within hsession hb hw ha =>
    obtain ⟨hsame, hsame'⟩ := nextSession_congr hsession
    rw [hsame] at hlt ⊢
    rw [hsame'] at hkey
    rcases hk.declared_or_kept hlt hkey with hold | ⟨signer, rotate, signature, rfl, howner⟩
    · have hthere := hd hlt pub author hold
      rcases ha with ha | ⟨other, record, pub', -, ha⟩
      · exact ha ▸ hthere
      · exact ha ▸ containsKey_insert.mpr (.inr hthere)
    · have hdispatch : dispatch s .none (.declare signer rotate signature) = .ok t := h
      obtain ⟨-, -, author', weights, howner', rfl⟩ := declare_eq_ok (dispatch_eq_ok hdispatch).1
      obtain rfl := Option.some.inj (howner.symm.trans howner')
      exact containsKey_insert.mpr (.inl rfl)

end Keys

section Steps

variable {past : ChainHistory P} {e : ChainState P.chain × ChainCall P.chain}

theorem validateUnsigned_elect {signer : P.Public} {signature : P.Signature}
    (h : validateUnsigned s (.elect signer signature) = .ok ()) : P.verify (.elect signer) signature = true := by
  unfold validateUnsigned at h
  cases hw : computeAffidavitWindow s with
  | error e => rw [hw] at h; cases h
  | ok window =>
    rw [hw] at h
    obtain ⟨u, hv, -⟩ := bind_eq_ok.mp h
    exact ensure_eq_ok.mp hv

theorem ChainState.Held.of_kept (hs : s.Held past) (hscoped : t.Scoped) (hdeclared : t.Declared)
    (hr : t.electsPreparedBy = s.electsPreparedBy)
    (he : t.authors.elected = s.authors.elected) : t.Held (past ++ [e]) := by
  refine ⟨hscoped, hdeclared, fun session runner block hrun => ?_, fun k hk => ?_⟩
  · obtain ⟨election, hheld, hat⟩ := hs.runners session runner block (hr ▸ hrun)
    exact ⟨election, hheld.later, hat⟩
  · rw [he] at hk ⊢
    obtain ⟨election, runner, hheld, hat⟩ := hs.results k hk
    exact ⟨election, runner, hheld.later, hat⟩

/-- An election stores nothing or all of its authors, beside what is stored. -/
theorem prepareElects_elected (s : ChainState P.chain) :
    (prepareElects s.authors (prepareCandidates s)).elected = s.authors.elected ∨
      ∀ k, (prepareElects s.authors (prepareCandidates s)).elected.containsKey k = true ↔
        s.authors.elected.containsKey k = true ∨ k.1 = s.blockNumber ∧ k.2 ∈ electedIn s := by
  unfold prepareElects
  split
  · rename_i stored hstored
    obtain ⟨-, rfl⟩ := storeElects_eq_ok.mp hstored
    exact .inr fun k => containsKey_foldl_insert
  · exact .inl rfl

theorem ChainState.Held.elect {signer : P.Public} {signature : P.Signature} (hs : s.Held past)
    (h : dispatch s origin (.elect signer signature) = .ok t) :
    t.Held (past ++ [(s, .dispatch origin (.elect signer signature))]) := by
  have happly : s.apply (.dispatch origin (.elect signer signature)) = .ok t := h
  obtain ⟨hx, hvalid⟩ := dispatch_eq_ok h
  have hscoped := hs.inScope.apply happly
  have hdeclared := hs.declared.apply hs.inScope happly
  obtain ⟨rfl, author, roles, hkey, hauthor, hwindow, hprepare, rfl⟩ := elect_eq_ok hx
  obtain rfl := Except.ok.inj hprepare
  have hheld : HoldsElection (past ++ [(s, .dispatch .none (.elect signer signature))]) s author :=
    ⟨⟨signer, signature, by simp, validateUnsigned_elect (hvalid rfl), hkey⟩, hauthor, hwindow,
      fun hlt => candidate_of_affidavit (hs.declared hlt _ _ hkey)⟩
  refine ⟨hscoped, hdeclared, fun session runner block hrun => ?_, fun k hk => ?_⟩
  · change (s.electsPreparedBy.insert s.nextSession (author, s.blockNumber)).get session = _ at hrun
    rw [StorageMap.get_insert] at hrun
    split_ifs at hrun with hsame
    · obtain ⟨rfl, rfl⟩ := Prod.mk.inj (Option.some.inj hrun)
      exact ⟨s, hheld, hsame.symm, rfl⟩
    · obtain ⟨election, hold, hat⟩ := hs.runners session runner block hrun
      exact ⟨election, hold.later, hat⟩
  · change (prepareElects s.authors (prepareCandidates s)).elected.containsKey k = true at hk
    change ∃ e runner, _ ∧ _ ∧ _ ∧ ∀ w ∈ electedIn e,
      (prepareElects s.authors (prepareCandidates s)).elected.containsKey (k.1, w) = true
    have hgrown : ∀ k, s.authors.elected.containsKey k = true →
        (prepareElects s.authors (prepareCandidates s)).elected.containsKey k = true := by
      intro k hold
      rcases prepareElects_elected s with hsame | hstored
      · rwa [hsame]
      · exact (hstored k).mpr (.inl hold)
    have hbefore : s.authors.elected.containsKey k = true → ∃ e runner,
        HoldsElection (past ++ [(s, .dispatch .none (.elect signer signature))]) e runner ∧ e.blockNumber = k.1 ∧
          k.2 ∈ electedIn e ∧ ∀ w ∈ electedIn e,
            (prepareElects s.authors (prepareCandidates s)).elected.containsKey (k.1, w) = true := by
      intro hold
      obtain ⟨election, runner, hholds, hat, hmem, hall⟩ := hs.results k hold
      exact ⟨election, runner, hholds.later, hat, hmem, fun w hw => hgrown _ (hall w hw)⟩
    rcases prepareElects_elected s with hsame | hstored
    · exact hbefore (hsame ▸ hk)
    · rcases (hstored k).mp hk with hold | ⟨hblock, hnew⟩
      · exact hbefore hold
      · exact ⟨s, author, hheld, hblock.symm, hnew, fun w hw => (hstored (k.1, w)).mpr (.inr ⟨hblock, hw⟩)⟩

theorem ChainState.Held.apply (hs : s.Held past) (h : s.apply call = .ok t) : t.Held (past ++ [(s, call)]) := by
  have hscoped := hs.inScope.apply h
  have hdeclared := hs.declared.apply hs.inScope h
  cases call with
  | dispatch origin extrinsic =>
    have hx := (dispatch_eq_ok h).1
    cases extrinsic with
    | validate signer signature =>
      obtain ⟨author, -, -, -, rfl⟩ := validate_eq_ok hx
      exact hs.of_kept hscoped hdeclared rfl rfl
    | declare signer rotate signature =>
      obtain ⟨-, -, author, weights, -, rfl⟩ := declare_eq_ok hx
      exact hs.of_kept hscoped hdeclared rfl rfl
    | elect signer signature => exact hs.elect h
    | chill affidavitPub =>
      obtain ⟨author, session, -, -, -, rfl⟩ := chill_eq_ok hx
      exact hs.of_kept hscoped hdeclared rfl rfl
  | forceGenesisConfig field =>
    have hf := forceGenesisConfig_eq_ok h
    have hr : t.authors = s.authors := hf.roles
    exact hs.of_kept hscoped hdeclared hf.runners (by rw [hr])
  | rotateSession =>
    have hrotated := rotateSession_eq_ok h
    have hr : t.authors = (rewardAuthors s).authors := hrotated.roles
    exact hs.of_kept hscoped hdeclared hrotated.runners (by rw [hr, (rewardAuthors_duties s).elects.elected])
  | enterBlock author =>
    have hmoved := enterBlock_moved h
    obtain ⟨roles, points, -, rfl⟩ := chainEnterBlock_eq_ok h
    exact hs.of_kept hscoped hdeclared rfl hmoved.elects.elected
  | callRoles c =>
    obtain ⟨roles, hr, rfl⟩ := callRoles_eq_ok h
    have hr : s.authors.apply (c.1.withDuty (isIdle s)) = .ok roles := hr
    have helects := apply_elects (withDuty_holdsElections c.2) hr
    exact hs.of_kept hscoped hdeclared rfl helects.elected

end Steps

theorem held_genesis (ledger : A.Ledger) (validators : List A.AccountId) (g : AuthorGenesis) (c : ChainGenesis) :
    (ChainState.genesis (T := P.chain) (AuthorState.genesis ledger g) validators c).Held [] :=
  ⟨⟨fun _ _ h => (by cases h), fun _ h => (by cases h)⟩, fun _ _ _ h => (by cases h), fun _ _ _ h => (by cases h),
    fun _ h => (by cases h)⟩

/-- In every state of a run each runner that is recorded has held the election for its session in that block,
and each author that is revealed was elected in one of that block, run by its author in its window. But in the
last session that can be numbered, the runner was a candidate itself. -/
theorem elections_held_by_candidates (ledger : A.Ledger) (validators : List A.AccountId) (g : AuthorGenesis)
    (c : ChainGenesis) (calls : List (ChainCall P.chain)) :
    (ChainState.after (T := P.chain) (AuthorState.genesis ledger g) validators c calls).ElectionsHeld
      (history ChainState.apply (ChainState.genesis (T := P.chain) (AuthorState.genesis ledger g) validators c)
        calls) := by
  have hheld := run_history_invariant (P := fun past s => ChainState.Held (P := P) past s)
    (fun _ _ _ _ hs h => hs.apply h) (held_genesis ledger validators g c) calls
  rw [List.nil_append] at hheld
  refine ⟨hheld.runners, fun who hw => ?_⟩
  obtain ⟨e, runner, hholds, hblock, helected, -⟩ := hheld.results _ (mem_reveal.mp hw)
  exact ⟨e, runner, hholds, hblock, mem_model_of_electedIn helected⟩

end FrameSuite
