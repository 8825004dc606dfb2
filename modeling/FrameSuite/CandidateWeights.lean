import FrameSuite.AffidavitBound
import FrameSuite.SessionWindows
import FrameSuite.ValidatorConsent

/-! What an election ranks its candidates by. Each candidate has declared itself in the same session, in the window,
and counts with the backing it had then: nothing that is backed or drawn afterwards changes the election. -/

namespace FrameSuite

variable {A : AuthorConfig} {P : ChainParameters A} {s t e : ChainState P.chain} {author : A.AccountId}
  {weights : List (Funder A.AccountId × Nat)} {call : ChainCall P.chain}

/-- An affidavit was accepted in the state, with a key of the author and the backing that the author had. -/
structure Affirmed (past : ChainHistory P) (e : ChainState P.chain) (author : A.AccountId)
    (weights : List (Funder A.AccountId × Nat)) : Prop where
  signed : ∃ signer rotate signature, (e, .dispatch .none (.declare signer rotate signature)) ∈ past ∧
    P.verify (.declare signer rotate) signature = true ∧
      e.affidavitKeys.get (e.nextSession, P.intoAccount signer) = some author
  available : isAvailable e.authors author = .ok ()
  inWindow : e.affidavitWindow.start ≤ e.blockNumber ∧ e.blockNumber ≤ e.affidavitWindow.finish
  backing : ∃ affidavit, backersOf e.authors author = .ok affidavit ∧ weights = forcedWeights P.chain affidavit

/-- The candidates of an election are different authors, and each was affirmed in this session. But the last
sessions that can be numbered share their candidates. -/
structure ChainState.CandidatesWeighed (s : ChainState P.chain) (past : ChainHistory P) : Prop where
  distinct : ((prepareCandidates s).map Prod.fst).Nodup
  affirmed : ∀ candidate ∈ prepareCandidates s, ∃ e, Affirmed past e candidate.1 candidate.2 ∧
    (s.nextSession < P.maxSession → e.currentSession = s.currentSession)

/-- The invariant: every affidavit that is stored, for whatever session. -/
def ChainState.Weighed (past : ChainHistory P) (s : ChainState P.chain) : Prop :=
  ∀ session author record, s.authorAffidavits.get (session, author) = some record →
    ∃ e, Affirmed past e author record.2 ∧ e.nextSession = session ∧ e.blockNumber = record.1

theorem Affirmed.later {past : ChainHistory P} {entry : ChainState P.chain × ChainCall P.chain}
    (h : Affirmed past e author weights) : Affirmed (past ++ [entry]) e author weights := by
  obtain ⟨signer, rotate, signature, hmem, hrest⟩ := h.signed
  exact ⟨⟨signer, rotate, signature, List.mem_append_left _ hmem, hrest⟩, h.available, h.inWindow, h.backing⟩

section Declaration

variable {signer : P.Public} {rotate : P.AffidavitId} {signature : P.Signature} {past : ChainHistory P}
  {origin : Origin A.AccountId}

theorem declare_records (h : declare s origin signer rotate = .ok t) :
    ∃ author affidavit, s.affidavitKeys.get (s.nextSession, P.intoAccount signer) = some author ∧
      backersOf s.authors author = .ok affidavit ∧ t.authorAffidavits =
        s.authorAffidavits.insert (s.nextSession, author) (s.blockNumber, forcedWeights P.chain affidavit) := by
  obtain ⟨_, -, h⟩ := bind_eq_ok.mp h
  obtain ⟨_, -, h⟩ := bind_eq_ok.mp h
  obtain ⟨mid, hprocess, h⟩ := bind_eq_ok.mp h
  obtain rfl := pure_eq_ok.mp h
  obtain ⟨_, -, hprocess⟩ := bind_eq_ok.mp hprocess
  obtain ⟨affidavit, hgen, hsubmit⟩ := bind_eq_ok.mp hprocess
  obtain ⟨author, hkey, hweights⟩ := bind_eq_ok.mp hgen
  obtain ⟨author', hkey', hsubmit⟩ := bind_eq_ok.mp hsubmit
  obtain rfl := pure_eq_ok.mp hsubmit
  obtain rfl : author = author' := Option.some.inj ((okOr_eq_ok.mp hkey).symm.trans (okOr_eq_ok.mp hkey'))
  exact ⟨author, affidavit, okOr_eq_ok.mp hkey, liftRole_eq_ok.mp hweights, rfl⟩

theorem ChainState.Weighed.declare (hs : s.Weighed past)
    (h : dispatch s origin (.declare signer rotate signature) = .ok t) :
    t.Weighed (past ++ [(s, .dispatch origin (.declare signer rotate signature))]) := by
  obtain ⟨hx, hvalid⟩ := dispatch_eq_ok h
  obtain ⟨rfl, hcan, -⟩ := declare_eq_ok hx
  obtain ⟨author, affidavit, hkey, hweights, hstored⟩ := declare_records hx
  obtain ⟨-, author', window, hkey', havailable, hwindow, hstart, hfinish⟩ := canSubmitAffidavit_eq_ok.mp hcan
  obtain rfl := Option.some.inj (hkey.symm.trans hkey')
  obtain ⟨-, rfl⟩ := computeAffidavitWindow_eq_ok.mp hwindow
  intro session who record hrecord
  rw [hstored, StorageMap.get_insert] at hrecord
  split_ifs at hrecord with hsame
  · obtain ⟨rfl, rfl⟩ := Prod.mk.inj hsame
    obtain rfl := Option.some.inj hrecord
    exact ⟨s, ⟨⟨signer, rotate, signature, by simp, validateUnsigned_declare (hvalid rfl), hkey⟩, havailable,
      ⟨hstart, hfinish⟩, affidavit, hweights, rfl⟩, rfl, rfl⟩
  · obtain ⟨e, he, hat⟩ := hs session who record hrecord
    exact ⟨e, he.later, hat⟩

end Declaration

section Runs

variable {past : ChainHistory P}

/-- Only a declaration touches the affidavits. -/
theorem apply_authorAffidavits (h : s.apply call = .ok t) : t.authorAffidavits = s.authorAffidavits ∨
    ∃ origin signer rotate signature, call = .dispatch origin (.declare signer rotate signature) := by
  cases call with
  | dispatch origin extrinsic =>
    have hx := (dispatch_eq_ok h).1
    cases extrinsic with
    | validate signer signature =>
      obtain ⟨author, -, -, -, rfl⟩ := validate_eq_ok hx
      exact .inl rfl
    | declare signer rotate signature => exact .inr ⟨origin, signer, rotate, signature, rfl⟩
    | elect signer signature =>
      obtain ⟨-, author, roles, -, -, -, -, rfl⟩ := elect_eq_ok hx
      exact .inl rfl
    | chill affidavitPub =>
      obtain ⟨author, session, -, -, -, rfl⟩ := chill_eq_ok hx
      exact .inl rfl
  | forceGenesisConfig field => exact .inl (forceGenesisConfig_eq_ok h).affidavits
  | rotateSession => exact .inl (rotateSession_eq_ok h).affidavits
  | enterBlock author =>
    obtain ⟨roles, points, -, rfl⟩ := chainEnterBlock_eq_ok h
    exact .inl rfl
  | callRoles c =>
    obtain ⟨roles, -, rfl⟩ := callRoles_eq_ok h
    exact .inl rfl

theorem ChainState.Weighed.apply (hs : s.Weighed past) (h : s.apply call = .ok t) :
    t.Weighed (past ++ [(s, call)]) := by
  rcases apply_authorAffidavits h with hsame | ⟨origin, signer, rotate, signature, rfl⟩
  · intro session who record hrecord
    obtain ⟨e, he, hat⟩ := hs session who record (hsame ▸ hrecord)
    exact ⟨e, he.later, hat⟩
  · exact hs.declare h

theorem currentSession_of_nextSession (hlt : s.nextSession < P.maxSession) (h : e.nextSession = s.nextSession) :
    e.currentSession = s.currentSession := by
  have hmax : P.chain.maxSession = P.maxSession := rfl
  unfold ChainState.nextSession saturatingAdd at h hlt
  omega

theorem prepareCandidates_nodup (s : ChainState P.chain) : ((prepareCandidates s).map Prod.fst).Nodup := by
  have hnodup : ((s.authorAffidavits.iterPrefix P.chain.hashOrder s.nextSession).map Prod.fst).Nodup :=
    StorageMap.nodup_iterPrefix
  unfold prepareCandidates
  rwa [List.map_map]

theorem ChainState.Weighed.candidates (hs : s.Weighed past) : s.CandidatesWeighed past := by
  refine ⟨prepareCandidates_nodup s, fun candidate hmem => ?_⟩
  obtain ⟨⟨author, record⟩, hrecord, rfl⟩ := List.mem_map.mp hmem
  obtain ⟨e, he, hsession, -⟩ := hs s.nextSession author record (StorageMap.mem_iterPrefix.mp hrecord)
  exact ⟨e, he, fun hlt => currentSession_of_nextSession hlt hsession⟩

end Runs

/-- In every state of a run an election would rank each author once, by the backing it had in a block of the window
where its affidavit was accepted. That was in this very session, as long as the number of the next one is below the
largest there is. -/
theorem candidates_weighed_in_window (ledger : A.Ledger) (validators : List A.AccountId) (g : AuthorGenesis)
    (c : ChainGenesis) (calls : List (ChainCall P.chain)) :
    (ChainState.after (T := P.chain) (AuthorState.genesis ledger g) validators c calls).CandidatesWeighed
      (history ChainState.apply (ChainState.genesis (T := P.chain) (AuthorState.genesis ledger g) validators c)
        calls) := by
  have hgenesis : (ChainState.genesis (T := P.chain) (AuthorState.genesis ledger g) validators c).Weighed [] :=
    fun _ _ _ h => by cases h
  have hweighed := run_history_invariant (P := fun past s => ChainState.Weighed (P := P) past s)
    (fun _ _ _ _ hs h => hs.apply h) hgenesis calls
  rw [List.nil_append] at hweighed
  exact hweighed.candidates

end FrameSuite
