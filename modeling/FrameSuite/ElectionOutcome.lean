import FrameSuite.ElectedSet
import FrameSuite.LiveRoles

/-! An election is reported as successful whether or not its result was stored. -/

namespace FrameSuite

/-- The hooks that an election calls when it is over. -/
inductive ElectHook (ε : Type)
  | onElectSuccess
  | onElectFail (e : ε)
deriving DecidableEq

/-- The preparation of an election with the hook it calls; a refused one calls none. -/
def prepareElectionHook {T : ChainConfig} (s : ChainState T) :
    Option (ElectHook (ChainError T.RoleError)) × Except (ChainError T.RoleError) (ChainState T) :=
  match canProcessElection s with
  | .error e => (none, .error e)
  | .ok _ =>
    match liftRole (T.prepare s.roles (prepareCandidates s)) with
    | .error e => (some (.onElectFail e), .error e)
    | .ok roles => (some .onElectSuccess, .ok { s with roles })

theorem prepareElectionHook_result {T : ChainConfig} (s : ChainState T) :
    (prepareElectionHook s).2 = prepareElection s := by
  unfold prepareElectionHook prepareElection
  cases canProcessElection s with
  | error e => rfl
  | ok u => cases (liftRole (T.prepare s.roles (prepareCandidates s)) : Except (ChainError T.RoleError) _) <;> rfl

variable {A : AuthorConfig} {P : ChainParameters A} {s t : ChainState P.chain}

def modelOutput (s : ChainState P.chain) : List A.AccountId := A.electionModel (prepareCandidates s)

/-- The election can be processed, and its result is accepted by the storage. -/
def ElectionStored (s : ChainState P.chain) : Prop :=
  canProcessElection s = .ok () ∧ ∃ roles, storeElects s.authors (modelOutput s) = .ok roles

/-- The call is signed by a key of the author of the block for the session after next. -/
def RunsElection (s : ChainState P.chain) (signer : P.Public) (author : A.AccountId) : Prop :=
  s.affidavitKeys.get (s.nextAffidavitSession, P.intoAccount signer) = some author ∧ s.blockAuthor = some author

/-- An election succeeds, calls the hook for that, and records its runner exactly when its result is stored,
which is then what is revealed; any other election that is processed calls the hook for failures. -/
structure ElectionCounts (s : ChainState P.chain) : Prop where
  succeeds : (∃ t, prepareElectionHook s = (some .onElectSuccess, .ok t)) ↔ ElectionStored s
  records : ∀ signer author, RunsElection s signer author →
    ((∃ t, elect s .none signer = .ok t ∧
      t.electsPreparedBy.get s.nextSession = some (author, s.blockNumber)) ↔ ElectionStored s)
  reveals : ElectionStored s → ∀ t, prepareElection s = .ok t →
    ∀ who, who ∈ (reveal t.authors).getD [] ↔ who ∈ keptElects s.authors (modelOutput s)
  fails : ¬ElectionStored s → ∃ e, prepareElection s = .error e ∧
    (canProcessElection s = .ok () → (prepareElectionHook s).1 = some (.onElectFail e))
  keeps : ¬ElectionStored s → ∀ signer signature,
    attempt ChainState.apply s (.dispatch .none (.elect signer signature)) = s

/-- There are enough elects, and all that are stored for the same block already are among them. -/
def ResultStorable (s : AuthorState A) (elects : List A.AccountId) : Prop :=
  s.minElected ≤ elects.length ∧
    ∀ who, s.elected.containsKey (s.blockNumber, who) = true → who ∈ keptElects s elects

theorem prepareElection_chain (h : canProcessElection s = .ok ()) :
    prepareElectionHook s =
      (some .onElectSuccess, .ok { s with roles := prepareElects s.authors (prepareCandidates s) }) := by
  unfold prepareElectionHook
  rw [h]
  rfl

theorem electionStored_iff :
    ElectionStored s ↔ canProcessElection s = .ok () ∧ s.authors.minElected ≤ (modelOutput s).length := by
  refine and_congr_right fun _ => ?_
  constructor
  · rintro ⟨roles, h⟩
    exact (storeElects_eq_ok.mp h).1
  · exact fun h => ⟨_, storeElects_eq_ok.mpr ⟨h, rfl⟩⟩

theorem elect_chain {signer : P.Public} {author : A.AccountId} (hrun : RunsElection s signer author)
    (h : canProcessElection s = .ok ()) :
    elect s .none signer =
      .ok { s with
        roles := prepareElects s.authors (prepareCandidates s)
        electsPreparedBy := s.electsPreparedBy.insert s.nextSession (author, s.blockNumber) } := by
  have hprepare : prepareElection s = .ok { s with roles := prepareElects s.authors (prepareCandidates s) } := by
    rw [← prepareElectionHook_result, prepareElection_chain h]
  have hauthor : affidavitAuthor s s.nextAffidavitSession (P.intoAccount signer) = .ok author :=
    okOr_eq_ok.mpr hrun.1
  have hblock : (okOr s.blockAuthor .blockAuthorNotFound : Except (ChainError AuthorError) _) = .ok author :=
    okOr_eq_ok.mpr hrun.2
  refine bind_eq_ok.mpr ⟨(), rfl, bind_eq_ok.mpr ⟨author, hauthor, bind_eq_ok.mpr ⟨author, hblock, ?_⟩⟩⟩
  exact bind_eq_ok.mpr ⟨(), ensure_eq_ok.mpr rfl, bind_eq_ok.mpr ⟨_, hprepare, rfl⟩⟩

theorem mem_reveal_of_storable (hstored : s.authors.minElected ≤ (modelOutput s).length) (who : A.AccountId) :
    who ∈ (reveal (prepareElects s.authors (prepareCandidates s))).getD [] ↔
      s.authors.elected.containsKey (s.authors.blockNumber, who) = true ∨
        who ∈ keptElects s.authors (modelOutput s) := by
  have hstore := storeElects_eq_ok.mpr ⟨hstored, rfl⟩
  have hprepared : prepareElects s.authors (prepareCandidates s) =
      { s.authors with
        elected := (keptElects s.authors (modelOutput s)).foldl
          (fun m author => m.insert (s.authors.blockNumber, author) ()) s.authors.elected
        recentElectedOn := s.authors.blockNumber } := by
    unfold prepareElects
    rw [show A.electionModel (prepareCandidates s) = modelOutput s from rfl, hstore]
  rw [hprepared]
  exact mem_reveal_of_stored rfl rfl

/-- An election that is processed counts as it should exactly when its result can be stored, and no elects of
an earlier result of the block remain beside it. -/
theorem election_counts_iff :
    ElectionCounts s ↔ (canProcessElection s = .ok () → ResultStorable s.authors (modelOutput s)) := by
  constructor
  · intro h hp
    have hhook := prepareElection_chain hp
    have hstored : ElectionStored s := h.succeeds.mp ⟨_, hhook⟩
    have hmin := (electionStored_iff.mp hstored).2
    refine ⟨hmin, fun who hwho => ?_⟩
    have hprepare := prepareElectionHook_result s
    rw [hhook] at hprepare
    rw [← h.reveals hstored _ hprepare.symm who]
    exact (mem_reveal_of_storable hmin who).mpr (.inl hwho)
  · intro h
    cases hp : canProcessElection s with
    | error e =>
      have hnot : ¬ElectionStored s := fun hs => by
        have hok := hs.1
        rw [hp] at hok
        cases hok
      have hhook : prepareElectionHook s = (none, .error e) := by
        unfold prepareElectionHook
        rw [hp]
      have hprepare : prepareElection s = .error e := by rw [← prepareElectionHook_result, hhook]
      refine ⟨iff_of_false (fun ⟨t, ht⟩ => ?_) hnot,
        fun signer author _ => iff_of_false (fun ⟨t, ht, _⟩ => ?_) hnot, fun hs => absurd hs hnot,
        fun _ => ⟨e, hprepare, fun hok => ?_⟩, fun _ signer signature => ?_⟩
      · rw [hhook] at ht
        cases ht
      · obtain ⟨-, -, -, -, -, hok, -⟩ := elect_eq_ok ht
        rw [hp] at hok
        cases hok
      · rw [hp] at hok
        cases hok
      · unfold attempt
        cases ht : s.apply (.dispatch .none (.elect signer signature)) with
        | error e' => rfl
        | ok t =>
          have hd : dispatch s .none (.elect signer signature) = .ok t := ht
          obtain ⟨-, -, -, -, -, hok, -⟩ := elect_eq_ok (dispatch_eq_ok hd).1
          rw [hp] at hok
          cases hok
    | ok u =>
      obtain ⟨hmin, hfresh⟩ := h hp
      have hstored := electionStored_iff.mpr ⟨hp, hmin⟩
      refine ⟨iff_of_true ⟨_, prepareElection_chain hp⟩ hstored,
        fun signer author hrun => iff_of_true ?_ hstored, fun _ t ht who => ?_,
        fun hnot => absurd hstored hnot, fun hnot => absurd hstored hnot⟩
      · exact ⟨_, elect_chain hrun hp, StorageMap.get_insert_self _ _ _⟩
      · rw [← prepareElectionHook_result, prepareElection_chain hp] at ht
        obtain rfl := Except.ok.inj ht
        exact (mem_reveal_of_storable hmin who).trans (or_iff_right_of_imp (hfresh who))

def twoRequired : ChainState chainConfig :=
  chainRun (readyAuthors ++ [.forceGenesisConfig (.minElected 2)]) [9] electing

/-- With one candidate nothing is stored, and still the runner is recorded. -/
theorem election_of_too_few_counts :
    ¬ElectionCounts (A := authorConfig) (P := chainParameters) twoRequired ∧
      (run ChainState.apply twoRequired [elects 12]).electsPreparedBy.get 1 = some ((1 : Nat), 6) ∧
      reveal (run ChainState.apply twoRequired [elects 12]).roles = none := by
  refine ⟨fun h => ?_, by decide +kernel, by decide +kernel⟩
  have hprocess : (canProcessElection twoRequired).isOk = true := by decide +kernel
  obtain ⟨u, hu⟩ := exists_eq_ok hprocess
  have hstored := electionStored_iff.mp (h.succeeds.mp ⟨_, prepareElection_chain hu⟩)
  exact absurd hstored.2 (by decide +kernel)

end FrameSuite
