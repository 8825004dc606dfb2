import FrameSuite.ElectedSet
import FrameSuite.LiveRoles
import FrameSuite.RunHistory

/-! Nobody becomes a validator against its will. Whoever validates, is queued or was elected beyond the first
validators has signed for a key itself, and afterwards an affidavit signed with a key of its own was accepted.
There are always validators, and none of them twice. -/

namespace FrameSuite

variable {A : AuthorConfig} {P : ChainParameters A} {s t : ChainState P.chain} {who : A.AccountId}
  {initial : List A.AccountId} {call : ChainCall P.chain}

/-- What has succeeded in a run of the chain, with the states it started from. -/
abbrev ChainHistory (P : ChainParameters A) := List (ChainState P.chain × ChainCall P.chain)

/-- The account has signed for a key, as an author that was available. -/
def Consented (past : ChainHistory P) (who : A.AccountId) : Prop :=
  ∃ s signer signature, (s, .dispatch (.signed who) (.validate signer signature)) ∈ past ∧
    isAvailable s.authors who = .ok ()

/-- An affidavit was accepted that is signed with a key of the account, which has consented before and was
available still. -/
def Volunteered (past : ChainHistory P) (who : A.AccountId) : Prop :=
  ∃ before s signer rotate signature after,
    past = before ++ (s, .dispatch .none (.declare signer rotate signature)) :: after ∧ Consented before who ∧
      s.affidavitKeys.get (s.nextSession, P.intoAccount signer) = some who ∧
        P.verify (.declare signer rotate) signature = true ∧ isAvailable s.authors who = .ok ()

/-- The accounts are there, no two of them the same, and each is one of the first or has volunteered. -/
structure Manned (initial : List A.AccountId) (past : ChainHistory P) (accounts : List A.AccountId) : Prop where
  nonempty : accounts ≠ []
  distinct : accounts.Nodup
  volunteers : ∀ who ∈ accounts, who ∈ initial ∨ Volunteered past who

structure ChainState.Volunteers (s : ChainState P.chain) (initial : List A.AccountId) (past : ChainHistory P) :
    Prop where
  validators : Manned initial past s.validators
  queued : Manned initial past s.queued
  revealed : ∀ who ∈ (reveal s.authors).getD [], Volunteered past who

/-- The invariant: the keys of affidavits, the affidavits and all results come from volunteers too. -/
structure ChainState.Sourced (initial : List A.AccountId) (past : ChainHistory P) (s : ChainState P.chain) :
    Prop where
  keys : ∀ k who, s.affidavitKeys.get k = some who → Consented past who
  affidavits : ∀ k, s.authorAffidavits.containsKey k = true → Volunteered past k.2
  results : ∀ k, s.authors.elected.containsKey k = true → Volunteered past k.2
  validators : Manned initial past s.validators
  queued : Manned initial past s.queued

section Histories

variable {past : ChainHistory P} {e : ChainState P.chain × ChainCall P.chain}

theorem Consented.later (h : Consented past who) : Consented (past ++ [e]) who := by
  obtain ⟨s, signer, signature, hmem, ha⟩ := h
  exact ⟨s, signer, signature, List.mem_append_left _ hmem, ha⟩

theorem Volunteered.later (h : Volunteered past who) : Volunteered (past ++ [e]) who := by
  obtain ⟨before, s, signer, rotate, signature, after, rfl, hrest⟩ := h
  exact ⟨before, s, signer, rotate, signature, after ++ [e], by simp, hrest⟩

theorem Manned.later {accounts : List A.AccountId} (h : Manned initial past accounts) :
    Manned initial (past ++ [e]) accounts :=
  ⟨h.nonempty, h.distinct, fun who hw => (h.volunteers who hw).imp_right Volunteered.later⟩

/-- A step that adds no key, affidavit, result or validator keeps the invariant. -/
theorem ChainState.Sourced.of_kept (hs : s.Sourced initial past)
    (hk : ∀ k who, t.affidavitKeys.get k = some who → s.affidavitKeys.get k = some who)
    (ha : t.authorAffidavits = s.authorAffidavits)
    (he : ∀ k, t.authors.elected.containsKey k = true → s.authors.elected.containsKey k = true)
    (hv : t.validators = s.validators) (hq : t.queued = s.queued) : t.Sourced initial (past ++ [e]) := by
  refine ⟨fun k who hw => (hs.keys k who (hk k who hw)).later, fun k hw => ?_,
    fun k hw => (hs.results k (he k hw)).later, hv ▸ hs.validators.later, hq ▸ hs.queued.later⟩
  rw [ha] at hw
  exact (hs.affidavits k hw).later

end Histories

section Steps

variable {past : ChainHistory P}

theorem ChainState.Sourced.validate {signer : P.Public} {signature : P.Signature} {origin : Origin A.AccountId}
    (hs : s.Sourced initial past) (h : FrameSuite.validate s origin signer = .ok t) :
    t.Sourced initial (past ++ [(s, .dispatch origin (.validate signer signature))]) := by
  obtain ⟨author, rfl, -, havailable, rfl⟩ := validate_eq_ok h
  refine ⟨fun k who hw => ?_, fun k hw => (hs.affidavits k hw).later, fun k hw => (hs.results k hw).later,
    hs.validators.later, hs.queued.later⟩
  rw [StorageMap.get_insert] at hw
  split_ifs at hw with hkey
  · obtain rfl := Option.some.inj hw
    exact ⟨s, signer, signature, by simp, havailable⟩
  · exact (hs.keys k who hw).later

theorem ChainState.Sourced.declare {signer : P.Public} {rotate : P.AffidavitId} {signature : P.Signature}
    {origin : Origin A.AccountId} (hs : s.Sourced initial past)
    (h : dispatch s origin (.declare signer rotate signature) = .ok t) :
    t.Sourced initial (past ++ [(s, .dispatch origin (.declare signer rotate signature))]) := by
  obtain ⟨hx, hvalid⟩ := dispatch_eq_ok h
  obtain ⟨rfl, hcan, author, weights, hkey, rfl⟩ := declare_eq_ok hx
  have hverify := validateUnsigned_declare (hvalid rfl)
  obtain ⟨-, author', window, hkey', havailable, -⟩ := canSubmitAffidavit_eq_ok.mp hcan
  obtain rfl := Option.some.inj (hkey.symm.trans hkey')
  have hconsent := hs.keys _ _ hkey
  refine ⟨fun k who hw => ?_, fun k hw => ?_, fun k hw => (hs.results k hw).later, hs.validators.later,
    hs.queued.later⟩
  · rw [StorageMap.get_insert] at hw
    split_ifs at hw with hnew
    · obtain rfl := Option.some.inj hw
      exact hconsent.later
    · exact (hs.keys k who hw).later
  · rcases containsKey_insert.mp hw with rfl | hold
    · exact ⟨past, s, signer, rotate, signature, [], rfl, hconsent, hkey, hverify, havailable⟩
    · exact (hs.affidavits k hold).later

theorem ChainState.Sourced.elect {signer : P.Public} {origin : Origin A.AccountId}
    {e : ChainState P.chain × ChainCall P.chain}
    (hmodel : ∀ candidates, ∀ who ∈ A.electionModel candidates, who ∈ candidates.map Prod.fst)
    (hs : s.Sourced initial past) (h : FrameSuite.elect s origin signer = .ok t) :
    t.Sourced initial (past ++ [e]) := by
  obtain ⟨-, author, roles, -, -, -, hprepare, rfl⟩ := elect_eq_ok h
  obtain rfl := Except.ok.inj hprepare
  refine ⟨fun k who hw => (hs.keys k who hw).later, fun k hw => (hs.affidavits k hw).later, fun k hw => ?_,
    hs.validators.later, hs.queued.later⟩
  change (prepareElects s.authors (prepareCandidates s)).elected.containsKey k = true at hw
  unfold prepareElects at hw
  split at hw
  · rename_i stored hstored
    obtain ⟨-, rfl⟩ := storeElects_eq_ok.mp hstored
    rcases containsKey_foldl_insert.mp hw with hold | ⟨-, hnew⟩
    · exact (hs.results k hold).later
    · have hchosen : k.2 ∈ A.electionModel (prepareCandidates s) := by
        unfold keptElects at hnew
        split at hnew
        · exact List.mem_of_mem_take hnew
        · exact hnew
      exact (hs.affidavits _ (mem_prepareCandidates (hmodel _ _ hchosen))).later
  · exact (hs.results k hw).later

theorem ChainState.Sourced.rotate {e : ChainState P.chain × ChainCall P.chain} (hs : s.Sourced initial past)
    (h : SessionRotated s t) : t.Sourced initial (past ++ [e]) := by
  have hduties : DutiesKept s.authors t.authors := by
    have hr : t.authors = (rewardAuthors s).authors := h.roles
    rw [hr]
    exact rewardAuthors_duties s
  refine ⟨fun k who hw => ?_, fun k hw => ?_, fun k hw => ?_, h.validators ▸ hs.queued.later, ?_⟩
  · rw [h.keys] at hw
    exact (hs.keys k who hw).later
  · rw [h.affidavits] at hw
    exact (hs.affidavits k hw).later
  · rw [hduties.elects.elected] at hw
    exact (hs.results k hw).later
  · rw [h.queued]
    cases hr : revealed t with
    | none => exact hs.queued.later
    | some elected =>
      obtain ⟨hreveal, hne⟩ := Option.filter_eq_some_iff.mp hr
      have hreveal : reveal t.authors = some elected := hreveal
      refine ⟨by simpa using hne, ?_, fun who hw => ?_⟩
      · have hnodup := nodup_reveal t.authors
        rwa [hreveal] at hnodup
      · have hin := mem_reveal.mp (mem_revealed hr hw)
        rw [hduties.elects.elected] at hin
        exact .inr (hs.results _ hin).later

theorem ChainState.Sourced.apply
    (hmodel : ∀ candidates, ∀ who ∈ A.electionModel candidates, who ∈ candidates.map Prod.fst)
    (hs : s.Sourced initial past) (h : s.apply call = .ok t) : t.Sourced initial (past ++ [(s, call)]) := by
  cases call with
  | dispatch origin extrinsic =>
    have hx := (dispatch_eq_ok h).1
    cases extrinsic with
    | validate signer signature => exact hs.validate hx
    | declare signer rotate signature => exact hs.declare h
    | elect signer signature => exact hs.elect hmodel hx
    | chill affidavitPub =>
      obtain ⟨author, session, -, -, -, rfl⟩ := chill_eq_ok hx
      exact hs.of_kept (fun _ _ => get_of_remove) rfl (fun _ => id) rfl rfl
  | forceGenesisConfig field =>
    have hf := forceGenesisConfig_eq_ok h
    refine hs.of_kept (fun k who hw => hf.keys ▸ hw) hf.affidavits (fun k hk => ?_) hf.validators hf.queued
    have hr : t.authors = s.authors := hf.roles
    rwa [hr] at hk
  | rotateSession => exact hs.rotate (rotateSession_eq_ok h)
  | enterBlock author =>
    have hmoved := enterBlock_moved h
    obtain ⟨roles, points, -, rfl⟩ := chainEnterBlock_eq_ok h
    exact hs.of_kept (fun _ _ => id) rfl (fun k hk => hmoved.elects.elected ▸ hk) rfl rfl
  | callRoles c =>
    obtain ⟨roles, hr, rfl⟩ := callRoles_eq_ok h
    have hr : s.authors.apply (c.1.withDuty (isIdle s)) = .ok roles := hr
    have helects := apply_elects (withDuty_holdsElections c.2) hr
    exact hs.of_kept (fun _ _ => id) rfl (fun k hk => helects.elected ▸ hk) rfl rfl

end Steps

theorem sourced_genesis (ledger : A.Ledger) (g : AuthorGenesis) (c : ChainGenesis) (hne : initial ≠ [])
    (hnodup : initial.Nodup) :
    (ChainState.genesis (T := P.chain) (AuthorState.genesis ledger g) initial c).Sourced initial [] := by
  have hfirst : Manned (P := P) initial [] initial := ⟨hne, hnodup, fun _ => .inl⟩
  exact ⟨fun _ _ h => (by cases h), fun _ h => (by cases h), fun _ h => (by cases h), hfirst, hfirst⟩

/-- When elections choose among the candidates, there are validators in every state of a run and others queued,
none twice, and each of them that is not a first validator has volunteered: it has signed for a key as an
available author, and later an affidavit under a key of its own was accepted. -/
theorem validators_volunteered {ledger : A.Ledger} {g : AuthorGenesis} {c : ChainGenesis}
    (hmodel : ∀ candidates, ∀ who ∈ A.electionModel candidates, who ∈ candidates.map Prod.fst)
    (hne : initial ≠ []) (hnodup : initial.Nodup) (calls : List (ChainCall P.chain)) :
    (ChainState.after (T := P.chain) (AuthorState.genesis ledger g) initial c calls).Volunteers initial
      (history ChainState.apply (ChainState.genesis (T := P.chain) (AuthorState.genesis ledger g) initial c)
        calls) := by
  have hsourced := run_history_invariant (P := fun past s => ChainState.Sourced (P := P) initial past s)
    (fun _ _ _ _ hs h => hs.apply hmodel h) (sourced_genesis ledger g c hne hnodup) calls
  rw [List.nil_append] at hsourced
  exact ⟨hsourced.validators, hsourced.queued, fun who hw => hsourced.results _ (mem_reveal.mp hw)⟩

/-- The author that is elected and queued has volunteered. -/
theorem validators_volunteered_elected :
    (1 : Nat) ∈ (servingRun elected).queued ∧ Volunteered (P := chainParameters)
      (history ChainState.apply (ChainState.genesis (T := chainConfig)
        (AuthorState.genesis (T := authorConfig) fundedLedger plainGenesis) [9] plainChain) elected) (1 : Nat) := by
  have hqueued : (1 : Nat) ∈ (servingRun elected).queued := by decide +kernel
  have hall : (servingRun elected).Volunteers (P := chainParameters) [(9 : Nat)]
      (history ChainState.apply (ChainState.genesis (T := chainConfig)
        (AuthorState.genesis (T := authorConfig) fundedLedger plainGenesis) [9] plainChain) elected) :=
    validators_volunteered (fun _ _ h => topDownFair_mem h) (by decide) (by decide) elected
  refine ⟨hqueued, (hall.queued.volunteers 1 hqueued).resolve_left ?_⟩
  decide

end FrameSuite
