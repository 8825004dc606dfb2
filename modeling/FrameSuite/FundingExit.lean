import FrameSuite.AuthorFunding
import FrameSuite.AuthorRuntime

/-! Backers can always leave. Whatever happened to the parts of a target and to the authors behind it, the
target resolves to an author, the backer may withdraw, and the registry follows. -/

namespace FrameSuite

variable {T : AuthorConfig}

/-- A state, with the targets through which every backer placed and raised its live commitment. -/
structure Backing (T : AuthorConfig) where
  state : AuthorState T
  through : T.AccountId → List (FundingTarget T.AccountId)

def AuthorCall.recordTarget (through : T.AccountId → List (FundingTarget T.AccountId)) :
    AuthorCall T → T.AccountId → List (FundingTarget T.AccountId)
  | .back who via _ _ => Function.update through who (via :: through who)
  | .exit who _ => Function.update through who []
  | _ => through

def Backing.apply (b : Backing T) (call : AuthorCall T) : Except AuthorError (Backing T) := do
  let state ← b.state.apply call
  pure { state, through := call.recordTarget b.through }

def Backing.genesis (ledger : T.Ledger) (g : AuthorGenesis) : Backing T :=
  { state := AuthorState.genesis ledger g, through := fun _ => [] }

def Backing.after (ledger : T.Ledger) (g : AuthorGenesis) (calls : List (AuthorCall T)) : Backing T :=
  run Backing.apply (Backing.genesis ledger g) calls

/-- The authors pallet has no objection to the exit of the backer, which fails only with the error
of the commitment's resolution. -/
structure LeavesFreely (s : AuthorState T) (who : T.AccountId) (via : FundingTarget T.AccountId) : Prop where
  resolves : ∃ author funder, resolveTarget s who via = .ok (author, funder) ∧ canDraw s funder author = .ok ()
  leaves : ∀ c amount, resolveCommit s.commitment who T.authorFunding = .ok (c, amount) →
    ∃ s', exitTarget s who via = .ok s' ∧ s'.commitment = c
  fails : ∀ e, resolveCommit s.commitment who T.authorFunding = .error e →
    exitTarget s who via = .error (.commitment e)

section Leaving

variable {s : AuthorState T} {who author : T.AccountId} {funder : Funder T.AccountId}

theorem forAuthors_ok (op : FunderMap T → T.AccountId → FunderMap T) {digests : List T.AccountId}
    (h : ∀ d ∈ digests, ∃ a, s.authorsDigest.get d = some a) : ∃ s', forAuthors op digests s = .ok s' := by
  induction digests generalizing s with
  | nil => exact ⟨s, rfl⟩
  | cons digest digests ih =>
    obtain ⟨a, ha⟩ := h digest (List.mem_cons_self ..)
    obtain ⟨s', hs'⟩ := ih (s := { s with authorFunders := op s.authorFunders a })
      fun d hd => h d (List.mem_cons_of_mem _ hd)
    refine ⟨s', ?_⟩
    rw [forAuthors, ha]
    exact hs'

theorem getEntriesShares_of_entries {i : T.AccountId} {es : List T.AccountId} (h : s.registry.entries i = some es) :
    ∃ shares, getEntriesShares s.commitment T.authorFunding i = .ok shares ∧ shares.map Prod.fst = es := by
  obtain ⟨info, hi, rfl⟩ := Option.map_eq_some_iff.mp h
  refine ⟨info.entries.list.map fun entry => (entry.digest, entry.shares), ?_, by simp [Function.comp_def]⟩
  unfold getEntriesShares getIndex
  rw [hi]
  rfl

theorem getSlotsShares_of_slots {p : T.AccountId} {es : List T.AccountId} (h : s.registry.slots p = some es) :
    ∃ shares, getSlotsShares s.commitment T.authorFunding p = .ok shares ∧ shares.map Prod.fst = es := by
  obtain ⟨pool, hp, rfl⟩ := Option.map_eq_some_iff.mp h
  refine ⟨pool.slots.map fun slot => (slot.digest, slot.shares), ?_, by simp [Function.comp_def]⟩
  unfold getSlotsShares getPool
  rw [hp]
  rfl

/-- All parts belong to authors, so that the registry can follow. -/
theorem updateFunders_ok (op : FunderMap T → T.AccountId → FunderMap T) {d : T.AccountId} (hs : s.registry.Sound)
    (h : s.registry.Stands author d funder) : ∃ s', updateFunders op s funder author = .ok s' := by
  obtain ⟨-, h⟩ := h
  cases funder with
  | direct b => exact ⟨_, rfl⟩
  | index i b =>
    obtain ⟨es, hes, -⟩ := h
    obtain ⟨shares, hshares, rfl⟩ := getEntriesShares_of_entries hes
    obtain ⟨s', hs'⟩ := forAuthors_ok (s := s) op fun e he => hs.known e ((hs.entries i _ hes).2 e he)
    exact ⟨s', bind_eq_ok.mpr ⟨shares, liftCommit_eq_ok.mpr hshares, hs'⟩⟩
  | pool p b =>
    obtain ⟨es, hes, -⟩ := h
    obtain ⟨shares, hshares, rfl⟩ := getSlotsShares_of_slots hes
    obtain ⟨s', hs'⟩ := forAuthors_ok (s := s) op fun e he => hs.known e ((hs.slots p _ hes).2 e he)
    exact ⟨s', bind_eq_ok.mpr ⟨shares, liftCommit_eq_ok.mpr hshares, hs'⟩⟩

theorem firstAuthor_ok {shares : List (T.AccountId × Nat)} (hs : s.registry.Sound) (hne : shares.map Prod.fst ≠ [])
    (hk : ∀ d ∈ shares.map Prod.fst, s.registry.known d = true) :
    ∃ author d, firstAuthor s shares = .ok author ∧ d ∈ shares.map Prod.fst ∧
      s.registry.digestOf author = some d := by
  cases shares with
  | nil => exact absurd rfl hne
  | cons first rest =>
    have hmem : first.1 ∈ (first :: rest).map Prod.fst := List.mem_map_of_mem (List.mem_cons_self ..)
    obtain ⟨author, ha, hd⟩ := hs.author_of_part (hk _ hmem)
    have hget : s.authorsDigest.get first.1 = some author := ha
    refine ⟨author, first.1, ?_, hmem, hd⟩
    unfold firstAuthor
    simp only [List.head?_cons, Option.map_some, okOr, bind, Except.bind, hget]

theorem resolveTarget_ok {via : FundingTarget T.AccountId} (hs : s.registry.Sound) (h : s.registry.Fits who via) :
    ∃ author funder d, resolveTarget s who via = .ok (author, funder) ∧ s.registry.Stands author d funder ∧
      s.registry.target who = some (funder.towards d) := by
  cases via with
  | direct a =>
    obtain ⟨d, hd, ht⟩ := h
    exact ⟨a, .direct who, d, rfl, ⟨hd, trivial⟩, ht⟩
  | index i =>
    obtain ⟨ht, hes⟩ := h
    obtain ⟨es, hes⟩ := Option.ne_none_iff_exists'.mp hes
    obtain ⟨hne, hk⟩ := hs.entries i es hes
    obtain ⟨shares, hshares, rfl⟩ := getEntriesShares_of_entries hes
    obtain ⟨author, d, hfirst, hmem, hd⟩ := firstAuthor_ok hs hne hk
    refine ⟨author, .index i who, d, ?_, ⟨hd, _, hes, hmem⟩, ht⟩
    exact bind_eq_ok.mpr ⟨shares, liftCommit_eq_ok.mpr hshares, bind_eq_ok.mpr ⟨author, hfirst, rfl⟩⟩
  | pool p =>
    obtain ⟨ht, hes⟩ := h
    obtain ⟨es, hes⟩ := Option.ne_none_iff_exists'.mp hes
    obtain ⟨hne, hk⟩ := hs.slots p es hes
    obtain ⟨shares, hshares, rfl⟩ := getSlotsShares_of_slots hes
    obtain ⟨author, d, hfirst, hmem, hd⟩ := firstAuthor_ok hs hne hk
    refine ⟨author, .pool p who, d, ?_, ⟨hd, _, hes, hmem⟩, ht⟩
    exact bind_eq_ok.mpr ⟨shares, liftCommit_eq_ok.mpr hshares, bind_eq_ok.mpr ⟨author, hfirst, rfl⟩⟩

theorem exitTarget_of_resolved {via : FundingTarget T.AccountId} (hr : resolveTarget s who via = .ok (author, funder))
    (hcan : canDraw s funder author = .ok ()) {c : State T.toConfig} {amount : Nat}
    (hc : resolveCommit s.commitment funder.backer T.authorFunding = .ok (c, amount)) {s' : AuthorState T}
    (hu : updateFunders (fun m a => m.remove (a, funder.backer)) { s with commitment := c } funder author = .ok s') :
    exitTarget s who via = .ok s' := by
  have hon : (s.onCommitment fun c => resolveCommit c funder.backer T.authorFunding) =
      .ok ({ s with commitment := c }, amount) :=
    bind_eq_ok.mpr ⟨(c, amount), liftCommit_eq_ok.mpr hc, rfl⟩
  have hdraw : draw s author funder = .ok (s', amount) :=
    bind_eq_ok.mpr ⟨(), hcan, bind_eq_ok.mpr ⟨_, hon, bind_eq_ok.mpr ⟨s', hu, rfl⟩⟩⟩
  exact bind_eq_ok.mpr ⟨_, hr, bind_eq_ok.mpr ⟨_, hdraw, rfl⟩⟩

theorem leavesFreely_of_fits {via : FundingTarget T.AccountId} (hs : s.registry.Sound)
    (h : s.registry.Fits who via) : LeavesFreely s who via := by
  obtain ⟨author, funder, d, hr, hst, ht⟩ := resolveTarget_ok hs h
  have hb := resolveTarget_funder hr
  have hcan : canDraw s funder author = .ok () := by
    obtain ⟨info, hi, hd⟩ := Option.map_eq_some_iff.mp hst.1
    exact (canDraw_spec hi).mpr (hd ▸ ⟨hst, hb ▸ ht⟩)
  refine ⟨⟨author, funder, hr, hcan⟩, fun c amount hc => ?_, fun e he => ?_⟩
  · rw [← hb] at hc
    obtain ⟨-, hremoved⟩ := resolveCommit_removed hc
    have hreg := registry_of_removed hremoved
    have hsound : ({ s with commitment := c } : AuthorState T).registry.Sound := by
      rw [hreg]
      exact ⟨hs.authors, hs.owned, hs.known, hs.entries, hs.slots⟩
    have hstands : ({ s with commitment := c } : AuthorState T).registry.Stands author d funder :=
      hst.of_same (by rw [hreg]) (by rw [hreg]) (by rw [hreg])
    obtain ⟨s', hu⟩ := updateFunders_ok (fun m a => m.remove (a, funder.backer)) hsound hstands
    obtain ⟨m, rfl⟩ := updateFunders_eq_ok hu
    exact ⟨_, exitTarget_of_resolved hr hcan hc hu, rfl⟩
  · unfold exitTarget draw
    rw [hr]
    simp only [bind, Except.bind, hcan, AuthorState.onCommitment, hb, he, liftCommit, Except.mapError]

end Leaving

section Runs

variable {s s' : AuthorState T} {who : T.AccountId}

theorem back_fits {via : FundingTarget T.AccountId} {value : Nat} {q : Directive}
    (h : back s who via value q = .ok s') : s'.registry.Fits who via := by
  obtain ⟨author, funder, actual, hr, hf⟩ := back_eq_ok h
  have hb := resolveTarget_funder hr
  obtain ⟨-, d, ⟨hd, hst⟩, ht⟩ := fund_step hf
  rw [hb] at ht
  cases via with
  | direct a =>
    cases hr
    exact ⟨d, hd, ht⟩
  | index i =>
    obtain ⟨shares, -, hr⟩ := bind_eq_ok.mp hr
    obtain ⟨a, -, hr⟩ := bind_eq_ok.mp hr
    cases pure_eq_ok.mp hr
    obtain ⟨es, hes, -⟩ := hst
    exact ⟨ht, by simp [hes]⟩
  | pool p =>
    obtain ⟨shares, -, hr⟩ := bind_eq_ok.mp hr
    obtain ⟨a, -, hr⟩ := bind_eq_ok.mp hr
    cases pure_eq_ok.mp hr
    obtain ⟨es, hes, -⟩ := hst
    exact ⟨ht, by simp [hes]⟩

theorem action_eq_exit {call : AuthorCall T} (h : call.action s = .exit who) : ∃ target, call = .exit who target := by
  cases call with
  | exit w target =>
    obtain rfl := RegistryAction.exit.inj h
    exact ⟨target, rfl⟩
  | updateEntryShares | updateSlotShares =>
    simp only [AuthorCall.action] at h
    split at h <;> cases h
  | _ => cases h

theorem action_eq_back {call : AuthorCall T} (h : call.action s = .back who) :
    ∃ via value q, call = .back who via value q := by
  cases call with
  | back w via value q =>
    obtain rfl := RegistryAction.back.inj h
    exact ⟨via, value, q, rfl⟩
  | updateEntryShares | updateSlotShares =>
    simp only [AuthorCall.action] at h
    split at h <;> cases h
  | _ => cases h

variable {through : T.AccountId → List (FundingTarget T.AccountId)} {call : AuthorCall T}
  {via : FundingTarget T.AccountId}

theorem mem_recordTarget (h : via ∈ call.recordTarget through who) :
    (∃ value q, call = .back who via value q) ∨ (via ∈ through who ∧ ∀ target, call ≠ .exit who target) := by
  cases call with
  | back w via' value q =>
    by_cases hw : who = w
    · subst hw
      rw [AuthorCall.recordTarget, Function.update_self] at h
      rcases List.mem_cons.mp h with rfl | h
      · exact .inl ⟨value, q, rfl⟩
      · exact .inr ⟨h, fun _ => nofun⟩
    · rw [AuthorCall.recordTarget, Function.update_of_ne hw] at h
      exact .inr ⟨h, fun _ => nofun⟩
  | exit w target =>
    by_cases hw : who = w
    · subst hw
      rw [AuthorCall.recordTarget, Function.update_self] at h
      cases h
    · rw [AuthorCall.recordTarget, Function.update_of_ne hw] at h
      exact .inr ⟨h, fun t ht => hw (AuthorCall.exit.inj ht).1.symm⟩
  | _ => exact .inr ⟨h, fun _ => nofun⟩

theorem recordTarget_ne_nil (h : (∃ via value q, call = .back who via value q) ∨
    (through who ≠ [] ∧ ∀ target, call ≠ .exit who target)) : call.recordTarget through who ≠ [] := by
  cases call with
  | back w via' value q =>
    by_cases hw : who = w
    · subst hw
      simp [AuthorCall.recordTarget]
    · rw [AuthorCall.recordTarget, Function.update_of_ne hw]
      rcases h with ⟨_, _, _, he⟩ | ⟨hne, -⟩
      · exact absurd (AuthorCall.back.inj he).1.symm hw
      · exact hne
  | exit w target =>
    rcases h with ⟨_, _, _, he⟩ | ⟨hne, hexit⟩
    · cases he
    · have hw : who ≠ w := by
        rintro rfl
        exact hexit target rfl
      rwa [AuthorCall.recordTarget, Function.update_of_ne hw]
  | _ =>
    rcases h with ⟨_, _, _, he⟩ | ⟨hne, -⟩
    · cases he
    · exact hne

/-- Every backer with a live commitment has a target for it, and all its targets fit. -/
structure Backing.Fitting (b : Backing T) : Prop where
  sound : b.state.registry.Sound
  fits : ∀ who, ∀ via ∈ b.through who, b.state.registry.Fits who via
  placed : ∀ who, b.state.registry.target who ≠ none → b.through who ≠ []

theorem Backing.apply_eq_ok {b b' : Backing T} (h : b.apply call = .ok b') :
    ∃ s, b.state.apply call = .ok s ∧ b' = ⟨s, call.recordTarget b.through⟩ := by
  obtain ⟨s, hs, h⟩ := bind_eq_ok.mp h
  exact ⟨s, hs, (pure_eq_ok.mp h).symm⟩

theorem Backing.Fitting.apply {b b' : Backing T} (hb : b.Fitting) (h : b.apply call = .ok b') : b'.Fitting := by
  obtain ⟨s, hs, rfl⟩ := Backing.apply_eq_ok h
  have hstep := apply_registryStep hb.sound hs
  have hexit {who : T.AccountId} (hne : ∀ target, call ≠ .exit who target) : call.action b.state ≠ .exit who := by
    intro he
    obtain ⟨target, hcall⟩ := action_eq_exit he
    exact hne target hcall
  refine ⟨hstep.sound hb.sound, fun who via hvia => ?_, fun who hlive => ?_⟩
  · rcases mem_recordTarget hvia with ⟨value, q, rfl⟩ | ⟨hold, hne⟩
    · exact back_fits hs
    · exact hstep.fits (hexit hne) (hb.fits who via hold)
  · refine recordTarget_ne_nil ?_
    by_cases hback : call.action b.state = .back who
    · exact .inl (action_eq_back hback)
    · have hne (target : FundingTarget T.AccountId) : call ≠ .exit who target := by
        rintro rfl
        exact hlive hstep.target_exit
      refine .inr ⟨hb.placed who ?_, hne⟩
      rwa [← hstep.target_eq hback (hexit hne)]

theorem Backing.fitting_after (ledger : T.Ledger) (g : AuthorGenesis) (calls : List (AuthorCall T)) :
    (Backing.after ledger g calls).Fitting := by
  refine run_invariant (fun b call b' hb h => hb.apply h) ⟨registrySound_genesis ledger g, ?_, ?_⟩ calls
  · exact fun _ _ h => nomatch h
  · exact fun _ h => absurd rfl h

theorem Backing.after_state (ledger : T.Ledger) (g : AuthorGenesis) (calls : List (AuthorCall T)) :
    (Backing.after ledger g calls).state = AuthorState.after ledger g calls := by
  have hview (b : Backing T) (call : AuthorCall T) : (b.apply call).map Backing.state = b.state.apply call := by
    unfold Backing.apply
    cases b.state.apply call <;> rfl
  exact run_map hview _ calls

/-- Every backer with a live commitment may leave through each target it placed or raised it through. -/
theorem backer_leaves_freely {ledger : T.Ledger} {g : AuthorGenesis} {calls : List (AuthorCall T)} {who : T.AccountId}
    (hlive : (AuthorState.after ledger g calls).commitment.commitMap.containsKey (who, T.authorFunding) = true) :
    (Backing.after ledger g calls).through who ≠ [] ∧ ∀ via ∈ (Backing.after ledger g calls).through who,
      LeavesFreely (AuthorState.after ledger g calls) who via := by
  have hfit := Backing.fitting_after ledger g calls
  rw [← Backing.after_state] at hlive ⊢
  refine ⟨hfit.placed who ?_, fun via hvia => leavesFreely_of_fits hfit.sound (hfit.fits who via hvia)⟩
  obtain ⟨info, hi⟩ := StorageMap.containsKey_iff.mp hlive
  simp [AuthorState.registry, hi]

/-- The pool's manager took out the slot the commitment was placed through first. -/
theorem backer_leaves_changed_pool : LeavesFreely (authorRun (pooledAuthors ++ [weighs 70 51 0])) 4 (.pool 70) :=
  (@backer_leaves_freely authorConfig fundedLedger plainGenesis (pooledAuthors ++ [weighs 70 51 0]) (4 : Nat)
    (by decide +kernel)).2 _ (by decide +kernel)

end Runs

end FrameSuite
