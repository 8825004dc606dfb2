import FrameSuite.AuthorElections
import FrameSuite.AuthorLifecycle
import FrameSuite.ChainRuntime
import FrameSuite.ChainSteps

/-! Validators and those queued to become validators hold the role of an author in all runs in which no
author resigns that is queued or in the last result, and no election has a candidate that has resigned. -/

namespace FrameSuite

section Authors

variable {A : AuthorConfig} {s s' s'' : AuthorState A} {who : A.AccountId}

/-- Who is registered, who holds the role and the results of elections are the same. -/
structure DutiesKept (s s' : AuthorState A) : Prop where
  registered : ∀ who, s'.authorsMap.containsKey who = s.authorsMap.containsKey who
  roles : ∀ who, s'.inRole who ↔ s.inRole who
  elects : ElectsKept s s'
  block : s'.blockNumber = s.blockNumber

theorem DutiesKept.refl (s : AuthorState A) : DutiesKept s s := ⟨fun _ => rfl, fun _ => Iff.rfl, ⟨rfl, rfl⟩, rfl⟩

theorem DutiesKept.trans (h : DutiesKept s s') (h' : DutiesKept s' s'') : DutiesKept s s'' :=
  ⟨fun who => (h'.registered who).trans (h.registered who), fun who => (h'.roles who).trans (h.roles who),
    ⟨h'.elects.elected.trans h.elects.elected, h'.elects.recent.trans h.elects.recent⟩, h'.block.trans h.block⟩

theorem rewardKept_duties (s : AuthorState A) (who : A.AccountId) (value : Nat) :
    DutiesKept s (rewardKept s who value) := by
  unfold rewardKept
  cases h : securePermanence s who with
  | error e => exact .refl s
  | ok t =>
    obtain ⟨info, risk, hi, hstatus, -, rfl⟩ := securePermanence_eq_ok h
    have hset : DutiesKept s (s.setInfo who { info with riskUntil := risk }) := by
      refine ⟨fun a => ?_, inRole_setInfo hi hstatus hstatus, ⟨rfl, rfl⟩, rfl⟩
      exact Bool.eq_iff_iff.mpr (registered_setInfo hi a)
    dsimp only
    split
    · rename_i t block hb
      obtain rfl := scheduleReward_eq_ok hb
      exact hset.trans ⟨fun _ => rfl, fun _ => Iff.rfl, ⟨rfl, rfl⟩, rfl⟩
    · exact hset

theorem rewardsKept_duties (s : AuthorState A) (payees : List (A.AccountId × Nat)) :
    DutiesKept s (payees.foldl (fun roles p => rewardKept roles p.1 p.2) s) := by
  induction payees generalizing s with
  | nil => exact .refl s
  | cons p payees ih => exact (rewardKept_duties s p.1 p.2).trans (ih _)

end Authors

variable {A : AuthorConfig} {P : ChainParameters A} {s t : ChainState P.chain} {who : A.AccountId}
  {initial : List A.AccountId} {call : ChainCall P.chain}

def ChainState.authors (s : ChainState P.chain) : AuthorState A := s.roles

/-- The account holds the role of an author; only a first validator may never have been an author. -/
def ChainState.serves (s : ChainState P.chain) (initial : List A.AccountId) (who : A.AccountId) : Prop :=
  s.authors.inRole who ∨ who ∈ initial ∧ s.authors.authorsMap.containsKey who = false

/-- Every validator, everyone queued and everyone a new session would return has a live role. -/
structure ChainState.LiveRoles (s : ChainState P.chain) (initial : List A.AccountId) : Prop where
  validators : ∀ who ∈ s.validators, s.serves initial who
  queued : ∀ who ∈ s.queued, s.serves initial who
  revealed : ∀ who ∈ (reveal s.authors).getD [], s.authors.inRole who

/-- A resignation is not of an author queued or in the last result, and an election has all its candidates, the
authors with an affidavit for the next session, in the role. -/
def ChainCall.leavesFree (s : ChainState P.chain) : ChainCall P.chain → Prop
  | .callRoles call => ∀ who, call.1.leaves who → who ∉ s.queued ∧ who ∉ (reveal s.authors).getD []
  | .dispatch _ (.elect _ _) =>
      ∀ who, s.authorAffidavits.containsKey (s.nextSession, who) = true → s.authors.inRole who
  | _ => True

/-- The invariant, with the bound on the blocks of results. -/
structure ChainState.DutiesLive (s : ChainState P.chain) (initial : List A.AccountId) : Prop extends
    s.LiveRoles initial where
  dated : ResultsDated s.authors

theorem dutiesLive_genesis (ledger : A.Ledger) (g : AuthorGenesis) (initial : List A.AccountId) (c : ChainGenesis) :
    (ChainState.genesis (T := P.chain) (AuthorState.genesis ledger g) initial c).DutiesLive initial := by
  have hserves (who) (hw : who ∈ initial) :
      (ChainState.genesis (T := P.chain) (AuthorState.genesis ledger g) initial c).serves initial who :=
        .inr ⟨hw, rfl⟩
  refine ⟨⟨hserves, hserves, fun who hw => ?_⟩, ⟨fun k h => ?_, Nat.le_refl _⟩⟩
  · cases mem_reveal.mp hw
  · cases h

/-- The account is a validator, queued or elected. -/
def ChainState.onDuty (s : ChainState P.chain) (who : A.AccountId) : Prop :=
  (who ∈ s.validators ∨ who ∈ s.queued) ∨ who ∈ (reveal s.authors).getD []

/-- What a call does to the roles of accounts, when the sessions stay as they are. -/
structure RolesMoved (s t : ChainState P.chain) : Prop where
  stays : ∀ who, s.onDuty who → s.authors.inRole who → t.authors.inRole who
  registers : ∀ who, t.authors.authorsMap.containsKey who = true →
    s.authors.authorsMap.containsKey who = true ∨ t.authors.inRole who
  elects : ElectsKept s.authors t.authors
  block : s.authors.blockNumber ≤ t.authors.blockNumber

theorem RolesMoved.of_duties (h : DutiesKept s.authors t.authors) : RolesMoved s t :=
  ⟨fun who _ => (h.roles who).mpr, fun who hr => .inl (h.registered who ▸ hr), h.elects, h.block.ge⟩

theorem RolesMoved.serves (h : RolesMoved s t) (hd : s.onDuty who) (hs : s.serves initial who) :
    t.serves initial who := by
  rcases hs with hrole | ⟨hi, hn⟩
  · exact .inl (h.stays who hd hrole)
  · by_cases hr : t.authors.authorsMap.containsKey who = true
    · rcases h.registers who hr with hold | hrole
      · rw [hn] at hold
        cases hold
      · exact .inl hrole
    · exact .inr ⟨hi, Bool.eq_false_iff.mpr hr⟩

theorem ChainState.DutiesLive.of_moved (hs : s.DutiesLive initial) (h : RolesMoved s t)
    (hv : t.validators = s.validators) (hq : t.queued = s.queued) : t.DutiesLive initial := by
  refine ⟨⟨fun who hw => ?_, fun who hw => ?_, fun who hw => ?_⟩, h.elects.dated h.block hs.dated⟩
  · rw [hv] at hw
    exact h.serves (.inl (.inl hw)) (hs.validators who hw)
  · rw [hq] at hw
    exact h.serves (.inl (.inr hw)) (hs.queued who hw)
  · rw [h.elects.reveal_eq] at hw
    exact h.stays who (.inr hw) (hs.revealed who hw)

theorem not_validator_of_idle (hr : s.authors.inRole who) (h : isIdle s who = none) : who ∉ s.validators := by
  have hconvert : convert s who = some who := by
    have hexists : P.chain.roleExists s.roles who = .ok () := ensure_eq_ok.mpr (inRole_registered hr)
    unfold convert
    rw [hexists]
  intro hv
  unfold isIdle at h
  rw [hconvert] at h
  simp [hv] at h

theorem withDuty_leaves {duty : A.AccountId → Option AuthorActivity} {c : AuthorCall A} :
    (c.withDuty duty).leaves who ↔ c.leaves who := by
  cases c <;> simp [AuthorCall.withDuty, AuthorCall.leaves]

theorem withDuty_holdsElections {duty : A.AccountId → Option AuthorActivity} {c : AuthorCall A}
    (hc : c.ofOthers = true) : (c.withDuty duty).holdsElections = false := by
  cases c <;> first | rfl | cases hc

theorem idle_of_leaves {duty : A.AccountId → Option AuthorActivity} {c : AuthorCall A} {r r' : AuthorState A}
    (hr : r.inRole who) (hl : c.leaves who) (h : r.apply (c.withDuty duty) = .ok r') : duty who = none := by
  rcases hl with ⟨d, rfl⟩ | ⟨d, rfl⟩
  · obtain ⟨⟨r1, refund⟩, h1, h⟩ := bind_eq_ok.mp h
    obtain ⟨info, c, -, -, hduty, -⟩ := resign_eq_ok h1
    exact hduty
  · exact leaves_idle hr h

theorem callRoles_moved {c : P.chain.RoleCall} (h : s.apply (.callRoles c) = .ok t)
    (hq : ChainCall.leavesFree s (.callRoles c)) : RolesMoved s t := by
  obtain ⟨roles, hr, rfl⟩ := callRoles_eq_ok h
  have hr : s.authors.apply (c.1.withDuty (isIdle s)) = .ok roles := hr
  refine ⟨fun who hd hrole => ?_, fun who => ?_, apply_elects (withDuty_holdsElections c.2) hr, apply_block_le hr⟩
  · refine (apply_roleMoved hr who).stays (fun hl => ?_) hrole
    have hl := withDuty_leaves.mp hl
    obtain ⟨hnq, hne⟩ := hq who hl
    rcases hd with (hv | hw) | hw
    · exact not_validator_of_idle hrole (idle_of_leaves hrole hl hr) hv
    · exact hnq hw
    · exact hne hw
  · exact (apply_roleMoved hr who).registers

theorem enterBlock_moved {author : Option A.AccountId} (h : s.enterBlock author = .ok t) : RolesMoved s t := by
  obtain ⟨roles, points, hr, rfl⟩ := chainEnterBlock_eq_ok h
  have hr : s.authors.apply .enterBlock = .ok roles := hr
  have hstays : ∀ who, ¬AuthorCall.leaves (T := A) .enterBlock who := by
    rintro who (⟨d, hd⟩ | ⟨d, hd⟩)
    · cases hd
    · cases hd
  exact ⟨fun who _ => (apply_roleMoved hr who).stays (hstays who), fun who => (apply_roleMoved hr who).registers,
    apply_elects rfl hr, apply_block_le hr⟩

theorem mem_prepareCandidates (h : who ∈ (prepareCandidates s).map Prod.fst) :
    s.authorAffidavits.containsKey (s.nextSession, who) = true := by
  obtain ⟨⟨a, weights⟩, ha, rfl⟩ := List.mem_map.mp h
  obtain ⟨⟨b, record⟩, hb, he⟩ := List.mem_map.mp ha
  obtain ⟨rfl, -⟩ := Prod.mk.inj he
  exact StorageMap.containsKey_iff.mpr ⟨record, StorageMap.mem_iterPrefix.mp hb⟩

theorem ChainState.DutiesLive.elect {runners : StorageMap Nat (A.AccountId × Nat)}
    (hmodel : ∀ candidates, ∀ who ∈ A.electionModel candidates, who ∈ candidates.map Prod.fst)
    (hcandidates : ∀ who, s.authorAffidavits.containsKey (s.nextSession, who) = true → s.authors.inRole who)
    (hs : s.DutiesLive initial) : ChainState.DutiesLive (P := P) (A := A) { s with
      roles := prepareElects s.authors (prepareCandidates s)
      electsPreparedBy := runners } initial := by
  obtain ⟨hroles, hdated, hreveal⟩ := prepareElects_spec s.authors (prepareCandidates s) hs.dated
  have hserves (who) (h : s.serves initial who) : ChainState.serves (P := P) (A := A) { s with
      roles := prepareElects s.authors (prepareCandidates s)
      electsPreparedBy := runners } initial who := by
    refine h.imp (hroles.inRole who).mpr fun hn => ⟨hn.1, ?_⟩
    change (prepareElects s.authors (prepareCandidates s)).authorsMap.containsKey who = false
    rw [hroles.infos]
    exact hn.2
  refine ⟨⟨fun who hw => hserves who (hs.validators who hw), fun who hw => hserves who (hs.queued who hw),
    fun who hw => (hroles.inRole who).mpr ?_⟩, hdated⟩
  rcases hreveal who hw with hold | hnew
  · exact hs.revealed who hold
  · exact hcandidates who (mem_prepareCandidates (hmodel _ who hnew))

theorem rewardAuthors_duties (s : ChainState P.chain) : DutiesKept s.authors (rewardAuthors s).authors := by
  unfold rewardAuthors
  dsimp only
  split
  · exact .refl _
  · exact rewardsKept_duties _ _

theorem mem_revealed {elected : List A.AccountId} (h : revealed t = some elected) (hw : who ∈ elected) :
    who ∈ (reveal t.authors).getD [] := by
  have hreveal : reveal t.authors = some elected := (Option.filter_eq_some_iff.mp h).1
  rw [hreveal]
  exact hw

/-- The queued become the validators. -/
theorem ChainState.DutiesLive.rotate (hs : s.DutiesLive initial) (h : SessionRotated s t) : t.DutiesLive initial := by
  have hduties : DutiesKept s.authors t.authors := by
    have hr : t.authors = (rewardAuthors s).authors := h.roles
    rw [hr]
    exact rewardAuthors_duties s
  have hmoved := RolesMoved.of_duties hduties
  have hvalidators (who) (hw : who ∈ s.queued) : t.serves initial who :=
    hmoved.serves (.inl (.inr hw)) (hs.queued who hw)
  have hrevealed (who) (hw : who ∈ (reveal t.authors).getD []) : t.authors.inRole who := by
    rw [hduties.elects.reveal_eq] at hw
    exact (hduties.roles who).mpr (hs.revealed who hw)
  refine ⟨⟨fun who hw => hvalidators who (h.validators ▸ hw), fun who hw => ?_, hrevealed⟩,
    hduties.elects.dated hduties.block.ge hs.dated⟩
  · rw [h.queued] at hw
    cases hr : revealed t with
    | none =>
      rw [hr] at hw
      exact hvalidators who hw
    | some elected =>
      rw [hr] at hw
      exact .inl (hrevealed who (mem_revealed hr hw))

theorem ChainState.DutiesLive.apply (hmodel : ∀ candidates, ∀ who ∈ A.electionModel candidates,
    who ∈ candidates.map Prod.fst)
    (hs : s.DutiesLive initial) (hq : call.leavesFree s) (h : s.apply call = .ok t) : t.DutiesLive initial := by
  cases call with
  | dispatch origin extrinsic =>
    have hx := (dispatch_eq_ok h).1
    cases extrinsic with
    | validate signer signature =>
      obtain ⟨author, -, -, -, rfl⟩ := validate_eq_ok hx
      exact hs.of_moved (.of_duties (.refl _)) rfl rfl
    | declare signer rotate signature =>
      obtain ⟨-, -, author, weights, -, rfl⟩ := declare_eq_ok hx
      exact hs.of_moved (.of_duties (.refl _)) rfl rfl
    | elect signer signature =>
      obtain ⟨-, author, roles, -, -, -, hprepare, rfl⟩ := elect_eq_ok hx
      obtain rfl := Except.ok.inj hprepare
      exact hs.elect hmodel hq
    | chill affidavitPub =>
      obtain ⟨author, session, -, -, -, rfl⟩ := chill_eq_ok hx
      exact hs.of_moved (.of_duties (.refl _)) rfl rfl
  | forceGenesisConfig field =>
    have hf := forceGenesisConfig_eq_ok h
    have hduties : DutiesKept s.authors t.authors := by
      have hr : t.authors = s.authors := hf.roles
      rw [hr]
      exact .refl _
    exact hs.of_moved (.of_duties hduties) hf.validators hf.queued
  | rotateSession => exact hs.rotate (rotateSession_eq_ok h)
  | enterBlock author =>
    have hmoved := enterBlock_moved h
    obtain ⟨roles, points, -, rfl⟩ := chainEnterBlock_eq_ok h
    exact hs.of_moved hmoved rfl rfl
  | callRoles c =>
    have hmoved := callRoles_moved h hq
    obtain ⟨roles, -, rfl⟩ := callRoles_eq_ok h
    exact hs.of_moved hmoved rfl rfl

/-- When elections choose among the candidates, every validator, everyone queued and everyone a new session
returns has a live role in all states of a run in which no author resigns from a duty. -/
theorem roles_live {ledger : A.Ledger} {g : AuthorGenesis} {c : ChainGenesis} {calls : List (ChainCall P.chain)}
    (hmodel : ∀ candidates, ∀ who ∈ A.electionModel candidates, who ∈ candidates.map Prod.fst)
    (h : RunMeets ChainState.apply (fun s call => ChainCall.leavesFree (P := P) s call)
      (ChainState.genesis (AuthorState.genesis ledger g) initial c) calls) :
    ∀ pre, pre <+: calls →
      ChainState.LiveRoles (P := P) (ChainState.after (T := P.chain)
        (AuthorState.genesis ledger g) initial c pre) initial := by
  intro pre hpre
  obtain ⟨rest, rfl⟩ := hpre
  have hlive := run_invariant_of_meets (P := fun s => ChainState.DutiesLive s initial)
    (fun s call t hs hq hok => hs.apply hmodel hq hok) (dutiesLive_genesis ledger g initial c) h.of_append.1
  exact hlive.toLiveRoles

theorem topDownFair_mem {maxAsset who : Nat} {candidates : Candidates Nat}
    (h : who ∈ topDownFair maxAsset candidates) :
    who ∈ candidates.map Prod.fst := by
  obtain ⟨item, hitem, rfl⟩ := List.mem_map.mp h
  have hperm := (List.mem_insertionSort _).mp hitem
  obtain ⟨candidate, hc, rfl⟩ := List.mem_map.mp hperm
  exact List.mem_map.mpr ⟨candidate, hc, rfl⟩

/-- A call of the authors pallet by somebody else than the chain manager. -/
def asks (call : AuthorCall authorConfig) (h : call.ofOthers = true) : ChainCall chainConfig := .callRoles ⟨call, h⟩

def demits (who : Nat) : ChainCall chainConfig := asks (.demit (T := authorConfig) who none) rfl

def entering : List (ChainCall chainConfig) :=
  [asks (enrolls 1 51) rfl, asks (enrolls 2 52) rfl, asks (backs 3 (.direct 1) 100) rfl,
    asks (backs 5 (.direct 2) 50) rfl,
    asks (confirms 1) rfl, asks (confirms 2) rfl]

/-- The first of two authors is elected and queued. -/
def elected : List (ChainCall chainConfig) := entering ++ electing ++ [elects 12, .rotateSession]

def servingRun (calls : List (ChainCall chainConfig)) : ChainState chainConfig :=
  ChainState.after (T := chainConfig)
    (AuthorState.genesis (T := authorConfig) fundedLedger plainGenesis) [9] plainChain calls

theorem oneSeat_le : plainGenesis.minElected ≤ 1 := Nat.le_refl _

/-- One author may be elected. -/
def oneSeat : AuthorGenesis := { plainGenesis with maxElected := 1, minElected_le := oneSeat_le }

/-- Two authors declare themselves for the one seat. -/
def contending : List (ChainCall chainConfig) :=
  entering ++ ([validates 1 11, validates 2 21] ++ blocksBy 2 6 ++ [declares 21 22, declares 11 12])

def contendingRun (calls : List (ChainCall chainConfig)) : ChainState chainConfig :=
  ChainState.after (T := chainConfig)
    (AuthorState.genesis (T := authorConfig) fundedLedger oneSeat) [9] plainChain calls

theorem leavesFree_contending : ∀ call ∈ contending, ∀ s, ChainCall.leavesFree (P := chainParameters) s call := by
  rw [contending, List.forall_mem_append]
  constructor
  · -- None of the first calls is a resignation.
    simp only [entering, List.forall_mem_cons]
    refine ⟨?_, ?_, ?_, ?_, ?_, ?_, nofun⟩
    all_goals
      rintro s who (⟨duty, hd⟩ | ⟨duty, hd⟩)
      · cases hd
      · cases hd
  · simp only [blocksBy, List.replicate, List.cons_append, List.nil_append, List.forall_mem_cons]
    exact ⟨fun _ => trivial, fun _ => trivial, fun _ => trivial, fun _ => trivial, fun _ => trivial, fun _ => trivial,
      fun _ => trivial, fun _ => trivial, fun _ => trivial, fun _ => trivial, nofun⟩

theorem inRole_contending {who : Nat} (h : who = 1 ∨ who = 2) :
    AuthorState.inRole (T := authorConfig) (ChainState.authors (P := chainParameters) (contendingRun contending))
      who := by
  have hactive : statusOf (ChainState.authors (P := chainParameters) (contendingRun contending)) who =
      some .active := by
    rcases h with rfl | rfl <;> decide +kernel
  obtain ⟨info, hi, hstatus⟩ := Option.map_eq_some_iff.mp hactive
  refine ⟨⟨info, hi, ?_⟩, ?_⟩
  · rw [hstatus]
    decide
  · rcases h with rfl | rfl <;> decide +kernel

/-- The candidate that lost the election may resign after the window, before the other one becomes a validator. -/
theorem roles_live_with_resignation :
    ChainState.LiveRoles (P := chainParameters)
      (contendingRun (contending ++ elects 22 :: blocksBy 2 3 ++ [demits 2, .rotateSession, .rotateSession]))
      [(9 : Nat)] := by
  have hcontending : RunMeets ChainState.apply (fun s call => ChainCall.leavesFree (P := chainParameters) s call)
      (ChainState.genesis (T := chainConfig) (AuthorState.genesis (T := authorConfig) fundedLedger oneSeat) [9]
        plainChain) contending :=
    RunMeets.mono (fun s _ h => h s) (RunMeets.of_forall leavesFree_contending _)
  have helects (t : ChainState chainConfig) (_ : (contendingRun contending).apply (elects 22) = .ok t) :
      ChainCall.leavesFree (P := chainParameters) (contendingRun contending) (elects 22) := by
    intro who hw
    have hkeys : ∀ k ∈ (contendingRun contending).authorAffidavits.keys, k.2 = (1 : Nat) ∨ k.2 = (2 : Nat) := by
      decide +kernel
    exact inRole_contending (StorageMap.forall_containsKey hkeys hw)
  have hleaves (t : ChainState chainConfig)
      (_ : (contendingRun (contending ++ elects 22 :: blocksBy 2 3)).apply (demits 2) = .ok t) :
      ChainCall.leavesFree (P := chainParameters) (contendingRun (contending ++ elects 22 :: blocksBy 2 3))
        (demits 2) := by
    intro who hl
    have hwho : who = (2 : Nat) := by
      rcases hl with ⟨duty, hd⟩ | ⟨duty, hd⟩
      · cases hd
        rfl
      · cases hd
    subst hwho
    change (2 : Nat) ∉ (contendingRun (contending ++ elects 22 :: blocksBy 2 3)).queued ∧
      (2 : Nat) ∉ (reveal (T := authorConfig)
        (contendingRun (contending ++ elects 22 :: blocksBy 2 3)).roles).getD []
    decide +kernel
  have helected : RunMeets ChainState.apply (fun s call => ChainCall.leavesFree (P := chainParameters) s call)
      (ChainState.genesis (T := chainConfig) (AuthorState.genesis (T := authorConfig) fundedLedger oneSeat) [9]
        plainChain) (contending ++ elects 22 :: blocksBy 2 3) :=
    hcontending.append ⟨helects, fun _ _ => trivial, fun _ _ => trivial, fun _ _ => trivial, trivial⟩
  have hmeets : RunMeets ChainState.apply (fun s call => ChainCall.leavesFree (P := chainParameters) s call)
      (ChainState.genesis (T := chainConfig) (AuthorState.genesis (T := authorConfig) fundedLedger oneSeat) [9]
        plainChain) (contending ++ elects 22 :: blocksBy 2 3 ++ [demits 2, .rotateSession, .rotateSession]) :=
    helected.append ⟨hleaves, fun _ _ => trivial, fun _ _ => trivial, trivial⟩
  exact roles_live (fun _ _ h => topDownFair_mem h) hmeets _ List.prefix_rfl

example : statusOf (ChainState.authors (P := chainParameters)
    (contendingRun (contending ++ elects 22 :: blocksBy 2 3 ++ [demits 2]))) 2 = some .resigned := by
  decide +kernel

/-- An author resigns while it is queued, before the affidavits of the next session begin. -/
theorem queued_author_resigns :
    ¬ChainState.LiveRoles (P := chainParameters) (servingRun (elected ++ [demits 1])) [(9 : Nat)] := by
  intro h
  have hqueued : (1 : Nat) ∈ (servingRun (elected ++ [demits 1])).queued := by decide +kernel
  have hstatus : statusOf (ChainState.authors (P := chainParameters)
    (servingRun (elected ++ [demits 1]))) 1 = some .resigned := by
    decide +kernel
  rcases h.queued _ hqueued with hrole | ⟨hnine, -⟩
  · obtain ⟨info, hi, hne⟩ := hrole.1
    rw [statusOf_of_get hi] at hstatus
    exact hne (Option.some.inj hstatus)
  · exact absurd hnine (by decide)

end FrameSuite
