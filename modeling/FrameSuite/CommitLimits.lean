import FrameSuite.AuthorFunding
import FrameSuite.IndexSplit

/-! Enlisting and backing under whatever limits the commitment pallet reports and the authors ask for. The
share balance reports none and no call sets those of an author, so that the authors pallet is one case. -/

namespace FrameSuite

variable {T : AuthorConfig}

/-- The limits of a first deposit and of a further one under a directive. -/
structure CommitLimits (T : AuthorConfig) where
  place : State T.toConfig → T.AccountId → T.Reason → T.AccountId → Directive → Except DispatchError Limits
  raise : State T.toConfig → T.AccountId → T.Reason → Directive → Except DispatchError Limits

def CommitLimits.ofPallet : CommitLimits T where
  place c _ reason digest _ := .ok (placeCommitLimits c reason digest)
  raise c who reason _ := raiseCommitLimits c who reason

section Calls

variable (L : CommitLimits T) (s : AuthorState T)

/-- Collateral outside the limits is replaced by the minimum. -/
def enrollWithin (who : T.AccountId) (collateral : Nat) (fortitude : Fortitude) (generated : T.AccountId) :
    Except AuthorError (AuthorState T × Nat) := do
  canEnroll s who collateral
  let info := enrollInfo s who generated
  let qualifier : Directive := { precision := .exact, fortitude }
  let limits ← liftCommit (L.place s.commitment who T.authorCollateral info.digest qualifier)
  let placed := if limits.contains collateral then collateral else s.minCollateral
  let (s, actual) ← s.onCommitment fun c => placeCommit c who T.authorCollateral info.digest placed qualifier
  pure ({ s with
    authorsMap := s.authorsMap.insert who info
    authorsDigest := s.authorsDigest.insert info.digest who }, actual)

/-- The call with the collateral that it reports. -/
def enlistWithin (who : T.AccountId) (collateral : Nat) (fortitude : Fortitude) (generated : T.AccountId) :
    Except AuthorError (AuthorState T × Nat) := do
  ensure (s.minCollateral ≤ collateral) .inadequateCollateral
  enrollWithin L s who collateral fortitude generated

def fundingLimitsWithin (backer authorDigest : T.AccountId) (qualifier : Directive) : Except AuthorError Limits :=
  match commitExists s.commitment backer T.authorFunding with
  | .ok _ => do
    let existing ← liftCommit (getCommitDigest s.commitment backer T.authorFunding)
    ensure (existing = authorDigest) .fundedToAnotherDigest
    liftCommit (L.raise s.commitment backer T.authorFunding qualifier)
  | .error _ => liftCommit (L.place s.commitment backer T.authorFunding authorDigest qualifier)

def maxExposureWithin (funder : Funder T.AccountId) (author : T.AccountId) (qualifier : Directive) :
    Except AuthorError Nat := do
  let info ← getMeta s author
  let baseMax := min (info.maxFund.getD s.maxExposure) s.maxExposure
  match funder with
  | .direct backer => do
    let limits ← fundingLimitsWithin L s backer info.digest qualifier
    pure (min baseMax (limits.maximum.getD T.share.maxAsset))
  | _ => pure baseMax

def minFundWithin (funder : Funder T.AccountId) (author : T.AccountId) (qualifier : Directive) :
    Except AuthorError Nat := do
  let info ← getMeta s author
  let baseMin := max (info.minFund.getD s.minFund) s.minFund
  match funder with
  | .direct backer => do
    let limits ← fundingLimitsWithin L s backer info.digest qualifier
    pure (max baseMin (limits.minimum.getD 0))
  | _ => pure baseMin

/-- Only a direct backer is held to the limits of the author and of the commitment. -/
def canFundViaWithin (funder : Funder T.AccountId) (author authorDigest : T.AccountId) (value : Nat)
    (qualifier : Directive) : Except AuthorError Unit :=
  match funder with
  | .direct _ => do
    let least ← minFundWithin L s funder author qualifier
    ensure (least ≤ value) .belowMinimumFund
    let most ← maxExposureWithin L s funder author qualifier
    ensure (value ≤ most) .aboveMaximumExposure
  | .index digest _ => do
    ensure (s.minFund ≤ value) .belowMinimumFund
    ensure (value ≤ s.maxExposure) .aboveMaximumExposure
    liftCommit (entryExists s.commitment T.authorFunding digest authorDigest)
  | .pool digest _ => do
    ensure (s.minFund ≤ value) .belowMinimumFund
    ensure (value ≤ s.maxExposure) .aboveMaximumExposure
    liftCommit (slotExists s.commitment T.authorFunding digest authorDigest)

def canFundWithin (funder : Funder T.AccountId) (author : T.AccountId) (value : Nat) (qualifier : Directive) :
    Except AuthorError Unit := do
  isAvailable s author
  let info ← getMeta s author
  canFundViaWithin L s funder author info.digest value qualifier
  match commitExists s.commitment funder.backer T.authorFunding with
  | .ok _ => do
    let existing ← liftCommit (getCommitDigest s.commitment funder.backer T.authorFunding)
    ensure (existing = funder.towards info.digest) .fundedToAnotherDigest
  | .error _ => .ok ()

def fundWithin (author : T.AccountId) (funder : Funder T.AccountId) (value : Nat) (qualifier : Directive) :
    Except AuthorError (AuthorState T × Nat) := do
  canFundWithin L s funder author value qualifier
  let info ← getMeta s author
  let (s, actual) ← placeOrRaise s funder.backer (funder.towards info.digest) value qualifier
  let s ← updateFunders (fun m a => m.insert (a, funder.backer) funder) s funder author
  pure (s, actual)

/-- The call with the amount that it reports. -/
def backWithin (who : T.AccountId) (via : FundingTarget T.AccountId) (value : Nat) (qualifier : Directive) :
    Except AuthorError (AuthorState T × Nat) := do
  let (author, funder) ← resolveTarget s who via
  fundWithin L s author funder value qualifier

end Calls

/-- A call of the pallet, or a change of the limits of an author to any others. -/
inductive LimitedCall (T : AuthorConfig)
  | dispatch (call : AuthorCall T)
  | localLimits (who : T.AccountId) (minFund maxFund : Option Nat)

def LimitedCall.apply (L : CommitLimits T) (s : AuthorState T) : LimitedCall T → Except AuthorError (AuthorState T)
  | .dispatch (.enlist who collateral fortitude generated) => do
    let (s, _) ← enlistWithin L s who collateral fortitude generated
    pure s
  | .dispatch (.back who via value qualifier) => do
    let (s, _) ← backWithin L s who via value qualifier
    pure s
  | .dispatch call => s.apply call
  | .localLimits who minFund maxFund => do
    let info ← getMeta s who
    pure (s.setInfo who { info with minFund, maxFund })

section Pallet

variable (s : AuthorState T)

theorem enlistWithin_ofPallet (who : T.AccountId) (collateral : Nat) (fortitude : Fortitude)
    (generated : T.AccountId) : enlist s who collateral fortitude generated = (do
      let (s, _) ← enlistWithin .ofPallet s who collateral fortitude generated
      pure s) := by
  unfold enlist enlistWithin
  rw [bind_assoc]
  rfl

theorem fundWithin_ofPallet (author : T.AccountId) (funder : Funder T.AccountId) (value : Nat)
    (qualifier : Directive) :
    fund s author funder value qualifier = fundWithin .ofPallet s author funder value qualifier := rfl

theorem backWithin_ofPallet (who : T.AccountId) (via : FundingTarget T.AccountId) (value : Nat)
    (qualifier : Directive) : back s who via value qualifier = (do
      let (s, _) ← backWithin .ofPallet s who via value qualifier
      pure s) := by
  unfold back backWithin
  rw [bind_assoc]
  rfl

theorem apply_ofPallet (call : AuthorCall T) : s.apply call = LimitedCall.apply .ofPallet s (.dispatch call) := by
  cases call with
  | enlist who collateral fortitude generated => exact enlistWithin_ofPallet s who collateral fortitude generated
  | back who via value qualifier => exact backWithin_ofPallet s who via value qualifier
  | _ => rfl

end Pallet


section Outcomes

variable {L : CommitLimits T} {s s' : AuthorState T} {who author : T.AccountId} {value actual : Nat}

/-- The collateral that is placed: what was asked for, or the minimum when the limits do not contain it. -/
theorem enlistWithin_eq_ok {fortitude : Fortitude} {generated : T.AccountId}
    (h : enlistWithin L s who value fortitude generated = .ok (s', actual)) :
    s.minCollateral ≤ value ∧ ∃ limits, L.place s.commitment who T.authorCollateral
        (enrollInfo s who generated).digest { precision := .exact, fortitude } = .ok limits ∧
      placeCommit s.commitment who T.authorCollateral (enrollInfo s who generated).digest
        (if limits.contains value then value else s.minCollateral) { precision := .exact, fortitude } =
          .ok (s'.commitment, actual) := by
  obtain ⟨_, hmin, h⟩ := bind_eq_ok.mp h
  obtain ⟨_, -, h⟩ := bind_eq_ok.mp h
  obtain ⟨limits, hlimits, h⟩ := bind_eq_ok.mp h
  rw [liftCommit_eq_ok] at hlimits
  obtain ⟨⟨s1, placed⟩, h1, h⟩ := bind_eq_ok.mp h
  obtain ⟨c, hc, rfl⟩ := onCommitment_eq_ok h1
  simp only [pure_eq_ok, Prod.mk.injEq] at h
  obtain ⟨rfl, rfl⟩ := h
  exact ⟨ensure_eq_ok.mp hmin, limits, hlimits, hc⟩

theorem fundWithin_eq_ok {funder : Funder T.AccountId} {q : Directive}
    (h : fundWithin L s author funder value q = .ok (s', actual)) :
    ∃ info s₁, s.authorsMap.get author = some info ∧ canFundWithin L s funder author value q = .ok () ∧
      placeOrRaise s funder.backer (funder.towards info.digest) value q = .ok (s₁, actual) ∧
      s'.commitment = s₁.commitment := by
  obtain ⟨_, hcan, h⟩ := bind_eq_ok.mp h
  obtain ⟨info, hi, h⟩ := bind_eq_ok.mp h
  obtain ⟨⟨s₁, amount⟩, h₁, h⟩ := bind_eq_ok.mp h
  obtain ⟨s₂, h₂, h⟩ := bind_eq_ok.mp h
  simp only [pure_eq_ok, Prod.mk.injEq] at h
  obtain ⟨rfl, rfl⟩ := h
  obtain ⟨m, rfl⟩ := updateFunders_eq_ok h₂
  exact ⟨info, s₁, getMeta_eq_ok.mp hi, hcan, h₁, rfl⟩

end Outcomes

section Undivided

variable {C : Config} {c c' : State C} {reason : C.Reason}

/-- The reason has neither indexes nor pools, and every commit under it is direct. -/
def Undivided (c : State C) (reason : C.Reason) : Prop :=
  ∀ digest, c.indexMap.containsKey (reason, digest) = false ∧ c.poolMap.containsKey (reason, digest) = false

theorem Undivided.of_keys (h : Undivided c reason)
    (hi : ∀ digest, c'.indexMap.containsKey (reason, digest) = c.indexMap.containsKey (reason, digest))
    (hp : ∀ digest, c'.poolMap.containsKey (reason, digest) = c.poolMap.containsKey (reason, digest)) :
    Undivided c' reason :=
  fun digest => ⟨(hi digest).trans (h digest).1, (hp digest).trans (h digest).2⟩

theorem Undivided.of_same (h : Undivided c reason) (hs : SameTargets c c') : Undivided c' reason :=
  h.of_keys (fun digest => hs.indexKeys (reason, digest)) fun digest => hs.poolKeys (reason, digest)

theorem Undivided.digestModel_eq (h : Undivided c reason) (digest : C.AccountId) :
    digestModel c digest reason = .direct digest := by
  rcases digestModel_cases c digest reason with ⟨hm, -⟩ | ⟨-, hk⟩ | ⟨-, hk⟩
  · exact hm
  · rw [(h digest).1] at hk
    cases hk
  · rw [(h digest).2] at hk
    cases hk

theorem Undivided.initiate {reason' : C.Reason} {digest : C.AccountId} (h : Undivided c reason) :
    Undivided (initiateDigest c reason' digest) reason := by
  unfold initiateDigest
  split <;> exact h

theorem Undivided.placed {who : C.AccountId} {reason' : C.Reason} {digest : C.AccountId} {value amount : Nat}
    {q : Directive} (h : Undivided c reason) (hc : placeCommit c who reason' digest value q = .ok (c', amount)) :
    Undivided c' reason := by
  obtain ⟨-, hw | ⟨-, hw⟩⟩ := placeCommit_written hc
  · exact h.of_same hw.toSameTargets
  · exact h.initiate.of_same hw.toSameTargets

theorem Undivided.raised {who : C.AccountId} {reason' : C.Reason} {value amount : Nat} {q : Directive}
    (h : Undivided c reason) (hc : raiseCommit c who reason' value q = .ok (c', amount)) : Undivided c' reason := by
  obtain ⟨_, -, hw⟩ := raiseCommit_written hc
  exact h.of_same hw.toSameTargets

theorem Undivided.resolved {who : C.AccountId} {reason' : C.Reason} {amount : Nat} (h : Undivided c reason)
    (hc : resolveCommit c who reason' = .ok (c', amount)) : Undivided c' reason :=
  h.of_same (resolveCommit_removed hc).2.toSameTargets

theorem Undivided.setIndex {reason' : C.Reason} {index : IndexInfo C} {generated : C.AccountId}
    (h : Undivided c reason) (hne : reason ≠ reason') (hc : setIndex c reason' index generated = .ok c') :
    Undivided c' reason := by
  obtain ⟨-, rfl⟩ := setIndex_spec hc
  exact h.of_keys (fun digest => containsKey_insert_of_ne fun he => hne (Prod.mk.inj he).1) fun _ => rfl

end Undivided

section Collateral

variable {s s' : AuthorState T} {who : T.AccountId}

theorem undivided_of_resign {duty : Option AuthorActivity} {refund : Nat}
    (hu : Undivided s.commitment T.authorCollateral) (h : resign s who duty = .ok (s', refund)) :
    Undivided s'.commitment T.authorCollateral := by
  obtain ⟨info, c, -, -, -, -, hc, rfl⟩ := resign_eq_ok h
  exact hu.resolved hc

theorem undivided_of_setStatus {status : AuthorStatus} {duty : Option AuthorActivity}
    (hu : Undivided s.commitment T.authorCollateral) (h : setStatus s who status duty = .ok s') :
    Undivided s'.commitment T.authorCollateral := by
  obtain ⟨current, -, h⟩ := bind_eq_ok.mp h
  split at h
  · exact pure_eq_ok.mp h ▸ hu
  · obtain ⟨info, -, -, -, rfl⟩ := revokePermanence_eq_ok h
    exact hu
  · obtain ⟨⟨s1, refund⟩, h1, h⟩ := bind_eq_ok.mp h
    obtain rfl := pure_eq_ok.mp h
    exact undivided_of_resign hu h1
  · exact pure_eq_ok.mp h ▸ hu
  · cases h
  · obtain ⟨info, -, -, -, -, rfl⟩ := setPermanence_eq_ok h
    exact hu
  · exact pure_eq_ok.mp h ▸ hu
  · cases h

theorem undivided_of_penalize {factor : Perbill} {block : Nat} (hu : Undivided s.commitment T.authorCollateral)
    (h : penalize s who factor = .ok (s', block)) : Undivided s'.commitment T.authorCollateral := by
  obtain ⟨_, -, h⟩ := bind_eq_ok.mp h
  obtain ⟨s1, h1, h⟩ := bind_eq_ok.mp h
  obtain rfl := schedulePenalty_eq_ok h
  obtain ⟨info, risk, -, -, -, rfl | ⟨-, -, rfl⟩⟩ := raiseRisk_eq_ok h1 <;> exact hu

theorem undivided_of_placeOrRaise {backer towards : T.AccountId} {value actual : Nat} {q : Directive}
    (hu : Undivided s.commitment T.authorCollateral)
    (h : placeOrRaise s backer towards value q = .ok (s', actual)) :
    Undivided s'.commitment T.authorCollateral := by
  unfold placeOrRaise at h
  split at h
  · obtain ⟨c, hc, rfl⟩ := onCommitment_eq_ok h
    exact hu.raised hc
  · obtain ⟨c, hc, rfl⟩ := onCommitment_eq_ok h
    exact hu.placed hc

theorem apply_undivided {L : CommitLimits T} {call : LimitedCall T} (hu : Undivided s.commitment T.authorCollateral)
    (h : call.apply L s = .ok s') : Undivided s'.commitment T.authorCollateral := by
  cases call with
  | localLimits who minFund maxFund =>
    obtain ⟨info, -, h⟩ := bind_eq_ok.mp h
    obtain rfl := pure_eq_ok.mp h
    exact hu
  | dispatch call =>
    cases call with
    | enlist who collateral fortitude generated =>
      obtain ⟨⟨s1, actual⟩, h1, h⟩ := bind_eq_ok.mp h
      obtain rfl := pure_eq_ok.mp h
      obtain ⟨-, limits, -, hc⟩ := enlistWithin_eq_ok h1
      exact hu.placed hc
    | back who via value q =>
      obtain ⟨⟨s1, actual⟩, h1, h⟩ := bind_eq_ok.mp h
      obtain rfl := pure_eq_ok.mp h
      obtain ⟨⟨author, funder⟩, -, h1⟩ := bind_eq_ok.mp h1
      obtain ⟨info, s2, -, -, h2, hcommitment⟩ := fundWithin_eq_ok h1
      exact hcommitment ▸ undivided_of_placeOrRaise hu h2
    | refill who collateral fortitude =>
      obtain ⟨⟨s1, actual⟩, h1, h⟩ := bind_eq_ok.mp h
      obtain rfl := pure_eq_ok.mp h
      obtain ⟨existing, -, h1⟩ := bind_eq_ok.mp h1
      obtain ⟨c, hc, rfl⟩ := onCommitment_eq_ok h1
      exact hu.raised hc
    | confirm who => exact undivided_of_setStatus hu h
    | exit who target =>
      obtain ⟨author, funder, actual, -, hd⟩ := exitTarget_eq_ok h
      obtain ⟨c, m, hc, rfl⟩ := draw_written hd
      exact hu.resolved hc
    | demit who duty =>
      obtain ⟨⟨s1, refund⟩, h1, h⟩ := bind_eq_ok.mp h
      obtain rfl := pure_eq_ok.mp h
      exact undivided_of_resign hu h1
    | createIndex entries generated =>
      obtain ⟨digests, index, c, -, -, hc, rfl⟩ := createIndex_eq_ok h
      exact hu.setIndex T.reasons_ne.symm hc
    | createPool who index commission generated =>
      obtain ⟨c, hc, rfl⟩ := createPool_eq_ok h
      obtain ⟨info, pool, -, -, -, -, rfl⟩ := setPool_spec hc
      refine hu.of_keys (fun _ => rfl) fun digest => ?_
      exact containsKey_insert_of_ne fun he => T.reasons_ne (Prod.mk.inj he).1.symm
    | transferPool who pool manager =>
      obtain ⟨c, hc, rfl⟩ := transferPool_eq_ok h
      obtain rfl := setPoolManager_spec hc
      exact hu
    | updateEntryShares index entry shares generated =>
      obtain ⟨c, hc, rfl⟩ := updateEntryShares_eq_ok h
      obtain ⟨-, -, rfl⟩ | ⟨new, -, hnew, -⟩ := setEntryShares_parts hc
      · exact hu
      · exact hu.setIndex T.reasons_ne.symm hnew
    | updateSlotShares who pool slot shares =>
      obtain ⟨c, hc, rfl⟩ := updateSlotShares_eq_ok h
      have hslots {shapes : List (T.AccountId × Nat × T.Position)}
          (hset : SlotsSet s.commitment c T.authorFunding pool shapes) : Undivided c T.authorCollateral := by
        refine hu.of_keys (fun digest => containsKey_of_map_eq (hset.entries _)) fun digest => ?_
        refine containsKey_of_map_eq ((hset.slots _).trans (if_neg fun he => ?_))
        exact T.reasons_ne (Prod.mk.inj he).1.symm
      obtain ⟨-, -, rfl⟩ | ⟨old, -, ⟨-, -, hset⟩ | ⟨variant, -, -, hset⟩⟩ := setSlotShares_slots hc
      · exact hu
      · exact hslots hset
      · exact hslots hset
    | setStatus who status duty => exact undivided_of_setStatus hu h
    | penalize who factor =>
      obtain ⟨⟨s1, block⟩, h1, h⟩ := bind_eq_ok.mp h
      obtain rfl := pure_eq_ok.mp h
      exact undivided_of_penalize hu h1
    | forgive who since =>
      obtain ⟨⟨s1, factor⟩, h1, h⟩ := bind_eq_ok.mp h
      obtain rfl := pure_eq_ok.mp h
      obtain ⟨_, -, h1⟩ := bind_eq_ok.mp h1
      obtain ⟨_, -, h1⟩ := bind_eq_ok.mp h1
      obtain ⟨_, -, h1⟩ := bind_eq_ok.mp h1
      obtain ⟨_, -, h1⟩ := bind_eq_ok.mp h1
      obtain ⟨s2, h2, h1⟩ := bind_eq_ok.mp h1
      simp only [pure_eq_ok, Prod.mk.injEq] at h1
      obtain ⟨rfl, -⟩ := h1
      obtain ⟨info, risk, -, -, -, rfl⟩ := securePermanence_eq_ok h2
      exact hu
    | reward who value =>
      obtain ⟨⟨s1, block⟩, h1, h⟩ := bind_eq_ok.mp h
      obtain rfl := pure_eq_ok.mp h
      obtain ⟨s2, h2, h1⟩ := bind_eq_ok.mp h1
      obtain ⟨_, -, h1⟩ := bind_eq_ok.mp h1
      simp only [pure_eq_ok, Prod.mk.injEq] at h1
      obtain ⟨rfl, -⟩ := h1
      obtain ⟨info, risk, -, -, -, rfl⟩ := securePermanence_eq_ok h2
      exact hu
    | reclaim who since =>
      obtain ⟨⟨s1, value⟩, h1, h⟩ := bind_eq_ok.mp h
      obtain rfl := pure_eq_ok.mp h
      obtain rfl := reclaim_eq_ok h1
      exact hu
    | prepareElects candidates =>
      obtain rfl := Except.ok.inj h
      obtain ⟨elected, recent, hprepared⟩ := prepareElects_state s candidates
      rw [hprepared]
      exact hu
    | removeElected who =>
      obtain rfl := Except.ok.inj h
      exact hu
    | forceGenesisConfig field =>
      rw [forceGenesisConfig_state h]
      exact hu
    | enterBlock =>
      obtain ⟨-, hopened⟩ := enterBlock_eq_ok h
      exact hu.of_same hopened.moved.toSameTargets
    | external ledger =>
      obtain rfl := Except.ok.inj h
      exact hu

end Collateral

end FrameSuite
