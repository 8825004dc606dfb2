import FrameSuite.ChainManager

/-! What each call of the chain manager does when it succeeds, and what it leaves as it was. -/

namespace FrameSuite

variable {T : ChainConfig} {s t : ChainState T} {origin : Origin T.AccountId}

@[simp] theorem liftRole_eq_ok {α : Type} {x : Except T.RoleError α} {a : α} :
    (liftRole x : Except (ChainError T.RoleError) α) = .ok a ↔ x = .ok a := by
  cases x <;> simp [liftRole, Except.mapError]

theorem nextAffidavitSession_eq (s : ChainState T) :
    s.nextAffidavitSession = saturatingAdd T.maxSession s.currentSession 2 := by
  unfold ChainState.nextAffidavitSession ChainState.nextSession saturatingAdd
  omega

section Affidavits

theorem ensureNone_eq_ok {u : Unit} :
    (ensureNone origin : Except (ChainError T.RoleError) Unit) = .ok u ↔ origin = .none := by
  cases origin <;> simp [ensureNone]

theorem validate_eq_ok {signer : T.Public} (h : validate s origin signer = .ok t) :
    ∃ author, origin = .signed author ∧ T.roleExists s.roles author = .ok () ∧
      T.isAvailable s.roles author = .ok () ∧
      t = { s with affidavitKeys := s.affidavitKeys.insert (s.nextSession, T.intoAccount signer) author } := by
  cases origin with
  | none => cases h
  | signed author =>
    obtain ⟨u, hr, h⟩ := bind_eq_ok.mp h
    obtain ⟨v, ha, h⟩ := bind_eq_ok.mp h
    exact ⟨author, rfl, liftRole_eq_ok.mp hr, liftRole_eq_ok.mp ha, (pure_eq_ok.mp h).symm⟩

theorem submitAffidavit_eq_ok {who : T.AffidavitId} {affidavit : List T.Weight}
    (h : submitAffidavit s who affidavit = .ok t) :
    ∃ author weights, s.affidavitKeys.get (s.nextSession, who) = some author ∧
      t = { s with
        authorAffidavits := s.authorAffidavits.insert (s.nextSession, author) (s.blockNumber, weights) } := by
  obtain ⟨author, ho, h⟩ := bind_eq_ok.mp h
  exact ⟨author, _, okOr_eq_ok.mp ho, (pure_eq_ok.mp h).symm⟩

@[simp] theorem registeredAuthor_eq_ok {who : T.AffidavitId} {author : T.AccountId} :
    registeredAuthor s who = .ok author ↔ s.affidavitKeys.get (s.nextSession, who) = some author := by
  unfold registeredAuthor
  cases s.affidavitKeys.get (s.nextSession, who) with
  | some a => simp
  | none => by_cases hk : s.affidavitKeys.containsKey (s.nextAffidavitSession, who) = true <;> simp [hk]

theorem canSubmitAffidavit_eq_ok {who : T.AffidavitId} {u : Unit} :
    canSubmitAffidavit s who = .ok u ↔ s.allowAffidavits = true ∧ ∃ author window,
      s.affidavitKeys.get (s.nextSession, who) = some author ∧ T.isAvailable s.roles author = .ok () ∧
      computeAffidavitWindow s = .ok window ∧ window.start ≤ s.blockNumber ∧ s.blockNumber ≤ window.finish := by
  simp [canSubmitAffidavit, bind_eq_ok, Unique.exists_iff]

theorem processAffidavit_eq_ok {who : T.AffidavitId} (h : processAffidavit s who = .ok t) :
    canSubmitAffidavit s who = .ok () ∧ ∃ author weights, s.affidavitKeys.get (s.nextSession, who) = some author ∧
      t = { s with
        authorAffidavits := s.authorAffidavits.insert (s.nextSession, author) (s.blockNumber, weights) } := by
  obtain ⟨_, hc, h⟩ := bind_eq_ok.mp h
  obtain ⟨affidavit, -, h⟩ := bind_eq_ok.mp h
  exact ⟨hc, submitAffidavit_eq_ok h⟩

theorem declare_eq_ok {signer : T.Public} {rotate : T.AffidavitId} (h : declare s origin signer rotate = .ok t) :
    origin = .none ∧ canSubmitAffidavit s (T.intoAccount signer) = .ok () ∧ ∃ author weights,
      s.affidavitKeys.get (s.nextSession, T.intoAccount signer) = some author ∧
      t = { s with
        affidavitKeys := s.affidavitKeys.insert (s.nextAffidavitSession, rotate) author
        authorAffidavits := s.authorAffidavits.insert (s.nextSession, author) (s.blockNumber, weights) } := by
  obtain ⟨_, hn, h⟩ := bind_eq_ok.mp h
  obtain ⟨author, ho, h⟩ := bind_eq_ok.mp h
  obtain ⟨mid, hp, h⟩ := bind_eq_ok.mp h
  obtain ⟨hc, author', weights, ho', rfl⟩ := processAffidavit_eq_ok hp
  obtain rfl := Option.some.inj ((okOr_eq_ok.mp ho).symm.trans ho')
  exact ⟨ensureNone_eq_ok.mp hn, hc, author, weights, ho', (pure_eq_ok.mp h).symm⟩

theorem elect_eq_ok {signer : T.Public} (h : elect s origin signer = .ok t) :
    origin = .none ∧ ∃ author roles,
      s.affidavitKeys.get (s.nextAffidavitSession, T.intoAccount signer) = some author ∧
      s.blockAuthor = some author ∧ canProcessElection s = .ok () ∧
      T.prepare s.roles (prepareCandidates s) = .ok roles ∧
      t = { s with
        roles
        electsPreparedBy := s.electsPreparedBy.insert s.nextSession (author, s.blockNumber) } := by
  obtain ⟨_, hn, h⟩ := bind_eq_ok.mp h
  obtain ⟨author, ho, h⟩ := bind_eq_ok.mp h
  obtain ⟨block, hb, h⟩ := bind_eq_ok.mp h
  obtain ⟨_, he, h⟩ := bind_eq_ok.mp h
  obtain ⟨mid, hp, h⟩ := bind_eq_ok.mp h
  obtain ⟨_, hc, hp⟩ := bind_eq_ok.mp hp
  obtain ⟨roles, hr, hp⟩ := bind_eq_ok.mp hp
  obtain rfl := pure_eq_ok.mp hp
  obtain rfl := pure_eq_ok.mp h
  have hauthor := okOr_eq_ok.mp hb
  rw [← ensure_eq_ok.mp he] at hauthor
  exact ⟨ensureNone_eq_ok.mp hn, author, roles, okOr_eq_ok.mp ho, hauthor, hc, liftRole_eq_ok.mp hr, rfl⟩

theorem canChill_eq_ok {author : T.AccountId} {affidavitPub : T.AffidavitId}
    (h : canChill s author affidavitPub = .ok ()) :
    author ∉ s.validators ∧
      (s.affidavitKeys.get (s.nextAffidavitSession, affidavitPub) = some author ∨
        s.affidavitKeys.get (s.nextAffidavitSession, affidavitPub) = none ∧
          s.affidavitKeys.get (s.nextSession, affidavitPub) = some author ∧
          s.authorAffidavits.containsKey (s.nextSession, author) = false) := by
  obtain ⟨validator, hv, h⟩ := bind_eq_ok.mp h
  obtain ⟨_, hn, h⟩ := bind_eq_ok.mp h
  obtain ⟨window, -, h⟩ := bind_eq_ok.mp h
  obtain ⟨_, -, h⟩ := bind_eq_ok.mp h
  have hvalidator : validator = author := by
    have hv := okOr_eq_ok.mp hv
    unfold convert at hv
    split at hv
    · exact (Option.some.inj hv).symm
    · cases hv
  subst hvalidator
  refine ⟨ensure_eq_ok.mp hn, ?_⟩
  cases hk : s.affidavitKeys.get (s.nextAffidavitSession, affidavitPub) with
  | some owner =>
    rw [hk] at h
    obtain ⟨_, ho, -⟩ := bind_eq_ok.mp h
    exact .inl (congrArg some (ensure_eq_ok.mp ho))
  | none =>
    rw [hk] at h
    obtain ⟨owner, ho, h⟩ := bind_eq_ok.mp h
    obtain ⟨_, he, h⟩ := bind_eq_ok.mp h
    obtain rfl := ensure_eq_ok.mp he
    refine .inr ⟨rfl, okOr_eq_ok.mp ho, ?_⟩
    split at h
    · exact ensure_eq_ok.mp h
    · exact ensure_eq_ok.mp h

theorem chill_eq_ok {affidavitPub : T.AffidavitId} (h : chill s origin affidavitPub = .ok t) :
    ∃ author session, origin = .signed author ∧ author ∉ s.validators ∧
      s.affidavitKeys.get (session, affidavitPub) = some author ∧
      t = { s with affidavitKeys := s.affidavitKeys.remove (session, affidavitPub) } := by
  cases origin with
  | none => cases h
  | signed author =>
    obtain ⟨u, hc, h⟩ := bind_eq_ok.mp h
    obtain ⟨hn, hk⟩ := canChill_eq_ok hc
    rcases hk with hk | ⟨hnone, hk, -⟩
    · rw [if_pos (StorageMap.containsKey_iff.mpr ⟨author, hk⟩)] at h
      exact ⟨author, s.nextAffidavitSession, rfl, hn, hk, (pure_eq_ok.mp h).symm⟩
    · rw [if_neg (by simp [StorageMap.containsKey, hnone])] at h
      exact ⟨author, s.nextSession, rfl, hn, hk, (pure_eq_ok.mp h).symm⟩

end Affidavits

section Parameters

/-- A change of the parameters leaves everything else. -/
structure Configured (s t : ChainState T) : Prop where
  roles : t.roles = s.roles
  session : t.currentSession = s.currentSession
  keys : t.affidavitKeys = s.affidavitKeys
  affidavits : t.authorAffidavits = s.authorAffidavits
  runners : t.electsPreparedBy = s.electsPreparedBy
  points : t.blockPointsStore = s.blockPointsStore
  validators : t.validators = s.validators
  queued : t.queued = s.queued

theorem forceGenesisConfig_eq_ok {field : ChainForceGenesisConfig} (h : s.forceGenesisConfig field = .ok t) :
    Configured s t := by
  cases field with
  | allowAffidavits allow => cases h; exact ⟨rfl, rfl, rfl, rfl, rfl, rfl, rfl, rfl⟩
  | affidavitBeginsAt point =>
    obtain ⟨_, -, h⟩ := bind_eq_ok.mp h
    cases h
    exact ⟨rfl, rfl, rfl, rfl, rfl, rfl, rfl, rfl⟩
  | affidavitEndsAt point =>
    obtain ⟨_, -, h⟩ := bind_eq_ok.mp h
    cases h
    exact ⟨rfl, rfl, rfl, rfl, rfl, rfl, rfl, rfl⟩
  | electionBeginsAt point => cases h; exact ⟨rfl, rfl, rfl, rfl, rfl, rfl, rfl, rfl⟩
  | electionRunnerPointsUpgrade points => cases h; exact ⟨rfl, rfl, rfl, rfl, rfl, rfl, rfl, rfl⟩

end Parameters

section Sessions

theorem chainEnterBlock_eq_ok {author : Option T.AccountId} (h : s.enterBlock author = .ok t) :
    ∃ roles points, T.nextBlock s.roles = .ok roles ∧
      t = { s with roles, blockAuthor := author, blockPointsStore := points } := by
  obtain ⟨roles, hr, h⟩ := bind_eq_ok.mp h
  cases author with
  | none => exact ⟨roles, s.blockPointsStore, liftRole_eq_ok.mp hr, (pure_eq_ok.mp h).symm⟩
  | some author => exact ⟨roles, _, liftRole_eq_ok.mp hr, (pure_eq_ok.mp h).symm⟩

/-- The elected authors that a new session returns. -/
def revealed (s : ChainState T) : Option (List T.AccountId) := (T.reveal s.roles).filter (· ≠ [])

theorem newSession_returns (s : ChainState T) (newIndex : Nat) : (newSession s newIndex).2 = revealed s := by
  unfold newSession revealed
  cases T.reveal s.roles with
  | none => rfl
  | some elected =>
    by_cases he : elected = []
    · simp [he, Option.filter]
    · cases creditedRunner s newIndex <;> simp [he, Option.filter]

theorem newSession_points (s : ChainState T) (newIndex : Nat) :
    ∃ points, (newSession s newIndex).1 = { s with blockPointsStore := points } ∧
      (creditedRunner s newIndex = none → points = s.blockPointsStore) := by
  unfold newSession
  cases T.reveal s.roles with
  | none => exact ⟨_, rfl, fun _ => rfl⟩
  | some elected =>
    by_cases he : elected = []
    · exact ⟨_, by simp [he], fun _ => rfl⟩
    · cases hc : creditedRunner s newIndex with
      | none => exact ⟨_, by simp [he], fun _ => rfl⟩
      | some runner =>
        let points := saturatingAdd T.maxPoints ((s.pointsOf runner).getD 0) s.electionRunnerPoints
        refine ⟨(s.setPoints runner points).blockPointsStore, ?_, fun h => by cases h⟩
        simp only [he, if_false]
        rfl

theorem rewardAuthors_eq (s : ChainState T) : rewardAuthors s = { s with roles := (rewardAuthors s).roles } := by
  unfold rewardAuthors
  dsimp only
  split <;> rfl

theorem endSession_eq (s : ChainState T) : ∃ points update, endSession s =
    { s with
      roles := (rewardAuthors s).roles
      electionRunnerPoints := points
      electionRunnerPointsUpgrade := update } := by
  unfold endSession
  rw [rewardAuthors_eq]
  dsimp only
  split <;> exact ⟨_, _, rfl⟩

/-- What a rotation does, besides the parameters. -/
structure SessionRotated (s t : ChainState T) : Prop where
  bound : s.currentSession + 2 ≤ T.maxSession
  session : t.currentSession = s.currentSession + 1
  roles : t.roles = (rewardAuthors s).roles
  keys : t.affidavitKeys = s.affidavitKeys
  affidavits : t.authorAffidavits = s.authorAffidavits
  runners : t.electsPreparedBy = s.electsPreparedBy
  validators : t.validators = s.queued
  queued : t.queued = (revealed t).getD s.queued
  points : creditedRunner s (s.currentSession + 2) = none → t.blockPointsStore = s.blockPointsStore

theorem rotateSession_eq_ok (h : rotateSession s = .ok t) : SessionRotated s t := by
  obtain ⟨_, hb, h⟩ := bind_eq_ok.mp h
  obtain rfl := pure_eq_ok.mp h
  obtain ⟨points, update, hend⟩ := endSession_eq s
  obtain ⟨store, hnew, hsame⟩ := newSession_points (beginSession (endSession s)) (s.currentSession + 2)
  have hplan : planSession (beginSession (endSession s)) =
      { beginSession (endSession s) with
        blockPointsStore := store
        queued := (revealed (beginSession (endSession s))).getD (beginSession (endSession s)).validators } := by
    have hsession : (beginSession (endSession s)).currentSession + 1 = s.currentSession + 2 := by rw [hend]; rfl
    unfold planSession
    dsimp only
    rw [hsession, newSession_returns, hnew]
  rw [hplan]
  rw [hend] at hsame ⊢
  exact ⟨ensure_eq_ok.mp hb, rfl, rfl, rfl, rfl, rfl, rfl, rfl, hsame⟩

theorem callRoles_eq_ok {call : T.RoleCall} (h : s.apply (.callRoles call) = .ok t) :
    ∃ roles, T.callRoles (isIdle s) s.roles call = .ok roles ∧ t = { s with roles } := by
  obtain ⟨roles, hr, h⟩ := bind_eq_ok.mp h
  exact ⟨roles, liftRole_eq_ok.mp hr, (pure_eq_ok.mp h).symm⟩

end Sessions

section Dispatch

theorem dispatch_eq_ok {extrinsic : Extrinsic T} (h : dispatch s origin extrinsic = .ok t) :
    extrinsic.execute s origin = .ok t ∧ (origin = .none → validateUnsigned s extrinsic = .ok ()) := by
  cases origin with
  | signed who => exact ⟨h, fun hn => by cases hn⟩
  | none =>
    obtain ⟨u, hv, h⟩ := bind_eq_ok.mp h
    refine ⟨h, fun _ => ?_⟩
    cases hx : validateUnsigned s extrinsic with
    | ok v => rfl
    | error e =>
      rw [hx] at hv
      cases hv

theorem validateUnsigned_declare {signer : T.Public} {rotate : T.AffidavitId} {signature : T.Signature}
    (h : validateUnsigned s (.declare signer rotate signature) = .ok ()) :
    T.verify (.declare signer rotate) signature = true := by
  unfold validateUnsigned at h
  cases hw : computeAffidavitWindow s with
  | error e => rw [hw] at h; cases h
  | ok window =>
    rw [hw] at h
    obtain ⟨u, hv, -⟩ := bind_eq_ok.mp h
    exact ensure_eq_ok.mp hv

end Dispatch

end FrameSuite
