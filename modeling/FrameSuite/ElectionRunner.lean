import FrameSuite.ChainRuntime
import FrameSuite.ChainSteps

/-! The runner of an election is recorded for the next session, and looked up for the session after the one
that begins. No rotation ever finds a runner, so that nobody receives the points for an election. -/

namespace FrameSuite

variable {T : ChainConfig} {s t : ChainState T} {call : ChainCall T}

/-- The runner that a rotation gives the points for an election, with the session it is recorded for. -/
def ChainCall.credit (s : ChainState T) : ChainCall T → Option (Nat × T.AccountId)
  | .rotateSession =>
    let t := beginSession (endSession s)
    let newIndex := t.currentSession + 1
    match revealed t, creditedRunner t newIndex with
    | some _, some runner => some (newIndex, runner)
    | _, _ => none
  | _ => none

/-- The points for elections that are given along a run. -/
def credits : ChainState T → List (ChainCall T) → List (Nat × T.AccountId)
  | _, [] => []
  | s, call :: calls =>
    match s.apply call with
    | .ok t => (call.credit s).toList ++ credits t calls
    | .error _ => credits s calls

/-- The points for the election for the session are given once, to the runner recorded last. -/
def RunnerPaidOnce (s : ChainState T) (calls : List (ChainCall T)) (session : Nat) : Prop :=
  ∃ runner block, (run ChainState.apply s calls).electsPreparedBy.get session = some (runner, block) ∧
    (credits s calls).filter (fun c => c.1 = session) = [(session, runner)]

theorem newSession_credits (s : ChainState T) (elected : List T.AccountId) (runner : T.AccountId) (newIndex : Nat)
    (hr : revealed s = some elected) (hc : creditedRunner s newIndex = some runner) :
    (newSession s newIndex).1 =
      s.setPoints runner (saturatingAdd T.maxPoints ((s.pointsOf runner).getD 0) s.electionRunnerPoints) := by
  obtain ⟨hreveal, hne⟩ := Option.filter_eq_some_iff.mp hr
  have hne : elected ≠ [] := by simpa using hne
  simp [newSession, hreveal, hne, hc]

/-- Runners are recorded at most for the session after the current one. -/
def ChainState.RunnersAhead (s : ChainState T) : Prop :=
  ∀ session, s.electsPreparedBy.containsKey session = true → session ≤ s.currentSession + 1

theorem runnersAhead_genesis (roles : T.Roles) (validators : List T.AccountId) (g : ChainGenesis) :
    (ChainState.genesis roles validators g).RunnersAhead := by
  intro session h
  cases h

theorem apply_runners (h : s.apply call = .ok t) :
    s.currentSession ≤ t.currentSession ∧
      (t.electsPreparedBy = s.electsPreparedBy ∨
        ∃ record, t.electsPreparedBy = s.electsPreparedBy.insert s.nextSession record) := by
  cases call with
  | dispatch origin extrinsic =>
    have hx := (dispatch_eq_ok h).1
    cases extrinsic with
    | validate signer signature =>
      obtain ⟨author, -, -, -, rfl⟩ := validate_eq_ok hx
      exact ⟨Nat.le_refl _, .inl rfl⟩
    | declare signer rotate signature =>
      obtain ⟨-, -, author, weights, -, rfl⟩ := declare_eq_ok hx
      exact ⟨Nat.le_refl _, .inl rfl⟩
    | elect signer signature =>
      obtain ⟨-, author, roles, -, -, -, -, rfl⟩ := elect_eq_ok hx
      exact ⟨Nat.le_refl _, .inr ⟨_, rfl⟩⟩
    | chill affidavitPub =>
      obtain ⟨author, session, -, -, -, rfl⟩ := chill_eq_ok hx
      exact ⟨Nat.le_refl _, .inl rfl⟩
  | forceGenesisConfig field =>
    have hf := forceGenesisConfig_eq_ok h
    exact ⟨hf.session.ge, .inl hf.runners⟩
  | rotateSession =>
    have hr := rotateSession_eq_ok h
    exact ⟨hr.session ▸ Nat.le_succ _, .inl hr.runners⟩
  | enterBlock author =>
    obtain ⟨roles, points, -, rfl⟩ := chainEnterBlock_eq_ok h
    exact ⟨Nat.le_refl _, .inl rfl⟩
  | callRoles call =>
    obtain ⟨roles, -, rfl⟩ := callRoles_eq_ok h
    exact ⟨Nat.le_refl _, .inl rfl⟩

theorem nextSession_le (s : ChainState T) : s.nextSession ≤ s.currentSession + 1 := Nat.min_le_left _ _

theorem ChainState.RunnersAhead.apply (hs : s.RunnersAhead) (h : s.apply call = .ok t) : t.RunnersAhead := by
  intro session hsession
  obtain ⟨hle, hsame | ⟨record, hinsert⟩⟩ := apply_runners h
  · have := hs session (hsame ▸ hsession)
    omega
  · have hnext := nextSession_le s
    rw [hinsert] at hsession
    rcases containsKey_insert.mp hsession with rfl | hold
    · omega
    · have := hs session hold
      omega

theorem ChainState.RunnersAhead.after (hs : s.RunnersAhead) (calls : List (ChainCall T)) :
    (run ChainState.apply s calls).RunnersAhead :=
  run_invariant (fun _ _ _ hs h => hs.apply h) hs calls

theorem ChainState.RunnersAhead.credit_none (hs : s.RunnersAhead) (call : ChainCall T) : call.credit s = none := by
  cases call with
  | rotateSession =>
    obtain ⟨points, update, hend⟩ := endSession_eq s
    have hnone : creditedRunner (beginSession (endSession s))
      ((beginSession (endSession s)).currentSession + 1) = none := by
      rw [hend]
      change (s.electsPreparedBy.get (s.currentSession + 2)).map Prod.fst = none
      have hget : s.electsPreparedBy.get (s.currentSession + 2) = none := by
        by_contra hne
        have hle := hs _ (Option.isSome_iff_ne_none.mpr hne)
        omega
      rw [hget]
      rfl
    simp [ChainCall.credit, hnone]
  | _ => rfl

theorem ChainState.RunnersAhead.credits_nil (hs : s.RunnersAhead) (calls : List (ChainCall T)) :
    credits s calls = [] := by
  induction calls generalizing s with
  | nil => rfl
  | cons call calls ih =>
    unfold credits
    cases h : s.apply call with
    | ok t => simp [hs.credit_none call, ih (hs.apply h)]
    | error e => exact ih hs

theorem runner_stays {session : Nat} {calls : List (ChainCall T)}
    (h : s.electsPreparedBy.containsKey session = true) :
    (run ChainState.apply s calls).electsPreparedBy.containsKey session = true := by
  refine run_invariant (P := fun s : ChainState T => s.electsPreparedBy.containsKey session = true)
    (fun s call t hs hok => ?_) h calls
  obtain ⟨-, hsame | ⟨record, hinsert⟩⟩ := apply_runners hok
  · rwa [hsame]
  · rw [hinsert]
    exact containsKey_insert.mpr (.inr hs)

/-- After an election that succeeds its runner stays recorded, but is never given the points for it. -/
theorem runner_never_paid {roles : T.Roles} {validators : List T.AccountId} {g : ChainGenesis}
    {before calls : List (ChainCall T)} {signer : T.Public} {signature : T.Signature}
    (hc : before ++ [.dispatch .none (.elect signer signature)] <+: calls)
    (h : (ChainState.after roles validators g before).apply (.dispatch .none (.elect signer signature)) = .ok t) :
    (ChainState.after roles validators g calls).electsPreparedBy.containsKey
        (ChainState.after roles validators g before).nextSession = true ∧
      ¬RunnerPaidOnce (ChainState.genesis roles validators g) calls
        (ChainState.after roles validators g before).nextSession := by
  refine ⟨?_, ?_⟩
  · obtain ⟨later, rfl⟩ := hc
    have hd : dispatch (ChainState.after roles validators g before) .none (.elect signer signature) = .ok t := h
    obtain ⟨-, author, newRoles, -, -, -, -, rfl⟩ := elect_eq_ok (dispatch_eq_ok hd).1
    unfold ChainState.after at h ⊢
    rw [List.append_assoc, List.singleton_append, run_append, run_cons, attempt_of_ok h]
    exact runner_stays (containsKey_insert.mpr (.inl rfl))
  · rintro ⟨runner, block, -, hpaid⟩
    rw [(runnersAhead_genesis roles validators g).credits_nil] at hpaid
    cases hpaid

/-- The runner of an election is not paid by the two rotations that follow it. -/
theorem runner_never_paid_after_rotations :
    (chainRun readyAuthors [9]
      (electing ++ [elects 12] ++ [.rotateSession, .rotateSession])).electsPreparedBy.containsKey 1 =
        true ∧
      ¬RunnerPaidOnce (ChainState.genesis (T := chainConfig) (authorRun readyAuthors) [9] plainChain)
        (electing ++ [elects 12] ++ [.rotateSession, .rotateSession]) 1 := by
  have hok : ((chainRun readyAuthors [9] electing).apply (elects 12)).isOk = true := by decide +kernel
  have hnext : (chainRun readyAuthors [9] electing).nextSession = 1 := by decide +kernel
  obtain ⟨t, ht⟩ := exists_eq_ok hok
  rw [← hnext]
  exact runner_never_paid (List.prefix_append ..) ht

/-- Two rotations after an election nobody has received points for it. -/
theorem election_without_points :
    ¬RunnerPaidOnce (ChainState.genesis (T := chainConfig) (authorRun readyAuthors) [9] plainChain)
      (electing ++ [elects 12] ++ [.rotateSession, .rotateSession]) 1 := by
  have hnil : credits (ChainState.genesis (T := chainConfig) (authorRun readyAuthors) [9] plainChain)
      (electing ++ [elects 12] ++ [.rotateSession, .rotateSession]) = [] := by decide +kernel
  rintro ⟨runner, block, -, hpaid⟩
  rw [hnil] at hpaid
  cases hpaid

end FrameSuite
