import FrameSuite.ChainRuntime
import FrameSuite.ChainSteps

/-! The windows of a session, for affidavits and for the election. The parameters keep the fractions in order,
but their offsets are rounded down to blocks, and two fractions may be rounded to the same block. -/

namespace FrameSuite

variable {T : ChainConfig} {s t : ChainState T} {call : ChainCall T}

namespace ChainState

/-- The blocks between which affidavits are taken. -/
def affidavitWindow (s : ChainState T) : SessionWindow :=
  { start := saturatingAdd T.maxBlock s.sessionStartAt (s.affidavitBeginsAt.mulFloor T.averageSessionLength)
    finish := saturatingAdd T.maxBlock s.sessionStartAt (s.affidavitEndsAt.mulFloor T.averageSessionLength) }

def electionWindow (s : ChainState T) : SessionWindow :=
  { start := saturatingAdd T.maxBlock s.affidavitWindow.start
      (s.electionBeginsAt.mulFloor (s.affidavitWindow.finish - s.affidavitWindow.start))
    finish := s.affidavitWindow.finish }

abbrev Ordered (s : ChainState T) : Prop := s.affidavitBeginsAt.parts < s.affidavitEndsAt.parts

end ChainState

/-- An election in another block of the session. -/
def canProcessElectionAt (s : ChainState T) (block : Nat) : Except (ChainError T.RoleError) Unit := do
  let window ← computeAffidavitWindow s
  ensure (window.start < window.finish) .invalidAffidavitPeriod
  ensure (window.start ≤ block) .notAffidavitPeriod
  let election ← computeElectionWindow s
  ensure (election.start ≤ block) .notElectionPeriod
  ensure (block ≤ window.finish) .electionPeriodEnded

theorem canProcessElection_eq (s : ChainState T) : canProcessElection s = canProcessElectionAt s s.blockNumber := rfl

section Fractions

theorem Permill.mulFloor_le (r : Permill) (n : Nat) : r.mulFloor n ≤ n := by
  have hmul : n * r.parts ≤ n * 10 ^ 6 := Nat.mul_le_mul_left n r.parts_le
  have hdiv := Nat.div_le_div_right (c := 10 ^ 6) hmul
  rwa [Nat.mul_div_cancel n (by decide)] at hdiv

end Fractions

section Windows

variable {window election : SessionWindow} {block : Nat} {u : Unit}

theorem computeAffidavitWindow_eq_ok :
    computeAffidavitWindow s = .ok window ↔ s.Ordered ∧ s.affidavitWindow = window := by
  constructor
  · intro h
    obtain ⟨_, he, h⟩ := bind_eq_ok.mp h
    exact ⟨ensure_eq_ok.mp he, pure_eq_ok.mp h⟩
  · rintro ⟨ho, rfl⟩
    exact bind_eq_ok.mpr ⟨(), ensure_eq_ok.mpr ho, rfl⟩

theorem computeElectionWindow_eq_ok :
    computeElectionWindow s = .ok election ↔ s.Ordered ∧ s.electionWindow = election := by
  constructor
  · intro h
    obtain ⟨window, hw, h⟩ := bind_eq_ok.mp h
    obtain ⟨ho, rfl⟩ := computeAffidavitWindow_eq_ok.mp hw
    exact ⟨ho, pure_eq_ok.mp h⟩
  · rintro ⟨ho, rfl⟩
    exact bind_eq_ok.mpr ⟨_, computeAffidavitWindow_eq_ok.mpr ⟨ho, rfl⟩, rfl⟩

theorem affidavitWindow_start_le (s : ChainState T) : s.affidavitWindow.start ≤ s.electionWindow.start := by
  unfold ChainState.electionWindow ChainState.affidavitWindow saturatingAdd
  dsimp only
  omega

theorem electionWindow_start_le (h : s.affidavitWindow.start ≤ s.affidavitWindow.finish) :
    s.electionWindow.start ≤ s.affidavitWindow.finish := by
  have hportion := s.electionBeginsAt.mulFloor_le (s.affidavitWindow.finish - s.affidavitWindow.start)
  have hadd : s.electionWindow.start ≤ s.affidavitWindow.start +
      s.electionBeginsAt.mulFloor (s.affidavitWindow.finish - s.affidavitWindow.start) := Nat.min_le_left _ _
  omega

/-- An election is possible from the start of its window to the last block of the affidavits. -/
theorem canProcessElectionAt_eq_ok :
    canProcessElectionAt s block = .ok u ↔ s.Ordered ∧ s.affidavitWindow.start < s.affidavitWindow.finish ∧
      s.electionWindow.start ≤ block ∧ block ≤ s.affidavitWindow.finish := by
  constructor
  · intro h
    obtain ⟨window, hw, h⟩ := bind_eq_ok.mp h
    obtain ⟨_, hopen, h⟩ := bind_eq_ok.mp h
    obtain ⟨_, -, h⟩ := bind_eq_ok.mp h
    obtain ⟨election, he, h⟩ := bind_eq_ok.mp h
    obtain ⟨_, hstart, h⟩ := bind_eq_ok.mp h
    have hfinish := ensure_eq_ok.mp h
    obtain ⟨ho, rfl⟩ := computeAffidavitWindow_eq_ok.mp hw
    obtain ⟨-, rfl⟩ := computeElectionWindow_eq_ok.mp he
    exact ⟨ho, ensure_eq_ok.mp hopen, ensure_eq_ok.mp hstart, hfinish⟩
  · rintro ⟨ho, hopen, hstart, hfinish⟩
    refine bind_eq_ok.mpr ⟨_, computeAffidavitWindow_eq_ok.mpr ⟨ho, rfl⟩, ?_⟩
    refine bind_eq_ok.mpr ⟨(), ensure_eq_ok.mpr hopen, ?_⟩
    refine bind_eq_ok.mpr ⟨(), ensure_eq_ok.mpr ((affidavitWindow_start_le s).trans hstart), ?_⟩
    refine bind_eq_ok.mpr ⟨_, computeElectionWindow_eq_ok.mpr ⟨ho, rfl⟩, ?_⟩
    exact bind_eq_ok.mpr ⟨(), ensure_eq_ok.mpr hstart, ensure_eq_ok.mpr hfinish⟩

theorem canProcessElectionAt_valid (ho : s.Ordered) (hopen : s.affidavitWindow.start < s.affidavitWindow.finish) :
    FailsOnly (· ≠ .invalidAffidavitPeriod) (canProcessElectionAt s block) := by
  unfold canProcessElectionAt
  rw [computeAffidavitWindow_eq_ok.mpr ⟨ho, rfl⟩]
  refine .bind (.ok _) fun window hwindow => ?_
  cases hwindow
  rw [computeElectionWindow_eq_ok.mpr ⟨ho, rfl⟩, ensure_eq_ok.mpr hopen]
  refine .bind (.ok ()) fun _ _ => .bind (.ensure nofun) fun _ _ => ?_
  exact .bind (.ok _) fun _ _ => .bind (.ensure nofun) fun _ _ => .ensure nofun

theorem canProcessElectionAt_invalid (ho : s.Ordered) :
    canProcessElectionAt s block = .error .invalidAffidavitPeriod ↔
      ¬s.affidavitWindow.start < s.affidavitWindow.finish := by
  constructor
  · intro h hopen
    exact canProcessElectionAt_valid ho hopen _ h rfl
  · intro hempty
    unfold canProcessElectionAt
    rw [computeAffidavitWindow_eq_ok.mpr ⟨ho, rfl⟩]
    change (ensure _ _ >>= _) = _
    rw [ensure, if_neg hempty]
    rfl

end Windows

section Parameters

theorem forceGenesisConfig_ordered {field : ChainForceGenesisConfig} (ho : s.Ordered)
    (h : s.forceGenesisConfig field = .ok t) : t.Ordered := by
  cases field with
  | affidavitBeginsAt point =>
    obtain ⟨_, he, h⟩ := bind_eq_ok.mp h
    obtain rfl := pure_eq_ok.mp h
    exact ensure_eq_ok.mp he
  | affidavitEndsAt point =>
    obtain ⟨_, he, h⟩ := bind_eq_ok.mp h
    obtain rfl := pure_eq_ok.mp h
    exact ensure_eq_ok.mp he
  | allowAffidavits allow => cases h; exact ho
  | electionBeginsAt point => cases h; exact ho
  | electionRunnerPointsUpgrade points => cases h; exact ho

theorem dispatch_ordered {origin : Origin T.AccountId} {extrinsic : Extrinsic T} (ho : s.Ordered)
    (h : dispatch s origin extrinsic = .ok t) : t.Ordered := by
  obtain ⟨hx, -⟩ := dispatch_eq_ok h
  cases extrinsic with
  | validate signer signature =>
    obtain ⟨author, -, -, -, rfl⟩ := validate_eq_ok hx
    exact ho
  | declare signer rotate signature =>
    obtain ⟨-, -, author, weights, -, rfl⟩ := declare_eq_ok hx
    exact ho
  | elect signer signature =>
    obtain ⟨-, author, roles, -, -, -, -, rfl⟩ := elect_eq_ok hx
    exact ho
  | chill affidavitPub =>
    obtain ⟨author, session, -, -, -, rfl⟩ := chill_eq_ok hx
    exact ho

theorem rotateSession_ordered (ho : s.Ordered) (h : rotateSession s = .ok t) : t.Ordered := by
  obtain ⟨_, -, h⟩ := bind_eq_ok.mp h
  obtain rfl := pure_eq_ok.mp h
  obtain ⟨points, update, hend⟩ := endSession_eq s
  obtain ⟨store, hnew, -⟩ :=
    newSession_points (beginSession (endSession s)) ((beginSession (endSession s)).currentSession + 1)
  unfold planSession
  dsimp only
  rw [hnew, hend]
  exact ho

theorem apply_ordered (ho : s.Ordered) (h : s.apply call = .ok t) : t.Ordered := by
  cases call with
  | dispatch origin extrinsic => exact dispatch_ordered ho h
  | forceGenesisConfig field => exact forceGenesisConfig_ordered ho h
  | rotateSession => exact rotateSession_ordered ho h
  | enterBlock author =>
    obtain ⟨roles, points, -, rfl⟩ := chainEnterBlock_eq_ok h
    exact ho
  | callRoles call =>
    obtain ⟨roles, -, rfl⟩ := callRoles_eq_ok h
    exact ho

theorem after_ordered (roles : T.Roles) (validators : List T.AccountId) (g : ChainGenesis)
    (calls : List (ChainCall T)) : (ChainState.after roles validators g calls).Ordered :=
  run_invariant (P := fun s : ChainState T => s.Ordered) (fun _ _ _ ho h => apply_ordered ho h) g.begins_lt_ends calls

end Parameters

/-- The windows of the session lie in it and inside each other, and an affidavit can be declared. -/
structure WindowsUsable (s : ChainState T) : Prop where
  nested : ∃ window election, computeAffidavitWindow s = .ok window ∧ computeElectionWindow s = .ok election ∧
    s.sessionStartAt ≤ window.start ∧ window.start ≤ election.start ∧ election.start ≤ election.finish ∧
    election.finish = window.finish ∧ window.finish ≤ s.sessionStartAt + T.averageSessionLength ∧
    window.start < window.finish
  processes : ∀ block, canProcessElectionAt s block ≠ .error .invalidAffidavitPeriod

/-- The fractions are rounded down to different blocks, and the first of these can still be counted. -/
def ChainState.FractionsApart (s : ChainState T) : Prop :=
  s.affidavitBeginsAt.mulFloor T.averageSessionLength < s.affidavitEndsAt.mulFloor T.averageSessionLength ∧
    s.sessionStartAt + s.affidavitBeginsAt.mulFloor T.averageSessionLength < T.maxBlock

theorem affidavitWindow_open_iff :
    s.affidavitWindow.start < s.affidavitWindow.finish ↔ s.FractionsApart := by
  unfold ChainState.affidavitWindow ChainState.FractionsApart saturatingAdd
  dsimp only
  omega

theorem windowsUsable_iff (ho : s.Ordered) : WindowsUsable s ↔ s.FractionsApart := by
  constructor
  · rintro ⟨⟨window, election, hw, -, -, -, -, -, -, hopen⟩, -⟩
    obtain ⟨-, rfl⟩ := computeAffidavitWindow_eq_ok.mp hw
    exact affidavitWindow_open_iff.mp hopen
  · intro hapart
    have hopen := affidavitWindow_open_iff.mpr hapart
    have hbound : s.affidavitWindow.finish ≤ s.sessionStartAt + T.averageSessionLength :=
      (Nat.min_le_left _ _).trans (Nat.add_le_add_left (Permill.mulFloor_le _ _) _)
    have hstart : s.sessionStartAt ≤ s.affidavitWindow.start :=
      Nat.le_min.mpr ⟨Nat.le_add_right _ _, (Nat.le_add_right _ _).trans hapart.2.le⟩
    refine ⟨⟨_, _, computeAffidavitWindow_eq_ok.mpr ⟨ho, rfl⟩, computeElectionWindow_eq_ok.mpr ⟨ho, rfl⟩, hstart,
      affidavitWindow_start_le s, electionWindow_start_le hopen.le, rfl, hbound, hopen⟩, fun block => ?_⟩
    exact fun hinvalid => (canProcessElectionAt_invalid ho).mp hinvalid hopen

/-- After any updates of the parameters, and for any start of the session, there is a window for affidavits;
it is usable, with the election in it, exactly when its fractions fall on different blocks. -/
theorem session_windows_usable_iff (roles : T.Roles) (validators : List T.AccountId) (g : ChainGenesis)
    (calls : List (ChainCall T)) (start : Nat) :
    (∃ window, computeAffidavitWindow { ChainState.after roles validators g calls with sessionStartAt := start } =
        .ok window) ∧
      (WindowsUsable { ChainState.after roles validators g calls with sessionStartAt := start } ↔
        ChainState.FractionsApart { ChainState.after roles validators g calls with sessionStartAt := start }) := by
  have ho : ChainState.Ordered { ChainState.after roles validators g calls with sessionStartAt := start } :=
    after_ordered roles validators g calls
  exact ⟨⟨_, computeAffidavitWindow_eq_ok.mpr ⟨ho, rfl⟩⟩, windowsUsable_iff ho⟩

/-- From 51 to 59 hundredths of a session of ten blocks: both fall on its fifth block, and no election can be
processed. -/
theorem close_fractions_unusable :
    let s := chainRun readyAuthors [9]
      [.forceGenesisConfig (.affidavitBeginsAt ⟨510000, by decide⟩),
        .forceGenesisConfig (.affidavitEndsAt ⟨590000, by decide⟩)]
    1 ≤ s.affidavitEndsAt.mulFloor chainConfig.averageSessionLength ∧
      canProcessElectionAt s 5 = .error .invalidAffidavitPeriod ∧ ¬WindowsUsable s := by
  have hinvalid : canProcessElectionAt (chainRun readyAuthors [9]
      [.forceGenesisConfig (.affidavitBeginsAt ⟨510000, by decide⟩),
        .forceGenesisConfig (.affidavitEndsAt ⟨590000, by decide⟩)]) 5 = .error .invalidAffidavitPeriod := by
    rfl
  exact ⟨by decide +kernel, hinvalid, fun h => h.processes 5 hinvalid⟩

end FrameSuite
