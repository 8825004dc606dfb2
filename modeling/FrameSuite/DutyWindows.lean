import FrameSuite.SessionWindows

/-! The guards of an author's duty over the blocks of a session. An election takes the last block of the
affidavits for its own, and the guards do not: in that block, as before the first one, an author with an
affidavit is taken for idle. -/

namespace FrameSuite

variable {T : ChainConfig} {s : ChainState T} {author : T.AccountId} {affidavitPub : T.AffidavitId}

theorem convert_of_exists (hr : T.roleExists s.roles author = .ok ()) : convert s author = some author := by
  unfold convert
  rw [hr]

theorem isIdle_of_not_exists (hr : T.roleExists s.roles author ≠ .ok ()) : isIdle s author = none := by
  unfold isIdle convert
  cases hx : T.roleExists s.roles author with
  | ok u => exact absurd hx hr
  | error e => rfl

theorem convert_eq_some {validator : T.AccountId} (h : convert s author = some validator) :
    T.roleExists s.roles author = .ok () ∧ validator = author := by
  unfold convert at h
  split at h
  · rename_i hr
    exact ⟨hr, (Option.some.inj h).symm⟩
  · cases h

/-- The author is among the elected ones that are revealed. -/
abbrev Elected (s : ChainState T) (author : T.AccountId) : Prop := author ∈ (T.reveal s.roles).getD []

/-- An author is idle without a place among the validators, before the window, or with no duty that counts in
the block. -/
theorem isIdle_eq_none (hr : T.roleExists s.roles author = .ok ()) :
    isIdle s author = none ↔ author ∉ s.validators ∧ s.Ordered ∧ (s.blockNumber < s.affidavitWindow.start ∨
      ¬(s.blockNumber < s.affidavitWindow.finish ∧
          s.authorAffidavits.containsKey (s.nextSession, author) = true) ∧
        ¬(s.affidavitWindow.finish < s.blockNumber ∧ Elected s author)) := by
  unfold isIdle Elected
  rw [convert_of_exists hr]
  by_cases hv : author ∈ s.validators
  · simp [hv]
  · by_cases ho : s.Ordered
    · simp only [hv, if_false, computeAffidavitWindow_eq_ok.mpr ⟨ho, rfl⟩, not_false_eq_true, ho, true_and]
      split_ifs with hearly hcandidate hwinner <;> simp_all
    · cases hw : computeAffidavitWindow s with
      | ok window => exact absurd (computeAffidavitWindow_eq_ok.mp hw).1 ho
      | error e => simp [hv, ho]

/-- A key can be chilled by its author, who does not validate: a rotated one from the last block of the
affidavits on, unless the author is elected, and a registered one without an affidavit. -/
theorem canChill_iff : canChill s author affidavitPub = .ok () ↔
    T.roleExists s.roles author = .ok () ∧ author ∉ s.validators ∧ s.Ordered ∧
      s.affidavitWindow.start < s.affidavitWindow.finish ∧
      (s.affidavitKeys.get (s.nextAffidavitSession, affidavitPub) = some author ∧
          s.affidavitWindow.finish ≤ s.blockNumber ∧ ¬Elected s author ∨
        s.affidavitKeys.get (s.nextAffidavitSession, affidavitPub) = none ∧
          s.affidavitKeys.get (s.nextSession, affidavitPub) = some author ∧
          s.authorAffidavits.containsKey (s.nextSession, author) = false) := by
  constructor
  · intro h
    obtain ⟨validator, hv, h⟩ := bind_eq_ok.mp h
    obtain ⟨_, hn, h⟩ := bind_eq_ok.mp h
    obtain ⟨window, hw, h⟩ := bind_eq_ok.mp h
    obtain ⟨_, hopen, h⟩ := bind_eq_ok.mp h
    obtain ⟨hr, rfl⟩ := convert_eq_some (okOr_eq_ok.mp hv)
    obtain ⟨ho, rfl⟩ := computeAffidavitWindow_eq_ok.mp hw
    refine ⟨hr, ensure_eq_ok.mp hn, ho, ensure_eq_ok.mp hopen, ?_⟩
    cases hk : s.affidavitKeys.get (s.nextAffidavitSession, affidavitPub) with
    | some owner =>
      rw [hk] at h
      obtain ⟨_, hown, h⟩ := bind_eq_ok.mp h
      obtain ⟨_, -, h⟩ := bind_eq_ok.mp h
      obtain ⟨_, hfinish, h⟩ := bind_eq_ok.mp h
      exact .inl ⟨congrArg some (ensure_eq_ok.mp hown), ensure_eq_ok.mp hfinish, ensure_eq_ok.mp h⟩
    | none =>
      rw [hk] at h
      obtain ⟨owner, hown, h⟩ := bind_eq_ok.mp h
      obtain ⟨_, he, h⟩ := bind_eq_ok.mp h
      obtain rfl := ensure_eq_ok.mp he
      refine .inr ⟨rfl, okOr_eq_ok.mp hown, ?_⟩
      split at h
      · exact ensure_eq_ok.mp h
      · exact ensure_eq_ok.mp h
  · rintro ⟨hr, hn, ho, hopen, hkey⟩
    refine bind_eq_ok.mpr ⟨author, okOr_eq_ok.mpr (convert_of_exists hr), ?_⟩
    refine bind_eq_ok.mpr ⟨(), ensure_eq_ok.mpr hn, ?_⟩
    refine bind_eq_ok.mpr ⟨_, computeAffidavitWindow_eq_ok.mpr ⟨ho, rfl⟩, ?_⟩
    refine bind_eq_ok.mpr ⟨(), ensure_eq_ok.mpr hopen, ?_⟩
    rcases hkey with ⟨hk, hfinish, hn⟩ | ⟨hnone, hk, hna⟩
    · rw [hk]
      refine bind_eq_ok.mpr ⟨(), ensure_eq_ok.mpr rfl, ?_⟩
      refine bind_eq_ok.mpr ⟨(), ensure_eq_ok.mpr (hopen.le.trans hfinish), ?_⟩
      exact bind_eq_ok.mpr ⟨(), ensure_eq_ok.mpr hfinish, ensure_eq_ok.mpr hn⟩
    · rw [hnone]
      refine bind_eq_ok.mpr ⟨author, okOr_eq_ok.mpr hk, bind_eq_ok.mpr ⟨(), ensure_eq_ok.mpr rfl, ?_⟩⟩
      split
      · exact ensure_eq_ok.mpr hna
      · exact ensure_eq_ok.mpr hna

/-- The author reports a duty, and can give up none of its keys. -/
def Bound (s : ChainState T) (author : T.AccountId) : Prop :=
  isIdle s author ≠ none ∧ ∀ affidavitPub, canChill s author affidavitPub ≠ .ok ()

/-- A candidate is bound as long as an election can come, and the elected stay bound after it. So nobody is
elected after a block in which it could leave. -/
structure DutyGuarded (s : ChainState T) (author : T.AccountId) : Prop where
  candidate : (∃ block, s.blockNumber ≤ block ∧ canProcessElectionAt s block = .ok ()) → Bound s author
  winner : (∃ block, block < s.blockNumber ∧ canProcessElectionAt s block = .ok ()) → Elected s author →
    Bound s author
  leaver : isIdle s author = none ∨ (∃ affidavitPub, canChill s author affidavitPub = .ok ()) →
    ∀ block, s.blockNumber ≤ block → canProcessElectionAt s block ≠ .ok ()

/-- An election can still come in this session. -/
def ChainState.ElectionAhead (s : ChainState T) : Prop :=
  s.Ordered ∧ s.affidavitWindow.start < s.affidavitWindow.finish ∧ s.blockNumber ≤ s.affidavitWindow.finish

def ChainState.ElectionOver (s : ChainState T) : Prop :=
  s.Ordered ∧ s.affidavitWindow.start < s.affidavitWindow.finish ∧ s.affidavitWindow.finish < s.blockNumber

theorem canProcessElectionAt_finish (ho : s.Ordered) (hopen : s.affidavitWindow.start < s.affidavitWindow.finish) :
    canProcessElectionAt s s.affidavitWindow.finish = .ok () :=
  canProcessElectionAt_eq_ok.mpr ⟨ho, hopen, electionWindow_start_le hopen.le, le_rfl⟩

theorem electionAhead_iff :
    (∃ block, s.blockNumber ≤ block ∧ canProcessElectionAt s block = .ok ()) ↔ s.ElectionAhead := by
  constructor
  · rintro ⟨block, hblock, h⟩
    obtain ⟨ho, hopen, -, hfinish⟩ := canProcessElectionAt_eq_ok.mp h
    exact ⟨ho, hopen, hblock.trans hfinish⟩
  · rintro ⟨ho, hopen, hfinish⟩
    exact ⟨s.affidavitWindow.finish, hfinish, canProcessElectionAt_finish ho hopen⟩

theorem bound_of_candidate (hr : T.roleExists s.roles author = .ok ())
    (ha : s.authorAffidavits.containsKey (s.nextSession, author) = true)
    (hstart : s.affidavitWindow.start ≤ s.blockNumber) (hfinish : s.blockNumber < s.affidavitWindow.finish) :
    Bound s author := by
  refine ⟨fun h => ?_, fun affidavitPub h => ?_⟩
  · obtain ⟨-, -, hearly | ⟨hcandidate, -⟩⟩ := (isIdle_eq_none hr).mp h
    · omega
    · exact hcandidate ⟨hfinish, ha⟩
  · obtain ⟨-, -, -, -, ⟨-, hlate, -⟩ | ⟨-, -, hnone⟩⟩ := canChill_iff.mp h
    · omega
    · rw [ha] at hnone
      cases hnone

theorem bound_of_validator (hr : T.roleExists s.roles author = .ok ()) (hv : author ∈ s.validators) :
    Bound s author :=
  ⟨fun h => ((isIdle_eq_none hr).mp h).1 hv, fun _ h => (canChill_iff.mp h).2.1 hv⟩

theorem bound_of_elected (hr : T.roleExists s.roles author = .ok ())
    (ha : s.authorAffidavits.containsKey (s.nextSession, author) = true)
    (hopen : s.affidavitWindow.start < s.affidavitWindow.finish)
    (hfinish : s.affidavitWindow.finish < s.blockNumber) (he : Elected s author) : Bound s author := by
  refine ⟨fun h => ?_, fun affidavitPub h => ?_⟩
  · obtain ⟨-, -, hearly | ⟨-, hwinner⟩⟩ := (isIdle_eq_none hr).mp h
    · omega
    · exact hwinner ⟨hfinish, he⟩
  · obtain ⟨-, -, -, -, ⟨-, -, hn⟩ | ⟨-, -, hnone⟩⟩ := canChill_iff.mp h
    · exact hn he
    · rw [ha] at hnone
      cases hnone

theorem DutyGuarded.exists_role (h : DutyGuarded s author)
    (hduty : s.ElectionAhead ∨ s.ElectionOver ∧ Elected s author) : T.roleExists s.roles author = .ok () := by
  by_contra hr
  have hidle := isIdle_of_not_exists hr
  rcases hduty with hahead | ⟨⟨ho, hopen, hover⟩, he⟩
  · exact (h.candidate (electionAhead_iff.mpr hahead)).1 hidle
  · exact (h.winner ⟨_, hover, canProcessElectionAt_finish ho hopen⟩ he).1 hidle

/-- The guards of a candidate's duty agree with the elections that can still come exactly when the author has
its role, and validates already or meets a block of the window that is not its last one. -/
theorem duty_guarded_iff (ha : s.authorAffidavits.containsKey (s.nextSession, author) = true) :
    DutyGuarded s author ↔
      (s.ElectionAhead ∨ s.ElectionOver ∧ Elected s author → T.roleExists s.roles author = .ok ()) ∧
        (s.ElectionAhead → author ∈ s.validators ∨
          s.affidavitWindow.start ≤ s.blockNumber ∧ s.blockNumber ≠ s.affidavitWindow.finish) := by
  constructor
  · refine fun h => ⟨h.exists_role, fun hahead => ?_⟩
    have hr := h.exists_role (.inl hahead)
    by_contra hopen
    push Not at hopen
    obtain ⟨hv, hedge⟩ := hopen
    refine (h.candidate (electionAhead_iff.mpr hahead)).1 ((isIdle_eq_none hr).mpr ⟨hv, hahead.1, ?_⟩)
    rcases Nat.lt_or_ge s.blockNumber s.affidavitWindow.start with hearly | hstart
    · exact .inl hearly
    · have hlast := hedge hstart
      exact .inr ⟨fun hbefore => absurd hbefore.1 (by omega), fun hafter => absurd hafter.1 (by omega)⟩
  · rintro ⟨hrole, hedge⟩
    have hcandidate : (∃ block, s.blockNumber ≤ block ∧ canProcessElectionAt s block = .ok ()) → Bound s author := by
      intro hahead
      have hahead := electionAhead_iff.mp hahead
      have hr := hrole (.inl hahead)
      rcases hedge hahead with hv | ⟨hstart, hlast⟩
      · exact bound_of_validator hr hv
      · exact bound_of_candidate hr ha hstart (Nat.lt_of_le_of_ne hahead.2.2 hlast)
    refine ⟨hcandidate, ?_, ?_⟩
    · rintro ⟨block, hblock, hprocess⟩ he
      obtain ⟨ho, hopen, -, -⟩ := canProcessElectionAt_eq_ok.mp hprocess
      rcases Nat.lt_or_ge s.affidavitWindow.finish s.blockNumber with hover | hahead
      · exact bound_of_elected (hrole (.inr ⟨⟨ho, hopen, hover⟩, he⟩)) ha hopen hover he
      · exact hcandidate (electionAhead_iff.mpr ⟨ho, hopen, hahead⟩)
    · intro hleaves block hblock hprocess
      obtain ⟨hduty, hchill⟩ := hcandidate ⟨block, hblock, hprocess⟩
      exact hleaves.elim hduty fun ⟨affidavitPub, hok⟩ => hchill affidavitPub hok

def lastWindowBlock : ChainState chainConfig :=
  chainRun readyAuthors [9] ([validates 1 11, validates 2 21] ++ blocksBy 2 8 ++ [declares 11 12, declares 21 22])

theorem duty_guarded_in_last_block :
    DutyGuarded lastWindowBlock (1 : Nat) ↔
      (lastWindowBlock.ElectionAhead ∨ lastWindowBlock.ElectionOver ∧ Elected lastWindowBlock (1 : Nat) →
          chainConfig.roleExists lastWindowBlock.roles (1 : Nat) = .ok ()) ∧
        (lastWindowBlock.ElectionAhead → (1 : Nat) ∈ lastWindowBlock.validators ∨
          lastWindowBlock.affidavitWindow.start ≤ lastWindowBlock.blockNumber ∧
            lastWindowBlock.blockNumber ≠ lastWindowBlock.affidavitWindow.finish) :=
  duty_guarded_iff (by decide +kernel)

/-- In that block the first one chills its key, and is elected by the second one afterwards. -/
theorem chilled_candidate_elected :
    isIdle lastWindowBlock (1 : Nat) = none ∧ canChill lastWindowBlock (1 : Nat) (12 : Nat) = .ok () ∧
      Elected (run ChainState.apply lastWindowBlock [signs 1 (.chill (T := chainConfig) 12), elects 22]) (1 : Nat) ∧
      ¬DutyGuarded lastWindowBlock (1 : Nat) := by
  have hidle : isIdle lastWindowBlock (1 : Nat) = none := by decide +kernel
  have hprocess : canProcessElectionAt lastWindowBlock 8 = .ok () := by decide +kernel
  refine ⟨hidle, by decide +kernel, by decide +kernel, fun h => ?_⟩
  exact (h.candidate ⟨8, by decide +kernel, hprocess⟩).1 hidle

end FrameSuite
