import FrameSuite.AuthorRuntime
import FrameSuite.AuthorSteps

/-! The life of an author over runs of the pallet, beside the block in which its status changed last.
Collateral, penalties and the ways into and out of each status are sound in every run; the time
stamp of the status is so as long as no author becomes permanent or resigns in a later block. -/

namespace FrameSuite

variable {T : AuthorConfig}

def statusOf (s : AuthorState T) (who : T.AccountId) : Option AuthorStatus :=
  (s.authorsMap.get who).map AuthorInfo.status

theorem statusOf_of_get {s : AuthorState T} {who : T.AccountId} {info : AuthorInfo T.AccountId}
    (h : s.authorsMap.get who = some info) : statusOf s who = some info.status := by
  simp [statusOf, h]

/-- The pallet beside the block of each author's last change of status. -/
structure Watched (T : AuthorConfig) where
  state : AuthorState T
  changed : T.AccountId → Nat

namespace Watched

def genesis (ledger : T.Ledger) (g : AuthorGenesis) : Watched T := ⟨AuthorState.genesis ledger g, fun _ => 0⟩

def observe (w : Watched T) (s : AuthorState T) : Watched T :=
  ⟨s, fun who => if statusOf s who = statusOf w.state who then w.changed who else w.state.blockNumber⟩

def apply (w : Watched T) (call : AuthorCall T) : Except AuthorError (Watched T) := do
  let s ← w.state.apply call
  pure (w.observe s)

def after (ledger : T.Ledger) (g : AuthorGenesis) (calls : List (AuthorCall T)) : Watched T :=
  run apply (genesis ledger g) calls

end Watched

/-- What holds of the authors in every state. -/
structure StatusSound (w : Watched T) : Prop where
  collateral : ∀ who, (∃ info, w.state.authorsMap.get who = some info ∧ info.status ≠ .resigned) ↔
    w.state.commitment.commitMap.containsKey (who, T.authorCollateral) = true
  penalties : ∀ who info, w.state.authorsMap.get who = some info → info.status = .resigned →
    ∀ block, w.state.blockNumber < block → w.state.authorPenalties.get (block, who) = none
  since : ∀ who info, w.state.authorsMap.get who = some info → info.statusSince = w.changed who

/-- What holds of a call that leads to the state. -/
structure TransitionSound (w : Watched T) (call : AuthorCall T) (s : AuthorState T) : Prop where
  lifted : ∀ who info info', w.state.authorsMap.get who = some info → s.authorsMap.get who = some info' →
    info.status = .probation → info'.status = .active →
      w.changed who + w.state.probationPeriod ≤ w.state.blockNumber ∧ info'.riskUntil ≤ w.state.blockNumber
  revoked : ∀ who info info', w.state.authorsMap.get who = some info → s.authorsMap.get who = some info' →
    info.status = .active → info'.status = .probation →
      w.state.blockNumber + w.state.probationPeriod < info'.riskUntil
  left : ∀ who, statusOf w.state who = some .resigned → statusOf s who ≠ some .resigned →
    ∃ collateral fortitude generated, call = .enlist who collateral fortitude generated

/-- Authors become permanent and resign only in the block in which their status changed last. -/
def AuthorCall.timely (s : AuthorState T) : AuthorCall T → Prop
  | .confirm who | .setStatus who .active _ => ∀ info, s.authorsMap.get who = some info →
      info.status = .probation → info.statusSince = s.blockNumber ∧ s.probationPeriod = 0
  | .demit who _ | .setStatus who .resigned _ => ∀ info, s.authorsMap.get who = some info →
      info.status = .active → info.statusSince = s.blockNumber
  | _ => True

/-- What holds of the authors in every state of every run. -/
structure StatusKept (w : Watched T) : Prop where
  collateral : ∀ who, (∃ info, w.state.authorsMap.get who = some info ∧ info.status ≠ .resigned) ↔
    w.state.commitment.commitMap.containsKey (who, T.authorCollateral) = true
  penalties : ∀ who info, w.state.authorsMap.get who = some info → info.status = .resigned →
    ∀ block, w.state.blockNumber < block → w.state.authorPenalties.get (block, who) = none
  probation : ∀ who info, w.state.authorsMap.get who = some info → info.status = .probation →
    info.statusSince = w.changed who

/-- What holds of every call of every run: a probation lasts for its period, up to the last block there is, and is
ended by its own calls. -/
structure TransitionKept (w : Watched T) (call : AuthorCall T) (s : AuthorState T) : Prop where
  lifted : ∀ who info info', w.state.authorsMap.get who = some info → s.authorsMap.get who = some info' →
    info.status = .probation → info'.status = .active →
      (call = .confirm who ∨ ∃ duty, call = .setStatus who .active duty) ∧
        T.blockAdd (w.changed who) w.state.probationPeriod ≤ w.state.blockNumber ∧
          info'.riskUntil ≤ w.state.blockNumber
  revoked : ∀ who info info', w.state.authorsMap.get who = some info → s.authorsMap.get who = some info' →
    info.status = .active → info'.status = .probation →
      w.state.blockNumber + w.state.probationPeriod < info'.riskUntil
  left : ∀ who, statusOf w.state who = some .resigned → statusOf s who ≠ some .resigned →
    ∃ collateral fortitude generated, call = .enlist who collateral fortitude generated

/-- The invariant of the runs, with the bounds the guards rely on. The time stamp is right for the statuses in `R`,
which are all of them in timely runs and that of probation in the others. -/
structure LifecycleSound (R : AuthorStatus → Prop) (w : Watched T) : Prop where
  collateral : ∀ who, (∃ info, w.state.authorsMap.get who = some info ∧ info.status ≠ .resigned) ↔
    w.state.commitment.commitMap.containsKey (who, T.authorCollateral) = true
  penalties : ∀ who info, w.state.authorsMap.get who = some info → info.status = .resigned →
    ∀ block, w.state.blockNumber < block → w.state.authorPenalties.get (block, who) = none
  since : ∀ who info, w.state.authorsMap.get who = some info → R info.status → info.statusSince = w.changed who
  horizon : ∀ k v, w.state.authorPenalties.get k = some v → k.1 ≤ w.state.penaltiesUntil
  risk : ∀ who info, w.state.authorsMap.get who = some info → info.riskUntil ≤ T.maxBlock
  block : w.state.blockNumber ≤ T.maxBlock

variable {R : AuthorStatus → Prop}

theorem LifecycleSound.genesis (ledger : T.Ledger) (g : AuthorGenesis) :
    LifecycleSound R (Watched.genesis ledger g) := by
  refine ⟨fun who => ⟨?_, fun h => (nomatch h)⟩, fun who info h => (nomatch h), fun who info h => (nomatch h),
    fun k v h => (nomatch h), fun who info h => (nomatch h), Nat.zero_le _⟩
  rintro ⟨info, hi, -⟩
  cases hi

section Change

variable {w : Watched T} {s s' : AuthorState T} {who : T.AccountId} {info : AuthorInfo T.AccountId}

/-- One author's info was set; a status of `R` that changed has the present block as its time stamp. -/
structure InfoSet (R : AuthorStatus → Prop) (w : Watched T) (s : AuthorState T) (who : T.AccountId)
    (info : AuthorInfo T.AccountId) : Prop where
  infos : s.authorsMap = w.state.authorsMap.insert who info
  since : ∀ old, w.state.authorsMap.get who = some old →
    info.status = old.status → info.statusSince = old.statusSince
  stamped : R info.status → statusOf w.state who ≠ some info.status → info.statusSince = w.state.blockNumber
  risk : info.riskUntil ≤ T.maxBlock

theorem InfoSet.get (h : InfoSet R w s who info) (k : T.AccountId) :
    s.authorsMap.get k = if k = who then some info else w.state.authorsMap.get k := by
  rw [h.infos, StorageMap.get_insert]

theorem InfoSet.since_eq (hw : LifecycleSound R w) (h : InfoSet R w s who info) {k : T.AccountId}
    {i : AuthorInfo T.AccountId} (hi : s.authorsMap.get k = some i) (hR : R i.status) :
    i.statusSince = (w.observe s).changed k := by
  have hget := h.get k
  unfold Watched.observe
  dsimp only
  by_cases hk : k = who
  · subst hk
    rw [if_pos rfl] at hget
    obtain rfl := Option.some.inj (hi.symm.trans hget)
    rw [statusOf_of_get hi]
    split
    · rename_i hsame
      obtain ⟨old, hold, hstatus⟩ := Option.map_eq_some_iff.mp hsame.symm
      rw [h.since old hold hstatus.symm, hw.since k old hold (hstatus ▸ hR)]
    · rename_i hne
      exact h.stamped hR fun he => hne he.symm
  · rw [if_neg hk] at hget
    have hsame : statusOf s k = statusOf w.state k := by simp [statusOf, hget]
    rw [if_pos hsame]
    exact hw.since k i (hget ▸ hi) hR

theorem InfoSet.risk_le (hw : LifecycleSound R w) (h : InfoSet R w s who info) (k : T.AccountId)
    (i : AuthorInfo T.AccountId) (hi : s.authorsMap.get k = some i) : i.riskUntil ≤ T.maxBlock := by
  rw [h.get] at hi
  split at hi
  · obtain rfl := Option.some.inj hi
    exact h.risk
  · exact hw.risk k i hi

theorem InfoSet.collateral_iff (hw : LifecycleSound R w) (h : InfoSet R w s who info) {old : AuthorInfo T.AccountId}
    (hold : w.state.authorsMap.get who = some old) (hin : old.status ≠ .resigned) (hstay : info.status ≠ .resigned)
    (hcol : ∀ k, s.commitment.commitMap.containsKey (k, T.authorCollateral) =
      w.state.commitment.commitMap.containsKey (k, T.authorCollateral)) (k : T.AccountId) :
    (∃ i, s.authorsMap.get k = some i ∧ i.status ≠ .resigned) ↔
      s.commitment.commitMap.containsKey (k, T.authorCollateral) = true := by
  rw [hcol k, ← hw.collateral k, h.get]
  by_cases hk : k = who
  · subst hk
    simp [hold, hin, hstay]
  · rw [if_neg hk]

theorem InfoSet.penalties_none (hw : LifecycleSound R w) (h : InfoSet R w s who info)
    (hstay : info.status ≠ .resigned) (hb : s.blockNumber = w.state.blockNumber)
    (hp : ∀ k v, s.authorPenalties.get k = some v → k.2 = who ∨ w.state.authorPenalties.get k = some v)
    (k : T.AccountId) (i : AuthorInfo T.AccountId) (hi : s.authorsMap.get k = some i) (hres : i.status = .resigned)
    (block : Nat) (hlt : s.blockNumber < block) : s.authorPenalties.get (block, k) = none := by
  rw [h.get] at hi
  split at hi
  · obtain rfl := Option.some.inj hi
    exact absurd hres hstay
  · rename_i hk
    refine Option.eq_none_iff_forall_ne_some.mpr fun v hv => ?_
    rcases hp _ v hv with he | hv
    · exact hk he
    · rw [hw.penalties k i hi hres block (hb ▸ hlt)] at hv
      cases hv

theorem InfoSet.transition {call : AuthorCall T} (h : InfoSet R w s who info)
    (hlift : ∀ old, w.state.authorsMap.get who = some old → old.status = .probation → info.status = .active →
      (call = .confirm who ∨ ∃ duty, call = .setStatus who .active duty) ∧
        T.blockAdd (w.changed who) w.state.probationPeriod ≤ w.state.blockNumber ∧
          info.riskUntil ≤ w.state.blockNumber)
    (hrevoke : ∀ old, w.state.authorsMap.get who = some old → old.status = .active → info.status = .probation →
      w.state.blockNumber + w.state.probationPeriod < info.riskUntil)
    (hleave : ∀ old, w.state.authorsMap.get who = some old → old.status = .resigned → info.status ≠ .resigned →
      ∃ collateral fortitude generated, call = .enlist who collateral fortitude generated) :
    TransitionKept w call s := by
  refine ⟨fun k old new ho hn hp ha => ?_, fun k old new ho hn ha hp => ?_, fun k ho hn => ?_⟩
  · rw [h.get] at hn
    split at hn
    · rename_i hk
      obtain rfl := Option.some.inj hn
      exact hk ▸ hlift old (hk ▸ ho) hp ha
    · obtain rfl := Option.some.inj (ho.symm.trans hn)
      rw [hp] at ha
      cases ha
  · rw [h.get] at hn
    split at hn
    · rename_i hk
      obtain rfl := Option.some.inj hn
      exact hrevoke old (hk ▸ ho) ha hp
    · obtain rfl := Option.some.inj (ho.symm.trans hn)
      rw [hp] at ha
      cases ha
  · by_cases hk : k = who
    · subst hk
      obtain ⟨old, hold, hstatus⟩ := Option.map_eq_some_iff.mp ho
      refine hleave old hold hstatus fun he => hn ?_
      rw [statusOf, h.get, if_pos rfl, Option.map_some, he]
    · rw [statusOf, h.get, if_neg hk] at hn
      exact absurd ho hn

theorem TransitionKept.of_same {call : AuthorCall T} (h : s.authorsMap = w.state.authorsMap) :
    TransitionKept w call s := by
  refine ⟨fun k old new ho hn hp ha => ?_, fun k old new ho hn ha hp => ?_, fun k ho hn => ?_⟩
  · rw [h] at hn
    obtain rfl := Option.some.inj (ho.symm.trans hn)
    rw [hp] at ha
    cases ha
  · rw [h] at hn
    obtain rfl := Option.some.inj (ho.symm.trans hn)
    rw [hp] at ha
    cases ha
  · rw [statusOf, h] at hn
    exact absurd ho hn

theorem LifecycleSound.of_same (hw : LifecycleSound R w) (hi : s.authorsMap = w.state.authorsMap)
    (hle : w.state.blockNumber ≤ s.blockNumber) (hmax : s.blockNumber ≤ T.maxBlock)
    (hp : ∀ k v, s.authorPenalties.get k = some v → w.state.authorPenalties.get k = some v)
    (hu : s.penaltiesUntil = w.state.penaltiesUntil)
    (hc : ∀ k, s.commitment.commitMap.containsKey (k, T.authorCollateral) =
      w.state.commitment.commitMap.containsKey (k, T.authorCollateral)) : LifecycleSound R (w.observe s) := by
  have hsame (k : T.AccountId) : statusOf s k = statusOf w.state k := by rw [statusOf, hi, statusOf]
  refine ⟨fun k => ?_, fun k i hk hres block hlt => ?_, fun k i hk hR => ?_, fun k v hk => ?_, fun k i hk => ?_, hmax⟩
  · change (∃ i, s.authorsMap.get k = some i ∧ _) ↔ s.commitment.commitMap.containsKey _ = true
    rw [hc k, hi]
    exact hw.collateral k
  · refine Option.eq_none_iff_forall_ne_some.mpr fun v hv => ?_
    have hnone := hw.penalties k i (hi ▸ hk) hres block (Nat.lt_of_le_of_lt hle hlt)
    rw [hp _ v hv] at hnone
    cases hnone
  · unfold Watched.observe
    dsimp only
    rw [if_pos (hsame k)]
    exact hw.since k i (hi ▸ hk) hR
  · have hle := hw.horizon k v (hp k v hk)
    rwa [← hu] at hle
  · exact hw.risk k i (hi ▸ hk)

end Change

section Step

variable {w : Watched T} {call : AuthorCall T} {s : AuthorState T} {who : T.AccountId}

theorem LifecycleSound.of_set (hw : LifecycleSound R w) {info old : AuthorInfo T.AccountId}
    (h : InfoSet R w s who info) (hold : w.state.authorsMap.get who = some old) (hin : old.status ≠ .resigned) (hstay : info.status ≠ .resigned)
    (hb : s.blockNumber = w.state.blockNumber)
    (hp : ∀ k v, s.authorPenalties.get k = some v → k.2 = who ∨ w.state.authorPenalties.get k = some v)
    (hu : ∀ k v, s.authorPenalties.get k = some v → k.1 ≤ s.penaltiesUntil)
    (hc : ∀ k, s.commitment.commitMap.containsKey (k, T.authorCollateral) =
      w.state.commitment.commitMap.containsKey (k, T.authorCollateral)) : LifecycleSound R (w.observe s) :=
  ⟨h.collateral_iff hw hold hin hstay hc, h.penalties_none hw hstay hb hp, fun _ _ => h.since_eq hw,
    hu, h.risk_le hw, hb ▸ hw.block⟩

theorem lt_of_blockAdd_lt {block offset risk : Nat} (h : T.blockAdd block offset < risk) (hle : risk ≤ T.maxBlock) :
    block + offset < risk := by
  unfold AuthorConfig.blockAdd saturatingAdd at h
  omega

/-- The invariant after a call that was an allowed transition. -/
structure Carried (R : AuthorStatus → Prop) (w : Watched T) (call : AuthorCall T) (s : AuthorState T) : Prop where
  sound : LifecycleSound R (w.observe s)
  transition : TransitionKept w call s

variable {info : AuthorInfo T.AccountId}

theorem carried_of_eased (hw : LifecycleSound R w) {risk : Nat} (hi : w.state.authorsMap.get who = some info)
    (hstatus : info.status ≠ .resigned) (hrisk : risk ≤ info.riskUntil)
    (hk : RolesKept (w.state.setInfo who { info with riskUntil := risk }) s) :
    Carried R w call s := by
  have hset : InfoSet R w s who { info with riskUntil := risk } := by
    refine ⟨hk.infos, fun old hold _ => ?_, fun _ hne => ?_, Nat.le_trans hrisk (hw.risk who info hi)⟩
    · rw [Option.some.inj (hold.symm.trans hi)]
    · exact absurd (statusOf_of_get hi) hne
  refine ⟨hw.of_set hset hi hstatus hstatus hk.block (fun k v hkv => .inr (hk.penalties k v hkv))
    (fun k v hkv => hk.horizon ▸ hw.horizon k v (hk.penalties k v hkv)) hk.collateral, hset.transition ?_ ?_ ?_⟩
  · rintro old hold hp ha
    obtain rfl := Option.some.inj (hold.symm.trans hi)
    rw [hp] at ha
    cases ha
  · rintro old hold ha hp
    obtain rfl := Option.some.inj (hold.symm.trans hi)
    rw [ha] at hp
    cases hp
  · rintro old hold hres -
    obtain rfl := Option.some.inj (hold.symm.trans hi)
    exact absurd hres hstatus

theorem carried_of_lifted (hw : LifecycleSound R w) (hprobation : R .probation)
    (hcall : call = .confirm who ∨ ∃ duty, call = .setStatus who .active duty)
    (hi : w.state.authorsMap.get who = some info) (hstatus : info.status = .probation)
    (hperiod : T.blockAdd info.statusSince w.state.probationPeriod ≤ w.state.blockNumber)
    (hrisk : info.riskUntil ≤ w.state.blockNumber) (hnow : R .active → info.statusSince = w.state.blockNumber)
    (hk : RolesKept (w.state.setInfo who { info with status := .active }) s) :
    Carried R w call s := by
  have hset : InfoSet R w s who { info with status := .active } := by
    refine ⟨hk.infos, fun old hold _ => ?_, fun hR _ => hnow hR, hw.risk who info hi⟩
    rw [Option.some.inj (hold.symm.trans hi)]
  refine ⟨hw.of_set hset hi (by simp [hstatus]) (by simp) hk.block (fun k v hkv => .inr (hk.penalties k v hkv))
    (fun k v hkv => hk.horizon ▸ hw.horizon k v (hk.penalties k v hkv)) hk.collateral, hset.transition ?_ ?_ ?_⟩
  · rintro old hold - -
    obtain rfl := Option.some.inj (hold.symm.trans hi)
    rw [hw.since who old hi (hstatus ▸ hprobation)] at hperiod
    exact ⟨hcall, hperiod, hrisk⟩
  · rintro old hold - hp
    cases hp
  · rintro old hold hres -
    obtain rfl := Option.some.inj (hold.symm.trans hi)
    rw [hres] at hstatus
    cases hstatus

theorem carried_of_revoked (hw : LifecycleSound R w) (hi : w.state.authorsMap.get who = some info)
    (hstatus : info.status = .active)
    (hrisk : T.blockAdd w.state.blockNumber w.state.probationPeriod < info.riskUntil)
    (hk : RolesKept
      (w.state.setInfo who { info with status := .probation, statusSince := w.state.blockNumber }) s) :
    Carried R w call s := by
  have hset : InfoSet R w s who { info with status := .probation, statusSince := w.state.blockNumber } := by
    refine ⟨hk.infos, fun old hold hs => ?_, fun _ _ => rfl, hw.risk who info hi⟩
    obtain rfl := Option.some.inj (hold.symm.trans hi)
    rw [hstatus] at hs
    cases hs
  refine ⟨hw.of_set hset hi (by simp [hstatus]) (by simp) hk.block (fun k v hkv => .inr (hk.penalties k v hkv))
    (fun k v hkv => hk.horizon ▸ hw.horizon k v (hk.penalties k v hkv)) hk.collateral, hset.transition ?_ ?_ ?_⟩
  · rintro old hold - ha
    cases ha
  · rintro old hold - -
    exact lt_of_blockAdd_lt hrisk (hw.risk who info hi)
  · rintro old hold hres -
    obtain rfl := Option.some.inj (hold.symm.trans hi)
    rw [hres] at hstatus
    cases hstatus

theorem carried_of_penalized (hw : LifecycleSound R w) {info' : AuthorInfo T.AccountId} {factor : Perbill}
    {block : Nat} (hi : w.state.authorsMap.get who = some info) (hstatus : info.status ≠ .resigned)
    (hrisk : info'.riskUntil ≤ T.maxBlock)
    (hinfo : (info'.status = info.status ∧ info'.statusSince = info.statusSince) ∨
      (info.status = .active ∧ T.blockAdd w.state.blockNumber w.state.probationPeriod < info'.riskUntil ∧
        info'.status = .probation ∧ info'.statusSince = w.state.blockNumber))
    (hk : RolesKept { w.state.setInfo who info' with
      authorPenalties := w.state.authorPenalties.insert (block, who) factor
      penaltiesUntil := max w.state.penaltiesUntil block } s) :
    Carried R w call s := by
  have hstay : info'.status ≠ .resigned := by
    rcases hinfo with ⟨hs, -⟩ | ⟨-, -, hs, -⟩
    · rwa [hs]
    · simp [hs]
  have hset : InfoSet R w s who info' := by
    refine ⟨hk.infos, fun old hold hs => ?_, fun _ hne => ?_, hrisk⟩
    · obtain rfl := Option.some.inj (hold.symm.trans hi)
      rcases hinfo with ⟨-, hsince⟩ | ⟨ha, -, hp, -⟩
      · exact hsince
      · rw [hp, ha] at hs
        cases hs
    · rcases hinfo with ⟨hs, -⟩ | ⟨-, -, -, hsince⟩
      · exact absurd (hs ▸ statusOf_of_get hi) hne
      · exact hsince
  have hpen (k : Nat × T.AccountId) (v : Perbill) (hkv : s.authorPenalties.get k = some v) :
      k = (block, who) ∨ w.state.authorPenalties.get k = some v := by
    have hkv := hk.penalties k v hkv
    dsimp only at hkv
    rw [StorageMap.get_insert] at hkv
    split at hkv
    · exact .inl ‹_›
    · exact .inr hkv
  have huntil : s.penaltiesUntil = max w.state.penaltiesUntil block := hk.horizon
  refine ⟨hw.of_set hset hi hstatus hstay hk.block (fun k v hkv => (hpen k v hkv).imp (fun he => by rw [he]) id)
    (fun k v hkv => ?_) hk.collateral, hset.transition ?_ ?_ ?_⟩
  · rcases hpen k v hkv with rfl | hkv
    · exact huntil ▸ Nat.le_max_right _ _
    · exact huntil ▸ Nat.le_trans (hw.horizon k v hkv) (Nat.le_max_left _ _)
  · rintro old hold hp ha
    obtain rfl := Option.some.inj (hold.symm.trans hi)
    rcases hinfo with ⟨hs, -⟩ | ⟨-, -, hs, -⟩
    · rw [hs, hp] at ha
      cases ha
    · rw [hs] at ha
      cases ha
  · rintro old hold ha hp
    obtain rfl := Option.some.inj (hold.symm.trans hi)
    rcases hinfo with ⟨hs, -⟩ | ⟨-, hpast, -, -⟩
    · rw [hs, ha] at hp
      cases hp
    · exact lt_of_blockAdd_lt hpast hrisk
  · rintro old hold hres -
    obtain rfl := Option.some.inj (hold.symm.trans hi)
    exact absurd hres hstatus

theorem carried_of_enlisted (hw : LifecycleSound R w) {generated : T.AccountId} {collateral : Nat}
    {fortitude : Fortitude}
    {commit : CommitInfo T.toConfig} (hi : ∀ info, w.state.authorsMap.get who = some info → info.status = .resigned)
    (hk : RolesKept { w.state.setInfo who (enrollInfo w.state who generated) with
      authorsDigest := w.state.authorsDigest.insert (enrollInfo w.state who generated).digest who
      commitment := { w.state.commitment with
        commitMap := w.state.commitment.commitMap.insert (who, T.authorCollateral) commit } } s) :
    Carried R w (.enlist who collateral fortitude generated) s := by
  obtain ⟨hstatus, hsince, hrisk⟩ := enrollInfo_fields w.state who generated
  have hset : InfoSet R w s who (enrollInfo w.state who generated) := by
    refine ⟨hk.infos, fun old hold hs => ?_, fun _ _ => hsince, hrisk ▸ hw.block⟩
    rw [hstatus, hi old hold] at hs
    cases hs
  have hstay : (enrollInfo w.state who generated).status ≠ .resigned := by simp [hstatus]
  refine ⟨⟨fun k => ?_, hset.penalties_none hw hstay hk.block (fun k v hkv => .inr (hk.penalties k v hkv)),
    fun _ _ => hset.since_eq hw, fun k v hkv => hk.horizon ▸ hw.horizon k v (hk.penalties k v hkv),
    hset.risk_le hw, hk.block ▸ hw.block⟩, hset.transition ?_ ?_ ?_⟩
  · change (∃ i, s.authorsMap.get k = some i ∧ _) ↔ s.commitment.commitMap.containsKey _ = true
    rw [hk.collateral k, hset.get]
    dsimp only
    by_cases hkw : k = who
    · subst hkw
      simp [hstay, StorageMap.containsKey]
    · rw [if_neg hkw, containsKey_insert_of_ne (fun he => hkw (Prod.mk.inj he).1)]
      exact hw.collateral k
  · rintro old hold hp -
    rw [hi old hold] at hp
    cases hp
  · rintro old hold ha -
    rw [hi old hold] at ha
    cases ha
  · rintro old hold - -
    exact ⟨collateral, fortitude, generated, rfl⟩

theorem carried_of_resigned (hw : LifecycleSound R w) (hi : w.state.authorsMap.get who = some info)
    (hnow : R .resigned → info.statusSince = w.state.blockNumber)
    (hclear : ∀ block, w.state.nextBlock ≤ block → block ≤ w.state.penaltiesUntil →
      w.state.authorPenalties.get (block, who) = none)
    (hk : RolesKept { w.state.setInfo who { info with status := .resigned } with
      commitment := { w.state.commitment with
        commitMap := w.state.commitment.commitMap.remove (who, T.authorCollateral) } } s) :
    Carried R w call s := by
  have hset : InfoSet R w s who { info with status := .resigned } := by
    refine ⟨hk.infos, fun old hold _ => ?_, fun hR _ => hnow hR, hw.risk who info hi⟩
    rw [Option.some.inj (hold.symm.trans hi)]
  refine ⟨⟨fun k => ?_, fun k i hki hres block hlt => ?_, fun _ _ => hset.since_eq hw,
    fun k v hkv => hk.horizon ▸ hw.horizon k v (hk.penalties k v hkv), hset.risk_le hw, hk.block ▸ hw.block⟩,
    hset.transition ?_ ?_ ?_⟩
  · change (∃ i, s.authorsMap.get k = some i ∧ _) ↔ s.commitment.commitMap.containsKey _ = true
    rw [hk.collateral k, hset.get]
    dsimp only
    by_cases hkw : k = who
    · subst hkw
      simp [StorageMap.containsKey]
    · rw [if_neg hkw, containsKey_remove_of_ne (fun he => hkw (Prod.mk.inj he).1)]
      exact hw.collateral k
  · have hblock : s.blockNumber = w.state.blockNumber := hk.block
    refine Option.eq_none_iff_forall_ne_some.mpr fun v hv => ?_
    have hv' := hk.penalties _ v hv
    change s.authorsMap.get k = some i at hki
    rw [hset.get] at hki
    split at hki
    · rename_i hkw
      have hnext : w.state.nextBlock ≤ block := by
        change s.blockNumber < block at hlt
        unfold AuthorState.nextBlock AuthorConfig.blockAdd saturatingAdd
        omega
      have hnone := hclear block hnext (hw.horizon _ v hv')
      rw [hkw] at hv'
      exact absurd (hv'.symm.trans hnone) (by simp)
    · have hnone := hw.penalties k i hki hres block (hblock ▸ hlt)
      exact absurd (hv'.symm.trans hnone) (by simp)
  · rintro old hold - ha
    cases ha
  · rintro old hold - hp
    cases hp
  · rintro old hold - hne
    exact absurd rfl hne

/-- One call keeps the invariant and moves authors between statuses as allowed; it has to be timely where the time
stamp is to be right for more than probation. -/
theorem lifecycle_step (hw : LifecycleSound R w) (hprobation : R .probation)
    (ht : R .active ∨ R .resigned → call.timely w.state) (h : w.state.apply call = .ok s) : Carried R w call s := by
  cases apply_roleStep h with
  | kept hk =>
    exact ⟨hw.of_same hk.infos hk.block.ge (hk.block ▸ hw.block) hk.penalties hk.horizon hk.collateral,
      .of_same hk.infos⟩
  | entered hb hk =>
    have hblock : s.blockNumber = w.state.blockNumber + 1 := hk.block
    exact ⟨hw.of_same hk.infos (by omega) (by omega) hk.penalties hk.horizon hk.collateral, .of_same hk.infos⟩
  | eased hi hstatus hrisk hk => exact carried_of_eased hw hi hstatus hrisk hk
  | lifted hc hi hstatus hperiod hrisk hk =>
    refine carried_of_lifted hw hprobation hc hi hstatus hperiod hrisk (fun hR => ?_) hk
    rcases hc with rfl | ⟨duty, rfl⟩
    · exact (ht (.inl hR) _ hi hstatus).1
    · exact (ht (.inl hR) _ hi hstatus).1
  | revoked hi hstatus hrisk hk => exact carried_of_revoked hw hi hstatus hrisk hk
  | penalized hi hstatus hdigest hrisk hinfo hk => exact carried_of_penalized hw hi hstatus hrisk hinfo hk
  | enlisted hi hk => exact carried_of_enlisted hw hi hk
  | resigned hc hi hstatus hclear hk =>
    refine carried_of_resigned hw hi (fun hR => ?_) hclear hk
    rcases hc with ⟨duty, rfl⟩ | ⟨duty, rfl⟩
    · exact ht (.inr hR) _ hi hstatus
    · exact ht (.inr hR) _ hi hstatus

/-- A timely call lifts a probation after its whole period. -/
theorem TransitionKept.sound (h : TransitionKept w call s) (hw : LifecycleSound (fun _ => True) w)
    (ht : call.timely w.state) : TransitionSound w call s := by
  refine ⟨fun who old new hold hnew hp ha => ?_, h.revoked, h.left⟩
  obtain ⟨hcall, -, hrisk⟩ := h.lifted who old new hold hnew hp ha
  have hnow : old.statusSince = w.state.blockNumber ∧ w.state.probationPeriod = 0 := by
    rcases hcall with rfl | ⟨duty, rfl⟩
    · exact ht old hold hp
    · exact ht old hold hp
  have hsince := hw.since who old hold trivial
  exact ⟨by omega, hrisk⟩

end Step

section Runs

theorem Watched.apply_eq_ok {w w' : Watched T} {call : AuthorCall T} (h : w.apply call = .ok w') :
    ∃ s, w.state.apply call = .ok s ∧ w' = w.observe s := by
  obtain ⟨s, hs, h⟩ := bind_eq_ok.mp h
  exact ⟨s, hs, (pure_eq_ok.mp h).symm⟩

theorem Watched.after_state (ledger : T.Ledger) (g : AuthorGenesis) (calls : List (AuthorCall T)) :
    (Watched.after ledger g calls).state = AuthorState.after ledger g calls := by
  have hview (w : Watched T) (call : AuthorCall T) :
      (w.apply call).map Watched.state = w.state.apply call := by
    unfold Watched.apply
    cases w.state.apply call <;> rfl
  exact run_map hview _ calls

theorem Watched.apply_view (w : Watched T) (call : AuthorCall T) :
    (w.apply call).map Watched.state = w.state.apply call := by
  unfold Watched.apply
  cases w.state.apply call <;> rfl

/-- In every run, whenever authors become permanent and resign, all but the time stamp of these statuses is as it
should be. -/
theorem author_status_kept (ledger : T.Ledger) (g : AuthorGenesis) (calls : List (AuthorCall T)) :
    StatusKept (Watched.after ledger g calls) ∧
      ∀ call s, (Watched.after ledger g calls).state.apply call = .ok s →
        TransitionKept (Watched.after ledger g calls) call s := by
  have hstep (w : Watched T) (call : AuthorCall T) (s : AuthorState T) (hw : LifecycleSound (· = .probation) w)
      (h : w.state.apply call = .ok s) : Carried (· = .probation) w call s :=
    lifecycle_step hw rfl (by rintro (h | h) <;> cases h) h
  have hsound : LifecycleSound (· = .probation) (Watched.after ledger g calls) := by
    refine run_invariant (fun w call w' hw hok => ?_) (.genesis ledger g) calls
    obtain ⟨s, hs, rfl⟩ := Watched.apply_eq_ok hok
    exact (hstep w call s hw hs).sound
  exact ⟨⟨hsound.collateral, hsound.penalties, hsound.since⟩, fun call s h => (hstep _ call s hsound h).transition⟩

theorem lifecycle_run {ledger : T.Ledger} {g : AuthorGenesis} {calls : List (AuthorCall T)}
    (h : RunMeets AuthorState.apply (fun s call => call.timely s) (AuthorState.genesis ledger g) calls) :
    LifecycleSound (fun _ => True) (Watched.after ledger g calls) := by
  have hmeets := RunMeets.of_view (s := Watched.genesis ledger g) Watched.apply_view h
  refine run_invariant_of_meets (fun w call w' hw ht hok => ?_) (LifecycleSound.genesis ledger g) hmeets
  obtain ⟨s, hs, rfl⟩ := Watched.apply_eq_ok hok
  exact (lifecycle_step hw trivial (fun _ => ht) hs).sound

/-- In runs in which permanence and resignation are timely, every state and every call is sound. -/
theorem author_status_machine {ledger : T.Ledger} {g : AuthorGenesis} {calls : List (AuthorCall T)}
    (h : RunMeets AuthorState.apply (fun s call => call.timely s) (AuthorState.genesis ledger g) calls) :
    (∀ pre, pre <+: calls → StatusSound (Watched.after ledger g pre)) ∧
      ∀ pre call s, pre ++ [call] <+: calls → (Watched.after ledger g pre).state.apply call = .ok s →
        TransitionSound (Watched.after ledger g pre) call s := by
  refine ⟨fun pre hpre => ?_, fun pre call s hpre hs => ?_⟩
  · obtain ⟨rest, rfl⟩ := hpre
    have hsound := lifecycle_run h.of_append.1
    exact ⟨hsound.collateral, hsound.penalties, fun who info hi => hsound.since who info hi trivial⟩
  · obtain ⟨rest, rfl⟩ := hpre
    rw [List.append_assoc] at h
    obtain ⟨hfirst, hcall⟩ := h.of_append
    have hsound := lifecycle_run hfirst
    have ht : call.timely (Watched.after ledger g pre).state := by
      rw [Watched.after_state] at hs ⊢
      exact hcall.1 s hs
    exact (lifecycle_step hsound trivial (fun _ => ht) hs).transition.sound hsound ht

end Runs

/-- An author who becomes permanent in the block of the enrollment is in a sound run. -/
theorem author_status_machine_at_once :
    ((∀ pre, pre <+: [enrolls 1 11, confirms 1] →
        StatusSound (Watched.after (T := authorConfig) fundedLedger plainGenesis pre)) ∧
      ∀ pre call s, pre ++ [call] <+: [enrolls 1 11, confirms 1] →
        (Watched.after (T := authorConfig) fundedLedger plainGenesis pre).state.apply call = .ok s →
          TransitionSound (Watched.after (T := authorConfig) fundedLedger plainGenesis pre) call s) ∧
      statusOf (authorRun [enrolls 1 11, confirms 1]) 1 = some .active := by
  refine ⟨author_status_machine ⟨fun _ _ => trivial, fun _ _ info hi _ => ?_, trivial⟩, rfl⟩
  obtain rfl := Option.some.inj hi
  exact ⟨rfl, rfl⟩

/-- Permanence a block later leaves the time stamp of the probation. -/
theorem permanence_keeps_time_stamp :
    ¬StatusSound (Watched.after (T := authorConfig) fundedLedger plainGenesis
      [enrolls 1 11, .enterBlock, confirms 1]) := by
  intro h
  have hsince := h.since (1 : Nat) _ rfl
  exact absurd hsince (by decide)

end FrameSuite
