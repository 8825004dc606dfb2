import FrameSuite.AuthorSteps

/-! Who holds the role of an author, and the results of elections. A call ends the role of an author only
by its resignation, and only the chain manager's calls change the results. -/

namespace FrameSuite

variable {T : AuthorConfig} {s s' s'' : AuthorState T} {who : T.AccountId} {call : AuthorCall T}

/-- The author is active or on probation, with its collateral committed. -/
def AuthorState.inRole (s : AuthorState T) (who : T.AccountId) : Prop :=
  (∃ info, s.authorsMap.get who = some info ∧ info.status ≠ .resigned) ∧
    s.commitment.commitMap.containsKey (who, T.authorCollateral) = true

/-- The call is a resignation of the account. -/
def AuthorCall.leaves (call : AuthorCall T) (who : T.AccountId) : Prop :=
  (∃ duty, call = .demit who duty) ∨ ∃ duty, call = .setStatus who .resigned duty

section Roles

theorem RolesKept.inRole (h : RolesKept s s') (who : T.AccountId) : s'.inRole who ↔ s.inRole who := by
  unfold AuthorState.inRole
  rw [h.infos, h.collateral]

theorem inRole_setInfo {info info' : AuthorInfo T.AccountId} {w : T.AccountId} (hi : s.authorsMap.get w = some info)
    (hstatus : info.status ≠ .resigned) (hstatus' : info'.status ≠ .resigned) (who : T.AccountId) :
    (s.setInfo w info').inRole who ↔ s.inRole who := by
  unfold AuthorState.inRole AuthorState.setInfo
  dsimp only
  rw [StorageMap.get_insert]
  by_cases hw : who = w
  · subst hw
    simp [hi, hstatus, hstatus']
  · rw [if_neg hw]

theorem registered_setInfo {info info' : AuthorInfo T.AccountId} {w : T.AccountId}
    (hi : s.authorsMap.get w = some info)
    (who : T.AccountId) :
    (s.setInfo w info').authorsMap.containsKey who = true ↔ s.authorsMap.containsKey who = true := by
  refine containsKey_insert.trans (or_iff_right_of_imp ?_)
  rintro rfl
  exact StorageMap.containsKey_iff.mpr ⟨info, hi⟩

/-- What a call does to one account: it stays in the role unless it resigns, and is registered only by
entering the role. -/
structure RoleMoved (s s' : AuthorState T) (call : AuthorCall T) (who : T.AccountId) : Prop where
  stays : ¬call.leaves who → s.inRole who → s'.inRole who
  registers : s'.authorsMap.containsKey who = true → s.authorsMap.containsKey who = true ∨ s'.inRole who

theorem RolesKept.moved (h : RolesKept s s') : RoleMoved s s' call who :=
  ⟨fun _ => (h.inRole who).mpr, fun hr => .inl (h.infos ▸ hr)⟩

/-- Up to changes that leave the roles, one author who has not resigned gets another such info. -/
theorem roleMoved_of_set {info info' : AuthorInfo T.AccountId} {w : T.AccountId} {m : AuthorState T}
    (h : RolesKept m s') (hm : m.authorsMap = s.authorsMap.insert w info') (hc : m.commitment = s.commitment)
    (hi : s.authorsMap.get w = some info) (hstatus : info.status ≠ .resigned) (hstatus' : info'.status ≠ .resigned) :
    RoleMoved s s' call who := by
  refine ⟨fun _ hrole => ?_, fun hr => .inl ?_⟩
  · have hset := (inRole_setInfo hi hstatus hstatus' who).mpr hrole
    rw [h.inRole who]
    unfold AuthorState.inRole
    rw [hm, hc]
    exact hset
  · rw [h.infos, hm] at hr
    exact (registered_setInfo hi who).mp hr

theorem roleMoved_of_enlisted {w generated : T.AccountId} {c : CommitInfo T.toConfig}
    (h : RolesKept { s.setInfo w (enrollInfo s w generated) with
      authorsDigest := s.authorsDigest.insert (enrollInfo s w generated).digest w
      commitment := { s.commitment with
        commitMap := s.commitment.commitMap.insert (w, T.authorCollateral) c } } s') :
    RoleMoved s s' call who := by
  have hstatus := (enrollInfo_fields s w generated).1
  by_cases hw : who = w
  · subst hw
    have hrole : s'.inRole who := by
      refine (h.inRole who).mpr ⟨⟨_, StorageMap.get_insert_self _ _ _, by simp [hstatus]⟩, ?_⟩
      exact containsKey_insert.mpr (.inl rfl)
    exact ⟨fun _ _ => hrole, fun _ => .inr hrole⟩
  · refine ⟨fun _ hrole => (h.inRole who).mpr ⟨?_, ?_⟩, fun hr => .inl ?_⟩
    · obtain ⟨info, hi, hs⟩ := hrole.1
      exact ⟨info, (StorageMap.get_insert_of_ne hw).trans hi, hs⟩
    · exact containsKey_insert.mpr (.inr hrole.2)
    · rw [h.infos] at hr
      exact (containsKey_insert.mp hr).resolve_left hw

theorem roleMoved_of_resigned {w : T.AccountId} {info : AuthorInfo T.AccountId} (hc : call.leaves w)
    (hi : s.authorsMap.get w = some info)
    (h : RolesKept { s.setInfo w { info with status := .resigned } with
      commitment := { s.commitment with
        commitMap := s.commitment.commitMap.remove (w, T.authorCollateral) } } s') :
    RoleMoved s s' call who := by
  refine ⟨fun hne hrole => ?_, fun hr => .inl ?_⟩
  · have hw : who ≠ w := fun he => hne (he ▸ hc)
    obtain ⟨info', hi', hs⟩ := hrole.1
    refine (h.inRole who).mpr ⟨⟨info', (StorageMap.get_insert_of_ne hw).trans hi', hs⟩, ?_⟩
    refine (containsKey_remove_of_ne ?_).trans hrole.2
    exact fun he => hw (Prod.mk.inj he).1
  · rw [h.infos] at hr
    exact (registered_setInfo hi who).mp hr

theorem apply_roleMoved (h : s.apply call = .ok s') (who : T.AccountId) : RoleMoved s s' call who := by
  cases apply_roleStep h with
  | kept hk => exact hk.moved
  | entered hb hk => exact ⟨fun _ => (hk.inRole who).mpr, fun hr => .inl (hk.infos ▸ hr)⟩
  | eased hi hstatus hrisk hk => exact roleMoved_of_set hk rfl rfl hi hstatus hstatus
  | lifted hc hi hstatus hperiod hrisk hk => exact roleMoved_of_set hk rfl rfl hi (by simp [hstatus]) (by simp)
  | revoked hi hstatus hrisk hk => exact roleMoved_of_set hk rfl rfl hi (by simp [hstatus]) (by simp)
  | penalized hi hstatus hdigest hrisk hinfo hk =>
    refine roleMoved_of_set hk rfl rfl hi hstatus ?_
    rcases hinfo with ⟨hs, -⟩ | ⟨-, -, hs, -⟩
    · rwa [hs]
    · simp [hs]
  | enlisted hi hk => exact roleMoved_of_enlisted hk
  | resigned hc hi hstatus hclear hk => exact roleMoved_of_resigned hc hi hk

theorem apply_block_le (h : s.apply call = .ok s') : s.blockNumber ≤ s'.blockNumber := by
  cases apply_roleStep h with
  | kept hk => exact hk.block.ge
  | entered hb hk => exact (Nat.le_succ _).trans hk.block.ge
  | eased _ _ _ hk => exact hk.block.ge
  | lifted _ _ _ _ _ hk => exact hk.block.ge
  | revoked _ _ _ hk => exact hk.block.ge
  | penalized _ _ _ _ _ hk => exact hk.block.ge
  | enlisted _ hk => exact hk.block.ge
  | resigned _ _ _ _ hk => exact hk.block.ge

end Roles

section Results

/-- The results of the elections are the same. -/
structure ElectsKept (s s' : AuthorState T) : Prop where
  elected : s'.elected = s.elected
  recent : s'.recentElectedOn = s.recentElectedOn

theorem ElectsKept.reveal_eq (h : ElectsKept s s') : reveal s' = reveal s := by
  unfold reveal
  rw [h.elected, h.recent]

/-- The obligations and the block are the same. -/
structure DuesKept (s s' : AuthorState T) : Prop where
  rewards : s'.authorRewards = s.authorRewards
  penalties : s'.authorPenalties = s.authorPenalties
  rewardsUntil : s'.rewardsUntil = s.rewardsUntil
  penaltiesUntil : s'.penaltiesUntil = s.penaltiesUntil
  block : s'.blockNumber = s.blockNumber

structure ScheduleKept (s s' : AuthorState T) : Prop extends ElectsKept s s', DuesKept s s'

theorem setStatus_schedule {status : AuthorStatus} {duty : Option AuthorActivity}
    (h : setStatus s who status duty = .ok s') : ScheduleKept s s' := by
  obtain ⟨current, -, h⟩ := bind_eq_ok.mp h
  split at h
  case h_2 =>
    obtain ⟨info, -, -, -, rfl⟩ := revokePermanence_eq_ok h
    exact ⟨⟨rfl, rfl⟩, ⟨rfl, rfl, rfl, rfl, rfl⟩⟩
  case h_3 =>
    obtain ⟨⟨s1, refund⟩, h1, h⟩ := bind_eq_ok.mp h
    obtain rfl := pure_eq_ok.mp h
    obtain ⟨info, c, -, -, -, -, -, rfl⟩ := resign_eq_ok h1
    exact ⟨⟨rfl, rfl⟩, ⟨rfl, rfl, rfl, rfl, rfl⟩⟩
  case h_5 | h_8 => cases h
  case h_6 =>
    obtain ⟨info, -, -, -, -, rfl⟩ := setPermanence_eq_ok h
    exact ⟨⟨rfl, rfl⟩, ⟨rfl, rfl, rfl, rfl, rfl⟩⟩
  all_goals
    obtain rfl := pure_eq_ok.mp h
    exact ⟨⟨rfl, rfl⟩, ⟨rfl, rfl, rfl, rfl, rfl⟩⟩

theorem back_schedule {via : FundingTarget T.AccountId} {value : Nat} {q : Directive}
    (h : back s who via value q = .ok s') : ScheduleKept s s' := by
  obtain ⟨author, funder, actual, -, hf⟩ := back_eq_ok h
  obtain ⟨digest, s₁, m, hplaced, rfl⟩ := fund_written hf
  unfold placeOrRaise at hplaced
  split at hplaced
  · obtain ⟨c, -, rfl⟩ := onCommitment_eq_ok hplaced
    exact ⟨⟨rfl, rfl⟩, ⟨rfl, rfl, rfl, rfl, rfl⟩⟩
  · obtain ⟨c, -, rfl⟩ := onCommitment_eq_ok hplaced
    exact ⟨⟨rfl, rfl⟩, ⟨rfl, rfl, rfl, rfl, rfl⟩⟩

theorem exitTarget_schedule {target : FundingTarget T.AccountId} (h : exitTarget s who target = .ok s') :
    ScheduleKept s s' := by
  obtain ⟨author, funder, actual, -, hd⟩ := exitTarget_eq_ok h
  obtain ⟨c, m, -, rfl⟩ := draw_written hd
  exact ⟨⟨rfl, rfl⟩, ⟨rfl, rfl, rfl, rfl, rfl⟩⟩

theorem forceGenesisConfig_schedule {field : AuthorForceGenesisConfig} (h : s.forceGenesisConfig field = .ok s') :
    ScheduleKept s s' := by
  rw [forceGenesisConfig_state h]
  exact ⟨⟨rfl, rfl⟩, ⟨rfl, rfl, rfl, rfl, rfl⟩⟩

/-- The calls that concern neither elections nor obligations nor the block. -/
def AuthorCall.ordinary : AuthorCall T → Bool
  | .penalize _ _ => false
  | .forgive _ _ => false
  | .reward _ _ => false
  | .reclaim _ _ => false
  | .prepareElects _ => false
  | .removeElected _ => false
  | .enterBlock => false
  | _ => true

theorem apply_schedule (hc : call.ordinary = true) (h : s.apply call = .ok s') : ScheduleKept s s' := by
  cases call with
  | enlist who collateral fortitude generated =>
    obtain ⟨_, -, h⟩ := bind_eq_ok.mp h
    obtain ⟨⟨s1, actual⟩, h1, h⟩ := bind_eq_ok.mp h
    obtain rfl := pure_eq_ok.mp h
    obtain ⟨-, c, placed, -, rfl⟩ := enroll_eq_ok h1
    exact ⟨⟨rfl, rfl⟩, ⟨rfl, rfl, rfl, rfl, rfl⟩⟩
  | back who via value q => exact back_schedule h
  | refill who collateral fortitude =>
    obtain ⟨⟨s1, actual⟩, h1, h⟩ := bind_eq_ok.mp h
    obtain rfl := pure_eq_ok.mp h
    obtain ⟨existing, -, h1⟩ := bind_eq_ok.mp h1
    obtain ⟨c, -, rfl⟩ := onCommitment_eq_ok h1
    exact ⟨⟨rfl, rfl⟩, ⟨rfl, rfl, rfl, rfl, rfl⟩⟩
  | confirm who => exact setStatus_schedule h
  | exit who target => exact exitTarget_schedule h
  | demit who duty =>
    obtain ⟨⟨s1, refund⟩, h1, h⟩ := bind_eq_ok.mp h
    obtain rfl := pure_eq_ok.mp h
    obtain ⟨info, c, -, -, -, -, -, rfl⟩ := resign_eq_ok h1
    exact ⟨⟨rfl, rfl⟩, ⟨rfl, rfl, rfl, rfl, rfl⟩⟩
  | createIndex entries generated =>
    obtain ⟨digests, index, c, -, -, -, rfl⟩ := createIndex_eq_ok h
    exact ⟨⟨rfl, rfl⟩, ⟨rfl, rfl, rfl, rfl, rfl⟩⟩
  | createPool who index commission generated =>
    obtain ⟨c, -, rfl⟩ := createPool_eq_ok h
    exact ⟨⟨rfl, rfl⟩, ⟨rfl, rfl, rfl, rfl, rfl⟩⟩
  | transferPool who pool manager =>
    obtain ⟨c, -, rfl⟩ := transferPool_eq_ok h
    exact ⟨⟨rfl, rfl⟩, ⟨rfl, rfl, rfl, rfl, rfl⟩⟩
  | updateEntryShares index entry shares generated =>
    obtain ⟨c, -, rfl⟩ := updateEntryShares_eq_ok h
    exact ⟨⟨rfl, rfl⟩, ⟨rfl, rfl, rfl, rfl, rfl⟩⟩
  | updateSlotShares who pool slot shares =>
    obtain ⟨c, -, rfl⟩ := updateSlotShares_eq_ok h
    exact ⟨⟨rfl, rfl⟩, ⟨rfl, rfl, rfl, rfl, rfl⟩⟩
  | setStatus who status duty => exact setStatus_schedule h
  | forceGenesisConfig field => exact forceGenesisConfig_schedule h
  | external ledger =>
    obtain rfl := Except.ok.inj h
    exact ⟨⟨rfl, rfl⟩, ⟨rfl, rfl, rfl, rfl, rfl⟩⟩
  | penalize | forgive | reward | reclaim | prepareElects | removeElected | enterBlock => cases hc

theorem scheduleReward_eq_ok {value block : Nat} (h : scheduleReward s who value = .ok (s', block)) :
    s' = { s with
      authorRewards := s.authorRewards.insert (block, who) value
      rewardsUntil := max s.rewardsUntil block } := by
  obtain ⟨b, -, h⟩ := bind_eq_ok.mp h
  simp only [pure_eq_ok, Prod.mk.injEq] at h
  obtain ⟨rfl, rfl⟩ := h
  rfl

theorem forgive_elects {since : Nat} {factor : Perbill} (h : forgive s who since = .ok (s', factor)) :
    ElectsKept s s' := by
  obtain ⟨status, -, h⟩ := bind_eq_ok.mp h
  obtain ⟨_, -, h⟩ := bind_eq_ok.mp h
  obtain ⟨_, -, h⟩ := bind_eq_ok.mp h
  obtain ⟨f, -, h⟩ := bind_eq_ok.mp h
  obtain ⟨s1, h1, h⟩ := bind_eq_ok.mp h
  simp only [pure_eq_ok, Prod.mk.injEq] at h
  obtain ⟨rfl, -⟩ := h
  obtain ⟨info, risk, -, -, -, rfl⟩ := securePermanence_eq_ok h1
  exact ⟨rfl, rfl⟩

theorem penalize_elects {factor : Perbill} {block : Nat} (h : penalize s who factor = .ok (s', block)) :
    ElectsKept s s' := by
  obtain ⟨_, -, h⟩ := bind_eq_ok.mp h
  obtain ⟨s1, h1, h⟩ := bind_eq_ok.mp h
  obtain rfl := schedulePenalty_eq_ok h
  obtain ⟨info, risk, -, -, -, rfl | ⟨-, -, rfl⟩⟩ := raiseRisk_eq_ok h1
  · exact ⟨rfl, rfl⟩
  · exact ⟨rfl, rfl⟩

/-- The calls that the chain manager makes to elect and to remove elected authors. -/
def AuthorCall.holdsElections : AuthorCall T → Bool
  | .prepareElects _ => true
  | .removeElected _ => true
  | _ => false

theorem apply_elects (hc : call.holdsElections = false) (h : s.apply call = .ok s') : ElectsKept s s' := by
  cases call with
  | prepareElects candidates => cases hc
  | removeElected who => cases hc
  | penalize who factor =>
    obtain ⟨⟨s1, block⟩, h1, h⟩ := bind_eq_ok.mp h
    obtain rfl := pure_eq_ok.mp h
    exact penalize_elects h1
  | forgive who since =>
    obtain ⟨⟨s1, factor⟩, h1, h⟩ := bind_eq_ok.mp h
    obtain rfl := pure_eq_ok.mp h
    exact forgive_elects h1
  | reward who value =>
    obtain ⟨⟨s1, block⟩, h1, h⟩ := bind_eq_ok.mp h
    obtain rfl := pure_eq_ok.mp h
    obtain ⟨s2, h2, h1⟩ := bind_eq_ok.mp h1
    obtain ⟨info, risk, -, -, -, rfl⟩ := securePermanence_eq_ok h2
    obtain rfl := scheduleReward_eq_ok h1
    exact ⟨rfl, rfl⟩
  | reclaim who since =>
    obtain ⟨⟨s1, value⟩, h1, h⟩ := bind_eq_ok.mp h
    obtain rfl := pure_eq_ok.mp h
    obtain rfl := reclaim_eq_ok h1
    exact ⟨rfl, rfl⟩
  | enterBlock =>
    obtain ⟨-, hopened⟩ := enterBlock_eq_ok h
    obtain ⟨c, rewards, penalties, rfl⟩ := hopened.state_eq
    exact ⟨rfl, rfl⟩
  | _ => exact (apply_schedule rfl h).toElectsKept

theorem mem_reveal : who ∈ (reveal s).getD [] ↔ s.elected.containsKey (s.recentElectedOn, who) = true := by
  have hmem : who ∈ (s.elected.iterPrefix T.hashOrder s.recentElectedOn).map Prod.fst ↔
      s.elected.containsKey (s.recentElectedOn, who) = true := by
    rw [StorageMap.containsKey_iff, List.mem_map]
    constructor
    · rintro ⟨⟨a, u⟩, ha, rfl⟩
      exact ⟨u, StorageMap.mem_iterPrefix.mp ha⟩
    · rintro ⟨u, hu⟩
      exact ⟨(who, u), StorageMap.mem_iterPrefix.mpr hu, rfl⟩
  unfold reveal
  dsimp only
  split
  · rename_i hempty
    rw [← hmem, hempty]
    rfl
  · exact hmem

theorem containsKey_foldl_insert {m : StorageMap (Nat × T.AccountId) Unit} {block : Nat} {elects : List T.AccountId}
    {k : Nat × T.AccountId} :
    (elects.foldl (fun m author => m.insert (block, author) ()) m).containsKey k = true ↔
      m.containsKey k = true ∨ k.1 = block ∧ k.2 ∈ elects := by
  induction elects generalizing m with
  | nil => simp
  | cons author elects ih =>
    rw [List.foldl_cons, ih, containsKey_insert, List.mem_cons, Prod.ext_iff]
    constructor
    · rintro ((⟨hb, ha⟩ | hm) | ⟨hb, ha⟩)
      · exact .inr ⟨hb, .inl ha⟩
      · exact .inl hm
      · exact .inr ⟨hb, .inr ha⟩
    · rintro (hm | ⟨hb, ha | ha⟩)
      · exact .inl (.inr hm)
      · exact .inl (.inl ⟨hb, ha⟩)
      · exact .inr ⟨hb, ha⟩

/-- Results are of the present block at the latest, and none is newer than the one that is revealed. -/
structure ResultsDated (s : AuthorState T) : Prop where
  elected : ∀ k, s.elected.containsKey k = true → k.1 ≤ s.recentElectedOn
  recent : s.recentElectedOn ≤ s.blockNumber

theorem ElectsKept.dated (h : ElectsKept s s') (hb : s.blockNumber ≤ s'.blockNumber) (hs : ResultsDated s) :
    ResultsDated s' := by
  refine ⟨fun k hk => ?_, ?_⟩
  · rw [h.elected] at hk
    exact h.recent ▸ hs.elected k hk
  · rw [h.recent]
    exact Nat.le_trans hs.recent hb

theorem prepareElects_spec (s : AuthorState T) (candidates : Candidates T.AccountId) (hs : ResultsDated s) :
    RolesKept s (prepareElects s candidates) ∧ ResultsDated (prepareElects s candidates) ∧
      ∀ who ∈ (reveal (prepareElects s candidates)).getD [],
        who ∈ (reveal s).getD [] ∨ who ∈ T.electionModel candidates := by
  unfold prepareElects
  cases h : storeElects s (T.electionModel candidates) with
  | error e => exact ⟨.refl s, hs, fun who hw => .inl hw⟩
  | ok t =>
    refine ⟨storeElects_roles h, ?_⟩
    obtain ⟨_, -, h⟩ := bind_eq_ok.mp h
    obtain rfl := pure_eq_ok.mp h
    refine ⟨⟨fun k hk => ?_, Nat.le_refl _⟩, fun who hw => ?_⟩
    · rcases containsKey_foldl_insert.mp hk with hold | ⟨hb, -⟩
      · exact Nat.le_trans (hs.elected k hold) hs.recent
      · exact hb.le
    · rcases containsKey_foldl_insert.mp (mem_reveal.mp hw) with hold | ⟨-, hnew⟩
      · have hrecent : s.recentElectedOn = s.blockNumber := Nat.le_antisymm hs.recent (hs.elected _ hold)
        exact .inl (mem_reveal.mpr (hrecent ▸ hold))
      · right
        split at hnew
        · exact List.mem_of_mem_take hnew
        · exact hnew

end Results

section Manager

theorem inRole_registered (h : s.inRole who) : s.authorsMap.containsKey who = true := by
  obtain ⟨info, hi, -⟩ := h.1
  exact StorageMap.containsKey_iff.mpr ⟨info, hi⟩

theorem leaves_idle {duty : Option AuthorActivity} (hrole : s.inRole who)
    (h : setStatus s who .resigned duty = .ok s') : duty = none := by
  obtain ⟨status, hs, h⟩ := bind_eq_ok.mp h
  obtain ⟨info, hi, rfl⟩ := getStatus_eq_ok hs
  obtain ⟨info', hi', hne⟩ := hrole.1
  obtain rfl := Option.some.inj (hi.symm.trans hi')
  cases hst : info.status with
  | active =>
    rw [hst] at h
    obtain ⟨⟨s1, refund⟩, h1, -⟩ := bind_eq_ok.mp h
    obtain ⟨info', c, -, -, hduty, -⟩ := resign_eq_ok h1
    exact hduty
  | probation => rw [hst] at h; cases h
  | resigned => exact absurd hst hne

end Manager

end FrameSuite
