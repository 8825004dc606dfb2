import FrameSuite.AuthorPallet
import FrameSuite.CommitFrame

/-! What a call can do to the roles of the authors: their infos, the collateral, the block and the
penalties that are scheduled. Every call is one of these steps. -/

namespace FrameSuite

variable {T : AuthorConfig}

/-- The roles are the same; penalties may have been settled or forgiven. -/
structure RolesKept (s s' : AuthorState T) : Prop where
  infos : s'.authorsMap = s.authorsMap
  digests : s'.authorsDigest = s.authorsDigest
  block : s'.blockNumber = s.blockNumber
  penalties : ∀ k v, s'.authorPenalties.get k = some v → s.authorPenalties.get k = some v
  horizon : s'.penaltiesUntil = s.penaltiesUntil
  collateral : ∀ who, s'.commitment.commitMap.containsKey (who, T.authorCollateral) =
    s.commitment.commitMap.containsKey (who, T.authorCollateral)

namespace RolesKept

variable {s s' s'' : AuthorState T}

theorem refl (s : AuthorState T) : RolesKept s s := ⟨rfl, rfl, rfl, fun _ _ => id, rfl, fun _ => rfl⟩

theorem trans (h : RolesKept s s') (h' : RolesKept s' s'') : RolesKept s s'' :=
  ⟨h'.infos.trans h.infos, h'.digests.trans h.digests, h'.block.trans h.block,
    fun k v hk => h.penalties k v (h'.penalties k v hk), h'.horizon.trans h.horizon,
    fun who => (h'.collateral who).trans (h.collateral who)⟩

theorem of_commits {c : State T.toConfig} (h : c.commitMap = s.commitment.commitMap) :
    RolesKept s { s with commitment := c } :=
  ⟨rfl, rfl, rfl, fun _ _ => id, rfl, fun who => by rw [h]⟩

theorem of_keys {c : State T.toConfig} (h : ∀ who, c.commitMap.containsKey (who, T.authorCollateral) =
      s.commitment.commitMap.containsKey (who, T.authorCollateral)) :
    RolesKept s { s with commitment := c } :=
  ⟨rfl, rfl, rfl, fun _ _ => id, rfl, h⟩

end RolesKept

section Commitment

variable {s s' : AuthorState T} {who : T.AccountId} {actual : Nat}

theorem onCommitment_eq_ok {op : State T.toConfig → Except DispatchError (State T.toConfig × Nat)}
    (h : s.onCommitment op = .ok (s', actual)) :
    ∃ c, op s.commitment = .ok (c, actual) ∧ s' = { s with commitment := c } := by
  obtain ⟨⟨c, n⟩, hc, h⟩ := bind_eq_ok.mp h
  rw [liftCommit_eq_ok] at hc
  simp only [pure_eq_ok, Prod.mk.injEq] at h
  obtain ⟨rfl, rfl⟩ := h
  exact ⟨c, hc, rfl⟩

theorem updateCommitment_eq_ok {op : State T.toConfig → Except DispatchError (State T.toConfig)}
    (h : s.updateCommitment op = .ok s') : ∃ c, op s.commitment = .ok c ∧ s' = { s with commitment := c } := by
  obtain ⟨c, hc, h⟩ := bind_eq_ok.mp h
  rw [liftCommit_eq_ok] at hc
  exact ⟨c, hc, (pure_eq_ok.mp h).symm⟩

theorem funding_key_ne (who who' : T.AccountId) : (who', T.authorCollateral) ≠ (who, T.authorFunding) :=
  fun he => T.reasons_ne (Prod.mk.inj he).2.symm

theorem RolesKept.of_written {c : State T.toConfig} {digest : T.AccountId}
    (h : ∃ info : CommitInfo T.toConfig, info.digest = digest ∧
      c.commitMap = s.commitment.commitMap.insert (who, T.authorFunding) info) :
    RolesKept s { s with commitment := c } := by
  obtain ⟨info, -, hc⟩ := h
  refine .of_keys fun who' => ?_
  rw [hc, containsKey_insert_of_ne (funding_key_ne who who')]

theorem placeOrRaise_roles {backer towards : T.AccountId} {value : Nat} {q : Directive}
    (h : placeOrRaise s backer towards value q = .ok (s', actual)) : RolesKept s s' := by
  unfold placeOrRaise at h
  split at h
  · obtain ⟨c, hc, rfl⟩ := onCommitment_eq_ok h
    obtain ⟨old, -, hw⟩ := raiseCommit_written hc
    exact .of_written hw.commits
  · obtain ⟨c, hc, rfl⟩ := onCommitment_eq_ok h
    obtain ⟨-, hw | ⟨-, hw⟩⟩ := placeCommit_written hc
    · exact .of_written hw.commits
    · have hwritten := hw.commits
      rw [initiateDigest_commitMap] at hwritten
      exact .of_written hwritten

end Commitment

section Registry

variable {s s' : AuthorState T} {op : FunderMap T → T.AccountId → FunderMap T}

theorem forAuthors_eq_ok {digests : List T.AccountId} (h : forAuthors op digests s = .ok s') :
    ∃ m, s' = { s with authorFunders := m } := by
  induction digests generalizing s with
  | nil =>
    cases h
    exact ⟨_, rfl⟩
  | cons digest digests ih =>
    obtain ⟨author, -, h⟩ := bind_eq_ok.mp h
    obtain ⟨m, rfl⟩ := ih h
    exact ⟨m, rfl⟩

theorem updateFunders_eq_ok {funder : Funder T.AccountId} {author : T.AccountId}
    (h : updateFunders op s funder author = .ok s') : ∃ m, s' = { s with authorFunders := m } := by
  cases funder with
  | direct =>
    cases h
    exact ⟨_, rfl⟩
  | index =>
    obtain ⟨entries, -, h⟩ := bind_eq_ok.mp h
    exact forAuthors_eq_ok h
  | pool =>
    obtain ⟨slots, -, h⟩ := bind_eq_ok.mp h
    exact forAuthors_eq_ok h

theorem fund_written {author : T.AccountId} {funder : Funder T.AccountId} {value actual : Nat} {q : Directive}
    (h : fund s author funder value q = .ok (s', actual)) :
    ∃ digest s₁ m, placeOrRaise s funder.backer (funder.towards digest) value q = .ok (s₁, actual) ∧
      s' = { s₁ with authorFunders := m } := by
  obtain ⟨_, -, h⟩ := bind_eq_ok.mp h
  obtain ⟨info, -, h⟩ := bind_eq_ok.mp h
  obtain ⟨⟨s₁, amount⟩, h₁, h⟩ := bind_eq_ok.mp h
  obtain ⟨s₂, h₂, h⟩ := bind_eq_ok.mp h
  simp only [pure_eq_ok, Prod.mk.injEq] at h
  obtain ⟨rfl, rfl⟩ := h
  obtain ⟨m, rfl⟩ := updateFunders_eq_ok h₂
  exact ⟨info.digest, s₁, m, h₁, rfl⟩

theorem draw_written {author : T.AccountId} {funder : Funder T.AccountId} {actual : Nat}
    (h : draw s author funder = .ok (s', actual)) :
    ∃ c m, resolveCommit s.commitment funder.backer T.authorFunding = .ok (c, actual) ∧
      s' = { s with commitment := c, authorFunders := m } := by
  obtain ⟨_, -, h⟩ := bind_eq_ok.mp h
  obtain ⟨⟨s₁, amount⟩, h₁, h⟩ := bind_eq_ok.mp h
  obtain ⟨s₂, h₂, h⟩ := bind_eq_ok.mp h
  simp only [pure_eq_ok, Prod.mk.injEq] at h
  obtain ⟨rfl, rfl⟩ := h
  obtain ⟨m, rfl⟩ := updateFunders_eq_ok h₂
  obtain ⟨c, hc, rfl⟩ := onCommitment_eq_ok h₁
  exact ⟨c, m, hc, rfl⟩

theorem back_eq_ok {who : T.AccountId} {via : FundingTarget T.AccountId} {value : Nat} {q : Directive}
    (h : back s who via value q = .ok s') :
    ∃ author funder actual, resolveTarget s who via = .ok (author, funder) ∧
      fund s author funder value q = .ok (s', actual) := by
  obtain ⟨⟨author, funder⟩, hr, h⟩ := bind_eq_ok.mp h
  obtain ⟨⟨s1, actual⟩, h1, h⟩ := bind_eq_ok.mp h
  obtain rfl := pure_eq_ok.mp h
  exact ⟨author, funder, actual, hr, h1⟩

theorem exitTarget_eq_ok {who : T.AccountId} {target : FundingTarget T.AccountId} (h : exitTarget s who target = .ok s') :
    ∃ author funder actual, resolveTarget s who target = .ok (author, funder) ∧
      draw s author funder = .ok (s', actual) := by
  obtain ⟨⟨author, funder⟩, hr, h⟩ := bind_eq_ok.mp h
  obtain ⟨⟨s1, actual⟩, h1, h⟩ := bind_eq_ok.mp h
  obtain rfl := pure_eq_ok.mp h
  exact ⟨author, funder, actual, hr, h1⟩

theorem reclaim_eq_ok {who : T.AccountId} {since value : Nat} (h : reclaim s who since = .ok (s', value)) :
    s' = { s with authorRewards := s.authorRewards.remove (since, who) } := by
  obtain ⟨_, -, h⟩ := bind_eq_ok.mp h
  obtain ⟨_, -, h⟩ := bind_eq_ok.mp h
  obtain ⟨_, -, h⟩ := bind_eq_ok.mp h
  simp only [pure_eq_ok, Prod.mk.injEq] at h
  exact h.1.symm

theorem back_roles {who : T.AccountId} {via : FundingTarget T.AccountId} {value : Nat} {q : Directive}
    (h : back s who via value q = .ok s') : RolesKept s s' := by
  obtain ⟨author, funder, actual, -, hf⟩ := back_eq_ok h
  obtain ⟨digest, s₁, m, hplaced, rfl⟩ := fund_written hf
  exact (placeOrRaise_roles hplaced).trans ⟨rfl, rfl, rfl, fun _ _ => id, rfl, fun _ => rfl⟩

theorem exitTarget_roles {who : T.AccountId} {target : FundingTarget T.AccountId}
    (h : exitTarget s who target = .ok s') : RolesKept s s' := by
  obtain ⟨author, funder, actual, -, hd⟩ := exitTarget_eq_ok h
  obtain ⟨c, m, hc, rfl⟩ := draw_written hd
  obtain ⟨-, hremoved⟩ := resolveCommit_removed hc
  refine ⟨rfl, rfl, rfl, fun _ _ => id, rfl, fun who' => ?_⟩
  dsimp only
  rw [hremoved.commits, containsKey_remove_of_ne (funding_key_ne _ who')]

end Registry

section Hold

theorem putBalance_moved {C : Config} {s : State C} {reason : C.Reason} {digest : C.AccountId} {info : DigestInfo C}
    (h : s.digestMap.get (reason, digest) = some info) (variant : C.Position) (balance : LazyBalance C) :
    FundsMoved s (putBalance s reason digest info variant balance) :=
  .of_digest h

theorem bookChange_moved {C : Config} {s : State C} {count total : State C → Except DispatchError (State C)}
    (hcount : ∀ s s', count s = .ok s' → FundsMoved s s') (htotal : ∀ s s', total s = .ok s' → FundsMoved s s')
    (value : Nat) : FundsMoved s (bookChange s count total value).1 := by
  unfold bookChange
  cases hc : count s with
  | error e => exact .refl s
  | ok s1 =>
    cases ht : total s1 with
    | error e => simpa [ht] using hcount s s1 hc
    | ok s2 => simpa [ht] using (hcount s s1 hc).trans (htotal s1 s2 ht)

theorem writeDigestValue_moved {C : Config} (s : State C) (reason : C.Reason) (digest : C.AccountId) (value : Nat)
    (variant : C.Position) : FundsMoved s (writeDigestValue s reason digest value variant).1 := by
  have hissue (v : Nat) (s s' : State C) (h : addAssetToIssue s v = .ok s') : FundsMoved s s' := by
    obtain ⟨issue, -, h⟩ := bind_eq_ok.mp h
    obtain rfl := pure_eq_ok.mp h
    exact .of_eq rfl rfl rfl rfl rfl
  have hreap (v : Nat) (s s' : State C) (h : addAssetToReap s v = .ok s') : FundsMoved s s' := by
    obtain ⟨reap, -, h⟩ := bind_eq_ok.mp h
    obtain rfl := pure_eq_ok.mp h
    exact .of_eq rfl rfl rfl rfl rfl
  unfold writeDigestValue
  split
  · exact .refl s
  · rename_i info hi
    split
    · exact .refl s
    · rename_i balance hb
      dsimp only
      split
      · split
        · exact putBalance_moved hi _ _
        · exact (putBalance_moved hi _ _).trans
            (bookChange_moved (hissue _) (fun _ _ => addToTotalValue_moved) _)
      · split
        · split
          · exact putBalance_moved hi _ _
          · exact (putBalance_moved hi _ _).trans
              (bookChange_moved (hreap _) (fun _ _ => subFromTotalValue_moved) _)
        · exact .refl s

/-- A change of funds in the commitment pallet alone. -/
def HoldMoved (s s' : AuthorState T) : Prop := ∃ c, s' = { s with commitment := c } ∧ FundsMoved s.commitment c

theorem HoldMoved.refl (s : AuthorState T) : HoldMoved s s := ⟨s.commitment, rfl, .refl _⟩

theorem HoldMoved.trans {s s' s'' : AuthorState T} (h : HoldMoved s s') (h' : HoldMoved s' s'') :
    HoldMoved s s'' := by
  obtain ⟨c, rfl, hc⟩ := h
  obtain ⟨c', rfl, hc'⟩ := h'
  exact ⟨c', rfl, hc.trans hc'⟩

theorem writeValue_moved (s : AuthorState T) (reason : T.Reason) (digest : T.AccountId) (value : Nat) :
    HoldMoved s (writeValue s reason digest value).1 :=
  ⟨_, rfl, writeDigestValue_moved s.commitment reason digest value T.positionDefault⟩

theorem writeHold_moved (s : AuthorState T) (who : T.AccountId) (value : Nat) :
    HoldMoved s (writeHold s who value).1 := by
  unfold writeHold
  split
  · rename_i info funding collateral _ _
    have hfunding := writeValue_moved s T.authorFunding info.digest (fundingPart funding collateral value)
    dsimp only
    split
    · rename_i s1 e he
      rw [he] at hfunding
      exact hfunding
    · rename_i s1 u he
      rw [he] at hfunding
      exact hfunding.trans (writeValue_moved _ _ _ _)
  · exact .refl s
  · exact .refl s

theorem adjustHold_moved (s : AuthorState T) (who : T.AccountId) (f : Nat → Nat) :
    HoldMoved s (adjustHold s who f) := by
  unfold adjustHold
  split
  · exact writeHold_moved s who _
  · exact .refl s

/-- Obligations were settled, and their effect on the funds is all that changed. -/
structure BlockOpened (s s' : AuthorState T) : Prop where
  state_eq : ∃ c rewards penalties, s' = { s with
    commitment := c
    authorRewards := rewards
    authorPenalties := penalties }
  moved : FundsMoved s.commitment s'.commitment
  rewards : ∀ k v, s'.authorRewards.get k = some v → s.authorRewards.get k = some v
  penalties : ∀ k v, s'.authorPenalties.get k = some v → s.authorPenalties.get k = some v

theorem BlockOpened.refl (s : AuthorState T) : BlockOpened s s :=
  ⟨⟨_, _, _, rfl⟩, .refl _, fun _ _ => id, fun _ _ => id⟩

theorem BlockOpened.trans {s s' s'' : AuthorState T} (h : BlockOpened s s') (h' : BlockOpened s' s'') :
    BlockOpened s s'' := by
  have hmoved := h.moved.trans h'.moved
  have hrewards (k) (v) (hk : s''.authorRewards.get k = some v) := h.rewards k v (h'.rewards k v hk)
  have hpenalties (k) (v) (hk : s''.authorPenalties.get k = some v) := h.penalties k v (h'.penalties k v hk)
  obtain ⟨c, r, p, rfl⟩ := h.state_eq
  obtain ⟨c', r', p', rfl⟩ := h'.state_eq
  exact ⟨⟨c', r', p', rfl⟩, hmoved, hrewards, hpenalties⟩

theorem settleReward_opened (block : Nat) (s : AuthorState T) (due : T.AccountId × Nat) :
    BlockOpened s (settleReward block s due) := by
  obtain ⟨c, hc, hmoved⟩ := adjustHold_moved s due.1 fun hold => saturatingAdd T.share.maxAsset hold due.2
  unfold settleReward
  rw [hc]
  exact ⟨⟨_, _, _, rfl⟩, hmoved, fun _ _ => get_of_remove, fun _ _ => id⟩

theorem settlePenalty_opened (block : Nat) (s : AuthorState T) (due : T.AccountId × Perbill) :
    BlockOpened s (settlePenalty block s due) := by
  obtain ⟨c, hc, hmoved⟩ := adjustHold_moved s due.1 fun hold => hold - due.2.mulFloor hold
  unfold settlePenalty
  rw [hc]
  exact ⟨⟨_, _, _, rfl⟩, hmoved, fun _ _ => id, fun _ _ => get_of_remove⟩

theorem foldl_opened {α : Type} {f : AuthorState T → α → AuthorState T} (hf : ∀ s a, BlockOpened s (f s a))
    (s : AuthorState T) (dues : List α) : BlockOpened s (dues.foldl f s) := by
  induction dues generalizing s with
  | nil => exact .refl s
  | cons due dues ih => exact (hf s due).trans (ih (f s due))

theorem onInitialize_opened (s : AuthorState T) (block : Nat) : BlockOpened s (onInitialize s block) :=
  (foldl_opened (settleReward_opened block) s _).trans (foldl_opened (settlePenalty_opened block) _ _)

theorem enterBlock_eq_ok {s s' : AuthorState T} (h : enterBlock s = .ok s') :
    s.blockNumber < T.maxBlock ∧ BlockOpened { s with blockNumber := s.blockNumber + 1 } s' := by
  obtain ⟨_, hb, h⟩ := bind_eq_ok.mp h
  obtain rfl := pure_eq_ok.mp h
  exact ⟨ensure_eq_ok.mp hb, onInitialize_opened _ _⟩

theorem BlockOpened.roles {s s' : AuthorState T} (h : BlockOpened s s') : RolesKept s s' := by
  have hpenalties := h.penalties
  have hcommits := h.moved.commits
  obtain ⟨c, r, p, rfl⟩ := h.state_eq
  refine ⟨rfl, rfl, rfl, hpenalties, rfl, fun who => ?_⟩
  dsimp only at hcommits ⊢
  rw [hcommits]

end Hold

section Roles

variable {s s' : AuthorState T} {who : T.AccountId}

theorem getMeta_eq_ok {info : AuthorInfo T.AccountId} :
    getMeta s who = .ok info ↔ s.authorsMap.get who = some info := okOr_eq_ok

theorem getStatus_eq_ok {status : AuthorStatus} (h : getStatus s who = .ok status) :
    ∃ info, s.authorsMap.get who = some info ∧ info.status = status := by
  obtain ⟨info, hi, h⟩ := bind_eq_ok.mp h
  exact ⟨info, getMeta_eq_ok.mp hi, pure_eq_ok.mp h⟩

theorem setInfo_of_get {info : AuthorInfo T.AccountId} (h : s.authorsMap.get who = some info) :
    s.setInfo who info = s := by
  unfold AuthorState.setInfo
  rw [StorageMap.insert_of_get h]

theorem setPermanence_eq_ok (h : setPermanence s who = .ok s') :
    ∃ info, s.authorsMap.get who = some info ∧ info.status = .probation ∧
      T.blockAdd info.statusSince s.probationPeriod ≤ s.blockNumber ∧ info.riskUntil ≤ s.blockNumber ∧
      s' = s.setInfo who { info with status := .active } := by
  obtain ⟨_, hcan, h⟩ := bind_eq_ok.mp h
  obtain ⟨info, hi, h⟩ := bind_eq_ok.mp h
  obtain ⟨info', hi', hcan⟩ := bind_eq_ok.mp hcan
  rw [getMeta_eq_ok] at hi hi'
  obtain rfl := Option.some.inj (hi.symm.trans hi')
  obtain ⟨_, hstatus, hcan⟩ := bind_eq_ok.mp hcan
  obtain ⟨_, hperiod, hrisk⟩ := bind_eq_ok.mp hcan
  rw [ensure_eq_ok] at hperiod hrisk
  exact ⟨info, hi, ensure_eq_ok.mp hstatus, hperiod, hrisk, (pure_eq_ok.mp h).symm⟩

theorem revokePermanence_eq_ok (h : revokePermanence s who = .ok s') :
    ∃ info, s.authorsMap.get who = some info ∧ info.status = .active ∧
      T.blockAdd s.blockNumber s.probationPeriod < info.riskUntil ∧
      s' = s.setInfo who { info with status := .probation, statusSince := s.blockNumber } := by
  obtain ⟨_, hcan, h⟩ := bind_eq_ok.mp h
  obtain ⟨info, hi, h⟩ := bind_eq_ok.mp h
  obtain ⟨info', hi', hcan⟩ := bind_eq_ok.mp hcan
  rw [getMeta_eq_ok] at hi hi'
  obtain rfl := Option.some.inj (hi.symm.trans hi')
  obtain ⟨_, hstatus, hrisk⟩ := bind_eq_ok.mp hcan
  rw [ensure_eq_ok] at hrisk
  exact ⟨info, hi, ensure_eq_ok.mp hstatus, hrisk, (pure_eq_ok.mp h).symm⟩

theorem riskStatus_eq_ok {status : AuthorStatus} (h : riskStatus s who status = .ok s') :
    ∃ info, s.authorsMap.get who = some info ∧ info.status = status ∧
      s' = s.setInfo who
        { info with riskUntil := T.blockAdd (max info.riskUntil s.blockNumber) s.increaseProbationBy } := by
  obtain ⟨info, hi, h⟩ := bind_eq_ok.mp h
  obtain ⟨_, hstatus, h⟩ := bind_eq_ok.mp h
  exact ⟨info, getMeta_eq_ok.mp hi, ensure_eq_ok.mp hstatus, (pure_eq_ok.mp h).symm⟩

theorem securePermanence_eq_ok (h : securePermanence s who = .ok s') :
    ∃ info risk, s.authorsMap.get who = some info ∧ info.status ≠ .resigned ∧ risk ≤ info.riskUntil ∧
      s' = s.setInfo who { info with riskUntil := risk } := by
  obtain ⟨info, hi, h⟩ := bind_eq_ok.mp h
  rw [getMeta_eq_ok] at hi
  obtain ⟨_, hstatus, h⟩ := bind_eq_ok.mp h
  rw [ensure_eq_ok] at hstatus
  split at h
  · exact ⟨info, _, hi, hstatus, Nat.sub_le _ _, (pure_eq_ok.mp h).symm⟩
  · obtain rfl := pure_eq_ok.mp h
    exact ⟨info, info.riskUntil, hi, hstatus, le_refl _, (setInfo_of_get hi).symm⟩

theorem blockAdd_le (block offset : Nat) : T.blockAdd block offset ≤ T.maxBlock := Nat.min_le_right _ _

theorem setInfo_setInfo (s : AuthorState T) (who : T.AccountId) (info info' : AuthorInfo T.AccountId) :
    (s.setInfo who info).setInfo who info' = s.setInfo who info' := by
  unfold AuthorState.setInfo
  dsimp only
  rw [StorageMap.insert_insert]

@[simp] theorem setInfo_get_self (info : AuthorInfo T.AccountId) :
    (s.setInfo who info).authorsMap.get who = some info := StorageMap.get_insert_self _ _ _

/-- A penalty raises the risk, and puts an active author whose risk is past a whole period on
probation. -/
theorem raiseRisk_eq_ok (h : raiseRisk s who = .ok s') :
    ∃ info risk, s.authorsMap.get who = some info ∧ info.status ≠ .resigned ∧ risk ≤ T.maxBlock ∧
      (s' = s.setInfo who { info with riskUntil := risk } ∨
        info.status = .active ∧ T.blockAdd s.blockNumber s.probationPeriod < risk ∧
          s' = s.setInfo who
            { info with status := .probation, statusSince := s.blockNumber, riskUntil := risk }) := by
  obtain ⟨status, hs, h⟩ := bind_eq_ok.mp h
  cases status with
  | active =>
    obtain ⟨s1, h1, h⟩ := bind_eq_ok.mp h
    obtain ⟨info, hi, hstatus, rfl⟩ := riskStatus_eq_ok h1
    refine ⟨info, T.blockAdd (max info.riskUntil s.blockNumber) s.increaseProbationBy, hi, by simp [hstatus],
      blockAdd_le _ _, ?_⟩
    split at h
    · obtain ⟨info', hi', -, hrisk, rfl⟩ := revokePermanence_eq_ok h
      rw [setInfo_get_self] at hi'
      obtain rfl := Option.some.inj hi'
      rw [setInfo_setInfo]
      exact .inr ⟨hstatus, hrisk, rfl⟩
    · exact .inl (pure_eq_ok.mp h).symm
  | probation =>
    obtain ⟨info, hi, hstatus, rfl⟩ := riskStatus_eq_ok h
    exact ⟨info, _, hi, by simp [hstatus], blockAdd_le _ _, .inl rfl⟩
  | resigned => cases h

theorem schedulePenalty_eq_ok {factor : Perbill} {block : Nat} (h : schedulePenalty s who factor = .ok (s', block)) :
    s' = { s with
      authorPenalties := s.authorPenalties.insert (block, who) factor
      penaltiesUntil := max s.penaltiesUntil block } := by
  obtain ⟨b, -, h⟩ := bind_eq_ok.mp h
  simp only [pure_eq_ok, Prod.mk.injEq] at h
  obtain ⟨rfl, rfl⟩ := h
  rfl

theorem ensureNot_eq_ok {query : Except AuthorError Unit} {e : AuthorError} (h : ensureNot query e = .ok ()) :
    ∃ e', query = .error e' ∧ e' ≠ .endlessSearch := by
  unfold ensureNot at h
  split at h
  · cases h
  · cases h
  · rename_i e' hne
    exact ⟨e', rfl, hne⟩

theorem findBlock_none {p : Nat → Bool} {start last block : Nat} (h : findBlock T p start last = .ok none)
    (hs : start ≤ block) (hl : block ≤ last) : p block = false := by
  unfold findBlock at h
  split at h
  · cases h
  · rename_i hnone
    rw [List.find?_eq_none] at hnone
    have hm : block ∈ List.range' start (last + 1 - start) := List.mem_range'_1.mpr ⟨hs, by omega⟩
    simpa using hnone block hm

theorem no_penalty_of_error {e : AuthorError} (hi : s.authorsMap.containsKey who = true)
    (h : hasPenalty s who = .error e)
    (hne : e ≠ .endlessSearch) {block : Nat} (hs : s.nextBlock ≤ block) (hl : block ≤ s.penaltiesUntil) :
    s.authorPenalties.get (block, who) = none := by
  unfold hasPenalty roleExists at h
  rw [ensure, if_pos hi] at h
  cases hf : findBlock T (fun block => s.authorPenalties.containsKey (block, who)) s.nextBlock s.penaltiesUntil with
  | error e' =>
    have he : e' = .endlessSearch := by
      unfold findBlock at hf
      split at hf
      · cases hf
      · split at hf
        · cases hf
        · cases hf
          rfl
    simp only [hf, he, bind, Except.bind, Except.error.injEq] at h
    exact absurd h.symm hne
  | ok found =>
    cases found with
    | some block' => simp [hf, bind, Except.bind, ensure] at h
    | none => exact StorageMap.containsKey_eq_false_iff.mp (findBlock_none hf hs hl)

theorem enroll_eq_ok {collateral actual : Nat} {fortitude : Fortitude} {generated : T.AccountId}
    (h : enroll s who collateral fortitude generated = .ok (s', actual)) :
    (∀ info, s.authorsMap.get who = some info → info.status = .resigned) ∧
      ∃ c placed, placeCommit s.commitment who T.authorCollateral (enrollInfo s who generated).digest placed
          { precision := .exact, fortitude } = .ok (c, actual) ∧
        s' = { s with
          commitment := c
          authorsMap := s.authorsMap.insert who (enrollInfo s who generated)
          authorsDigest := s.authorsDigest.insert (enrollInfo s who generated).digest who } := by
  obtain ⟨_, hcan, h⟩ := bind_eq_ok.mp h
  obtain ⟨⟨s1, amount⟩, h1, h⟩ := bind_eq_ok.mp h
  obtain ⟨c, hc, rfl⟩ := onCommitment_eq_ok h1
  simp only [pure_eq_ok, Prod.mk.injEq] at h
  obtain ⟨rfl, rfl⟩ := h
  refine ⟨fun info hi => ?_, c, _, hc, rfl⟩
  obtain ⟨_, hagain, -⟩ := bind_eq_ok.mp hcan
  unfold canEnrollAgain at hagain
  rw [hi] at hagain
  obtain ⟨_, hstatus, -⟩ := bind_eq_ok.mp hagain
  exact ensure_eq_ok.mp hstatus

theorem enrollInfo_fields (s : AuthorState T) (who generated : T.AccountId) :
    (enrollInfo s who generated).status = .probation ∧
      (enrollInfo s who generated).statusSince = s.blockNumber ∧
      (enrollInfo s who generated).riskUntil = s.blockNumber := by
  unfold enrollInfo
  split <;> exact ⟨rfl, rfl, rfl⟩

theorem resign_eq_ok {duty : Option AuthorActivity} {actual : Nat} (h : resign s who duty = .ok (s', actual)) :
    ∃ info c, s.authorsMap.get who = some info ∧ info.status = .active ∧ duty = none ∧
      (∀ block, s.nextBlock ≤ block → block ≤ s.penaltiesUntil → s.authorPenalties.get (block, who) = none) ∧
      resolveCommit s.commitment who T.authorCollateral = .ok (c, actual) ∧
      s' = { s.setInfo who { info with status := .resigned } with commitment := c } := by
  obtain ⟨_, hcan, h⟩ := bind_eq_ok.mp h
  obtain ⟨info, hi, h⟩ := bind_eq_ok.mp h
  rw [getMeta_eq_ok] at hi
  obtain ⟨c, hc, rfl⟩ := onCommitment_eq_ok h
  obtain ⟨status, hs, hcan⟩ := bind_eq_ok.mp hcan
  obtain ⟨info', hi', hstatus⟩ := getStatus_eq_ok hs
  obtain rfl := Option.some.inj (hi.symm.trans hi')
  cases status with
  | probation => cases hcan
  | resigned => cases hcan
  | active =>
    obtain ⟨_, hnot, hcan⟩ := bind_eq_ok.mp hcan
    obtain ⟨e, he, hne⟩ := ensureNot_eq_ok hnot
    have hduty : duty = none := by
      cases duty with
      | none => rfl
      | some a => cases hcan
    exact ⟨info, c, hi, hstatus, hduty, fun block hstart hlast =>
      no_penalty_of_error (StorageMap.containsKey_iff.mpr ⟨info, hi⟩) he hne hstart hlast, hc, rfl⟩

end Roles

section Steps

/-- The steps of the roles. Up to changes that leave the roles, each sets the info of one author. -/
inductive RoleStep (s s' : AuthorState T) : AuthorCall T → Prop
  | kept {call : AuthorCall T} (h : RolesKept s s') : RoleStep s s' call
  | entered (hb : s.blockNumber < T.maxBlock) (h : RolesKept { s with blockNumber := s.blockNumber + 1 } s') :
      RoleStep s s' .enterBlock
  | eased {call : AuthorCall T} {who : T.AccountId} {info : AuthorInfo T.AccountId} {risk : Nat}
      (hi : s.authorsMap.get who = some info) (hstatus : info.status ≠ .resigned) (hrisk : risk ≤ info.riskUntil)
      (h : RolesKept (s.setInfo who { info with riskUntil := risk }) s') : RoleStep s s' call
  | lifted {call : AuthorCall T} {who : T.AccountId} {info : AuthorInfo T.AccountId}
      (hc : call = .confirm who ∨ ∃ duty, call = .setStatus who .active duty)
      (hi : s.authorsMap.get who = some info) (hstatus : info.status = .probation)
      (hperiod : T.blockAdd info.statusSince s.probationPeriod ≤ s.blockNumber)
      (hrisk : info.riskUntil ≤ s.blockNumber)
      (h : RolesKept (s.setInfo who { info with status := .active }) s') : RoleStep s s' call
  | revoked {call : AuthorCall T} {who : T.AccountId} {info : AuthorInfo T.AccountId}
      (hi : s.authorsMap.get who = some info) (hstatus : info.status = .active)
      (hrisk : T.blockAdd s.blockNumber s.probationPeriod < info.riskUntil)
      (h : RolesKept (s.setInfo who { info with status := .probation, statusSince := s.blockNumber }) s') :
      RoleStep s s' call
  | penalized {call : AuthorCall T} {who : T.AccountId} {info info' : AuthorInfo T.AccountId} {factor : Perbill}
      {block : Nat} (hi : s.authorsMap.get who = some info) (hstatus : info.status ≠ .resigned)
      (hdigest : info'.digest = info.digest) (hrisk : info'.riskUntil ≤ T.maxBlock)
      (hinfo : (info'.status = info.status ∧ info'.statusSince = info.statusSince) ∨
        (info.status = .active ∧ T.blockAdd s.blockNumber s.probationPeriod < info'.riskUntil ∧
          info'.status = .probation ∧ info'.statusSince = s.blockNumber))
      (h : RolesKept { s.setInfo who info' with
        authorPenalties := s.authorPenalties.insert (block, who) factor
        penaltiesUntil := max s.penaltiesUntil block } s') : RoleStep s s' call
  | enlisted {who generated : T.AccountId} {collateral : Nat} {fortitude : Fortitude}
      {c : CommitInfo T.toConfig}
      (hi : ∀ info, s.authorsMap.get who = some info → info.status = .resigned)
      (h : RolesKept { s.setInfo who (enrollInfo s who generated) with
        authorsDigest := s.authorsDigest.insert (enrollInfo s who generated).digest who
        commitment := { s.commitment with
          commitMap := s.commitment.commitMap.insert (who, T.authorCollateral) c } } s') :
      RoleStep s s' (.enlist who collateral fortitude generated)
  | resigned {call : AuthorCall T} {who : T.AccountId} {info : AuthorInfo T.AccountId}
      (hc : (∃ duty, call = .demit who duty) ∨ ∃ duty, call = .setStatus who .resigned duty)
      (hi : s.authorsMap.get who = some info) (hstatus : info.status = .active)
      (hclear : ∀ block, s.nextBlock ≤ block → block ≤ s.penaltiesUntil → s.authorPenalties.get (block, who) = none)
      (h : RolesKept { s.setInfo who { info with status := .resigned } with
        commitment := { s.commitment with
          commitMap := s.commitment.commitMap.remove (who, T.authorCollateral) } } s') : RoleStep s s' call

variable {s s' : AuthorState T} {who : T.AccountId} {actual : Nat}

theorem setStatus_step {status : AuthorStatus} {duty : Option AuthorActivity} {call : AuthorCall T}
    (h : setStatus s who status duty = .ok s')
    (hlift : status = .active → call = .confirm who ∨ ∃ duty, call = .setStatus who .active duty)
    (hleave : status = .resigned →
      (∃ duty, call = .demit who duty) ∨ ∃ duty, call = .setStatus who .resigned duty) : RoleStep s s' call := by
  obtain ⟨current, -, h⟩ := bind_eq_ok.mp h
  split at h
  · obtain rfl := pure_eq_ok.mp h
    exact .kept (.refl _)
  · obtain ⟨info, hi, hstatus, hrisk, rfl⟩ := revokePermanence_eq_ok h
    exact .revoked hi hstatus hrisk (.refl _)
  · obtain ⟨⟨s1, refund⟩, h1, h⟩ := bind_eq_ok.mp h
    obtain rfl := pure_eq_ok.mp h
    obtain ⟨info, c, hi, hstatus, -, hclear, hc, rfl⟩ := resign_eq_ok h1
    obtain ⟨-, hremoved⟩ := resolveCommit_removed hc
    exact .resigned (hleave rfl) hi hstatus hclear
      ⟨rfl, rfl, rfl, fun _ _ => id, rfl, fun who' => by dsimp only; rw [hremoved.commits]⟩
  · obtain rfl := pure_eq_ok.mp h
    exact .kept (.refl _)
  · cases h
  · obtain ⟨info, hi, hstatus, hperiod, hrisk, rfl⟩ := setPermanence_eq_ok h
    exact .lifted (hlift rfl) hi hstatus hperiod hrisk (.refl _)
  · obtain rfl := pure_eq_ok.mp h
    exact .kept (.refl _)
  · cases h

theorem penalize_step {factor : Perbill} {block : Nat} {call : AuthorCall T}
    (h : penalize s who factor = .ok (s', block)) : RoleStep s s' call := by
  obtain ⟨_, -, h⟩ := bind_eq_ok.mp h
  obtain ⟨s1, h1, h⟩ := bind_eq_ok.mp h
  obtain rfl := schedulePenalty_eq_ok h
  obtain ⟨info, risk, hi, hstatus, hrisk, rfl | ⟨hactive, hpast, rfl⟩⟩ := raiseRisk_eq_ok h1
  · let info' := { info with riskUntil := risk }
    have hkept : RolesKept { s.setInfo who info' with
        authorPenalties := s.authorPenalties.insert (block, who) factor
        penaltiesUntil := max s.penaltiesUntil block } _ := .refl _
    refine .penalized hi hstatus ?_ hrisk (.inl ?_) hkept
    · rfl
    · exact ⟨rfl, rfl⟩
  · let info' := { info with status := .probation, statusSince := s.blockNumber, riskUntil := risk }
    have hkept : RolesKept { s.setInfo who info' with
        authorPenalties := s.authorPenalties.insert (block, who) factor
        penaltiesUntil := max s.penaltiesUntil block } _ := .refl _
    refine .penalized hi hstatus ?_ hrisk (.inr ?_) hkept
    · rfl
    · exact ⟨hactive, hpast, rfl, rfl⟩

theorem forgive_step {since : Nat} {factor : Perbill} {call : AuthorCall T}
    (h : forgive s who since = .ok (s', factor)) : RoleStep s s' call := by
  obtain ⟨status, -, h⟩ := bind_eq_ok.mp h
  obtain ⟨_, -, h⟩ := bind_eq_ok.mp h
  obtain ⟨_, -, h⟩ := bind_eq_ok.mp h
  obtain ⟨found, -, h⟩ := bind_eq_ok.mp h
  obtain ⟨s1, h1, h⟩ := bind_eq_ok.mp h
  simp only [pure_eq_ok, Prod.mk.injEq] at h
  obtain ⟨rfl, rfl⟩ := h
  obtain ⟨info, risk, hi, hstatus, hrisk, rfl⟩ := securePermanence_eq_ok h1
  exact .eased hi hstatus hrisk ⟨rfl, rfl, rfl, fun _ _ => get_of_remove, rfl, fun _ => rfl⟩

theorem reward_step {value block : Nat} {call : AuthorCall T} (h : reward s who value = .ok (s', block)) :
    RoleStep s s' call := by
  obtain ⟨s1, h1, h⟩ := bind_eq_ok.mp h
  obtain ⟨b, -, h⟩ := bind_eq_ok.mp h
  simp only [pure_eq_ok, Prod.mk.injEq] at h
  obtain ⟨rfl, rfl⟩ := h
  obtain ⟨info, risk, hi, hstatus, hrisk, rfl⟩ := securePermanence_eq_ok h1
  exact .eased hi hstatus hrisk ⟨rfl, rfl, rfl, fun _ _ => id, rfl, fun _ => rfl⟩

theorem enlist_step {collateral : Nat} {fortitude : Fortitude} {generated : T.AccountId}
    (h : enlist s who collateral fortitude generated = .ok s') :
    RoleStep s s' (.enlist who collateral fortitude generated) := by
  obtain ⟨_, -, h⟩ := bind_eq_ok.mp h
  obtain ⟨⟨s1, amount⟩, h1, h⟩ := bind_eq_ok.mp h
  obtain rfl := pure_eq_ok.mp h
  obtain ⟨hres, c, placed, hc, rfl⟩ := enroll_eq_ok h1
  obtain ⟨-, hw⟩ := placeCommit_written hc
  have hcommits : ∃ info : CommitInfo T.toConfig,
      c.commitMap = s.commitment.commitMap.insert (who, T.authorCollateral) info := by
    rcases hw with hw | ⟨-, hw⟩
    · obtain ⟨info, -, hinfo⟩ := hw.commits
      exact ⟨info, hinfo⟩
    · obtain ⟨info, -, hinfo⟩ := hw.commits
      exact ⟨info, by rw [hinfo, initiateDigest_commitMap]⟩
  obtain ⟨info, hinfo⟩ := hcommits
  exact .enlisted (c := info) hres
    ⟨rfl, rfl, rfl, fun _ _ => id, rfl, fun who' => by dsimp only; rw [hinfo]⟩

theorem refill_roles {collateral : Nat} {fortitude : Fortitude}
    (h : addCollateral s who collateral fortitude = .ok (s', actual)) : RolesKept s s' := by
  obtain ⟨existing, -, h⟩ := bind_eq_ok.mp h
  obtain ⟨c, hc, rfl⟩ := onCommitment_eq_ok h
  obtain ⟨old, ho, hw⟩ := raiseCommit_written hc
  obtain ⟨info, -, hinfo⟩ := hw.commits
  refine .of_keys fun who' => ?_
  rw [hinfo, containsKey_insert_of_some ho]

theorem setSlotShares_commits {c c' : State T.toConfig} {reason : T.Reason} {poolOf slotOf : T.AccountId}
    {shares : Nat} (h : setSlotShares c reason poolOf slotOf shares = .ok c') : c'.commitMap = c.commitMap := by
  rcases setSlotShares_slots h with ⟨-, -, rfl⟩ | ⟨pool, -, ⟨-, -, hset⟩ | ⟨variant, -, -, hset⟩⟩
  · rfl
  · exact hset.commits
  · exact hset.commits

theorem setIndex_commits {c c' : State T.toConfig} {reason : T.Reason} {index : IndexInfo T.toConfig}
    {digest : T.AccountId} (h : setIndex c reason index digest = .ok c') : c'.commitMap = c.commitMap := by
  obtain ⟨-, rfl⟩ := setIndex_spec h
  rfl

theorem createIndex_eq_ok {entries : List (T.AccountId × Nat)} {generated : T.AccountId}
    (h : createIndex s entries generated = .ok s') :
    ∃ digests index c, entryDigests s entries = .ok digests ∧
      prepareIndex s.commitment T.authorFunding digests = .ok index ∧
      setIndex s.commitment T.authorFunding index generated = .ok c ∧ s' = { s with commitment := c } := by
  obtain ⟨digests, hd, h⟩ := bind_eq_ok.mp h
  obtain ⟨c, hc, rfl⟩ := updateCommitment_eq_ok h
  obtain ⟨index, hx, hc⟩ := bind_eq_ok.mp hc
  exact ⟨digests, index, c, hd, hx, hc, rfl⟩

theorem createPool_eq_ok {index generated : T.AccountId} {commission : Commission T.toConfig}
    (h : createPool s who index commission generated = .ok s') :
    ∃ c, setPool s.commitment who T.authorFunding generated index commission = .ok c ∧
      s' = { s with commitment := c } := by
  obtain ⟨c, hc, rfl⟩ := updateCommitment_eq_ok h
  obtain ⟨pool, hpool, hc⟩ := bind_eq_ok.mp hc
  obtain ⟨_, -, hpool⟩ := bind_eq_ok.mp hpool
  obtain ⟨_, -, hpool⟩ := bind_eq_ok.mp hpool
  obtain rfl := pure_eq_ok.mp hpool
  exact ⟨c, hc, rfl⟩

theorem transferPool_eq_ok {pool manager : T.AccountId} (h : transferPool s who pool manager = .ok s') :
    ∃ c, setPoolManager s.commitment T.authorFunding pool manager = .ok c ∧ s' = { s with commitment := c } := by
  obtain ⟨_, -, h⟩ := bind_eq_ok.mp h
  exact updateCommitment_eq_ok h

theorem updateEntryShares_eq_ok {index entry generated : T.AccountId} {shares : Nat}
    (h : updateEntryShares s index entry shares generated = .ok s') :
    ∃ c, setEntryShares s.commitment T.authorFunding index entry shares generated = .ok c ∧
      s' = { s with commitment := c } :=
  updateCommitment_eq_ok h

theorem updateSlotShares_eq_ok {pool slot : T.AccountId} {shares : Nat}
    (h : updateSlotShares s who pool slot shares = .ok s') :
    ∃ c, setSlotShares s.commitment T.authorFunding pool slot shares = .ok c ∧ s' = { s with commitment := c } := by
  obtain ⟨_, -, h⟩ := bind_eq_ok.mp h
  exact updateCommitment_eq_ok h

theorem storeElects_roles {elects : List T.AccountId} (h : storeElects s elects = .ok s') : RolesKept s s' := by
  obtain ⟨_, -, h⟩ := bind_eq_ok.mp h
  obtain rfl := pure_eq_ok.mp h
  exact ⟨rfl, rfl, rfl, fun _ _ => id, rfl, fun _ => rfl⟩

theorem prepareElects_state (s : AuthorState T) (candidates : Candidates T.AccountId) :
    ∃ elected recent, prepareElects s candidates = { s with elected, recentElectedOn := recent } := by
  unfold prepareElects
  split
  · rename_i stored hstored
    obtain ⟨_, -, h⟩ := bind_eq_ok.mp hstored
    obtain rfl := pure_eq_ok.mp h
    exact ⟨_, _, rfl⟩
  · exact ⟨s.elected, s.recentElectedOn, rfl⟩

theorem forceGenesisConfig_state {field : AuthorForceGenesisConfig} (h : s.forceGenesisConfig field = .ok s') :
    s' = { s with
      minCollateral := s'.minCollateral
      maxExposure := s'.maxExposure
      minFund := s'.minFund
      probationPeriod := s'.probationPeriod
      reduceProbationBy := s'.reduceProbationBy
      increaseProbationBy := s'.increaseProbationBy
      rewardsBuffer := s'.rewardsBuffer
      penaltiesBuffer := s'.penaltiesBuffer
      maxElected := s'.maxElected
      minElected := s'.minElected
      forceMaxElected := s'.forceMaxElected } := by
  cases field <;> (simp only [AuthorState.forceGenesisConfig, bind_eq_ok, pure_eq_ok, Except.ok.injEq] at h)
  case maxElected | minElected | minFund =>
    obtain ⟨_, -, _, -, rfl⟩ := h
    rfl
  case maxExposure | minCollateral =>
    obtain ⟨_, -, rfl⟩ := h
    rfl
  all_goals
    obtain rfl := h
    rfl

theorem forceGenesisConfig_roles {field : AuthorForceGenesisConfig} (h : s.forceGenesisConfig field = .ok s') :
    RolesKept s s' := by
  rw [forceGenesisConfig_state h]
  exact ⟨rfl, rfl, rfl, fun _ _ => id, rfl, fun _ => rfl⟩

theorem apply_roleStep {call : AuthorCall T} (h : s.apply call = .ok s') : RoleStep s s' call := by
  cases call with
  | enlist who collateral fortitude generated => exact enlist_step h
  | back who via value q => exact .kept (back_roles h)
  | refill who collateral fortitude =>
    obtain ⟨⟨s1, n⟩, h1, h⟩ := bind_eq_ok.mp h
    obtain rfl := pure_eq_ok.mp h
    exact .kept (refill_roles h1)
  | confirm who => exact setStatus_step h (fun _ => .inl rfl) (fun h => nomatch h)
  | exit who target => exact .kept (exitTarget_roles h)
  | demit who duty =>
    obtain ⟨⟨s1, refund⟩, h1, h⟩ := bind_eq_ok.mp h
    obtain rfl := pure_eq_ok.mp h
    obtain ⟨info, c, hi, hstatus, -, hclear, hc, rfl⟩ := resign_eq_ok h1
    obtain ⟨-, hremoved⟩ := resolveCommit_removed hc
    exact .resigned (.inl ⟨duty, rfl⟩) hi hstatus hclear
      ⟨rfl, rfl, rfl, fun _ _ => id, rfl, fun who' => by dsimp only; rw [hremoved.commits]⟩
  | createIndex entries generated =>
    obtain ⟨digests, index, c, -, -, hc, rfl⟩ := createIndex_eq_ok h
    exact .kept (.of_commits (setIndex_commits hc))
  | createPool who index commission generated =>
    obtain ⟨c, hc, rfl⟩ := createPool_eq_ok h
    obtain ⟨_, _, -, -, -, -, rfl⟩ := setPool_spec hc
    exact .kept (.of_commits rfl)
  | transferPool who pool manager =>
    obtain ⟨c, hc, rfl⟩ := transferPool_eq_ok h
    obtain rfl := setPoolManager_spec hc
    exact .kept (.of_commits rfl)
  | updateEntryShares index entry shares generated =>
    obtain ⟨c, hc, rfl⟩ := updateEntryShares_eq_ok h
    rcases setEntryShares_spec hc with rfl | ⟨index, hc⟩
    · exact .kept (.refl s)
    · exact .kept (.of_commits (setIndex_commits hc))
  | updateSlotShares who pool slot shares =>
    obtain ⟨c, hc, rfl⟩ := updateSlotShares_eq_ok h
    exact .kept (.of_commits (setSlotShares_commits hc))
  | setStatus who status duty =>
    exact setStatus_step h (fun hs => .inr ⟨duty, hs ▸ rfl⟩) (fun hs => .inr ⟨duty, hs ▸ rfl⟩)
  | penalize who factor =>
    obtain ⟨⟨s1, block⟩, h1, h⟩ := bind_eq_ok.mp h
    obtain rfl := pure_eq_ok.mp h
    exact penalize_step h1
  | forgive who since =>
    obtain ⟨⟨s1, factor⟩, h1, h⟩ := bind_eq_ok.mp h
    obtain rfl := pure_eq_ok.mp h
    exact forgive_step h1
  | reward who value =>
    obtain ⟨⟨s1, block⟩, h1, h⟩ := bind_eq_ok.mp h
    obtain rfl := pure_eq_ok.mp h
    exact reward_step h1
  | reclaim who since =>
    obtain ⟨⟨s1, value⟩, h1, h⟩ := bind_eq_ok.mp h
    obtain rfl := pure_eq_ok.mp h
    obtain rfl := reclaim_eq_ok h1
    exact .kept ⟨rfl, rfl, rfl, fun _ _ => id, rfl, fun _ => rfl⟩
  | prepareElects candidates =>
    obtain rfl := Except.ok.inj h
    unfold prepareElects
    split
    · exact .kept (storeElects_roles ‹_›)
    · exact .kept (.refl s)
  | removeElected who =>
    obtain rfl := Except.ok.inj h
    exact .kept ⟨rfl, rfl, rfl, fun _ _ => id, rfl, fun _ => rfl⟩
  | forceGenesisConfig field => exact .kept (forceGenesisConfig_roles h)
  | enterBlock =>
    obtain ⟨hb, hopened⟩ := enterBlock_eq_ok h
    exact .entered hb hopened.roles
  | external ledger =>
    obtain rfl := Except.ok.inj h
    exact .kept (.of_commits rfl)

end Steps

end FrameSuite
