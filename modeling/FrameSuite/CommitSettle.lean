import FrameSuite.BalanceSheet

/-! Every call of the pallet settles the balance sheet: cash and committed value together
stay the same, the totals of the reasons follow the value of their digests, and the
counters follow up to an amount fixed by the state before the call. -/

namespace FrameSuite

open ShareBalance

variable {T : Config}

structure Books (s s' : State T) (leak : Int) : Prop where
  sound : Sound s'
  totals : ∀ w, totalReasons w s'.reasonValue + liveValue w s.digestMap =
    totalReasons w s.reasonValue + liveValue w s'.digestMap
  sheet : disequilibrium s' = disequilibrium s + leak

structure Settles (s s' : State T) (leak : Int) : Prop extends Books s s' leak where
  flow : Flow s.ledger s'.ledger (digestsValue s - digestsValue s')

theorem Settles.refl {s : State T} (hs : Sound s) : Settles s s 0 :=
  ⟨⟨hs, fun _ => rfl, by simp⟩, (Flow.refl _).of_eq (by omega)⟩

theorem Settles.trans {s s₁ s₂ : State T} {a b : Int} (h : Settles s s₁ a)
    (h' : Settles s₁ s₂ b) : Settles s s₂ (a + b) := by
  refine ⟨⟨h'.sound, fun w => ?_, ?_⟩, (h.flow.trans h'.flow).of_eq (by omega)⟩
  · have h1 := h.totals w
    have h2 := h'.totals w
    omega
  · rw [h'.sheet, h.sheet, Int.add_assoc]

theorem commitsOwed_insert (m : CommitMap T) (key : T.AccountId × T.Reason) (info : CommitInfo T) :
    commitsOwed (m.insert key info) +
        (m.get key).elim 0 (fun info => depositValue info.commits.receipts) =
      commitsOwed m + depositValue info.commits.receipts :=
  StorageMap.sum_insert (fun _ (info : CommitInfo T) => depositValue info.commits.receipts) m key info

theorem CommitInfo.new_eq_ok {digest : T.AccountId} {receipt : CommitInstance T} {variant : T.Position}
    {info : CommitInfo T} (h : CommitInfo.new digest receipt variant = .ok info) :
    info.digest = digest ∧ info.variant = variant ∧ info.commits.receipts = [receipt] := by
  obtain ⟨commits, hc, h⟩ := bind_eq_ok.mp h
  obtain ⟨position, -, h⟩ := bind_eq_ok.mp h
  obtain ⟨_, -, h⟩ := bind_eq_ok.mp h
  obtain rfl := pure_eq_ok.mp h
  refine ⟨rfl, rfl, ?_⟩
  unfold Commits.new at hc
  split at hc
  · cases hc
  · cases hc
    rfl

theorem CommitInfo.addCommit_eq_ok {info info' : CommitInfo T} {receipt : CommitInstance T}
    (h : info.addCommit receipt = .ok info') :
    info'.digest = info.digest ∧ info'.variant = info.variant ∧
      info'.commits.receipts = info.commits.receipts ++ [receipt] := by
  obtain ⟨commits, hc, h⟩ := bind_eq_ok.mp h
  obtain rfl := pure_eq_ok.mp h
  refine ⟨rfl, rfl, ?_⟩
  unfold Commits.addCommit at hc
  split at hc
  · cases hc
    rfl
  · cases hc

/-- The commit of the proprietor was written and the total of the reason raised. -/
structure Credited (s s' : State T) (who : T.AccountId) (reason : T.Reason)
    (info : CommitInfo T) (amount : Nat) : Prop where
  state_eq : ∃ l rv, s' = { s with
    ledger := l
    reasonValue := rv
    commitMap := s.commitMap.insert (who, reason) info }
  flow : Flow s.ledger s'.ledger 0
  totals : ∀ w, totalReasons w s'.reasonValue = totalReasons w s.reasonValue + w reason * amount

theorem finalizePlaceCommit_spec {s s' : State T} {who : T.AccountId}
    {reason : T.Reason} {digest : T.AccountId} {variant : T.Position} {receipt : CommitInstance T}
    {total : Nat} (h : finalizePlaceCommit s who reason digest variant receipt total = .ok s') :
    ∃ info, Credited s s' who reason info total ∧ info.digest = digest ∧ info.variant = variant ∧
      info.commits.receipts = [receipt] := by
  obtain ⟨s1, h1, h⟩ := bind_eq_ok.mp h
  obtain ⟨l, hl, rfl⟩ := onLedger_eq_ok h1
  obtain ⟨info, hi, h⟩ := bind_eq_ok.mp h
  obtain ⟨rv, rfl, hrv⟩ := addToTotalValue_spec h
  exact ⟨info, ⟨⟨l, rv, rfl⟩, .setFreeze hl, hrv⟩, CommitInfo.new_eq_ok hi⟩

theorem finalizeRaiseCommit_spec {s s' : State T} {who : T.AccountId}
    {reason : T.Reason} {receipt : CommitInstance T} {total : Nat}
    (h : finalizeRaiseCommit s who reason receipt total = .ok s') :
    ∃ old info, s.commitMap.get (who, reason) = some old ∧ Credited s s' who reason info total ∧
      info.digest = old.digest ∧ info.variant = old.variant ∧
      info.commits.receipts = old.commits.receipts ++ [receipt] := by
  obtain ⟨s1, h1, h⟩ := bind_eq_ok.mp h
  obtain ⟨l, hl, rfl⟩ := onLedger_eq_ok h1
  obtain ⟨old, ho, h⟩ := bind_eq_ok.mp h
  rw [getCommit, okOr_eq_ok] at ho
  obtain ⟨info, hi, h⟩ := bind_eq_ok.mp h
  obtain ⟨rv, rfl, hrv⟩ := addToTotalValue_spec h
  exact ⟨old, info, ho, ⟨⟨l, rv, rfl⟩, .increaseFrozen hl, hrv⟩,
    CommitInfo.addCommit_eq_ok hi⟩

theorem DepositEffect.settles {s s₁ s₂ s₃ : State T} {who : T.AccountId}
    {reason : T.Reason} {actual amount dust : Nat} {receipt : CommitInstance T} {info : CommitInfo T}
    (hd : ∃ l, s₁ = { s with ledger := l } ∧ Flow s.ledger l (-actual))
    (h : DepositEffect s₁ s₂ reason actual amount receipt dust)
    (hc : Credited s₂ s₃ who reason info amount)
    (hr : depositValue info.commits.receipts =
      (s.commitMap.get (who, reason)).elim 0 (fun info => depositValue info.commits.receipts) +
        receipt.elim 0 Receipt.principal) :
    Settles s s₃ dust := by
  obtain ⟨l, rfl, hl⟩ := hd
  have h1 := h.flow
  have h2 := h.live
  have h3 := h.owed
  have hi := h.issue
  have hre := h.reap
  have hcm := h.commits
  have htot := h.totals
  have hci := commitsOwed_insert s.commitMap (who, reason) info
  have hcc := hc.flow
  have hct := hc.totals
  obtain ⟨l', rv, rfl⟩ := hc.state_eq
  have hval : digestsValue { s with ledger := l } = digestsValue s := rfl
  rw [hval] at h1 h2
  refine ⟨⟨⟨h.sound.digests, h.sound.pools⟩, fun w => ?_, ?_⟩, ((hl.trans h1).trans hcc).of_eq ?_⟩
  · have h4 := htot w
    have h5 := hct w
    dsimp only at *
    omega
  · unfold disequilibrium depositsOwed digestsValue at *
    dsimp only at *
    rw [hcm]
    omega
  · unfold digestsValue at *
    dsimp only at *
    omega

/-- What is deducted from the account of the proprietor. -/
def deductible (s : State T) (who : T.AccountId) (value : Nat) : Nat :=
  min value (T.asset.balanceOnHold s.ledger who + T.asset.reducibleBalance s.ledger who)

theorem deductBalance_amount {s s' : State T} {who : T.AccountId} {v actual : Nat} {q : Directive}
    (h : deductBalance s who v q = .ok (s', actual)) : actual = deductible s who v := by
  unfold deductBalance at h
  unfold deductible
  dsimp only at h
  split at h
  · obtain ⟨s1, -, h⟩ := bind_eq_ok.mp h
    simp only [pure_eq_ok, Prod.mk.injEq] at h
    omega
  split at h
  · obtain ⟨_, -, h⟩ := bind_eq_ok.mp h
    cases h
  obtain ⟨total, ht, h⟩ := bind_eq_ok.mp h
  rw [okOr_eq_ok, checkedAdd_eq_some] at ht
  split at h
  · split at h
    · obtain ⟨_, -, h⟩ := bind_eq_ok.mp h
      cases h
    obtain ⟨s1, -, h⟩ := bind_eq_ok.mp h
    obtain ⟨s2, -, h⟩ := bind_eq_ok.mp h
    simp only [pure_eq_ok, Prod.mk.injEq] at h
    omega
  · obtain ⟨s1, -, h⟩ := bind_eq_ok.mp h
    obtain ⟨s2, -, h⟩ := bind_eq_ok.mp h
    simp only [pure_eq_ok, Prod.mk.injEq] at h
    omega

/-- The dust of a deposit, known before it is made. -/
def depositLeak (s : State T) (who : T.AccountId) (reason : T.Reason) (model : DigestVariant T)
    (value : Nat) : Nat :=
  match model with
  | .direct _ => 0
  | .index _ => 0
  | .pool poolOf =>
    match s.poolMap.get (reason, poolOf) with
    | none => 0
    | some pool =>
      splitDust T (pool.slots.map SlotInfo.shares)
        (poolValue s.digestMap reason pool + deductible s who value)

theorem depositLeak_pool {s : State T} {who : T.AccountId} {reason : T.Reason} {poolOf : T.AccountId}
    {value : Nat} {pool : PoolInfo T} (h : s.poolMap.get (reason, poolOf) = some pool) :
    depositLeak s who reason (.pool poolOf) value = splitDust T (pool.slots.map SlotInfo.shares)
      (poolValue s.digestMap reason pool + deductible s who value) := by
  simp [depositLeak, h]

theorem initiateDigest_settles {s : State T} (hs : Sound s) (reason : T.Reason)
    (digest : T.AccountId) : Settles s (initiateDigest s reason digest) 0 := by
  unfold initiateDigest
  split
  · exact .refl hs
  · rename_i hk
    rw [Bool.not_eq_true, StorageMap.containsKey_eq_false_iff] at hk
    obtain ⟨hb, hl⟩ := insert_default_spec hk
    have hv := hl fun _ => 1
    rw [liveValue_one, liveValue_one] at hv
    refine ⟨⟨⟨fun loc b hb' => hs.digests loc b (hb loc ▸ hb'), hs.pools⟩, fun w => ?_, ?_⟩,
      (Flow.refl _).of_eq ?_⟩
    · have := hl w
      dsimp only
      omega
    · unfold disequilibrium depositsOwed digestsValue
      dsimp only
      omega
    · unfold digestsValue
      dsimp only
      omega

/-- The deposit for a commit on a digest of each model. -/
def depositFor (s : State T) (who : T.AccountId) (reason : T.Reason) (value : Nat) (variant : T.Position) :
    DigestVariant T → Except DispatchError (State T × CommitInstance T × Nat)
  | .direct digest => depositToDigest s reason digest value variant
  | .index indexOf => depositToIndex s who reason indexOf value
  | .pool poolOf => depositToPool s reason poolOf value

def DigestVariant.digest : DigestVariant T → T.AccountId
  | .direct digest => digest
  | .index digest => digest
  | .pool digest => digest

/-- Where the deduction for a placement starts: a direct digest exists by then. -/
def placedFrom (s : State T) (reason : T.Reason) : DigestVariant T → State T
  | .direct digest => initiateDigest s reason digest
  | _ => s

theorem placedFrom_commitMap (s : State T) (reason : T.Reason) (model : DigestVariant T) :
    (placedFrom s reason model).commitMap = s.commitMap := by
  cases model with
  | direct digest =>
    simp only [placedFrom, initiateDigest]
    split <;> rfl
  | _ => rfl

theorem placeCommitOf_steps {s s' : State T} {who : T.AccountId} {reason : T.Reason}
    {model : DigestVariant T} {value amount : Nat} {variant : T.Position} {q : Directive}
    (h : placeCommitOf s who reason model value variant q = .ok (s', amount)) :
    ∃ s₁ s₂ actual receipt, deductBalance (placedFrom s reason model) who value q = .ok (s₁, actual) ∧
      depositFor s₁ who reason actual variant model = .ok (s₂, receipt, amount) ∧
      finalizePlaceCommit s₂ who reason model.digest variant receipt amount = .ok s' := by
  cases model
  all_goals
    obtain ⟨⟨s₁, actual⟩, h₁, h⟩ := bind_eq_ok.mp h
    obtain ⟨⟨s₂, receipt, placed⟩, h₂, h⟩ := bind_eq_ok.mp h
    obtain ⟨s₃, h₃, h⟩ := bind_eq_ok.mp h
    simp only [pure_eq_ok, Prod.mk.injEq] at h
    obtain ⟨rfl, rfl⟩ := h
    exact ⟨s₁, s₂, actual, receipt, h₁, h₂, h₃⟩

theorem raiseCommitOf_steps {s s' : State T} {who : T.AccountId} {reason : T.Reason}
    {model : DigestVariant T} {value amount : Nat} {q : Directive}
    (h : raiseCommitOf s who reason model value q = .ok (s', amount)) :
    ∃ variant s₁ s₂ actual receipt,
      (∀ digest, model = .direct digest → getCommitVariant s who reason = .ok variant) ∧
      deductBalance s who value q = .ok (s₁, actual) ∧
      depositFor s₁ who reason actual variant model = .ok (s₂, receipt, amount) ∧
      finalizeRaiseCommit s₂ who reason receipt amount = .ok s' := by
  cases model with
  | direct digest =>
    obtain ⟨variant, hv, h⟩ := bind_eq_ok.mp h
    obtain ⟨⟨s₁, actual⟩, h₁, h⟩ := bind_eq_ok.mp h
    obtain ⟨⟨s₂, receipt, raised⟩, h₂, h⟩ := bind_eq_ok.mp h
    obtain ⟨s₃, h₃, h⟩ := bind_eq_ok.mp h
    simp only [pure_eq_ok, Prod.mk.injEq] at h
    obtain ⟨rfl, rfl⟩ := h
    exact ⟨variant, s₁, s₂, actual, receipt, fun _ _ => hv, h₁, h₂, h₃⟩
  | _ =>
    obtain ⟨⟨s₁, actual⟩, h₁, h⟩ := bind_eq_ok.mp h
    obtain ⟨⟨s₂, receipt, raised⟩, h₂, h⟩ := bind_eq_ok.mp h
    obtain ⟨s₃, h₃, h⟩ := bind_eq_ok.mp h
    simp only [pure_eq_ok, Prod.mk.injEq] at h
    obtain ⟨rfl, rfl⟩ := h
    refine ⟨T.positionDefault, s₁, s₂, actual, receipt, fun dir he => ?_, h₁, h₂, h₃⟩
    cases he

/-- A deposit of what was deducted is the effect of a deposit up to the dust of the model. -/
theorem depositFor_effect {s s₁ s₂ : State T} {who : T.AccountId} {reason : T.Reason}
    {model : DigestVariant T} {value actual amount : Nat} {variant : T.Position} {q : Directive}
    {receipt : CommitInstance T} (hs : Sound s) (h₁ : deductBalance s who value q = .ok (s₁, actual))
    (h₂ : depositFor s₁ who reason actual variant model = .ok (s₂, receipt, amount)) :
    (∃ l, s₁ = { s with ledger := l } ∧ Flow s.ledger l (-actual)) ∧
      DepositEffect s₁ s₂ reason actual amount receipt (depositLeak s who reason model value) := by
  obtain rfl := deductBalance_amount h₁
  obtain ⟨l, rfl, hl⟩ := deductBalance_spec h₁
  refine ⟨⟨l, rfl, hl⟩, ?_⟩
  cases model with
  | direct digest => exact depositToDigest_effect (hs.withLedger l) h₂
  | index indexOf => exact depositToIndex_effect (hs.withLedger l) h₂
  | pool poolOf =>
    obtain ⟨pool, hp, he⟩ := depositToPool_effect (hs.withLedger l) h₂
    rw [depositLeak_pool (s := s) hp]
    exact he

theorem placeCommitOf_settles {s s' : State T} {who : T.AccountId}
    {reason : T.Reason} {model : DigestVariant T} {value amount : Nat} {variant : T.Position}
    {q : Directive} (hs : Sound s) (hnew : s.commitMap.get (who, reason) = none)
    (h : placeCommitOf s who reason model value variant q = .ok (s', amount)) :
    Settles s s' (depositLeak s who reason model value) := by
  obtain ⟨s₁, s₂, actual, receipt, h₁, h₂, h₃⟩ := placeCommitOf_steps h
  obtain ⟨info, hc, -, -, hr⟩ := finalizePlaceCommit_spec h₃
  have hinit : Settles s (placedFrom s reason model) 0 ∧
      depositLeak (placedFrom s reason model) who reason model value = depositLeak s who reason model value := by
    cases model with
    | direct digest => exact ⟨initiateDigest_settles hs reason digest, rfl⟩
    | _ => exact ⟨.refl hs, rfl⟩
  obtain ⟨hd, he⟩ := depositFor_effect hinit.1.sound h₁ h₂
  have hsettle := he.settles hd hc (by rw [placedFrom_commitMap, hnew, hr]; simp)
  rw [hinit.2] at hsettle
  simpa using hinit.1.trans hsettle

theorem raiseCommitOf_settles {s s' : State T} {who : T.AccountId}
    {reason : T.Reason} {model : DigestVariant T} {value amount : Nat} {q : Directive} (hs : Sound s)
    (h : raiseCommitOf s who reason model value q = .ok (s', amount)) :
    Settles s s' (depositLeak s who reason model value) := by
  obtain ⟨variant, s₁, s₂, actual, receipt, -, h₁, h₂, h₃⟩ := raiseCommitOf_steps h
  obtain ⟨hd, he⟩ := depositFor_effect hs h₁ h₂
  obtain ⟨old, info, ho, hc, -, -, hr⟩ := finalizeRaiseCommit_spec h₃
  have hcommits : s₂.commitMap = s.commitMap := by
    obtain ⟨l, rfl, -⟩ := hd
    exact he.commits
  rw [hcommits] at ho
  exact he.settles hd hc (by rw [ho, hr]; simp)

theorem commitsOwed_remove (m : CommitMap T) (key : T.AccountId × T.Reason) :
    commitsOwed (m.remove key) +
        (m.get key).elim 0 (fun info => depositValue info.commits.receipts) = commitsOwed m :=
  StorageMap.sum_remove (fun _ (info : CommitInfo T) => depositValue info.commits.receipts) m key

theorem finalizeResolveCommit_spec {s s' : State T} {who : T.AccountId}
    {reason : T.Reason} {d : AssetDelta} {resolved : Nat} (hd : d.withdraw ≤ T.share.maxAsset)
    (h : finalizeResolveCommit s who reason d = .ok (s', resolved)) :
    resolved = d.withdraw ∧ ∃ l issue reap' rv,
      s' = { s with
        ledger := l
        reasonValue := rv
        commitMap := s.commitMap.remove (who, reason)
        assetToIssue := issue
        assetToReap := reap' } ∧
      Flow s.ledger l d.withdraw ∧
      issue + (d.withdraw - d.deposit) = s.assetToIssue ∧
      reap' + (d.deposit - d.withdraw) = s.assetToReap ∧
      ∀ w, totalReasons w rv + w reason * d.withdraw = totalReasons w s.reasonValue := by
  obtain ⟨s1, h1, h⟩ := bind_eq_ok.mp h
  obtain ⟨l1, hl1, rfl⟩ := onLedger_eq_ok h1
  obtain ⟨⟨s2, paid⟩, h2, h⟩ := bind_eq_ok.mp h
  obtain ⟨rfl, l, issue, reap', rfl, hl, hi, hre⟩ := resolveImbalance_spec h2 hd
  obtain ⟨s3, h3, h⟩ := bind_eq_ok.mp h
  obtain ⟨rv, rfl, hrv⟩ := subFromTotalValue_spec h3
  simp only [pure_eq_ok, Prod.mk.injEq] at h
  obtain ⟨rfl, rfl⟩ := h
  exact ⟨rfl, l, issue, reap', rv, rfl, ((Flow.thaw hl1).trans hl).of_eq (by omega), hi, hre, hrv⟩

theorem WithdrawEffect.settles {s s₁ s₂ : State T} {who : T.AccountId}
    {reason : T.Reason} {d : AssetDelta} {resolved : Nat} {leak : Int} {info : CommitInfo T}
    (hg : s.commitMap.get (who, reason) = some info)
    (h : WithdrawEffect s s₁ reason info.commits.receipts d leak)
    (hf : finalizeResolveCommit s₁ who reason d = .ok (s₂, resolved)) : Settles s s₂ leak := by
  obtain ⟨-, l, issue, reap', rv, rfl, hl, hi, hre, hrv⟩ :=
    finalizeResolveCommit_spec h.withdraw_le hf
  have hcm := commitsOwed_remove s.commitMap (who, reason)
  have h1 := h.flow
  have h2 := h.sheet
  have h3 := h.issue
  have h4 := h.commits
  rw [hg, Option.elim_some] at hcm
  refine ⟨⟨⟨h.sound.digests, h.sound.pools⟩, fun w => ?_, ?_⟩, (h1.trans hl).of_eq ?_⟩
  · have h5 := h.totals w
    have h6 := hrv w
    dsimp only
    omega
  · unfold disequilibrium depositsOwed digestsValue at *
    dsimp only at *
    rw [h4]
    omega
  · unfold digestsValue at *
    dsimp only at *
    omega

/-- What the sheet misses after a commit is resolved, known before. Receipts of a commit
that is resolved as an index are dropped without a withdrawal. -/
def resolveLeak (s : State T) (who : T.AccountId) (reason : T.Reason) (model : DigestVariant T) : Int :=
  match s.commitMap.get (who, reason) with
  | none => 0
  | some info =>
    match model with
    | .direct _ => 0
    | .index _ => -depositValue info.commits.receipts
    | .pool poolOf =>
      match s.poolMap.get (reason, poolOf) with
      | none => 0
      | some pool => poolLeak s.digestMap reason pool info.commits.receipts

theorem resolveCommitOf_settles {s s' : State T} {who : T.AccountId}
    {reason : T.Reason} {model : DigestVariant T} {resolved : Nat} (hs : Sound s)
    (h : resolveCommitOf s who reason model = .ok (s', resolved)) :
    Settles s s' (resolveLeak s who reason model) := by
  obtain ⟨variant, hv, h⟩ := bind_eq_ok.mp h
  obtain ⟨info, hi, -⟩ := bind_eq_ok.mp hv
  rw [getCommit, okOr_eq_ok] at hi
  obtain ⟨⟨s1, d⟩, h1, hf⟩ := bind_eq_ok.mp h
  cases model with
  | direct digest =>
    obtain ⟨commit, hc, he⟩ := withdrawFromDigest_effect hs h1
    obtain rfl : info = commit := Option.some.inj (hi.symm.trans hc)
    simpa [resolveLeak, hi] using he.settles hi hf
  | index indexOf =>
    have he := withdrawFromIndex_effect hs h1 info.commits.receipts
    simpa [resolveLeak, hi] using he.settles hi hf
  | pool poolOf =>
    obtain ⟨commit, pool, hc, hp, he⟩ := withdrawFromPool_effect hs h1
    obtain rfl : info = commit := Option.some.inj (hi.symm.trans hc)
    simpa [resolveLeak, hi, hp] using he.settles hi hf

/-- The model under which a digest is committed to; an unknown digest becomes direct. -/
def digestModel (s : State T) (digest : T.AccountId) (reason : T.Reason) : DigestVariant T :=
  match determineDigest s digest reason with
  | .ok model => model
  | .error _ => .direct digest

def placeLeak (s : State T) (who : T.AccountId) (reason : T.Reason) (digest : T.AccountId)
    (value : Nat) : Int :=
  depositLeak s who reason (digestModel s digest reason) value

def raiseLeak (s : State T) (who : T.AccountId) (reason : T.Reason) (value : Nat) : Int :=
  match s.commitMap.get (who, reason) with
  | none => 0
  | some info => depositLeak s who reason (digestModel s info.digest reason) value

def leaveLeak (s : State T) (who : T.AccountId) (reason : T.Reason) : Int :=
  match s.commitMap.get (who, reason) with
  | none => 0
  | some info => resolveLeak s who reason (digestModel s info.digest reason)

theorem placeCommitOfVariant_settles {s s' : State T} {who : T.AccountId}
    {reason : T.Reason} {digest : T.AccountId} {value amount : Nat} {variant : T.Position}
    {q : Directive} (hs : Sound s)
    (h : placeCommitOfVariant s who reason digest value variant q = .ok (s', amount)) :
    Settles s s' (placeLeak s who reason digest value) := by
  obtain ⟨_, hn, h⟩ := bind_eq_ok.mp h
  rw [ensure_eq_ok, StorageMap.containsKey_eq_false_iff] at hn
  obtain ⟨_, -, h⟩ := bind_eq_ok.mp h
  exact placeCommitOf_settles hs hn h

theorem digestModel_of_ok {s : State T} {digest : T.AccountId} {reason : T.Reason}
    {model : DigestVariant T} (h : determineDigest s digest reason = .ok model) :
    digestModel s digest reason = model := by
  simp [digestModel, h]

theorem getCommitDigest_eq_ok {s : State T} {who : T.AccountId} {reason : T.Reason}
    {digest : T.AccountId} (h : getCommitDigest s who reason = .ok digest) :
    ∃ info, s.commitMap.get (who, reason) = some info ∧ info.digest = digest := by
  obtain ⟨info, hi, h⟩ := bind_eq_ok.mp h
  rw [getCommit, okOr_eq_ok] at hi
  exact ⟨info, hi, pure_eq_ok.mp h⟩

theorem raiseCommit_eq_ok {s : State T} {who : T.AccountId} {reason : T.Reason} {value : Nat} {q : Directive}
    {out : State T × Nat} (h : raiseCommit s who reason value q = .ok out) :
    ∃ info, s.commitMap.get (who, reason) = some info ∧
      raiseCommitOf s who reason (digestModel s info.digest reason) value q = .ok out := by
  obtain ⟨_, -, h⟩ := bind_eq_ok.mp h
  obtain ⟨_, -, h⟩ := bind_eq_ok.mp h
  obtain ⟨digest, hd, h⟩ := bind_eq_ok.mp h
  obtain ⟨info, hi, rfl⟩ := getCommitDigest_eq_ok hd
  obtain ⟨model, hm, h⟩ := bind_eq_ok.mp h
  exact ⟨info, hi, (digestModel_of_ok hm).symm ▸ h⟩

theorem resolveCommit_eq_ok {s : State T} {who : T.AccountId} {reason : T.Reason} {out : State T × Nat}
    (h : resolveCommit s who reason = .ok out) :
    ∃ info, s.commitMap.get (who, reason) = some info ∧
      determineDigest s info.digest reason = .ok (digestModel s info.digest reason) ∧
      resolveCommitOf s who reason (digestModel s info.digest reason) = .ok out := by
  obtain ⟨digest, hd, h⟩ := bind_eq_ok.mp h
  obtain ⟨info, hi, rfl⟩ := getCommitDigest_eq_ok hd
  obtain ⟨model, hm, h⟩ := bind_eq_ok.mp h
  obtain rfl := digestModel_of_ok hm
  exact ⟨info, hi, hm, h⟩

theorem setCommitVariant_cases {s s' : State T} {who : T.AccountId} {reason : T.Reason} {variant : T.Position}
    {q : Directive} (h : setCommitVariant s who reason variant q = .ok s') :
    ∃ info, s.commitMap.get (who, reason) = some info ∧
      (info.variant = variant ∧ s' = s ∨
        info.variant ≠ variant ∧ ∃ s₁ reDeposit amount, resolveCommit s who reason = .ok (s₁, reDeposit) ∧
          placeCommitOfVariant s₁ who reason info.digest reDeposit variant q = .ok (s', amount)) := by
  obtain ⟨_, -, h⟩ := bind_eq_ok.mp h
  obtain ⟨current, hv, h⟩ := bind_eq_ok.mp h
  obtain ⟨info, hi, hc⟩ := bind_eq_ok.mp hv
  rw [getCommit, okOr_eq_ok] at hi
  obtain rfl := pure_eq_ok.mp hc
  refine ⟨info, hi, ?_⟩
  split at h
  · rename_i he
    exact .inl ⟨he, (pure_eq_ok.mp h).symm⟩
  · rename_i he
    obtain ⟨digest, hd, h⟩ := bind_eq_ok.mp h
    obtain ⟨info', hi', rfl⟩ := getCommitDigest_eq_ok hd
    obtain rfl : info = info' := Option.some.inj (hi.symm.trans hi')
    obtain ⟨⟨s₁, reDeposit⟩, h1, h⟩ := bind_eq_ok.mp h
    obtain ⟨⟨s₂, amount⟩, h2, h⟩ := bind_eq_ok.mp h
    obtain rfl := pure_eq_ok.mp h
    exact .inr ⟨he, s₁, reDeposit, amount, h1, h2⟩

theorem raiseCommit_settles {s s' : State T} {who : T.AccountId} {reason : T.Reason}
    {value amount : Nat} {q : Directive} (hs : Sound s)
    (h : raiseCommit s who reason value q = .ok (s', amount)) :
    Settles s s' (raiseLeak s who reason value) := by
  obtain ⟨info, hi, h⟩ := raiseCommit_eq_ok h
  simpa [raiseLeak, hi] using raiseCommitOf_settles hs h

theorem resolveCommit_settles {s s' : State T} {who : T.AccountId}
    {reason : T.Reason} {resolved : Nat} (hs : Sound s)
    (h : resolveCommit s who reason = .ok (s', resolved)) :
    Settles s s' (leaveLeak s who reason) := by
  obtain ⟨info, hi, -, h⟩ := resolveCommit_eq_ok h
  simpa [leaveLeak, hi] using resolveCommitOf_settles hs h

/-- A change of variant leaks what the resolution leaks and what the new placement leaks. -/
def changeLeak (s : State T) (who : T.AccountId) (reason : T.Reason) (variant : T.Position) : Int :=
  match s.commitMap.get (who, reason) with
  | none => 0
  | some info =>
    if info.variant = variant then 0
    else leaveLeak s who reason +
      match resolveCommit s who reason with
      | .ok (s₁, reDeposit) => placeLeak s₁ who reason info.digest reDeposit
      | .error _ => 0

theorem setCommitVariant_settles {s s' : State T} {who : T.AccountId}
    {reason : T.Reason} {variant : T.Position} {q : Directive} (hs : Sound s)
    (h : setCommitVariant s who reason variant q = .ok s') :
    Settles s s' (changeLeak s who reason variant) := by
  obtain ⟨info, hi, ⟨he, rfl⟩ | ⟨he, s₁, reDeposit, amount, h1, h2⟩⟩ := setCommitVariant_cases h
  · simpa [changeLeak, hi, he] using Settles.refl hs
  · have hr := resolveCommit_settles hs h1
    have hp := placeCommitOfVariant_settles hr.sound h2
    simpa [changeLeak, hi, he, h1] using hr.trans hp

end FrameSuite
