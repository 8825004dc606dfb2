import FrameSuite.AuthorRuntime
import FrameSuite.CommitLimits

/-! What enlisting and backing lock. The limits are held against the amount that is asked for. A best effort
may commit less, an index only whole units of its parts, and the authors behind an index or a pool are not
asked for their limits. -/

namespace FrameSuite

section Amounts

variable {C : Config} {c c' : State C} {who : C.AccountId} {reason : C.Reason} {digest : C.AccountId}
  {value amount : Nat} {q : Directive}

/-- What a deposit of a value credits: all of it, or the whole units of the parts of an index. -/
def creditedAmount (c : State C) (reason : C.Reason) (value : Nat) : DigestVariant C → Nat
  | .index indexOf => (c.indexMap.get (reason, indexOf)).elim 0 fun info =>
    (assigned C value info.capital info.entries.list).sum
  | _ => value

/-- What a commit of a value adds to the digest: the part of the value that the account can pay. -/
def committed (c : State C) (who : C.AccountId) (reason : C.Reason) (digest : C.AccountId) (value : Nat) : Nat :=
  creditedAmount c reason (deductible c who value) (digestModel c digest reason)

theorem depositFor_amount {variant : C.Position} {model : DigestVariant C} {receipt : CommitInstance C}
    (h : depositFor c who reason value variant model = .ok (c', receipt, amount)) :
    amount = creditedAmount c reason value model ∧ amount ≤ value := by
  cases model with
  | direct digest =>
    obtain ⟨rfl, -⟩ := depositToDigest_spec h
    exact ⟨rfl, le_rfl⟩
  | index indexOf =>
    obtain ⟨info, hi, -⟩ := bind_eq_ok.mp h
    rw [getIndex, okOr_eq_ok] at hi
    have hsplit := depositToIndex_split hi h
    obtain ⟨refund, hrefund, -⟩ := hsplit.refunded
    refine ⟨?_, by omega⟩
    rw [creditedAmount, hi, hsplit.total]
    rfl
  | pool poolOf =>
    obtain ⟨⟨c₁, balance⟩, -, h⟩ := bind_eq_ok.mp h
    obtain ⟨⟨⟨deposited, r⟩, nb⟩, h₂, h⟩ := bind_eq_ok.mp h
    obtain ⟨after, hdeposited, -⟩ := ShareBalance.deposit_eq_ok.mp (liftShare_eq_ok.mp h₂)
    obtain ⟨c₂, -, h⟩ := bind_eq_ok.mp h
    simp only [pure_eq_ok, Prod.mk.injEq] at h
    obtain ⟨-, -, rfl⟩ := h
    exact ⟨hdeposited, le_of_eq hdeposited⟩

theorem creditedAmount_congr (hi : c'.indexMap = c.indexMap) (model : DigestVariant C) :
    creditedAmount c' reason value model = creditedAmount c reason value model := by
  unfold creditedAmount
  rw [hi]

theorem deductible_le : deductible c who value ≤ value := Nat.min_le_left _ _

theorem placeCommit_amount (h : placeCommit c who reason digest value q = .ok (c', amount)) :
    amount = committed c who reason digest value ∧ amount ≤ value := by
  obtain ⟨_, -, h⟩ := bind_eq_ok.mp h
  obtain ⟨_, -, h⟩ := bind_eq_ok.mp h
  change placeCommitOf c who reason (digestModel c digest reason) value _ q = _ at h
  obtain ⟨c₁, c₂, actual, receipt, h₁, h₂, -⟩ := placeCommitOf_steps h
  have hactual := deductBalance_amount h₁
  obtain ⟨hamount, hle⟩ := depositFor_amount h₂
  obtain ⟨l, rfl, -⟩ := deductBalance_spec h₁
  have hplaced : (placedFrom c reason (digestModel c digest reason)).indexMap = c.indexMap ∧
      (placedFrom c reason (digestModel c digest reason)).ledger = c.ledger := by
    unfold placedFrom initiateDigest
    split
    · split <;> exact ⟨rfl, rfl⟩
    · exact ⟨rfl, rfl⟩
  have hdeductible : actual = deductible c who value := by
    rw [hactual, deductible, deductible, hplaced.2]
  refine ⟨?_, hle.trans (hdeductible ▸ deductible_le)⟩
  rw [hamount, committed, ← hdeductible]
  exact creditedAmount_congr hplaced.1 _

theorem raiseCommit_amount (h : raiseCommit c who reason value q = .ok (c', amount)) :
    ∃ info : CommitInfo C, c.commitMap.get (who, reason) = some info ∧
      amount = committed c who reason info.digest value ∧ amount ≤ value := by
  obtain ⟨info, hi, h⟩ := raiseCommit_eq_ok h
  obtain ⟨variant, c₁, c₂, actual, receipt, -, h₁, h₂, -⟩ := raiseCommitOf_steps h
  have hactual := deductBalance_amount h₁
  obtain ⟨hamount, hle⟩ := depositFor_amount h₂
  obtain ⟨l, rfl, -⟩ := deductBalance_spec h₁
  refine ⟨info, hi, ?_, hle.trans (hactual ▸ deductible_le)⟩
  rw [hamount, committed, ← hactual]
  exact creditedAmount_congr rfl _

theorem deductBalance_exact (h : deductBalance c who value q = .ok (c', amount)) (hq : q.precision = .exact) :
    amount = value := by
  unfold deductBalance at h
  dsimp only at h
  split at h
  · obtain ⟨_, -, h⟩ := bind_eq_ok.mp h
    exact (Prod.mk.inj (pure_eq_ok.mp h)).2.symm
  split at h
  · obtain ⟨_, -, h⟩ := bind_eq_ok.mp h
    cases h
  obtain ⟨total, -, h⟩ := bind_eq_ok.mp h
  split at h
  · rw [if_pos (Or.inl hq)] at h
    obtain ⟨_, -, h⟩ := bind_eq_ok.mp h
    cases h
  · obtain ⟨_, -, h⟩ := bind_eq_ok.mp h
    obtain ⟨_, -, h⟩ := bind_eq_ok.mp h
    exact (Prod.mk.inj (pure_eq_ok.mp h)).2.symm

theorem placeCommit_exact (hu : Undivided c reason) (hq : q.precision = .exact)
    (h : placeCommit c who reason digest value q = .ok (c', amount)) : amount = value := by
  obtain ⟨_, -, h⟩ := bind_eq_ok.mp h
  obtain ⟨_, -, h⟩ := bind_eq_ok.mp h
  change placeCommitOf c who reason (digestModel c digest reason) value _ q = _ at h
  rw [hu.digestModel_eq] at h
  obtain ⟨c₁, c₂, actual, receipt, h₁, h₂, -⟩ := placeCommitOf_steps h
  obtain ⟨rfl, -⟩ := depositToDigest_spec h₂
  exact deductBalance_exact h₁ hq

end Amounts


variable {T : AuthorConfig} {L : CommitLimits T} {s s' t : AuthorState T} {who author : T.AccountId}
  {funder : Funder T.AccountId} {value actual : Nat} {q : Directive}

def AuthorInfo.localLimits {A : Type} (info : AuthorInfo A) : Limits :=
  { minimum := info.minFund, maximum := info.maxFund }

/-- The author gets a part of what is put to the funder: the entries whose part is a whole unit and all slots
of a pool, which share its funds. -/
def AuthorState.Receives (s : AuthorState T) (author : T.AccountId) (value : Nat) (a : T.AccountId) :
    Funder T.AccountId → Prop
  | .direct _ => a = author
  | .index digest backer => ∃ info, s.commitment.indexMap.get (T.authorFunding, digest) = some info ∧
    ∃ entry ∈ info.entries.list,
      entryAmount T.toConfig (deductible s.commitment backer value) entry.shares info.capital ≠ 0 ∧
        s.authorsDigest.get entry.digest = some a
  | .pool digest _ => ∃ pool, s.commitment.poolMap.get (T.authorFunding, digest) = some pool ∧
    ∃ slot ∈ pool.slots, s.authorsDigest.get slot.digest = some a

/-- An enlist locks the collateral, which is at least the minimum, and what a back commits is within the
limits of the pallet and of every author that gets a part of it. -/
def LimitedCall.LimitsBind (L : CommitLimits T) (s : AuthorState T) : LimitedCall T → Prop
  | .dispatch (.enlist who collateral fortitude generated) => ∀ s' actual,
    enlistWithin L s who collateral fortitude generated = .ok (s', actual) →
      s.minCollateral ≤ collateral ∧ actual = collateral
  | .dispatch (.back who via value q) => ∀ author funder s' actual,
    resolveTarget s who via = .ok (author, funder) → fundWithin L s author funder value q = .ok (s', actual) →
      s.minFund ≤ actual ∧ actual ≤ s.maxExposure ∧ ∀ a info, s.Receives author value a funder →
        s.authorsMap.get a = some info → info.localLimits.contains actual = true
  | _ => True

/-- The limits of the commitment contain the collateral, unless it is the minimum. The backer's funds suffice
for the minima of the pallet and of the authors, and the authors of an index or a pool accept the amount. -/
def LimitedCall.Covered (L : CommitLimits T) (s : AuthorState T) : LimitedCall T → Prop
  | .dispatch (.enlist who collateral fortitude generated) => ∀ limits,
    L.place s.commitment who T.authorCollateral (enrollInfo s who generated).digest
      { precision := .exact, fortitude } = .ok limits → limits.contains collateral = true ∨ collateral = s.minCollateral
  | .dispatch (.back who via value _) => ∀ author funder target,
    resolveTarget s who via = .ok (author, funder) → s.authorsMap.get author = some target →
      let amount := committed s.commitment who T.authorFunding (funder.towards target.digest) value
      s.minFund ≤ amount ∧ ∀ a info, s.Receives author value a funder → s.authorsMap.get a = some info →
        info.minFund.all (· ≤ amount) = true ∧ (via = .direct author ∨ info.maxFund.all (amount ≤ ·) = true)
  | _ => True

theorem placeOrRaise_amount {towards : T.AccountId} (h : placeOrRaise s who towards value q = .ok (s', actual))
    (ht : ∀ info, s.commitment.commitMap.get (who, T.authorFunding) = some info → info.digest = towards) :
    actual = committed s.commitment who T.authorFunding towards value ∧ actual ≤ value := by
  unfold placeOrRaise at h
  split at h
  · obtain ⟨c, hc, rfl⟩ := onCommitment_eq_ok h
    obtain ⟨info, hi, hamount, hle⟩ := raiseCommit_amount hc
    rw [ht info hi] at hamount
    exact ⟨hamount, hle⟩
  · obtain ⟨c, hc, rfl⟩ := onCommitment_eq_ok h
    exact placeCommit_amount hc

/-- The requested value is at most the maximum of the pallet and, for a direct backer, of the author. -/
theorem canFundViaWithin_most {info : AuthorInfo T.AccountId} (hi : s.authorsMap.get author = some info)
    (h : canFundViaWithin L s funder author info.digest value q = .ok ()) :
    value ≤ s.maxExposure ∧ ∀ backer, funder = .direct backer → info.maxFund.all (value ≤ ·) = true := by
  cases funder with
  | direct backer =>
    obtain ⟨least, -, h⟩ := bind_eq_ok.mp h
    obtain ⟨_, -, h⟩ := bind_eq_ok.mp h
    obtain ⟨most, hmost, h⟩ := bind_eq_ok.mp h
    rw [ensure_eq_ok] at h
    obtain ⟨info', hi', hmost⟩ := bind_eq_ok.mp hmost
    obtain rfl := Option.some.inj (hi.symm.trans (getMeta_eq_ok.mp hi'))
    obtain ⟨limits, -, hmost⟩ := bind_eq_ok.mp hmost
    obtain rfl := pure_eq_ok.mp hmost
    refine ⟨by omega, fun _ _ => ?_⟩
    cases hm : info.maxFund with
    | none => rfl
    | some most =>
      rw [hm, Option.getD_some] at h
      simp only [Option.all_some, decide_eq_true_eq]
      omega
  | index digest backer =>
    obtain ⟨_, -, h⟩ := bind_eq_ok.mp h
    obtain ⟨_, hmost, -⟩ := bind_eq_ok.mp h
    exact ⟨ensure_eq_ok.mp hmost, fun _ => nofun⟩
  | pool digest backer =>
    obtain ⟨_, -, h⟩ := bind_eq_ok.mp h
    obtain ⟨_, hmost, -⟩ := bind_eq_ok.mp h
    exact ⟨ensure_eq_ok.mp hmost, fun _ => nofun⟩

/-- The amount that a back commits depends on the funds of the backer and on the parts of the target. -/
theorem fundWithin_amount (h : fundWithin L s author funder value q = .ok (s', actual)) :
    ∃ info, s.authorsMap.get author = some info ∧
      actual = committed s.commitment funder.backer T.authorFunding (funder.towards info.digest) value ∧
      actual ≤ s.maxExposure ∧ ∀ backer, funder = .direct backer → info.maxFund.all (actual ≤ ·) = true := by
  obtain ⟨info, s₁, hi, hcan, hplaced, -⟩ := fundWithin_eq_ok h
  obtain ⟨_, -, hcan⟩ := bind_eq_ok.mp hcan
  obtain ⟨info', hi', hcan⟩ := bind_eq_ok.mp hcan
  obtain rfl := Option.some.inj (hi.symm.trans (getMeta_eq_ok.mp hi'))
  obtain ⟨_, hvia, hcan⟩ := bind_eq_ok.mp hcan
  obtain ⟨hmost, hlocal⟩ := canFundViaWithin_most hi hvia
  have hsame (old : CommitInfo T.toConfig)
      (hold : s.commitment.commitMap.get (funder.backer, T.authorFunding) = some old) :
      old.digest = funder.towards info.digest := by
    have hexists : commitExists s.commitment funder.backer T.authorFunding = .ok () :=
      commitExists_eq_ok.mpr ⟨old, hold⟩
    rw [hexists] at hcan
    obtain ⟨existing, he, hcan⟩ := bind_eq_ok.mp hcan
    obtain ⟨old', hold', rfl⟩ := getCommitDigest_eq_ok (liftCommit_eq_ok.mp he)
    obtain rfl := Option.some.inj (hold.symm.trans hold')
    exact ensure_eq_ok.mp hcan
  obtain ⟨hamount, hle⟩ := placeOrRaise_amount hplaced hsame
  refine ⟨info, hi, hamount, hle.trans hmost, fun backer hbacker => ?_⟩
  have hmax := hlocal backer hbacker
  cases hm : info.maxFund with
  | none => rfl
  | some most =>
    rw [hm] at hmax
    simp only [Option.all_some, decide_eq_true_eq] at hmax ⊢
    exact hle.trans hmax

theorem enlist_binds_iff {collateral : Nat} {fortitude : Fortitude} {generated : T.AccountId}
    (hu : Undivided s.commitment T.authorCollateral)
    (h : enlistWithin L s who collateral fortitude generated = .ok (s', actual)) :
    LimitedCall.LimitsBind L s (.dispatch (.enlist who collateral fortitude generated)) ↔
      LimitedCall.Covered L s (.dispatch (.enlist who collateral fortitude generated)) := by
  obtain ⟨hmin, limits, hlimits, hc⟩ := enlistWithin_eq_ok h
  have hplaced := placeCommit_exact hu rfl hc
  constructor
  · intro hbind limits' hlimits'
    obtain rfl := Except.ok.inj (hlimits.symm.trans hlimits')
    obtain ⟨-, hactual⟩ := hbind s' actual h
    by_cases hcontains : limits.contains collateral = true
    · exact .inl hcontains
    · rw [if_neg hcontains] at hplaced
      exact .inr (hactual.symm.trans hplaced)
  · intro hcovered s'' actual' h'
    obtain ⟨rfl, rfl⟩ := Prod.mk.inj (Except.ok.inj (h.symm.trans h'))
    refine ⟨hmin, hplaced.trans ?_⟩
    split
    · rfl
    · rename_i hcontains
      exact ((hcovered limits hlimits).resolve_left hcontains).symm

theorem back_binds_iff {via : FundingTarget T.AccountId} (hr : resolveTarget s who via = .ok (author, funder))
    (h : fundWithin L s author funder value q = .ok (s', actual)) :
    LimitedCall.LimitsBind L s (.dispatch (.back who via value q)) ↔
      LimitedCall.Covered L s (.dispatch (.back who via value q)) := by
  obtain ⟨target, ht, hamount, hmost, hlocal⟩ := fundWithin_amount h
  rw [resolveTarget_funder hr] at hamount
  constructor
  · intro hbind author' funder' target' hr' ht'
    obtain ⟨rfl, rfl⟩ := Prod.mk.inj (Except.ok.inj (hr.symm.trans hr'))
    obtain rfl := Option.some.inj (ht.symm.trans ht')
    obtain ⟨hmin, -, hparts⟩ := hbind author funder s' actual hr h
    rw [← hamount]
    refine ⟨hmin, fun a info ha hi => ?_⟩
    have hcontains := hparts a info ha hi
    simp only [Limits.contains, AuthorInfo.localLimits, Bool.and_eq_true] at hcontains
    exact ⟨hcontains.1, .inr hcontains.2⟩
  · intro hcovered author' funder' s'' actual' hr' h'
    obtain ⟨rfl, rfl⟩ := Prod.mk.inj (Except.ok.inj (hr.symm.trans hr'))
    obtain ⟨rfl, rfl⟩ := Prod.mk.inj (Except.ok.inj (h.symm.trans h'))
    obtain ⟨hmin, hparts⟩ := hcovered author funder target hr ht
    rw [← hamount] at hmin hparts
    refine ⟨hmin, hmost, fun a info ha hi => ?_⟩
    obtain ⟨hleast, hdirect | hmax⟩ := hparts a info ha hi
    · rw [hdirect] at hr
      obtain rfl := (Prod.mk.inj (Except.ok.inj hr)).2
      obtain rfl : a = author := ha
      obtain rfl := Option.some.inj (ht.symm.trans hi)
      exact Bool.and_eq_true_iff.mpr ⟨hleast, hlocal who rfl⟩
    · exact Bool.and_eq_true_iff.mpr ⟨hleast, hmax⟩

theorem limitsBind_iff {call : LimitedCall T} (hu : Undivided s.commitment T.authorCollateral)
    (h : call.apply L s = .ok t) : call.LimitsBind L s ↔ call.Covered L s := by
  cases call with
  | localLimits who minFund maxFund => exact Iff.rfl
  | dispatch call =>
    cases call with
    | enlist who collateral fortitude generated =>
      obtain ⟨⟨s', actual⟩, h, -⟩ := bind_eq_ok.mp h
      exact enlist_binds_iff hu h
    | back who via value q =>
      obtain ⟨⟨s', actual⟩, h, -⟩ := bind_eq_ok.mp h
      obtain ⟨⟨author, funder⟩, hr, h⟩ := bind_eq_ok.mp h
      exact back_binds_iff hr h
    | _ => exact Iff.rfl

/-- Under any limits, along a run the limits bind what is locked if and only if every call is covered. -/
theorem limits_bind_iff (L : CommitLimits T) (ledger : T.Ledger) (g : AuthorGenesis) (calls : List (LimitedCall T)) :
    RunMeets (LimitedCall.apply L) (fun s call => call.LimitsBind L s) (AuthorState.genesis ledger g) calls ↔
      RunMeets (LimitedCall.apply L) (fun s call => call.Covered L s) (AuthorState.genesis ledger g) calls :=
  RunMeets.iff_of_invariant (P := fun s => Undivided s.commitment T.authorCollateral) (F := fun _ _ => True)
    (fun _ _ _ hu _ h => limitsBind_iff hu h) (fun _ _ _ hu _ _ h => apply_undivided hu h)
    (fun _ => ⟨rfl, rfl⟩) (RunMeets.of_forall (fun _ _ => trivial) _)



/-- The backer can spend ten above the existential deposit, and the least funding is 25. -/
def scarceGenesis : AuthorGenesis :=
  { plainGenesis with minFund := 25, minFund_ne := by decide, minFund_le := by decide }

def scarceBacking : List (LimitedCall authorConfig) :=
  [.dispatch (enrolls 1 51), .dispatch (.back (T := authorConfig) 3 (.direct 1) 25 ⟨.bestEffort, .force⟩)]

/-- A best effort for the least funding commits ten. -/
theorem best_effort_below_minimum :
    let genesis := AuthorState.genesis (T := authorConfig) (TokenLedger.ofFree [(1, 1000), (3, 11)]) scarceGenesis
    let s := attempt (LimitedCall.apply .ofPallet) genesis (.dispatch (enrolls 1 51))
    (fundWithin .ofPallet s (1 : Nat) (.direct 3) 25 ⟨.bestEffort, .force⟩).map Prod.snd = .ok 10 ∧ s.minFund = 25 ∧
      ¬RunMeets (LimitedCall.apply .ofPallet) (fun s call => call.LimitsBind .ofPallet s) genesis scarceBacking := by
  intro genesis s
  have hamount : (fundWithin .ofPallet s (1 : Nat) (.direct 3) 25 ⟨.bestEffort, .force⟩).map Prod.snd = .ok 10 := by
    decide +kernel
  have hmin : s.minFund = 25 := by decide +kernel
  refine ⟨hamount, hmin, fun h => ?_⟩
  have hbinds := h.2.1
  change ∀ t, LimitedCall.apply .ofPallet s _ = .ok t → LimitedCall.LimitsBind .ofPallet s _ at hbinds
  clear_value s
  obtain ⟨⟨s', actual⟩, hfund, hten⟩ := map_eq_ok.mp hamount
  obtain rfl : actual = 10 := hten
  have hback : backWithin .ofPallet s (3 : Nat) (.direct (1 : Nat)) 25 ⟨.bestEffort, .force⟩ = .ok (s', 10) :=
    bind_eq_ok.mpr ⟨((1 : Nat), .direct (3 : Nat)), rfl, hfund⟩
  have hbind := hbinds s' (bind_eq_ok.mpr ⟨(s', 10), hback, rfl⟩) (1 : Nat) (.direct (3 : Nat)) s' 10 rfl hfund
  rw [hmin] at hbind
  exact absurd hbind.1 (by decide)


end FrameSuite
