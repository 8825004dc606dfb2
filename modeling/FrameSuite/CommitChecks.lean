import FrameSuite.ShareChecks
import FrameSuite.CommitQueries
import FrameSuite.DirectResolve
import FrameSuite.HoldSettlement
import FrameSuite.VariantChanges

/-! The checks that stand before placing or raising a commit on a direct digest and before a new value of it, against
the operations. A check sees the funds and the balance, but not the directive, the price, the totals and the number of
commits: the operation goes through in full exactly when these fit as well. -/

namespace FrameSuite

open ShareBalance

variable {T : Config}

inductive CheckError
  | dispatch (e : DispatchError)
  | placingOffLimits
  | mintingOffLimits
  | reapingOffLimits
deriving DecidableEq

def State.availableFunds (s : State T) (who : T.AccountId) : Nat :=
  saturatingAdd T.share.maxAsset (T.asset.balanceOnHold s.ledger who) (T.asset.reducibleBalance s.ledger who)

/-- The balance of a variant, default where the digest or the variant has none. -/
def variantBalance (s : State T) (reason : T.Reason) (digest : T.AccountId) (variant : T.Position) : LazyBalance T :=
  ((s.digestMap.get (reason, digest)).bind fun info => info.getBalance variant).getD none

def digestMintLimitsOfVariant (s : State T) (digest : T.AccountId) (reason : T.Reason) (variant : T.Position) :
    Limits :=
  Limits.ofShareBalance (variantBalance s reason digest variant)

def digestReapLimitsOfVariant (s : State T) (digest : T.AccountId) (reason : T.Reason) (variant : T.Position) :
    Limits :=
  Limits.ofShareBalance (variantBalance s reason digest variant)

def liftCheck (check : Except ShareBalanceError Unit) : Except CheckError Unit :=
  check.mapError fun e => .dispatch (.balance e)

def canPlaceCommitOfVariant (s : State T) (who : T.AccountId) (reason : T.Reason) (digest : T.AccountId)
    (variant : T.Position) (value : Nat) : Except CheckError Unit := do
  ensure (s.commitMap.containsKey (who, reason) = false) (.dispatch .commitAlreadyExists)
  ensure (value ≤ s.availableFunds who) (.dispatch .insufficientFunds)
  ensure ((placeCommitLimitsOfVariant s reason digest variant).contains value = true) .placingOffLimits
  liftCheck (canDeposit (variantBalance s reason digest variant) value)

def canPlaceCommit (s : State T) (who : T.AccountId) (reason : T.Reason) (digest : T.AccountId) (value : Nat) :
    Except CheckError Unit :=
  canPlaceCommitOfVariant s who reason digest T.positionDefault value

def canRaiseCommit (s : State T) (who : T.AccountId) (reason : T.Reason) (value : Nat) : Except CheckError Unit := do
  let digest ← (getCommitDigest s who reason).mapError .dispatch
  ensure (value ≤ s.availableFunds who) (.dispatch .insufficientFunds)
  let variant ← (getCommitVariant s who reason).mapError .dispatch
  ensure ((placeCommitLimitsOfVariant s reason digest variant).contains value = true) .placingOffLimits
  liftCheck (canDeposit (variantBalance s reason digest variant) value)

def canSetDigestVariantValue (s : State T) (reason : T.Reason) (digest : T.AccountId) (value : Nat)
    (variant : T.Position) : Except CheckError Unit := do
  let current ← (getDigestVariantValue s reason digest variant).mapError .dispatch
  if current < value then
    ensure ((digestMintLimitsOfVariant s digest reason variant).contains (value - current) = true) .mintingOffLimits
    liftCheck (canMint (variantBalance s reason digest variant) (value - current))
  else if value < current then
    ensure ((digestReapLimitsOfVariant s digest reason variant).contains (current - value) = true) .reapingOffLimits
    liftCheck (canReap (variantBalance s reason digest variant) (current - value))
  else pure ()

def canSetDigestValue (s : State T) (reason : T.Reason) (digest : T.AccountId) (value : Nat) :
    Except CheckError Unit :=
  canSetDigestVariantValue s reason digest value T.positionDefault

theorem liftCheck_eq_ok {check : Except ShareBalanceError Unit} : liftCheck check = .ok () ↔ check = .ok () :=
  mapError_eq_ok

section Funds

variable {s s' : State T} {who : T.AccountId} {value : Nat} {q : Directive}

/-- A deduction takes the whole value: from the hold, or from the hold and the liquid balance where the directive and
the hold let it go on to the liquid balance. -/
def DrawnInFull (s : State T) (who : T.AccountId) (value : Nat) (q : Directive) : Prop :=
  value ≤ T.asset.balanceOnHold s.ledger who ∨
    ¬(q.fortitude = .polite ∧ (q.precision = .exact ∨ T.asset.balanceOnHold s.ledger who = 0)) ∧
      value ≤ T.asset.balanceOnHold s.ledger who + T.asset.reducibleBalance s.ledger who ∧
      T.asset.balanceOnHold s.ledger who + T.asset.reducibleBalance s.ledger who ≤ T.share.maxAsset

theorem DrawnInFull.of_ok (x : DrawsExactly T) (h : deductBalance s who value q = .ok (s', value)) :
    DrawnInFull s who value q := by
  have hamount := deductBalance_amount h
  unfold deductible at hamount
  rcases deductBalance_drawn x h with ⟨hle, -⟩ | ⟨-, hrefused, -, -, hmax⟩
  · exact .inl hle
  · exact .inr ⟨hrefused, by omega, hmax⟩

theorem DrawnInFull.ok (x : DrawsExactly T) (h : DrawnInFull s who value q) :
    ∃ s', deductBalance s who value q = .ok (s', value) := by
  unfold deductBalance
  dsimp only
  by_cases hle : value ≤ T.asset.balanceOnHold s.ledger who
  · obtain ⟨l, hl⟩ := x.hold_ok hle
    rw [if_pos hle]
    exact ⟨{ s with ledger := l }, bind_eq_ok.mpr ⟨_, map_eq_ok.mpr ⟨l, hl, rfl⟩, rfl⟩⟩
  · obtain ⟨hgoes, hsum, hmax⟩ := h.resolve_left hle
    have htaken : T.asset.reducibleBalance s.ledger who - (T.asset.balanceOnHold s.ledger who +
        T.asset.reducibleBalance s.ledger who - value) ≤ T.asset.reducibleBalance s.ledger who := Nat.sub_le _ _
    obtain ⟨l, hl⟩ := x.liquid_ok htaken
    have hsame := (x.liquid hl).2
    obtain ⟨l', hl'⟩ := x.hold_ok (le_of_eq hsame.symm)
    rw [if_neg hle, if_neg hgoes]
    refine ⟨{ s with ledger := l' }, bind_eq_ok.mpr ⟨_, okOr_eq_ok.mpr (checkedAdd_eq_some.mpr ⟨rfl, hmax⟩), ?_⟩⟩
    rw [if_neg (by omega)]
    exact bind_eq_ok.mpr ⟨{ s with ledger := l }, map_eq_ok.mpr ⟨l, hl, rfl⟩,
      bind_eq_ok.mpr ⟨_, map_eq_ok.mpr ⟨l', hl', rfl⟩, rfl⟩⟩

theorem DrawnInFull.available (h : DrawnInFull s who value q) (hv : value ≤ T.share.maxAsset) :
    value ≤ s.availableFunds who := by
  unfold State.availableFunds saturatingAdd
  rcases h with hle | ⟨-, hle, -⟩ <;> omega

end Funds

section Deposits

variable {s s' : State T} {who : T.AccountId} {reason : T.Reason} {digest : T.AccountId} {variant : T.Position}
  {value : Nat} {q : Directive}

theorem variantBalance_eq :
    variantBalance s reason digest variant = balanceAt s.digestMap (location reason digest variant) := by
  unfold variantBalance balanceAt location DigestInfo.getBalance DigestInfo.at
  cases s.digestMap.get (reason, digest) <;> rfl

theorem ofShareBalance_contains (balance : LazyBalance T) (amount : Nat) :
    (Limits.ofShareBalance balance).contains amount = true := rfl

theorem takesDeposit_iff {balance : LazyBalance T} (hs : ∀ b, balance = some b → Solvent b)
    (hv : value ≤ T.share.maxAsset) (hz : value ≠ 0) :
    TakesDeposit balance value ↔
      canDeposit balance value = .ok () ∧ SharesFit (isFreshBalance balance) value := by
  have hsolvent := solvent_isFreshBalance hs
  constructor
  · intro ht
    have hcan : canDeposit balance value = .ok () := by
      rw [canDeposit_eq_ok]
      rintro b rfl
      exact ⟨fun hbias => absurd hbias ht.bias_ne, ht.effective_le⟩
    exact ⟨hcan, ((ShareBalance.deposit_isOk_iff hsolvent hv hcan).mp
      ((FrameSuite.deposit_isOk_iff hz).mpr ht)).2⟩
  · rintro ⟨hcan, hfit⟩
    exact (FrameSuite.deposit_isOk_iff hz).mp ((ShareBalance.deposit_isOk_iff hsolvent hv hcan).mpr ⟨hz, hfit⟩)

theorem depositToDigest_isOk_iff (p : Positions T) (hk : s.digestMap.containsKey (reason, digest) = true)
    (hz : value ≠ 0) :
    (∃ s' receipt, depositToDigest s reason digest value variant = .ok (s', receipt, value)) ↔
      TakesDeposit (balanceAt s.digestMap (location reason digest variant)) value := by
  obtain ⟨info, hi⟩ := StorageMap.containsKey_iff.mp hk
  have hiff : (∃ out, info.deposit variant value = .ok out) ↔ TakesDeposit _ value :=
    (DigestInfo.deposit_isOk_iff hi hz).trans (and_iff_right (Or.inr (p.index_lt variant)))
  rw [← hiff]
  constructor
  · rintro ⟨s', receipt, h⟩
    obtain ⟨info', hi', h⟩ := bind_eq_ok.mp h
    obtain rfl := Option.some.inj (hi.symm.trans (okOr_eq_ok.mp hi'))
    obtain ⟨out, hd, -⟩ := bind_eq_ok.mp h
    exact ⟨out, hd⟩
  · rintro ⟨⟨info', deposited, receipt⟩, hd⟩
    obtain ⟨r, after, rfl, -⟩ := DigestInfo.deposit_spec hd
    exact ⟨_, receipt, bind_eq_ok.mpr ⟨info, okOr_eq_ok.mpr hi, bind_eq_ok.mpr ⟨_, hd, rfl⟩⟩⟩

theorem canPlaceCommitOfVariant_eq_ok :
    canPlaceCommitOfVariant s who reason digest variant value = .ok () ↔
      s.commitMap.containsKey (who, reason) = false ∧ value ≤ s.availableFunds who ∧
        canDeposit (balanceAt s.digestMap (location reason digest variant)) value = .ok () := by
  unfold canPlaceCommitOfVariant placeCommitLimitsOfVariant liftCheck
  rw [variantBalance_eq]
  simp only [bind_eq_ok, ensure_eq_ok, mapError_eq_ok, ofShareBalance_contains, exists_const, true_and]

theorem canRaiseCommit_eq_ok {info : CommitInfo T} (hi : s.commitMap.get (who, reason) = some info) :
    canRaiseCommit s who reason value = .ok () ↔ value ≤ s.availableFunds who ∧
      canDeposit (balanceAt s.digestMap (location reason info.digest info.variant)) value = .ok () := by
  have hdigest : getCommitDigest s who reason = .ok info.digest := by
    simp [getCommitDigest, getCommit, hi, okOr, bind, Except.bind, pure, Except.pure]
  have hvariant : getCommitVariant s who reason = .ok info.variant := by
    simp [getCommitVariant, getCommit, hi, okOr, bind, Except.bind, pure, Except.pure]
  unfold canRaiseCommit placeCommitLimitsOfVariant liftCheck
  simp only [hdigest, hvariant, variantBalance_eq, bind_eq_ok, ensure_eq_ok, mapError_eq_ok, ofShareBalance_contains,
    exists_const, true_and, Except.ok.injEq, exists_eq_left']

theorem finalizePlaceCommit_isOk_iff (x : LiquidMoves T) (p : Positions T) {receipt : CommitInstance T} :
    (∃ s', finalizePlaceCommit s who reason digest variant receipt value = .ok s') ↔
      T.maxCommits ≠ 0 ∧ getTotalValue s reason + value ≤ T.share.maxAsset := by
  refine ⟨?_, fun ⟨hmax, ht⟩ => finalizePlaceCommit_ok x p hmax ht⟩
  rintro ⟨s', h⟩
  obtain ⟨s₁, h₁, h⟩ := bind_eq_ok.mp h
  obtain ⟨l, -, rfl⟩ := onLedger_eq_ok h₁
  obtain ⟨info, hinfo, h⟩ := bind_eq_ok.mp h
  obtain ⟨total, ht, -⟩ := bind_eq_ok.mp h
  refine ⟨fun hz => ?_, (checkedAdd_eq_some.mp (okOr_eq_ok.mp ht)).2⟩
  simp [CommitInfo.new, Commits.new, hz, bind, Except.bind] at hinfo

/-- A placement draws the value, deposits it and writes the commit: each step is taken in full, and none needs
more than its own condition on the state before the call. -/
theorem placeDigestCommit_isOk_iff (x : LiquidMoves T) (p : Positions T) (hz : value ≠ 0) :
    (∃ s', placeDigestCommit s who reason digest value variant q = .ok (s', value)) ↔
      DrawnInFull s who value q ∧ TakesDeposit (balanceAt s.digestMap (location reason digest variant)) value ∧
        T.maxCommits ≠ 0 ∧ getTotalValue s reason + value ≤ T.share.maxAsset := by
  obtain ⟨m, hm, hbal, -, -⟩ := initiateDigest_spec s reason digest
  have hk : m.containsKey (reason, digest) = true := by
    have := containsKey_initiateDigest_self s reason digest
    rwa [hm] at this
  constructor
  · rintro ⟨s', h⟩
    change placeCommitOf s who reason (.direct digest) value variant q = _ at h
    obtain ⟨s₁, s₂, actual, receipt, h₁, h₂, h₃⟩ := placeCommitOf_steps h
    rw [placedFrom, hm] at h₁
    obtain ⟨rfl, -⟩ := depositToDigest_spec h₂
    have hdrawn : DrawnInFull { s with digestMap := m } who value q := .of_ok x.draws h₁
    obtain ⟨l, rfl, -⟩ := deductBalance_spec h₁
    have htakes := (depositToDigest_isOk_iff p hk hz).mp ⟨_, _, h₂⟩
    obtain ⟨-, r, m', -, -, -, rfl, -⟩ := depositToDigest_spec h₂
    obtain ⟨hmax, ht⟩ := (finalizePlaceCommit_isOk_iff x p).mp ⟨_, h₃⟩
    exact ⟨hdrawn, hbal _ ▸ htakes, hmax, ht⟩
  · rintro ⟨hdrawn, htakes, hmax, ht⟩
    obtain ⟨s₁, h₁⟩ := DrawnInFull.ok (s := { s with digestMap := m }) x.draws hdrawn
    obtain ⟨l, rfl, -⟩ := deductBalance_spec h₁
    obtain ⟨s₂, receipt, h₂⟩ := (depositToDigest_isOk_iff (s := { s with ledger := l, digestMap := m }) p hk hz).mpr
      ((hbal _).symm ▸ htakes)
    obtain ⟨-, r, m', rfl, -, -, rfl, -⟩ := depositToDigest_spec h₂
    have hplaced : ∃ s', finalizePlaceCommit { s with ledger := l, digestMap := m' } who reason digest variant
      (some r) value = .ok s' := finalizePlaceCommit_ok x p hmax ht
    obtain ⟨s', h₃⟩ := hplaced
    refine ⟨s', ?_⟩
    unfold placeDigestCommit
    rw [hm]
    exact bind_eq_ok.mpr ⟨_, h₁, bind_eq_ok.mpr ⟨_, h₂, bind_eq_ok.mpr ⟨s', h₃, rfl⟩⟩⟩

/-- What a placement and a raise need besides their checks. -/
structure DepositAccepted (s : State T) (who : T.AccountId) (reason : T.Reason) (digest : T.AccountId)
    (variant : T.Position) (value : Nat) (q : Directive) : Prop where
  value_ne : value ≠ 0
  drawn : DrawnInFull s who value q
  shares : SharesFit (isFreshBalance (balanceAt s.digestMap (location reason digest variant))) value
  total : getTotalValue s reason + value ≤ T.share.maxAsset

theorem placeCommitOfVariant_eq_ok {out : State T × Nat} :
    placeCommitOfVariant s who reason digest value variant q = .ok out ↔
      s.commitMap.containsKey (who, reason) = false ∧ value ≠ 0 ∧
        placeCommitOf s who reason (digestModel s digest reason) value variant q = .ok out := by
  constructor
  · intro h
    obtain ⟨_, hnew, h⟩ := bind_eq_ok.mp h
    obtain ⟨_, hz, h⟩ := bind_eq_ok.mp h
    exact ⟨ensure_eq_ok.mp hnew, ensure_eq_ok.mp hz, h⟩
  · rintro ⟨hnew, hz, h⟩
    exact bind_eq_ok.mpr ⟨(), ensure_eq_ok.mpr hnew, bind_eq_ok.mpr ⟨(), ensure_eq_ok.mpr hz, h⟩⟩

theorem placeCommitOfVariant_isOk_iff (x : LiquidMoves T) (p : Positions T) (hs : Sound s)
    (hm : digestModel s digest reason = .direct digest) (hv : value ≤ T.share.maxAsset) :
    (∃ s', placeCommitOfVariant s who reason digest value variant q = .ok (s', value)) ↔
      canPlaceCommitOfVariant s who reason digest variant value = .ok () ∧
        DepositAccepted s who reason digest variant value q ∧ T.maxCommits ≠ 0 := by
  have hcalls : (∃ s', placeCommitOfVariant s who reason digest value variant q = .ok (s', value)) ↔
      s.commitMap.containsKey (who, reason) = false ∧ value ≠ 0 ∧
        ∃ s', placeDigestCommit s who reason digest value variant q = .ok (s', value) := by
    simp only [placeCommitOfVariant_eq_ok, hm, exists_and_left]
    rfl
  have hsolvent b (hb : balanceAt s.digestMap (location reason digest variant) = some b) : Solvent b :=
    hs.digests _ b hb
  rw [hcalls, canPlaceCommitOfVariant_eq_ok]
  constructor
  · rintro ⟨hnew, hz, hplace⟩
    obtain ⟨hdrawn, htakes, hmax, ht⟩ := (placeDigestCommit_isOk_iff x p hz).mp hplace
    obtain ⟨hcan, hfit⟩ := (takesDeposit_iff hsolvent hv hz).mp htakes
    exact ⟨⟨hnew, hdrawn.available hv, hcan⟩, ⟨hz, hdrawn, hfit, ht⟩, hmax⟩
  · rintro ⟨⟨hnew, -, hcan⟩, ⟨hz, hdrawn, hfit, ht⟩, hmax⟩
    exact ⟨hnew, hz, (placeDigestCommit_isOk_iff x p hz).mpr
      ⟨hdrawn, (takesDeposit_iff hsolvent hv hz).mpr ⟨hcan, hfit⟩, hmax, ht⟩⟩

/-- The freeze of the reason can grow by the value once the value is drawn. -/
def FreezeGrows (s : State T) (who : T.AccountId) (reason : T.Reason) (value : Nat) (q : Directive) : Prop :=
  ∀ s₁, deductBalance s who value q = .ok (s₁, value) →
    ∃ l, T.asset.increaseFrozen s₁.ledger reason who value = .ok l

theorem finalizeRaiseCommit_isOk_iff {info : CommitInfo T} {receipt : CommitInstance T}
    (hi : s.commitMap.get (who, reason) = some info) :
    (∃ s', finalizeRaiseCommit s who reason receipt value = .ok s') ↔
      (∃ l, T.asset.increaseFrozen s.ledger reason who value = .ok l) ∧
        info.commits.receipts.length < T.maxCommits ∧ getTotalValue s reason + value ≤ T.share.maxAsset := by
  constructor
  · rintro ⟨s', h⟩
    obtain ⟨s₁, h₁, h⟩ := bind_eq_ok.mp h
    obtain ⟨l, hl, rfl⟩ := onLedger_eq_ok h₁
    obtain ⟨old, hold, h⟩ := bind_eq_ok.mp h
    obtain rfl := Option.some.inj (hi.symm.trans (okOr_eq_ok.mp hold))
    obtain ⟨info', hinfo, h⟩ := bind_eq_ok.mp h
    obtain ⟨commits, hc, -⟩ := bind_eq_ok.mp hinfo
    obtain ⟨total, ht, -⟩ := bind_eq_ok.mp h
    refine ⟨⟨l, hl⟩, ?_, (checkedAdd_eq_some.mp (okOr_eq_ok.mp ht)).2⟩
    by_contra hge
    rw [Commits.addCommit, if_neg hge] at hc
    cases hc
  · rintro ⟨⟨l, hl⟩, hlen, ht⟩
    have hadd : ∃ info', info.addCommit receipt = .ok info' := by
      simp [CommitInfo.addCommit, Commits.addCommit, hlen, bind, Except.bind, pure, Except.pure]
    obtain ⟨info', hadd⟩ := hadd
    refine exists_bind_ok (map_eq_ok.mpr ⟨l, hl, rfl⟩) (exists_bind_ok (okOr_eq_ok.mpr hi) (exists_bind_ok hadd ?_))
    exact exists_bind_ok (okOr_eq_ok.mpr (checkedAdd_eq_some.mpr ⟨rfl, ht⟩)) ⟨_, rfl⟩

theorem raiseDigestCommit_isOk_iff (x : LiquidMoves T) (p : Positions T) {info : CommitInfo T}
    (hi : s.commitMap.get (who, reason) = some info) (hk : s.digestMap.containsKey (reason, digest) = true)
    (hz : value ≠ 0) :
    (∃ s', raiseDigestCommit s who reason digest value q = .ok (s', value)) ↔
      DrawnInFull s who value q ∧ TakesDeposit (balanceAt s.digestMap (location reason digest info.variant)) value ∧
        FreezeGrows s who reason value q ∧ info.commits.receipts.length < T.maxCommits ∧
          getTotalValue s reason + value ≤ T.share.maxAsset := by
  have hvariant : getCommitVariant s who reason = .ok info.variant := by
    simp [getCommitVariant, getCommit, hi, okOr, bind, Except.bind, pure, Except.pure]
  constructor
  · rintro ⟨s', h⟩
    change raiseCommitOf s who reason (.direct digest) value q = _ at h
    obtain ⟨variant, s₁, s₂, actual, receipt, hv, h₁, h₂, h₃⟩ := raiseCommitOf_steps h
    obtain rfl := Except.ok.inj (hvariant.symm.trans (hv _ rfl))
    obtain ⟨rfl, -⟩ := depositToDigest_spec h₂
    have hdrawn := DrawnInFull.of_ok x.draws h₁
    obtain ⟨l, rfl, -⟩ := deductBalance_spec h₁
    have htakes := (depositToDigest_isOk_iff (s := { s with ledger := l }) p hk hz).mp ⟨_, _, h₂⟩
    obtain ⟨-, r, m', -, -, -, rfl, -⟩ := depositToDigest_spec h₂
    obtain ⟨hf, hlen, ht⟩ :=
      (finalizeRaiseCommit_isOk_iff (s := { s with ledger := l, digestMap := m' }) hi).mp ⟨_, h₃⟩
    refine ⟨hdrawn, htakes, fun s₁ hs₁ => ?_, hlen, ht⟩
    obtain ⟨rfl, -⟩ := Prod.mk.inj (Except.ok.inj (h₁.symm.trans hs₁))
    exact hf
  · rintro ⟨hdrawn, htakes, hf, hlen, ht⟩
    obtain ⟨s₁, h₁⟩ := hdrawn.ok x.draws
    have hfrozen := hf s₁ h₁
    obtain ⟨l, rfl, -⟩ := deductBalance_spec h₁
    obtain ⟨s₂, receipt, h₂⟩ := (depositToDigest_isOk_iff (s := { s with ledger := l }) p hk hz).mpr htakes
    obtain ⟨-, r, m', rfl, -, -, rfl, -⟩ := depositToDigest_spec h₂
    have hraised : ∃ s', finalizeRaiseCommit { s with ledger := l, digestMap := m' } who reason (some r) value =
      .ok s' :=
        (finalizeRaiseCommit_isOk_iff (s := { s with ledger := l, digestMap := m' }) hi).mpr ⟨hfrozen, hlen, ht⟩
    obtain ⟨s', h₃⟩ := hraised
    exact ⟨s', bind_eq_ok.mpr ⟨_, hvariant, bind_eq_ok.mpr ⟨_, h₁, bind_eq_ok.mpr ⟨_, h₂,
      bind_eq_ok.mpr ⟨s', h₃, rfl⟩⟩⟩⟩⟩

theorem raiseCommit_isOk_iff (x : LiquidMoves T) (p : Positions T) (hs : Sound s) {info : CommitInfo T}
    (hi : s.commitMap.get (who, reason) = some info)
    (hm : determineDigest s info.digest reason = .ok (.direct info.digest)) (hv : value ≤ T.share.maxAsset) :
    (∃ s', raiseCommit s who reason value q = .ok (s', value)) ↔
      canRaiseCommit s who reason value = .ok () ∧
        DepositAccepted s who reason info.digest info.variant value q ∧ FreezeGrows s who reason value q ∧
          info.commits.receipts.length < T.maxCommits := by
  have hk := containsKey_of_direct hm
  have hcalls : (∃ s', raiseCommit s who reason value q = .ok (s', value)) ↔
      value ≠ 0 ∧ ∃ s', raiseDigestCommit s who reason info.digest value q = .ok (s', value) := by
    have hdigest : getCommitDigest s who reason = .ok info.digest := by
      simp [getCommitDigest, getCommit, hi, okOr, bind, Except.bind, pure, Except.pure]
    have hknown : s.commitMap.containsKey (who, reason) = true := StorageMap.containsKey_iff.mpr ⟨_, hi⟩
    unfold raiseCommit
    simp only [hdigest, hm, hknown, bind_eq_ok, ensure_eq_ok, exists_const, true_and, Except.ok.injEq,
      exists_eq_left', exists_and_left]
    rfl
  have hsolvent b (hb : balanceAt s.digestMap (location reason info.digest info.variant) = some b) : Solvent b :=
    hs.digests _ b hb
  rw [hcalls, canRaiseCommit_eq_ok hi]
  constructor
  · rintro ⟨hz, hraise⟩
    obtain ⟨hdrawn, htakes, hf, hlen, ht⟩ := (raiseDigestCommit_isOk_iff x p hi hk hz).mp hraise
    obtain ⟨hcan, hfit⟩ := (takesDeposit_iff hsolvent hv hz).mp htakes
    exact ⟨⟨hdrawn.available hv, hcan⟩, ⟨hz, hdrawn, hfit, ht⟩, hf, hlen⟩
  · rintro ⟨⟨-, hcan⟩, ⟨hz, hdrawn, hfit, ht⟩, hf, hlen⟩
    exact ⟨hz, (raiseDigestCommit_isOk_iff x p hi hk hz).mpr
      ⟨hdrawn, (takesDeposit_iff hsolvent hv hz).mpr ⟨hcan, hfit⟩, hf, hlen, ht⟩⟩

end Deposits

section Values

variable {s s' : State T} {reason : T.Reason} {digest : T.AccountId} {variant : T.Position} {value : Nat}

/-- The price of the new value fits, and so do the counter that books the change and the total of the reason. -/
structure ValueFits (s : State T) (reason : T.Reason) (balance : LazyBalance T) (value : Nat) : Prop where
  price : ∀ b, balance = some b → value ≠ b.effective →
    value * T.share.rational.div / b.issued ≤ T.share.rational.maxInner
  raised : ∀ gain, totalValue balance + gain = value → gain ≠ 0 →
    s.assetToIssue + gain ≤ T.share.maxAsset ∧ getTotalValue s reason + gain ≤ T.share.maxAsset
  lowered : ∀ loss, value + loss = totalValue balance → loss ≠ 0 →
    s.assetToReap + loss ≤ T.share.maxAsset ∧ loss ≤ getTotalValue s reason

/-- What a new value needs besides its check. -/
structure ValueAccepted (s : State T) (reason : T.Reason) (digest : T.AccountId) (variant : T.Position)
    (value : Nat) : Prop where
  initiated : Initiated s.digestMap (location reason digest variant)
  fits : ValueFits s reason (balanceAt s.digestMap (location reason digest variant)) value

theorem mint_isOk_iff {b : Balance T.share} {asset : Nat} (ha : asset ≠ 0) :
    (∃ nb, mint (some b) asset = (.ok asset, nb)) ↔ canMint (some b) asset = .ok () ∧
      (b.effective + asset) * T.share.rational.div / b.issued ≤ T.share.rational.maxInner := by
  rw [canMint_eq_ok]
  constructor
  · rintro ⟨nb, h⟩
    obtain ⟨b', after, -, hb, -, hm⟩ := (mint_eq_ok ha).mp h
    obtain rfl := Option.some.inj hb
    obtain ⟨bias, hbias, -⟩ := hm.after_eq
    exact ⟨⟨ha, b, rfl, hm.issued_ne, hm.effective_le⟩, hbias ▸ bias.inner_le⟩
  · rintro ⟨⟨-, b', hb, hi, hle⟩, hfit⟩
    obtain rfl := Option.some.inj hb
    exact ⟨_, (mint_eq_ok ha).mpr ⟨b, _, rfl, rfl, rfl, hi, hle, ⟨_, hfit⟩, rfl, rfl⟩⟩

theorem reap_isOk_iff {b : Balance T.share} {asset : Nat} (ha : asset ≠ 0) :
    (∃ nb, reap (some b) asset = (.ok asset, nb)) ↔ canReap (some b) asset = .ok () ∧
      (b.effective - asset) * T.share.rational.div / b.issued ≤ T.share.rational.maxInner := by
  rw [canReap_eq_ok]
  constructor
  · rintro ⟨nb, h⟩
    obtain ⟨b', after, -, hb, -, hr⟩ := (reap_eq_ok ha).mp h
    obtain rfl := Option.some.inj hb
    obtain ⟨bias, hbias, -⟩ := hr.after_eq
    exact ⟨⟨ha, b, rfl, hr.issued_ne, hr.asset_le⟩, hbias ▸ bias.inner_le⟩
  · rintro ⟨⟨-, b', hb, hi, hle⟩, hfit⟩
    obtain rfl := Option.some.inj hb
    exact ⟨_, (reap_eq_ok ha).mpr ⟨b, _, rfl, rfl, rfl, hi, hle, ⟨_, hfit⟩, rfl, rfl⟩⟩

theorem canSetDigestVariantValue_eq_ok (hk : s.digestMap.containsKey (reason, digest) = true)
    (variant : T.Position) (value : Nat) :
    let balance := balanceAt s.digestMap (location reason digest variant)
    canSetDigestVariantValue s reason digest value variant = .ok () ↔
      (totalValue balance < value → canMint balance (value - totalValue balance) = .ok ()) ∧
        (value < totalValue balance → canReap balance (totalValue balance - value) = .ok ()) := by
  intro balance
  have hvalue : getDigestVariantValue s reason digest variant = .ok (totalValue balance) :=
    getDigestVariantValue_of_touch hk rfl
  unfold canSetDigestVariantValue digestMintLimitsOfVariant digestReapLimitsOfVariant
  simp only [hvalue, variantBalance_eq, bind_eq_ok, mapError_eq_ok, Except.ok.injEq, exists_eq_left']
  rcases lt_trichotomy (totalValue balance) value with hlt | heq | hgt
  · simp [hlt, hlt.not_gt, bind_eq_ok, ensure_eq_ok, ofShareBalance_contains, liftCheck_eq_ok, balance]
  · simp [heq, balance]
  · simp [hgt, hgt.not_gt, bind_eq_ok, ensure_eq_ok, ofShareBalance_contains, liftCheck_eq_ok, balance]

/-- The mint to a value above the current one, with the new balance written to the digests. -/
def mintedValue (s : State T) (reason : T.Reason) (balance : LazyBalance T) (gain : Nat)
    (write : LazyBalance T → DigestMap T) : Except DispatchError (State T × Nat) := do
  let (actual, balance') ← liftShare (mint balance gain)
  let s ← addAssetToIssue { s with digestMap := write balance' } actual
  let s ← addToTotalValue s reason actual
  pure (s, saturatingAdd T.share.maxAsset (totalValue balance) actual)

/-- The reap to a value below the current one. -/
def reapedValue (s : State T) (reason : T.Reason) (balance : LazyBalance T) (loss : Nat)
    (write : LazyBalance T → DigestMap T) : Except DispatchError (State T × Nat) := do
  let (actual, balance') ← liftShare (reap balance loss)
  let s ← addAssetToReap { s with digestMap := write balance' } actual
  let s ← subFromTotalValue s reason actual
  pure (s, totalValue balance - actual)

theorem setDigestVariantValue_eq {info : DigestInfo T} {balance : LazyBalance T}
    (hi : s.digestMap.get (reason, digest) = some info) (hb : info.getBalance variant = some balance) :
    setDigestVariantValue s reason digest value variant =
      let write := fun balance' => s.digestMap.insert (reason, digest) (info.setBalance variant balance')
      if totalValue balance < value then mintedValue s reason balance (value - totalValue balance) write
      else if value < totalValue balance then reapedValue s reason balance (totalValue balance - value) write
      else pure (s, totalValue balance) := by
  unfold setDigestVariantValue
  rw [hi]
  change (okOr (info.getBalance variant) _ >>= _) = _
  rw [hb]
  rfl

variable {balance : LazyBalance T} {write : LazyBalance T → DigestMap T}

theorem mintedValue_isOk_iff {gain : Nat} (hg : gain ≠ 0) :
    (∃ s', mintedValue s reason balance gain write = .ok (s', totalValue balance + gain)) ↔
      canMint balance gain = .ok () ∧ (∀ b, balance = some b →
        (b.effective + gain) * T.share.rational.div / b.issued ≤ T.share.rational.maxInner) ∧
          s.assetToIssue + gain ≤ T.share.maxAsset ∧ getTotalValue s reason + gain ≤ T.share.maxAsset := by
  constructor
  · rintro ⟨s', h⟩
    obtain ⟨⟨actual, nb⟩, hm, h⟩ := bind_eq_ok.mp h
    have hmint := liftShare_eq_ok.mp hm
    obtain ⟨b, after, rfl, rfl, rfl, -⟩ := (mint_eq_ok hg).mp hmint
    obtain ⟨hcan, hfit⟩ := (mint_isOk_iff hg).mp ⟨_, hmint⟩
    obtain ⟨s₁, h₁, h⟩ := bind_eq_ok.mp h
    obtain ⟨issue, hissue, h₁⟩ := bind_eq_ok.mp h₁
    obtain rfl := pure_eq_ok.mp h₁
    obtain ⟨s₂, h₂, -⟩ := bind_eq_ok.mp h
    obtain ⟨total, htotal, -⟩ := bind_eq_ok.mp h₂
    refine ⟨hcan, fun b' hb' => Option.some.inj hb' ▸ hfit, (checkedAdd_eq_some.mp (okOr_eq_ok.mp hissue)).2, ?_⟩
    exact (checkedAdd_eq_some.mp (okOr_eq_ok.mp htotal)).2
  · rintro ⟨hcan, hfit, hissue, htotal⟩
    obtain ⟨-, b, rfl, -, hle⟩ := canMint_eq_ok.mp hcan
    obtain ⟨nb, hm⟩ := (mint_isOk_iff hg).mpr ⟨hcan, hfit b rfl⟩
    refine ⟨setTotalValue { s with digestMap := write nb, assetToIssue := s.assetToIssue + gain } reason
      (getTotalValue s reason + gain), bind_eq_ok.mpr ⟨(gain, nb), liftShare_eq_ok.mpr hm, bind_eq_ok.mpr
        ⟨_, addAssetToIssue_eq hissue, bind_eq_ok.mpr ⟨_, addToTotalValue_eq htotal, ?_⟩⟩⟩⟩
    rw [totalValue_some, saturatingAdd, Nat.min_eq_left hle]
    rfl

theorem reapedValue_isOk_iff {loss : Nat} (hl : loss ≠ 0) (hv : value + loss = totalValue balance) :
    (∃ s', reapedValue s reason balance loss write = .ok (s', value)) ↔
      canReap balance loss = .ok () ∧ (∀ b, balance = some b →
        (b.effective - loss) * T.share.rational.div / b.issued ≤ T.share.rational.maxInner) ∧
          s.assetToReap + loss ≤ T.share.maxAsset ∧ loss ≤ getTotalValue s reason := by
  constructor
  · rintro ⟨s', h⟩
    obtain ⟨⟨actual, nb⟩, hm, h⟩ := bind_eq_ok.mp h
    have hreap := liftShare_eq_ok.mp hm
    obtain ⟨b, after, rfl, rfl, rfl, -⟩ := (reap_eq_ok hl).mp hreap
    obtain ⟨hcan, hfit⟩ := (reap_isOk_iff hl).mp ⟨_, hreap⟩
    obtain ⟨s₁, h₁, h⟩ := bind_eq_ok.mp h
    obtain ⟨taken, htaken, h₁⟩ := bind_eq_ok.mp h₁
    obtain rfl := pure_eq_ok.mp h₁
    obtain ⟨s₂, h₂, -⟩ := bind_eq_ok.mp h
    obtain ⟨total, htotal, -⟩ := bind_eq_ok.mp h₂
    refine ⟨hcan, fun b' hb' => Option.some.inj hb' ▸ hfit, (checkedAdd_eq_some.mp (okOr_eq_ok.mp htaken)).2, ?_⟩
    exact (checkedSub_eq_some.mp (okOr_eq_ok.mp htotal)).1
  · rintro ⟨hcan, hfit, htaken, htotal⟩
    obtain ⟨-, b, rfl, -, hle⟩ := canReap_eq_ok.mp hcan
    obtain ⟨nb, hm⟩ := (reap_isOk_iff hl).mpr ⟨hcan, hfit b rfl⟩
    refine ⟨setTotalValue { s with digestMap := write nb, assetToReap := s.assetToReap + loss } reason
      (getTotalValue s reason - loss), bind_eq_ok.mpr ⟨(loss, nb), liftShare_eq_ok.mpr hm, bind_eq_ok.mpr
        ⟨_, addAssetToReap_eq htaken, bind_eq_ok.mpr ⟨_, subFromTotalValue_eq htotal, ?_⟩⟩⟩⟩
    rw [← hv, Nat.add_sub_cancel]
    rfl

theorem ValueFits.same (s : State T) (reason : T.Reason) (balance : LazyBalance T) :
    ValueFits s reason balance (totalValue balance) where
  price b hb hne := by
    rw [hb] at hne
    exact absurd rfl hne
  raised gain hv hg := absurd (Nat.add_eq_left.mp hv) hg
  lowered loss hv hl := absurd (Nat.add_eq_left.mp hv) hl

theorem ValueFits.of_gain {gain : Nat} (hg : gain ≠ 0) :
    ValueFits s reason balance (totalValue balance + gain) ↔ (∀ b, balance = some b →
      (b.effective + gain) * T.share.rational.div / b.issued ≤ T.share.rational.maxInner) ∧
        s.assetToIssue + gain ≤ T.share.maxAsset ∧ getTotalValue s reason + gain ≤ T.share.maxAsset := by
  constructor
  · rintro ⟨hprice, hraised, -⟩
    refine ⟨fun b hb => ?_, hraised gain rfl hg⟩
    subst hb
    exact hprice b rfl (by simp [hg])
  · rintro ⟨hprice, hraised⟩
    refine ⟨fun b hb _ => ?_, fun g hv _ => ?_, fun loss hv hl => ?_⟩
    · subst hb
      exact hprice b rfl
    · obtain rfl := Nat.add_left_cancel hv
      exact hraised
    · omega

theorem ValueFits.of_loss {loss : Nat} (hl : loss ≠ 0) (hv : value + loss = totalValue balance) :
    ValueFits s reason balance value ↔ (∀ b, balance = some b →
      (b.effective - loss) * T.share.rational.div / b.issued ≤ T.share.rational.maxInner) ∧
        s.assetToReap + loss ≤ T.share.maxAsset ∧ loss ≤ getTotalValue s reason := by
  have hrest {b : Balance T.share} (hb : balance = some b) : b.effective - loss = value ∧ value ≠ b.effective := by
    rw [hb, totalValue_some] at hv
    omega
  constructor
  · rintro ⟨hprice, -, hlowered⟩
    refine ⟨fun b hb => ?_, hlowered loss hv hl⟩
    rw [(hrest hb).1]
    exact hprice b hb (hrest hb).2
  · rintro ⟨hprice, hlowered⟩
    refine ⟨fun b hb _ => ?_, fun gain hg _ => ?_, fun l hv' _ => ?_⟩
    · rw [← (hrest hb).1]
      exact hprice b hb
    · omega
    · obtain rfl : l = loss := by omega
      exact hlowered

theorem setDigestVariantValue_isOk_iff :
    (∃ s', setDigestVariantValue s reason digest value variant = .ok (s', value)) ↔
      canSetDigestVariantValue s reason digest value variant = .ok () ∧
        ValueAccepted s reason digest variant value := by
  by_cases hini : Initiated s.digestMap (location reason digest variant)
  · obtain ⟨info, hi, -⟩ := id hini
    change s.digestMap.get (reason, digest) = some info at hi
    obtain ⟨balance, hb⟩ := (initiated_iff hi).mp hini
    have hbal := balanceAt_of_getBalance hi hb
    have haccepted : ValueAccepted s reason digest variant value ↔ ValueFits s reason balance value :=
      ⟨fun h => hbal ▸ h.fits, fun h => ⟨hini, hbal.symm ▸ h⟩⟩
    have hcan := canSetDigestVariantValue_eq_ok (StorageMap.containsKey_iff.mpr ⟨_, hi⟩) variant value
    dsimp only at hcan
    rw [hbal] at hcan
    rw [hcan, haccepted, setDigestVariantValue_eq hi hb]
    dsimp only
    rcases lt_trichotomy (totalValue balance) value with hlt | heq | hgt
    · obtain ⟨gain, rfl⟩ : ∃ gain, value = totalValue balance + gain := ⟨_, (Nat.add_sub_of_le hlt.le).symm⟩
      have hg : gain ≠ 0 := by omega
      rw [if_pos hlt, Nat.add_sub_cancel_left, mintedValue_isOk_iff hg, ValueFits.of_gain hg]
      simp [hlt, hlt.not_gt]
    · subst heq
      simp only [lt_irrefl, if_false, false_implies, and_self, true_and]
      exact iff_of_true ⟨s, rfl⟩ (ValueFits.same s reason balance)
    · obtain ⟨loss, hloss⟩ : ∃ loss, totalValue balance = value + loss := ⟨_, (Nat.add_sub_of_le hgt.le).symm⟩
      have hl : loss ≠ 0 := by omega
      have hsub : totalValue balance - value = loss := by omega
      rw [if_neg hgt.not_gt, if_pos hgt, hsub, reapedValue_isOk_iff hl hloss.symm, ValueFits.of_loss hl hloss.symm]
      simp [hgt, hgt.not_gt]
  · refine iff_of_false ?_ fun h => hini h.2.initiated
    rintro ⟨s', h⟩
    obtain ⟨info, hi, h⟩ := bind_eq_ok.mp h
    obtain ⟨balance, hb, -⟩ := bind_eq_ok.mp h
    exact hini ((initiated_iff (okOr_eq_ok.mp hi)).mpr ⟨_, okOr_eq_ok.mp hb⟩)

end Values

/-- In every reachable state the value is placed on a direct digest, added to a commit on one, or set, exactly when
the check of the call passes and what the check leaves out fits. -/
theorem checks_foretell {s : State T} (x : LiquidMoves T) (p : Positions T) (hs : Reachable s) (who : T.AccountId)
    (reason : T.Reason) (digest : T.AccountId) (variant : T.Position) (value : Nat) (q : Directive)
    (hv : value ≤ T.share.maxAsset) :
    (digestModel s digest reason = .direct digest →
      ((∃ s', placeCommitOfVariant s who reason digest value variant q = .ok (s', value)) ↔
        canPlaceCommitOfVariant s who reason digest variant value = .ok () ∧
          DepositAccepted s who reason digest variant value q ∧ T.maxCommits ≠ 0)) ∧
    (∀ info, s.commitMap.get (who, reason) = some info →
      determineDigest s info.digest reason = .ok (.direct info.digest) →
      ((∃ s', raiseCommit s who reason value q = .ok (s', value)) ↔ canRaiseCommit s who reason value = .ok () ∧
        DepositAccepted s who reason info.digest info.variant value q ∧ FreezeGrows s who reason value q ∧
          info.commits.receipts.length < T.maxCommits)) ∧
    ((∃ s', setDigestVariantValue s reason digest value variant = .ok (s', value)) ↔
      canSetDigestVariantValue s reason digest value variant = .ok () ∧
        ValueAccepted s reason digest variant value) :=
  ⟨fun hm => placeCommitOfVariant_isOk_iff x p hs.sound hm hv,
    fun _ hi hm => raiseCommit_isOk_iff x p hs.sound hi hm hv, setDigestVariantValue_isOk_iff⟩

theorem exists_state_of_amount {e : Except DispatchError (State T × Nat)} {amount : Nat}
    (h : e.map Prod.snd = .ok amount) : ∃ s', e = .ok (s', amount) := by
  obtain ⟨⟨s', _⟩, he, rfl⟩ := map_eq_ok.mp h
  exact ⟨s', he⟩

/-- A second account joins the digest, the first one raises its commit, and the digest is set to a higher value. -/
theorem checks_foretell_placed :
    canPlaceCommitOfVariant placedOnce (2 : Nat) (0 : Nat) (11 : Nat) .contrary 20 = .ok () ∧
    canRaiseCommit placedOnce (1 : Nat) (0 : Nat) 20 = .ok () ∧
    canSetDigestVariantValue placedOnce (0 : Nat) (11 : Nat) 20 .affirmative = .ok () ∧
    DepositAccepted placedOnce (1 : Nat) (0 : Nat) (11 : Nat) .affirmative 20 exactForce := by
  have hs : Reachable placedOnce := ⟨_, _, rfl⟩
  obtain ⟨info, hi, hplaced⟩ : ∃ info, placedOnce.commitMap.get ((1 : Nat), (0 : Nat)) = some info ∧
      info.digest = (11 : Nat) ∧ info.variant = .affirmative := ⟨_, rfl, rfl, rfl⟩
  have hm : determineDigest placedOnce (11 : Nat) (0 : Nat) = .ok (.direct (11 : Nat)) := rfl
  have hplace := exists_state_of_amount (by decide +kernel : (placeCommitOfVariant placedOnce (2 : Nat) (0 : Nat)
    (11 : Nat) 20 .contrary exactForce).map Prod.snd = .ok 20)
  have hraise := exists_state_of_amount (by decide +kernel : (raiseCommit placedOnce (1 : Nat) (0 : Nat) 20
    exactForce).map Prod.snd = .ok 20)
  have hset := exists_state_of_amount (by decide +kernel : (setDigestVariantValue placedOnce (0 : Nat) (11 : Nat) 20
    .affirmative).map Prod.snd = .ok 20)
  obtain ⟨hnew, -, -⟩ := checks_foretell tokenLiquid runtimePositions hs (2 : Nat) (0 : Nat) (11 : Nat) .contrary
    20 exactForce (by decide)
  obtain ⟨-, hadded, hwritten⟩ := checks_foretell tokenLiquid runtimePositions hs (1 : Nat) (0 : Nat) (11 : Nat)
    .affirmative 20 exactForce (by decide)
  obtain ⟨hcan, haccepted, -⟩ := (hadded info hi (hplaced.1 ▸ hm)).mp hraise
  rw [hplaced.1, hplaced.2] at haccepted
  exact ⟨((hnew (digestModel_of_ok hm)).mp hplace).1, hcan, (hwritten.mp hset).1, haccepted⟩

end FrameSuite
