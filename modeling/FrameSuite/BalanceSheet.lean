import FrameSuite.WithdrawSpec

/-! The balance sheet of the pallet: cash outside, value committed on the digests, the
totals of the reasons, the two counters and the deposits owed to proprietors. Every
deposit and withdrawal is told by what it does to the sheet. -/

namespace FrameSuite

open ShareBalance

variable {T : Config}

/-- The balances of the digests and of the pools back their prices. -/
structure Sound (s : State T) : Prop where
  digests : AllSolvent s.digestMap
  pools : ∀ key pool, s.poolMap.get key = some pool → ∀ b, pool.balance = some b → Solvent b

/-- The effective values of all reasons, digests and variants. -/
def digestsValue (s : State T) : Nat := s.digestMap.sum fun _ info => info.value

/-- The deposit values of the receipts of a commit. -/
def depositValue (receipts : List (CommitInstance T)) : Nat :=
  (receipts.map fun receipt => receipt.elim 0 Receipt.principal).sum

def commitsOwed (m : CommitMap T) : Nat := m.sum fun _ info => depositValue info.commits.receipts

def entriesOwed (m : EntryMap T) : Nat := m.sum fun _ commits => depositValue commits.receipts

/-- The deposit values of all outstanding receipts of proprietors. -/
def depositsOwed (s : State T) : Nat := commitsOwed s.commitMap + entriesOwed s.entryMap

/-- How far the counters are from the value gained on the digests. -/
def disequilibrium (s : State T) : Int :=
  ((s.assetToIssue : Int) - s.assetToReap) - ((digestsValue s : Int) - depositsOwed s)

theorem liveValue_one (m : DigestMap T) :
    liveValue (fun _ => 1) m = m.sum fun _ info => info.value :=
  StorageMap.sum_congr fun _ _ _ => Nat.one_mul _

@[simp] theorem depositValue_nil : depositValue (T := T) [] = 0 := rfl

@[simp] theorem depositValue_cons (receipt : CommitInstance T) (receipts : List (CommitInstance T)) :
    depositValue (receipt :: receipts) = receipt.elim 0 Receipt.principal + depositValue receipts := by
  simp [depositValue]

@[simp] theorem depositValue_append (xs ys : List (CommitInstance T)) :
    depositValue (xs ++ ys) = depositValue xs + depositValue ys := by
  simp [depositValue]

theorem tally_principal_receiptsAt (loc : Location T) (receipts : List (CommitInstance T)) :
    tally principal (receiptsAt loc receipts) = depositValue receipts := by
  induction receipts with
  | nil => rfl
  | cons receipt receipts ih =>
    cases receipt with
    | none => simpa using ih
    | some r =>
      rw [receiptsAt_some, tally_cons, ih, depositValue_cons]
      rfl

theorem entryHeld_principal (at_ : EntryKey T → Location T) (m : EntryMap T) :
    entryHeld principal at_ m = entriesOwed m :=
  StorageMap.sum_congr fun _ _ _ => tally_principal_receiptsAt _ _

theorem Deposits.digestsValue {m m' : DigestMap T} {claims : Claims T} (h : Deposits m claims m') :
    (m'.sum fun _ info => info.value) = (m.sum fun _ info => info.value) + tally principal claims := by
  have hl := h.live fun _ => 1
  have hp : tally (principalBy fun _ => 1) claims = tally principal claims := by
    congr 1
    funext loc r
    exact Nat.one_mul _
  rwa [liveValue_one, liveValue_one, hp] at hl

theorem Withdraws.digestsValue {m m' : DigestMap T} {claims : Claims T} {taken : Nat}
    (h : Withdraws m claims taken m') (hs : AllSolvent m) {reason : T.Reason}
    (hr : ∀ c ∈ claims, c.1.1 = reason) :
    (m'.sum fun _ info => info.value) + taken = m.sum fun _ info => info.value := by
  have hl := h.live hs hr fun _ => 1
  rwa [liveValue_one, liveValue_one, Nat.one_mul] at hl

theorem Sound.withLedger {s : State T} (h : Sound s) (l : T.Ledger) : Sound { s with ledger := l } :=
  ⟨h.digests, h.pools⟩

theorem Sound.insertPool {s : State T} (h : Sound s) {m : DigestMap T} (hm : AllSolvent m)
    {key : T.Reason × T.AccountId} {pool : PoolInfo T} (hp : ∀ b, pool.balance = some b → Solvent b)
    {s' : State T} (hd : s'.digestMap = m) (hpm : s'.poolMap = s.poolMap.insert key pool) : Sound s' := by
  refine ⟨hd ▸ hm, fun key' pool' hk => ?_⟩
  rw [hpm, StorageMap.get_insert] at hk
  split at hk
  · cases hk
    exact hp
  · exact h.pools key' pool' hk

/-- A deposit of a value into a digest, an index or a pool, of which `amount` is credited
to the commit and `dust` is paid out again although it was credited. -/
structure DepositEffect (s s' : State T) (reason : T.Reason) (value amount : Nat)
    (receipt : CommitInstance T) (dust : Nat) : Prop where
  sound : Sound s'
  commits : s'.commitMap = s.commitMap
  issue : s'.assetToIssue = s.assetToIssue
  reap : s'.assetToReap = s.assetToReap
  flow : Flow s.ledger s'.ledger (value + digestsValue s - digestsValue s')
  live : digestsValue s' + dust = digestsValue s + amount
  totals : ∀ w, totalReasons w s'.reasonValue + liveValue w s.digestMap + w reason * amount =
    totalReasons w s.reasonValue + liveValue w s'.digestMap
  owed : entriesOwed s'.entryMap + receipt.elim 0 Receipt.principal = entriesOwed s.entryMap + amount

theorem Released.solvent {s s' : State T} {reason : T.Reason} {poolOf : T.AccountId}
    {balance : LazyBalance T} {pool released : PoolInfo T} {claims : Claims T} {m : DigestMap T}
    (h : Released s s' reason poolOf balance pool released claims m) (hs : Sound s) :
    (∀ b, balance = some b → Solvent b) ∧ Sound s' := by
  refine ⟨(adjustPoolBalance_spec h.adjusted).2.2 (hs.pools _ _ h.found), ?_⟩
  rw [h.state_eq]
  refine hs.insertPool (h.withdraws.allSolvent hs.digests) ?_ rfl rfl
  rw [h.idle]
  exact fun b hb => nomatch hb

/-- A pool was released at one value and recovered at another, less the dust. -/
structure Rebalanced (s s' : State T) (reason : T.Reason) (before after dust : Nat) :
    Prop where
  sound : Sound s'
  commits : s'.commitMap = s.commitMap
  entries : s'.entryMap = s.entryMap
  issue : s'.assetToIssue = s.assetToIssue
  reap : s'.assetToReap = s.assetToReap
  flow : Flow s.ledger s'.ledger dust
  live : digestsValue s' + before + dust = digestsValue s + after
  liveOf : ∀ w, liveValue w s'.digestMap + w reason * before + w reason * dust =
    liveValue w s.digestMap + w reason * after
  totals : ∀ w, totalReasons w s'.reasonValue + w reason * dust = totalReasons w s.reasonValue

theorem tally_slotClaims (w : T.Reason → Nat) (reason : T.Reason) (slots : List (SlotInfo T)) :
    tally (principalBy w) (slotClaims reason slots) =
      w reason * tally principal (slotClaims reason slots) :=
  tally_principalBy fun _ hc => reason_of_mem_slotClaims hc

theorem Released.rebalanced {s s₁ s₂ s₃ : State T} {reason : T.Reason}
    {poolOf : T.AccountId} {balance balance' : LazyBalance T} {pool released pool' recovered : PoolInfo T}
    {claims : Claims T} {m m' : DigestMap T} {dust : Nat} (hs : Sound s)
    (hrel : Released s s₁ reason poolOf balance pool released claims m)
    (hmid : ∃ pm, s₂ = { s₁ with poolMap := pm }) (hs₂ : Sound s₂)
    (hrec : Recovered s₂ s₃ reason poolOf balance' pool' recovered m' dust) :
    Rebalanced s s₃ reason (poolValue s.digestMap reason pool) (totalValue balance') dust := by
  obtain ⟨pm, rfl⟩ := hmid
  obtain ⟨l, rv, rfl, hflow, htot⟩ := hrec.state_eq
  obtain rfl := hrel.state_eq
  have hd := hrec.deposits
  have hspread := hrec.spread
  have hw := hrel.withdraws.digestsValue hs.digests hrel.reasons
  have hdv := hd.digestsValue
  refine ⟨hs₂.insertPool (hd.allSolvent hs₂.digests) hrec.solvent rfl rfl, rfl, rfl, rfl, rfl,
    hflow, ?_, fun w => ?_, htot⟩
  · unfold digestsValue
    dsimp only at hdv ⊢
    omega
  · have h1 := hrel.withdraws.live hs.digests hrel.reasons w
    have h2 := hd.live w
    have h3 := congrArg (fun n => w reason * n) hspread
    simp only [Nat.mul_add] at h3
    rw [tally_slotClaims] at h2
    dsimp only at h1 h2 ⊢
    omega

theorem depositToDigest_effect {s s' : State T} {reason : T.Reason}
    {digest : T.AccountId} {value amount : Nat} {variant : T.Position} {receipt : CommitInstance T}
    (hs : Sound s) (h : depositToDigest s reason digest value variant = .ok (s', receipt, amount)) :
    DepositEffect s s' reason value amount receipt 0 := by
  obtain ⟨rfl, r, m, rfl, hpr, -, rfl, hd⟩ := depositToDigest_spec h
  have hdv := hd.digestsValue
  simp only [tally_cons, tally_nil, principal, hpr] at hdv
  refine ⟨⟨hd.allSolvent hs.digests, hs.pools⟩, rfl, rfl, rfl, (Flow.refl _).of_eq ?_, ?_, fun w => ?_, ?_⟩
  · unfold digestsValue
    dsimp only
    omega
  · unfold digestsValue
    dsimp only
    omega
  · have hl := hd.live w
    simp only [tally_cons, tally_nil, principalBy, hpr, location] at hl
    dsimp only at hl ⊢
    omega
  · simp only [Option.elim_some, hpr]

theorem depositToIndex_effect {s s' : State T} {who : T.AccountId}
    {reason : T.Reason} {indexOf : T.AccountId} {value amount : Nat} {receipt : CommitInstance T}
    (hs : Sound s) (h : depositToIndex s who reason indexOf value = .ok (s', receipt, amount)) :
    DepositEffect s s' reason value amount receipt 0 := by
  obtain ⟨info, m, e, l, claims, -, rfl, rfl, hd, hr, ha, hle, hflow, he, -⟩ :=
    depositToIndex_spec h
  have hdv := hd.digestsValue
  have hen := he principal (fun _ => location reason who T.positionDefault) fun _ _ => rfl
  simp only [entryHeld_principal] at hen
  refine ⟨⟨hd.allSolvent hs.digests, hs.pools⟩, rfl, rfl, rfl, hflow.of_eq ?_, ?_, fun w => ?_, ?_⟩
  · unfold digestsValue
    dsimp only
    omega
  · unfold digestsValue
    dsimp only
    omega
  · have hl := hd.live w
    rw [tally_principalBy fun c hc => (hr c hc).1, ← ha] at hl
    dsimp only at hl ⊢
    omega
  · simp only [Option.elim_none]
    omega

/-- A deposit into a pool: it is released, the deposit is made on its balance, and the new
total is spread over its slots again. -/
structure PoolDeposited (s s' : State T) (reason : T.Reason) (poolOf : T.AccountId) (value : Nat)
    (pool released recovered : PoolInfo T) (claims : Claims T) (m m' : DigestMap T)
    (balance : LazyBalance T) (r : Receipt T.share) (after : Balance T.share) (s₁ : State T) : Prop where
  release : Released s s₁ reason poolOf balance pool released claims m
  deposit : Deposited balance value r after
  recover : Recovered s₁ s' reason poolOf (some after) released recovered m'
    (splitDust T (pool.slots.map SlotInfo.shares) (poolValue s.digestMap reason pool + value))
  total : totalValue (some after) = poolValue s.digestMap reason pool + value

theorem depositToPool_spec {s s' : State T} {reason : T.Reason} {poolOf : T.AccountId}
    {value amount : Nat} {receipt : CommitInstance T} (hs : Sound s)
    (h : depositToPool s reason poolOf value = .ok (s', receipt, amount)) :
    amount = value ∧ ∃ pool released recovered claims m m' balance r after s₁, receipt = some r ∧
      PoolDeposited s s' reason poolOf value pool released recovered claims m m' balance r after s₁ := by
  obtain ⟨⟨s1, balance⟩, h1, h⟩ := bind_eq_ok.mp h
  obtain ⟨pool, released, claims, m, hrel⟩ := releasePool_spec h1
  obtain ⟨⟨⟨deposited, r⟩, nb⟩, h2, h⟩ := bind_eq_ok.mp h
  obtain ⟨after, hdv, rfl, hdep⟩ := deposit_eq_ok.mp (liftShare_eq_ok.mp h2)
  obtain ⟨s2, h3, h⟩ := bind_eq_ok.mp h
  simp only [pure_eq_ok, Prod.mk.injEq] at h
  obtain ⟨rfl, rfl, rfl⟩ := h
  obtain rfl : deposited = value := hdv
  obtain ⟨hsb, -⟩ := hrel.solvent hs
  have hsa := hdep.solvent (solvent_isFreshBalance hsb)
  obtain ⟨pool1, recovered, m', dust, hrec⟩ :=
    recoverPool_spec (fun c hc => Option.some.inj hc ▸ hsa) h3
  have hval : totalValue (some after) = poolValue s.digestMap reason pool + deposited := by
    rw [hdep.after_eq, totalValue_some, totalValue_isFreshBalance, (adjustPoolBalance_spec hrel.adjusted).1]
  have hdust := hrec.dust_eq
  obtain rfl : released = pool1 := by
    have hf := hrec.found
    rw [hrel.state_eq, StorageMap.get_insert_self] at hf
    exact Option.some.inj hf
  rw [hval, shares_of_slotShapes hrel.shapes] at hdust
  exact ⟨rfl, pool, released, recovered, claims, m, m', balance, r, after, s1, rfl,
    hrel, hdep, hdust ▸ hrec, hval⟩

/-- The deposit into a pool is spread with all the pool holds, and the dust of that is
paid to the manager although the proprietor's receipt counts it. -/
theorem depositToPool_effect {s s' : State T} {reason : T.Reason}
    {poolOf : T.AccountId} {value amount : Nat} {receipt : CommitInstance T} (hs : Sound s)
    (h : depositToPool s reason poolOf value = .ok (s', receipt, amount)) :
    ∃ pool, s.poolMap.get (reason, poolOf) = some pool ∧
      DepositEffect s s' reason value amount receipt
        (splitDust T (pool.slots.map SlotInfo.shares) (poolValue s.digestMap reason pool + value)) := by
  obtain ⟨rfl, pool, released, recovered, claims, m, m', balance, r, after, s1, rfl, hd⟩ :=
    depositToPool_spec hs h
  have hreb := hd.release.rebalanced hs ⟨s1.poolMap, rfl⟩ (hd.release.solvent hs).2 hd.recover
  rw [hd.total] at hreb
  refine ⟨pool, hd.release.found, hreb.sound, hreb.commits, hreb.issue, hreb.reap, hreb.flow.of_eq ?_, ?_,
    fun w => ?_, ?_⟩
  · have h2 := hreb.live
    omega
  · have h2 := hreb.live
    omega
  · have h1 := hreb.totals w
    have h2 := hreb.liveOf w
    rw [Nat.mul_add] at h2
    omega
  · rw [hreb.entries, Option.elim_some, hd.deposit.principal_eq]

/-- A withdrawal of a commit with the given receipts, up to the payment of the imbalance
and the removal of the commit. `leak` is what the sheet then misses. -/
structure WithdrawEffect (s s' : State T) (reason : T.Reason)
    (receipts : List (CommitInstance T)) (d : AssetDelta) (leak : Int) : Prop where
  sound : Sound s'
  commits : s'.commitMap = s.commitMap
  issue : s'.assetToIssue = s.assetToIssue
  withdraw_le : d.withdraw ≤ T.share.maxAsset
  flow : Flow s.ledger s'.ledger (digestsValue s - digestsValue s' - d.withdraw)
  totals : ∀ w, totalReasons w s'.reasonValue + liveValue w s.digestMap =
    totalReasons w s.reasonValue + liveValue w s'.digestMap + w reason * d.withdraw
  sheet : (entriesOwed s'.entryMap : Int) + d.deposit + digestsValue s + s.assetToReap =
    entriesOwed s.entryMap + depositValue receipts + d.withdraw + digestsValue s' + s'.assetToReap + leak

theorem withdrawFromDigest_effect {s s' : State T} {who : T.AccountId}
    {reason : T.Reason} {digest : T.AccountId} {d : AssetDelta} (hs : Sound s)
    (h : withdrawFromDigest s who reason digest = .ok (s', d)) :
    ∃ commit, s.commitMap.get (who, reason) = some commit ∧
      WithdrawEffect s s' reason commit.commits.receipts d 0 := by
  obtain ⟨commit, m, hc, rfl, hw, hd, hle⟩ := withdrawFromDigest_spec h
  have hr : ∀ c ∈ receiptsAt (location reason digest commit.variant) commit.commits.receipts,
      c.1.1 = reason := fun c hm => by
    rw [reason_of_mem_receiptsAt hm]
    rfl
  have hdv := hw.digestsValue hs.digests hr
  rw [tally_principal_receiptsAt] at hd
  refine ⟨commit, hc, ⟨hw.allSolvent hs.digests, hs.pools⟩, rfl, rfl, hle, (Flow.refl _).of_eq ?_,
    fun w => ?_, ?_⟩
  · unfold digestsValue
    dsimp only
    omega
  · have hl := hw.live hs.digests hr w
    dsimp only
    omega
  · unfold digestsValue
    dsimp only
    omega

theorem withdrawFromIndex_effect {s s' : State T} {who : T.AccountId}
    {reason : T.Reason} {indexOf : T.AccountId} {d : AssetDelta} (hs : Sound s)
    (h : withdrawFromIndex s who reason indexOf = .ok (s', d)) (receipts : List (CommitInstance T)) :
    WithdrawEffect s s' reason receipts d (-depositValue receipts) := by
  obtain ⟨info, m, e, claims, -, -, rfl, hw, hr, hd, hle, he, -⟩ := withdrawFromIndex_spec h
  have hdv := hw.digestsValue hs.digests hr
  have hen := he principal (fun _ => location reason who T.positionDefault) fun _ _ => rfl
  simp only [entryHeld_principal] at hen
  refine ⟨⟨hw.allSolvent hs.digests, hs.pools⟩, rfl, rfl, hle, (Flow.refl _).of_eq ?_, fun w => ?_, ?_⟩
  · unfold digestsValue
    dsimp only
    omega
  · have hl := hw.live hs.digests hr w
    dsimp only
    omega
  · unfold digestsValue
    dsimp only
    omega

/-- What the receipts of a member take out of a pool. -/
def memberValue (m : DigestMap T) (reason : T.Reason) (pool : PoolInfo T)
    (receipts : List (CommitInstance T)) : Nat :=
  match adjustPoolBalance pool.balance (poolValue m reason pool) with
  | .error _ => 0
  | .ok balance =>
    match withdrawReceipts receipts balance { deposit := 0, withdraw := 0 } with
    | .error _ => 0
    | .ok (_, d) => d.withdraw

/-- The commission of a pool on a withdrawal. -/
def commissionDue (commission : Commission T) (taken : Nat) : Nat :=
  taken * commission.parts / T.accuracy

theorem commissionDue_le (commission : Commission T) (taken : Nat) :
    commissionDue commission taken ≤ taken :=
  Nat.div_le_of_le_mul (by
    rw [Nat.mul_comm]
    exact Nat.mul_le_mul_right _ commission.parts_le)

theorem payCommission_spec {s s' : State T} {reason : T.Reason}
    {poolOf : T.AccountId} {d d' : AssetDelta} {pool : PoolInfo T}
    (hp : s.poolMap.get (reason, poolOf) = some pool) (hd : d.withdraw ≤ T.share.maxAsset)
    (h : payCommission s reason poolOf d = .ok (s', d')) :
    d' = { deposit := d.deposit, withdraw := d.withdraw - commissionDue pool.commission d.withdraw } ∧
      ∃ l rv, s' = { s with
        ledger := l
        reasonValue := rv
        assetToReap := s.assetToReap +
          (commissionDue pool.commission d.withdraw - (d.withdraw - d.deposit)) } ∧
      Flow s.ledger l (commissionDue pool.commission d.withdraw) ∧
      ∀ w, totalReasons w rv + w reason * commissionDue pool.commission d.withdraw =
        totalReasons w s.reasonValue := by
  obtain ⟨pool', hp', h⟩ := bind_eq_ok.mp h
  rw [getPool, okOr_eq_ok] at hp'
  obtain rfl : pool = pool' := Option.some.inj (hp.symm.trans hp')
  have hnone (hz : commissionDue pool.commission d.withdraw = 0)
      (h : (pure (s, d) : Except DispatchError (State T × AssetDelta)) = .ok (s', d')) :
      d' = { deposit := d.deposit, withdraw := d.withdraw - commissionDue pool.commission d.withdraw } ∧
      ∃ l rv, s' = { s with
        ledger := l
        reasonValue := rv
        assetToReap := s.assetToReap +
          (commissionDue pool.commission d.withdraw - (d.withdraw - d.deposit)) } ∧
      Flow s.ledger l (commissionDue pool.commission d.withdraw) ∧
      ∀ w, totalReasons w rv + w reason * commissionDue pool.commission d.withdraw =
        totalReasons w s.reasonValue := by
    simp only [pure_eq_ok, Prod.mk.injEq] at h
    obtain ⟨rfl, rfl⟩ := h
    rw [hz, Nat.zero_sub]
    exact ⟨rfl, s.ledger, s.reasonValue, rfl, .refl _, fun w => rfl⟩
  split at h
  · rename_i hz
    exact hnone (by rw [commissionDue, hz, Nat.mul_zero, Nat.zero_div]) h
  obtain ⟨payTo, -, h⟩ := bind_eq_ok.mp h
  obtain ⟨toPay, ht, h⟩ := bind_eq_ok.mp h
  obtain ⟨_, -, ht⟩ := bind_eq_ok.mp ht
  obtain ⟨_, -, ht⟩ := bind_eq_ok.mp ht
  obtain rfl : commissionDue pool.commission d.withdraw = toPay := pure_eq_ok.mp ht
  split at h
  · rename_i hz
    exact hnone hz h
  have hle := commissionDue_le pool.commission d.withdraw
  obtain ⟨⟨s1, d1, payment⟩, h1, h⟩ := bind_eq_ok.mp h
  obtain ⟨rfl, rfl, rfl⟩ := deductFromImbalance_spec h1 hle hd
  obtain ⟨⟨s2, paid⟩, h2, h⟩ := bind_eq_ok.mp h
  obtain ⟨rfl, l, issue, reap', rfl, hl, hi, hre⟩ :=
    resolveImbalance_spec h2 (hle.trans hd)
  obtain ⟨s3, h3, h⟩ := bind_eq_ok.mp h
  obtain ⟨rv, rfl, hrv⟩ := subFromTotalValue_spec h3
  simp only [pure_eq_ok, Prod.mk.injEq] at h
  obtain ⟨rfl, rfl⟩ := h
  simp only [Nat.sub_self, Nat.add_zero] at hi hre
  exact ⟨rfl, l, rv, by rw [hi, hre], hl, hrv⟩

/-- What the sheet misses after a member leaves a pool: the dust of the spreading, and the
commission as far as it is paid out of a reward. -/
def poolLeak (m : DigestMap T) (reason : T.Reason) (pool : PoolInfo T)
    (receipts : List (CommitInstance T)) : Nat :=
  let taken := memberValue m reason pool receipts
  splitDust T (pool.slots.map SlotInfo.shares) (poolValue m reason pool - taken) +
    min (commissionDue pool.commission taken) (taken - depositValue receipts)

theorem withdrawFromPool_effect {s s' : State T} {who : T.AccountId}
    {reason : T.Reason} {poolOf : T.AccountId} {d : AssetDelta} (hs : Sound s)
    (h : withdrawFromPool s who reason poolOf = .ok (s', d)) :
    ∃ commit pool, s.commitMap.get (who, reason) = some commit ∧
      s.poolMap.get (reason, poolOf) = some pool ∧
      WithdrawEffect s s' reason commit.commits.receipts d
        (poolLeak s.digestMap reason pool commit.commits.receipts) := by
  obtain ⟨commit, hc, h⟩ := bind_eq_ok.mp h
  rw [getCommit, okOr_eq_ok] at hc
  obtain ⟨⟨s1, balance⟩, h1, h⟩ := bind_eq_ok.mp h
  obtain ⟨pool, released, claims, m, hrel⟩ := releasePool_spec h1
  obtain ⟨hsb, hs1⟩ := hrel.solvent hs
  obtain ⟨⟨nb, d1⟩, h2, h⟩ := bind_eq_ok.mp h
  obtain ⟨hnb, ⟨t, htv, htd⟩, hloc, hmax⟩ := withdrawReceipts_spec hsb h2
  obtain ⟨s2, h3, h⟩ := bind_eq_ok.mp h
  obtain ⟨pool1, recovered, m', dust, hrec⟩ := recoverPool_spec hnb h3
  have hreb := hrel.rebalanced hs ⟨s1.poolMap, rfl⟩ hs1 hrec
  have htaken : d1.withdraw = memberValue s.digestMap reason pool commit.commits.receipts := by
    rw [memberValue, hrel.adjusted]
    dsimp only
    rw [h2]
  have hgiven : d1.deposit = depositValue commit.commits.receipts := by
    have := (hloc (location reason poolOf commit.variant)).1
    rw [tally_principal_receiptsAt] at this
    simpa using this
  rw [(adjustPoolBalance_spec hrel.adjusted).1] at htv
  simp only [Nat.zero_add] at htd
  have hval : totalValue nb = poolValue s.digestMap reason pool - d1.withdraw := by omega
  have hle : d1.withdraw ≤ T.share.maxAsset := hmax (Nat.zero_le _)
  obtain rfl : released = pool1 := by
    have hf := hrec.found
    rw [hrel.state_eq, StorageMap.get_insert_self] at hf
    exact Option.some.inj hf
  have hcomm : recovered.commission = pool.commission := hrec.commission_eq.trans hrel.commission_eq
  have hdust := hrec.dust_eq
  rw [hval, htaken, shares_of_slotShapes hrel.shapes] at hdust
  have hp2 : s2.poolMap.get (reason, poolOf) = some recovered := by
    obtain ⟨l, rv, rfl, -, -⟩ := hrec.state_eq
    exact StorageMap.get_insert_self ..
  obtain ⟨rfl, l, rv, rfl, hflow, htot⟩ := payCommission_spec hp2 hle h
  rw [hcomm] at hflow htot ⊢
  have hcle := commissionDue_le pool.commission d1.withdraw
  refine ⟨commit, pool, hc, hrel.found, ⟨hreb.sound.digests, hreb.sound.pools⟩, hreb.commits, hreb.issue,
    ?_, (hreb.flow.trans hflow).of_eq ?_, fun w => ?_, ?_⟩
  · dsimp only
    omega
  · have h2 := hreb.live
    unfold digestsValue at h2 ⊢
    dsimp only
    omega
  · have h1 := hreb.totals w
    have h2 := hreb.liveOf w
    have h3 := congrArg (fun n => w reason * n) htv
    have h4 := htot w
    have h5 := congrArg (fun n => w reason * n) (Nat.sub_add_cancel hcle)
    simp only [Nat.mul_add] at h3 h5
    dsimp only at *
    rw [← htd] at h3
    omega
  · have h2 := hreb.live
    rw [hreb.entries, hreb.reap, poolLeak, ← htaken, ← hgiven]
    rw [← htaken] at hdust
    unfold digestsValue at h2 ⊢
    dsimp only
    omega

end FrameSuite
