import FrameSuite.CommitPallet
import FrameSuite.StorageMap

/-! Reaping a digest over any family of lazy balances. The loop that gathers the residue of
the variants keeps the last one it sees, so what the others hold is lost from the books. -/

namespace FrameSuite

/-- What reaping asks of a family of lazy balances. -/
structure BalanceFamily (Position Digest : Type) where
  Balance : Type
  decEqBalance : DecidableEq Balance
  default : Balance
  hasDeposits : Balance → Position → Digest → Except DispatchError Unit
  totalValue : Balance → Position → Digest → Except DispatchError Nat
  positionOf : Nat → Option Position

attribute [instance] BalanceFamily.decEqBalance

variable {Position Digest Reason : Type}

/-- The digests with their variant balances, the committed value of each reason, and the
residue that is still to be burned. -/
structure ReapStore (F : BalanceFamily Position Digest) (Reason : Type) where
  digestMap : StorageMap (Reason × Digest) (List F.Balance)
  reasonValue : StorageMap Reason Nat
  assetToReap : Nat

namespace BalanceFamily

variable (F : BalanceFamily Position Digest)

/-- The balances that are not default, each with its position. -/
def balances (info : List F.Balance) : Except DispatchError (List (Position × F.Balance)) :=
  (info.zipIdx.filter fun p => p.1 ≠ F.default).mapM fun p => do
    let position ← okOr (F.positionOf p.2) .invalidCommitVariantIndex
    pure (position, p.1)

/-- The loop of `reap_digest`. It leaves with nothing at the first variant with deposits. -/
def gather (digest : Digest) (remaining : Nat) :
    List (Position × F.Balance) → Except DispatchError (Option Nat)
  | [] => .ok (some remaining)
  | (variant, balance) :: rest =>
    if (F.hasDeposits balance variant digest).isOk then .ok none
    else do
      let remaining ← F.totalValue balance variant digest
      gather digest remaining rest

variable [DecidableEq Digest] [DecidableEq Reason]

def reapDigest (maxAsset : Nat) (s : ReapStore F Reason) (digest : Digest) (reason : Reason) :
    Except DispatchError (ReapStore F Reason) := do
  let info ← okOr (s.digestMap.get (reason, digest)) .digestNotFound
  let balances ← F.balances info
  let gathered ← F.gather digest 0 balances
  let remaining ← okOr gathered .digestHasFunds
  if remaining = 0 then pure { s with digestMap := s.digestMap.remove (reason, digest) }
  else do
    let assetToReap ← okOr (checkedAdd maxAsset s.assetToReap remaining) .maxAssetReaped
    let total ← okOr (checkedSub ((s.reasonValue.get reason).getD 0) remaining) .arithmeticUnderflow
    pure
      { digestMap := s.digestMap.remove (reason, digest)
        reasonValue := s.reasonValue.insert reason total
        assetToReap }

end BalanceFamily

section Residue

variable {F : BalanceFamily Position Digest} {digest : Digest}

/-- No variant has deposits. -/
def Undeposited (F : BalanceFamily Position Digest) (digest : Digest)
    (balances : List (Position × F.Balance)) : Prop :=
  ∀ p ∈ balances, (F.hasDeposits p.2 p.1 digest).isOk = false

/-- The total values of the variants. -/
def residues (F : BalanceFamily Position Digest) (digest : Digest) (balances : List (Position × F.Balance)) :
    Except DispatchError (List Nat) :=
  balances.mapM fun p => F.totalValue p.2 p.1 digest

theorem gather_eq_some {remaining v : Nat} {balances : List (Position × F.Balance)} :
    F.gather digest remaining balances = .ok (some v) ↔
      Undeposited F digest balances ∧
        ∃ values, residues F digest balances = .ok values ∧ v = values.getLast?.getD remaining := by
  induction balances generalizing remaining with
  | nil =>
    simp only [BalanceFamily.gather, residues, List.mapM_nil, pure_eq_ok, exists_eq_left', List.getLast?_nil,
      Option.getD_none, Except.ok.injEq, Option.some.injEq]
    exact ⟨fun h => ⟨fun p hp => (List.not_mem_nil hp).elim, h.symm⟩, fun h => h.2.symm⟩
  | cons p rest ih =>
    obtain ⟨variant, balance⟩ := p
    unfold BalanceFamily.gather
    by_cases hdeposit : (F.hasDeposits balance variant digest).isOk = true
    · rw [if_pos hdeposit]
      refine iff_of_false (fun h => by cases h) fun h => ?_
      have hnone := h.1 (variant, balance) (List.mem_cons_self ..)
      exact Bool.false_ne_true (hnone.symm.trans hdeposit)
    · have hnone := Bool.eq_false_iff.mpr hdeposit
      rw [if_neg hdeposit, bind_eq_ok]
      simp only [ih, residues, List.mapM_cons, bind_eq_ok, pure_eq_ok]
      constructor
      · rintro ⟨total, htotal, hrest, values, hvalues, rfl⟩
        refine ⟨List.forall_mem_cons.mpr ⟨hnone, hrest⟩, total :: values,
          ⟨total, htotal, values, hvalues, rfl⟩, ?_⟩
        rw [List.getLast?_cons, Option.getD_some]
      · rintro ⟨hrest, _, ⟨total, htotal, values, hvalues, rfl⟩, rfl⟩
        refine ⟨total, htotal, (List.forall_mem_cons.mp hrest).2, values, hvalues, ?_⟩
        rw [List.getLast?_cons, Option.getD_some]

end Residue

variable [DecidableEq Digest] [DecidableEq Reason]

section Reap

variable {F : BalanceFamily Position Digest} {maxAsset : Nat} {s s' : ReapStore F Reason} {digest : Digest}
  {reason : Reason}

def ReapStore.valueOf (s : ReapStore F Reason) (reason : Reason) : Nat := (s.reasonValue.get reason).getD 0

/-- The counters take the residue. -/
def ReapStore.takes (maxAsset : Nat) (s : ReapStore F Reason) (reason : Reason) (residue : Nat) : Prop :=
  residue = 0 ∨ s.assetToReap + residue ≤ maxAsset ∧ residue ≤ s.valueOf reason

/-- The digest is there, and its variants have no deposits and these total values. -/
def Reapable (s : ReapStore F Reason) (digest : Digest) (reason : Reason) (values : List Nat) : Prop :=
  ∃ info balances, s.digestMap.get (reason, digest) = some info ∧ F.balances info = .ok balances ∧
    Undeposited F digest balances ∧ residues F digest balances = .ok values

/-- The store without the digest, and with its residue moved between the counters. -/
def ReapStore.reaped (s : ReapStore F Reason) (digest : Digest) (reason : Reason) (residue : Nat) :
    ReapStore F Reason :=
  { digestMap := s.digestMap.remove (reason, digest)
    reasonValue :=
      if residue = 0 then s.reasonValue else s.reasonValue.insert reason (s.valueOf reason - residue)
    assetToReap := s.assetToReap + residue }

/-- Reaping succeeds when the counters take the total of the last variant, and books that. -/
theorem reapDigest_eq_ok :
    F.reapDigest maxAsset s digest reason = .ok s' ↔ ∃ values, Reapable s digest reason values ∧
      s.takes maxAsset reason (values.getLast?.getD 0) ∧ s' = s.reaped digest reason (values.getLast?.getD 0) := by
  unfold BalanceFamily.reapDigest
  constructor
  · intro h
    obtain ⟨info, hinfo, h⟩ := bind_eq_ok.mp h
    obtain ⟨balances, hbalances, h⟩ := bind_eq_ok.mp h
    obtain ⟨gathered, hgathered, h⟩ := bind_eq_ok.mp h
    obtain ⟨remaining, hremaining, h⟩ := bind_eq_ok.mp h
    rw [okOr_eq_ok.mp hremaining] at hgathered
    obtain ⟨hnone, values, hvalues, rfl⟩ := gather_eq_some.mp hgathered
    refine ⟨values, ⟨info, balances, okOr_eq_ok.mp hinfo, hbalances, hnone, hvalues⟩, ?_⟩
    by_cases hzero : values.getLast?.getD 0 = 0
    · rw [if_pos hzero] at h
      obtain rfl := pure_eq_ok.mp h
      exact ⟨Or.inl hzero, by simp [ReapStore.reaped, hzero]⟩
    · rw [if_neg hzero] at h
      obtain ⟨asset, hasset, h⟩ := bind_eq_ok.mp h
      obtain ⟨total, htotal, h⟩ := bind_eq_ok.mp h
      obtain ⟨rfl, hmax⟩ := checkedAdd_eq_some.mp (okOr_eq_ok.mp hasset)
      obtain ⟨hle, hsum⟩ := checkedSub_eq_some.mp (okOr_eq_ok.mp htotal)
      obtain rfl := pure_eq_ok.mp h
      have htotal' : total = s.valueOf reason - values.getLast?.getD 0 := by
        unfold ReapStore.valueOf
        omega
      exact ⟨Or.inr ⟨hmax, hle⟩, by simp [ReapStore.reaped, hzero, htotal']⟩
  · rintro ⟨values, ⟨info, balances, hinfo, hbalances, hnone, hvalues⟩, htakes, rfl⟩
    refine bind_eq_ok.mpr ⟨info, okOr_eq_ok.mpr hinfo, bind_eq_ok.mpr ⟨balances, hbalances, ?_⟩⟩
    refine bind_eq_ok.mpr ⟨_, gather_eq_some.mpr ⟨hnone, values, hvalues, rfl⟩, ?_⟩
    refine bind_eq_ok.mpr ⟨_, rfl, ?_⟩
    by_cases hzero : values.getLast?.getD 0 = 0
    · simp [ReapStore.reaped, hzero]
    · obtain ⟨hmax, hle⟩ := htakes.resolve_left hzero
      rw [if_neg hzero]
      refine bind_eq_ok.mpr ⟨_, okOr_eq_ok.mpr (checkedAdd_eq_some.mpr ⟨rfl, hmax⟩), ?_⟩
      refine bind_eq_ok.mpr ⟨s.valueOf reason - values.getLast?.getD 0, okOr_eq_ok.mpr ?_, ?_⟩
      · refine checkedSub_eq_some.mpr ⟨hle, ?_⟩
        unfold ReapStore.valueOf at *
        omega
      · simp [ReapStore.reaped, hzero]

/-- The value of a digest: what its variants hold. -/
def digestValue (F : BalanceFamily Position Digest) (digest : Digest) (info : List F.Balance) : Nat :=
  match F.balances info >>= residues F digest with
  | .ok values => values.sum
  | .error _ => 0

/-- The value of the reason is that of its digests. -/
def ReapStore.balanced (s : ReapStore F Reason) (reason : Reason) : Prop :=
  s.valueOf reason =
    s.digestMap.sum fun key info => if key.1 = reason then digestValue F key.2 info else 0

/-- Reaping succeeds when no variant has deposits and the counters take the residue of all of
them, and it books just that. -/
structure ReapAccounts (maxAsset : Nat) (s : ReapStore F Reason) (digest : Digest) (reason : Reason) : Prop where
  succeeds : (∃ s', F.reapDigest maxAsset s digest reason = .ok s') ↔
    ∃ values, Reapable s digest reason values ∧ s.takes maxAsset reason values.sum
  books : ∀ s' values, F.reapDigest maxAsset s digest reason = .ok s' → Reapable s digest reason values →
    s'.assetToReap = s.assetToReap + values.sum ∧ s'.valueOf reason + values.sum = s.valueOf reason
  balanced : ∀ s', F.reapDigest maxAsset s digest reason = .ok s' → s.balanced reason → s'.balanced reason

theorem sum_eq_dropLast_add (values : List Nat) :
    values.sum = values.dropLast.sum + values.getLast?.getD 0 := by
  cases values using List.reverseRecOn with
  | nil => rfl
  | append_singleton init last => simp

omit [DecidableEq Digest] [DecidableEq Reason] in
theorem Reapable.unique {values values' : List Nat} (h : Reapable s digest reason values)
    (h' : Reapable s digest reason values') : values = values' := by
  obtain ⟨info, balances, hinfo, hbalances, -, hvalues⟩ := h
  obtain ⟨info', balances', hinfo', hbalances', -, hvalues'⟩ := h'
  obtain rfl := Option.some.inj (hinfo.symm.trans hinfo')
  obtain rfl := Except.ok.inj (hbalances.symm.trans hbalances')
  exact Except.ok.inj (hvalues.symm.trans hvalues')

omit [DecidableEq Digest] [DecidableEq Reason] in
theorem takes_of_le {residue residue' : Nat} (h : s.takes maxAsset reason residue) (hle : residue' ≤ residue) :
    s.takes maxAsset reason residue' := by
  unfold ReapStore.takes at *
  omega

theorem valueOf_reaped {residue : Nat} (h : s.takes maxAsset reason residue) :
    (s.reaped digest reason residue).valueOf reason + residue = s.valueOf reason := by
  by_cases hzero : residue = 0
  · simp [ReapStore.reaped, ReapStore.valueOf, hzero]
  · obtain ⟨-, hle⟩ := h.resolve_left hzero
    simp only [ReapStore.reaped, hzero, if_false]
    change ((s.reasonValue.insert reason (s.valueOf reason - residue)).get reason).getD 0 + residue = _
    rw [StorageMap.get_insert_self, Option.getD_some]
    omega

theorem balanced_reaped {values : List Nat} (h : Reapable s digest reason values)
    (hsum : values.sum = values.getLast?.getD 0) (htakes : s.takes maxAsset reason (values.getLast?.getD 0))
    (hb : s.balanced reason) : (s.reaped digest reason (values.getLast?.getD 0)).balanced reason := by
  obtain ⟨info, balances, hinfo, hbalances, -, hvalues⟩ := h
  have hvalue : digestValue F digest info = values.sum := by
    unfold digestValue
    rw [hbalances]
    change (match residues F digest balances with | .ok values => values.sum | .error _ => 0) = _
    rw [hvalues]
  have hleft := StorageMap.sum_remove
    (fun (key : Reason × Digest) info => if key.1 = reason then digestValue F key.2 info else 0)
    s.digestMap (reason, digest)
  rw [hinfo] at hleft
  simp only [Option.elim_some, if_true, hvalue] at hleft
  have hbooked : (s.reaped digest reason (values.getLast?.getD 0)).valueOf reason + values.getLast?.getD 0 =
    s.valueOf reason := valueOf_reaped htakes
  unfold ReapStore.balanced at *
  change _ = (s.digestMap.remove (reason, digest)).sum _
  omega

/-- All of the residue is booked exactly when the variants before the last hold none of it. -/
theorem reap_accounts_iff :
    ReapAccounts maxAsset s digest reason ↔ ∀ values, Reapable s digest reason values →
      s.takes maxAsset reason (values.getLast?.getD 0) → values.dropLast.sum = 0 := by
  constructor
  · intro h values hreapable htakes
    have hok := reapDigest_eq_ok.mpr ⟨values, hreapable, htakes, rfl⟩
    have hbooks := (h.books _ values hok hreapable).1
    have hsum := sum_eq_dropLast_add values
    simp only [ReapStore.reaped] at hbooks
    omega
  · intro h
    have hsame {values : List Nat} (hreapable : Reapable s digest reason values)
        (htakes : s.takes maxAsset reason (values.getLast?.getD 0)) :
        values.sum = values.getLast?.getD 0 := by
      have hsum := sum_eq_dropLast_add values
      have hnone := h values hreapable htakes
      omega
    refine ⟨⟨fun ⟨s', hok⟩ => ?_, fun ⟨values, hreapable, htakes⟩ => ?_⟩,
      fun s' values hok hreapable => ?_, fun s' hok hb => ?_⟩
    · obtain ⟨values, hreapable, htakes, -⟩ := reapDigest_eq_ok.mp hok
      exact ⟨values, hreapable, by rwa [hsame hreapable htakes]⟩
    · have hle : values.getLast?.getD 0 ≤ values.sum := by
        have hsum := sum_eq_dropLast_add values
        omega
      exact ⟨_, reapDigest_eq_ok.mpr ⟨values, hreapable, takes_of_le htakes hle, rfl⟩⟩
    · obtain ⟨values', hreapable', htakes, rfl⟩ := reapDigest_eq_ok.mp hok
      obtain rfl := hreapable.unique hreapable'
      rw [hsame hreapable htakes]
      exact ⟨rfl, valueOf_reaped htakes⟩
    · obtain ⟨values, hreapable, htakes, rfl⟩ := reapDigest_eq_ok.mp hok
      exact balanced_reaped hreapable (hsame hreapable htakes) htakes hb

end Reap

section Shares

variable {T : Config}

/-- The balances of shares, which keep nothing after the last withdrawal. -/
abbrev shareFamily (T : Config) : BalanceFamily T.Position T.AccountId where
  Balance := LazyBalance T
  decEqBalance := inferInstance
  default := none
  hasDeposits := fun balance _ _ => (ShareBalance.hasDeposits balance).mapError .balance
  totalValue := fun balance _ _ => .ok (ShareBalance.totalValue balance)
  positionOf := T.positionOf

theorem shareFamily_residues (digest : T.AccountId) (balances : List (T.Position × LazyBalance T)) :
    residues (shareFamily T) digest balances =
      .ok (balances.map fun p => ShareBalance.totalValue p.2) :=
  List.mapM_pure

/-- What `reapDigest` checks and reads of the balances is the loop at the balances of shares. -/
theorem shareFamily_gather {digest : T.AccountId} {balances : List (T.Position × LazyBalance T)} {v : Nat} :
    (shareFamily T).gather digest 0 balances = .ok (some v) ↔
      (∀ balance ∈ balances.map Prod.snd, (ShareBalance.hasDeposits balance).isOk = false) ∧
        v = ((balances.map Prod.snd).getLast?.map ShareBalance.totalValue).getD 0 := by
  rw [gather_eq_some]
  simp only [Undeposited, isOk_mapError, shareFamily_residues, Except.ok.injEq, exists_eq_left',
    List.mem_map, forall_exists_index, and_imp, forall_apply_eq_imp_iff₂, List.getLast?_map, Option.map_map]
  rfl

end Shares

/-- Balances that keep what rounding left after the last withdrawal. -/
def dustFamily : BalanceFamily Nat Nat where
  Balance := Nat
  decEqBalance := inferInstance
  default := 0
  hasDeposits := fun _ _ _ => .error .digestNotFound
  totalValue := fun dust _ _ => .ok dust
  positionOf := some

/-- A digest with three units of dust in one variant and four in the next. -/
def dusty : ReapStore dustFamily Nat where
  digestMap := StorageMap.empty.insert (0, 7) [(3 : Nat), (4 : Nat)]
  reasonValue := StorageMap.empty.insert 0 7
  assetToReap := 0

/-- Three of the seven units stay in the value of a reason without digests. -/
theorem reaping_loses_residue :
    ¬∀ (F : BalanceFamily Nat Nat) (maxAsset : Nat) (s : ReapStore F Nat) (digest reason : Nat),
      ReapAccounts maxAsset s digest reason := by
  intro h
  have haccounts := h dustFamily 1000 dusty 7 0
  have hreapable : Reapable dusty 7 0 [3, 4] := ⟨_, [(0, (3 : Nat)), (1, (4 : Nat))], rfl, rfl, by
    intro p hp
    rfl, rfl⟩
  have hbooks := (haccounts.books (dusty.reaped 7 0 4) [3, 4] rfl hreapable).1
  exact absurd hbooks (by decide)

end FrameSuite
