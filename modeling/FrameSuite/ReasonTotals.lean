import FrameSuite.TotalSteps

/-! When a call fails because the total of a reason would fall below zero. The total is what
the digests of the reason hold, and a deposit into a pool takes its dust off the total before
the deposit itself is added to it. -/

namespace FrameSuite

open ShareBalance Carries

variable {T : Config}

section Additions

variable {s t : State T} {r reason : T.Reason} {extra : Nat}

theorem le_getTotalValue_credit (s : State T) (r : T.Reason) (extra : Nat) :
    extra ≤ getTotalValue (credit s r extra) r := by
  rw [credit, getTotalValue_setTotalValue, if_pos rfl]
  exact Nat.le_add_left _ _

theorem getTotalValue_le_credit (s : State T) (r reason : T.Reason) (extra : Nat) :
    getTotalValue s reason ≤ getTotalValue (credit s r extra) reason := by
  rw [credit, getTotalValue_setTotalValue]
  split <;> rename_i hr
  · rw [hr]
    exact Nat.le_add_right _ _
  · exact le_refl _

theorem addToTotalValue_of_credit {v : Nat} (h : addToTotalValue (credit s r extra) reason v = .ok t) :
    ∃ t₀, addToTotalValue s reason v = .ok t₀ := by
  obtain ⟨total, ht, -⟩ := bind_eq_ok.mp h
  rw [okOr_eq_ok, checkedAdd_eq_some] at ht
  have hle := getTotalValue_le_credit s r reason extra
  have hadd : checkedAdd T.share.maxAsset (getTotalValue s reason) v = some (getTotalValue s reason + v) :=
    checkedAdd_eq_some.mpr ⟨rfl, by omega⟩
  exact ⟨_, bind_eq_ok.mpr ⟨_, okOr_eq_ok.mpr hadd, rfl⟩⟩

theorem finalizePlaceCommit_of_credit {who digest : T.AccountId} {variant : T.Position}
    {receipt : CommitInstance T} {total : Nat}
    (h : finalizePlaceCommit (credit s r extra) who reason digest variant receipt total = .ok t) :
    ∃ t₀, finalizePlaceCommit s who reason digest variant receipt total = .ok t₀ := by
  obtain ⟨s1, h1, h⟩ := bind_eq_ok.mp h
  obtain ⟨l, hl, rfl⟩ := onLedger_eq_ok h1
  obtain ⟨info, hi, h⟩ := bind_eq_ok.mp h
  obtain ⟨t₀, ht⟩ := addToTotalValue_of_credit
    (s := { s with ledger := l, commitMap := s.commitMap.insert (who, reason) info }) h
  exact ⟨t₀, bind_eq_ok.mpr ⟨_, bind_eq_ok.mpr ⟨l, hl, rfl⟩, bind_eq_ok.mpr ⟨info, hi, ht⟩⟩⟩

theorem finalizeRaiseCommit_of_credit {who : T.AccountId} {receipt : CommitInstance T} {total : Nat}
    (h : finalizeRaiseCommit (credit s r extra) who reason receipt total = .ok t) :
    ∃ t₀, finalizeRaiseCommit s who reason receipt total = .ok t₀ := by
  obtain ⟨s1, h1, h⟩ := bind_eq_ok.mp h
  obtain ⟨l, hl, rfl⟩ := onLedger_eq_ok h1
  obtain ⟨old, ho, h⟩ := bind_eq_ok.mp h
  obtain ⟨info, hi, h⟩ := bind_eq_ok.mp h
  obtain ⟨t₀, ht⟩ := addToTotalValue_of_credit
    (s := { s with ledger := l, commitMap := s.commitMap.insert (who, reason) info }) h
  exact ⟨t₀, bind_eq_ok.mpr ⟨_, bind_eq_ok.mpr ⟨l, hl, rfl⟩,
    bind_eq_ok.mpr ⟨old, ho, bind_eq_ok.mpr ⟨info, hi, ht⟩⟩⟩⟩

end Additions

section Deposits

theorem depositToPool_total {s s' : State T} {reason : T.Reason} {poolOf : T.AccountId}
    {value amount : Nat} {receipt : CommitInstance T} (hs : Sound s)
    (h : depositToPool s reason poolOf value = .ok (s', receipt, amount)) :
    ∃ pool, s.poolMap.get (reason, poolOf) = some pool ∧ ∀ r, getTotalValue s' r +
      weightOf r reason * splitDust T (pool.slots.map SlotInfo.shares)
        (poolValue s.digestMap reason pool + value) = getTotalValue s r := by
  obtain ⟨-, pool, released, recovered, claims, m, m', balance, receipt', after, s1, -, hd⟩ :=
    depositToPool_spec hs h
  refine ⟨pool, hd.release.found, fun r => ?_⟩
  obtain ⟨l, rv, rfl, -, hrv⟩ := hd.recover.state_eq
  have hw := hrv (weightOf r)
  rw [hd.release.state_eq] at hw
  rw [← totalReasons_weightOf, ← totalReasons_weightOf]
  exact hw

theorem funded_of_credit {D : State T → Except DispatchError (State T × CommitInstance T × Nat)}
    (hD : Subtracts D) {s s₁ s₂ : State T} {r : T.Reason} {extra : Nat} {who : T.AccountId}
    {value actual : Nat} {q : Directive} {p : CommitInstance T × Nat}
    (h1 : deductBalance (credit s r extra) who value q = .ok (s₁, actual)) (h2 : D s₁ = .ok (s₂, p))
    (hle : extra ≤ getTotalValue s₂ r) :
    ∃ t₁ t₂, deductBalance s who value q = .ok (t₁, actual) ∧ D t₁ = .ok (t₂, p) ∧ s₂ = credit t₂ r extra := by
  obtain ⟨⟨t₁, actual'⟩, ht₁, he₁⟩ := (deductBalance_subtracts who value q).tracks s r extra (s₁, actual) h1
    (hle.trans (hD.falls s₁ (s₂, p) h2 r))
  obtain ⟨rfl, rfl⟩ := Prod.mk.inj he₁
  obtain ⟨⟨t₂, p'⟩, ht₂, he₂⟩ := hD.tracks t₁ r extra (s₂, p) h2 hle
  obtain ⟨rfl, rfl⟩ := Prod.mk.inj he₂
  exact ⟨t₁, t₂, ht₁, ht₂, rfl⟩

variable {s s₁ s₂ : State T} {r reason : T.Reason} {extra value amount : Nat} {who : T.AccountId}
  {q : Directive} {receipt : CommitInstance T}

theorem raise_left_digest {actual : Nat} {digest : T.AccountId} {variant : T.Position}
    (h1 : deductBalance (credit s r extra) who value q = .ok (s₁, actual))
    (h2 : depositToDigest s₁ reason digest actual variant = .ok (s₂, receipt, amount)) :
    extra ≤ getTotalValue s₂ r := by
  obtain ⟨l, rfl, -⟩ := deductBalance_spec h1
  obtain ⟨-, c, m, -, -, -, rfl, -⟩ := depositToDigest_spec h2
  exact le_getTotalValue_credit s r extra

theorem raise_left_index {actual : Nat} {indexOf : T.AccountId}
    (h1 : deductBalance (credit s r extra) who value q = .ok (s₁, actual))
    (h2 : depositToIndex s₁ who reason indexOf actual = .ok (s₂, receipt, amount)) :
    extra ≤ getTotalValue s₂ r := by
  obtain ⟨l, rfl, -⟩ := deductBalance_spec h1
  obtain ⟨info, m, e, l', claims, -, -, rfl, -⟩ := depositToIndex_spec h2
  exact le_getTotalValue_credit s r extra

theorem raise_left_pool {actual : Nat} {poolOf : T.AccountId} (hs : Sound s)
    (h1 : deductBalance (credit s r extra) who value q = .ok (s₁, actual))
    (h2 : depositToPool s₁ reason poolOf actual = .ok (s₂, receipt, amount))
    (hc : depositLeak s who reason (.pool poolOf) value ≤ getTotalValue s reason) :
    extra ≤ getTotalValue s₂ r := by
  obtain rfl : actual = deductible (credit s r extra) who value := deductBalance_amount h1
  obtain ⟨l, rfl, -⟩ := deductBalance_spec h1
  have hs₁ : Sound { credit s r extra with ledger := l } := ⟨hs.digests, hs.pools⟩
  obtain ⟨pool, hp, htotal⟩ := depositToPool_total hs₁ h2
  have hleak : depositLeak s who reason (.pool poolOf) value = splitDust T (pool.slots.map SlotInfo.shares)
      (poolValue s.digestMap reason pool + deductible s who value) := depositLeak_pool hp
  have hr := htotal r
  change getTotalValue s₂ r + weightOf r reason * splitDust T (pool.slots.map SlotInfo.shares)
    (poolValue s.digestMap reason pool + deductible s who value) = getTotalValue (credit s r extra) r at hr
  rw [← hleak, credit, getTotalValue_setTotalValue, if_pos rfl, weightOf] at hr
  split at hr
  · rename_i he
    subst he
    omega
  · omega

end Deposits

section Commits

variable {s t : State T} {r reason : T.Reason} {extra value amount : Nat} {who : T.AccountId}
  {q : Directive} {model : DigestVariant T}

theorem initiateDigest_credit (s : State T) (r reason : T.Reason) (extra : Nat) (digest : T.AccountId) :
    initiateDigest (credit s r extra) reason digest = credit (initiateDigest s reason digest) r extra := by
  unfold initiateDigest credit setTotalValue
  dsimp only
  split <;> rfl

/-- Funds deducted, deposited and credited to a commit, told from the state with the raised total. -/
theorem commit_of_credit {D : Nat → State T → Except DispatchError (State T × CommitInstance T × Nat)}
    {K : CommitInstance T → Nat → State T → Except DispatchError (State T)}
    (hD : ∀ actual, Subtracts (D actual))
    (hK : ∀ {receipt amount s t}, K receipt amount (credit s r extra) = .ok t →
      ∃ t₀, K receipt amount s = .ok t₀)
    (hleft : ∀ {actual s₁ s₂ receipt amount}, deductBalance (credit s r extra) who value q = .ok (s₁, actual) →
      D actual s₁ = .ok (s₂, receipt, amount) → extra ≤ getTotalValue s₂ r)
    (h : (do
      let (s, actual) ← deductBalance (credit s r extra) who value q
      let (s, receipt, amount) ← D actual s
      let s ← K receipt amount s
      pure (s, amount)) = Except.ok (t, amount)) :
    ∃ t₀, (do
      let (s, actual) ← deductBalance s who value q
      let (s, receipt, amount) ← D actual s
      let s ← K receipt amount s
      pure (s, amount)) = Except.ok (t₀, amount) := by
  obtain ⟨⟨s1, actual⟩, h1, h⟩ := bind_eq_ok.mp h
  obtain ⟨⟨s2, receipt, amount'⟩, h2, h⟩ := bind_eq_ok.mp h
  obtain ⟨t1, t2, ht1, ht2, rfl⟩ := funded_of_credit (hD actual) h1 h2 (hleft h1 h2)
  obtain ⟨s3, h3, h⟩ := bind_eq_ok.mp h
  obtain ⟨t3, ht3⟩ := hK h3
  simp only [pure_eq_ok, Prod.mk.injEq] at h
  obtain ⟨-, rfl⟩ := h
  exact ⟨t3, bind_eq_ok.mpr ⟨_, ht1, bind_eq_ok.mpr ⟨_, ht2, bind_eq_ok.mpr ⟨_, ht3, rfl⟩⟩⟩⟩

/-- A placement that succeeds from a raised total succeeds where the total covers its dust. -/
theorem placeCommitOf_of_credit {variant : T.Position} (hs : Sound s)
    (h : placeCommitOf (credit s r extra) who reason model value variant q = .ok (t, amount))
    (hc : depositLeak s who reason model value ≤ getTotalValue s reason) :
    ∃ t₀, placeCommitOf s who reason model value variant q = .ok (t₀, amount) := by
  cases model with
  | direct digest =>
    unfold placeCommitOf placeDigestCommit at h ⊢
    dsimp only at h ⊢
    rw [initiateDigest_credit] at h
    exact commit_of_credit (D := fun v s => depositToDigest s reason digest v variant)
      (K := fun c v s => finalizePlaceCommit s who reason digest variant c v)
      (fun _ => depositToDigest_subtracts _ _ _ _) finalizePlaceCommit_of_credit raise_left_digest h
  | index indexOf =>
    exact commit_of_credit (D := fun v s => depositToIndex s who reason indexOf v)
      (K := fun c v s => finalizePlaceCommit s who reason indexOf variant c v)
      (fun _ => depositToIndex_subtracts _ _ _ _) finalizePlaceCommit_of_credit raise_left_index h
  | pool poolOf =>
    exact commit_of_credit (D := fun v s => depositToPool s reason poolOf v)
      (K := fun c v s => finalizePlaceCommit s who reason poolOf variant c v)
      (fun _ => depositToPool_subtracts _ _ _) finalizePlaceCommit_of_credit
      (fun h1 h2 => raise_left_pool hs h1 h2 hc) h

theorem raiseCommitOf_of_credit (hs : Sound s)
    (h : raiseCommitOf (credit s r extra) who reason model value q = .ok (t, amount))
    (hc : depositLeak s who reason model value ≤ getTotalValue s reason) :
    ∃ t₀, raiseCommitOf s who reason model value q = .ok (t₀, amount) := by
  cases model with
  | direct digest =>
    obtain ⟨variant, hv, h⟩ := bind_eq_ok.mp h
    obtain ⟨t₀, ht⟩ := commit_of_credit (D := fun v s => depositToDigest s reason digest v variant)
      (K := fun c v s => finalizeRaiseCommit s who reason c v)
      (fun _ => depositToDigest_subtracts _ _ _ _) finalizeRaiseCommit_of_credit raise_left_digest h
    exact ⟨t₀, bind_eq_ok.mpr ⟨variant, hv, ht⟩⟩
  | index indexOf =>
    exact commit_of_credit (D := fun v s => depositToIndex s who reason indexOf v)
      (K := fun c v s => finalizeRaiseCommit s who reason c v)
      (fun _ => depositToIndex_subtracts _ _ _ _) finalizeRaiseCommit_of_credit raise_left_index h
  | pool poolOf =>
    exact commit_of_credit (D := fun v s => depositToPool s reason poolOf v)
      (K := fun c v s => finalizeRaiseCommit s who reason c v)
      (fun _ => depositToPool_subtracts _ _ _) finalizeRaiseCommit_of_credit
      (fun h1 h2 => raise_left_pool hs h1 h2 hc) h

theorem setDigestVariantValue_of_credit {digest : T.AccountId} {variant : T.Position}
    (h : setDigestVariantValue (credit s r extra) reason digest value variant = .ok (t, amount))
    (hle : extra ≤ getTotalValue t r) :
    ∃ t₀, setDigestVariantValue s reason digest value variant = .ok t₀ := by
  obtain ⟨info, hi, h⟩ := bind_eq_ok.mp h
  obtain ⟨balance, hb, h⟩ := bind_eq_ok.mp h
  suffices hrest : ∃ t₀, (_ : Except DispatchError (State T × Nat)) = .ok t₀ from
    hrest.imp fun _ ht => bind_eq_ok.mpr ⟨info, hi, bind_eq_ok.mpr ⟨balance, hb, ht⟩⟩
  dsimp only at h ⊢
  split at h
  · rename_i hlt
    obtain ⟨⟨actual, nb⟩, h1, h⟩ := bind_eq_ok.mp h
    obtain ⟨s2, h2, h⟩ := bind_eq_ok.mp h
    obtain ⟨issue, hissue, h2⟩ := bind_eq_ok.mp h2
    obtain rfl := pure_eq_ok.mp h2
    obtain ⟨s3, h3, -⟩ := bind_eq_ok.mp h
    obtain ⟨t3, ht3⟩ := addToTotalValue_of_credit (s := { s with
      digestMap := s.digestMap.insert (reason, digest) (info.setBalance variant nb), assetToIssue := issue }) h3
    rw [if_pos hlt]
    exact ⟨_, bind_eq_ok.mpr ⟨_, h1, bind_eq_ok.mpr ⟨_, bind_eq_ok.mpr ⟨issue, hissue, rfl⟩,
      bind_eq_ok.mpr ⟨t3, ht3, rfl⟩⟩⟩⟩
  · rename_i hlt
    rw [if_neg hlt]
    split at h
    · rename_i hgt
      rw [if_pos hgt]
      obtain ⟨⟨actual, nb⟩, h1, h⟩ := bind_eq_ok.mp h
      have hsub : Subtracts fun s : State T => addAssetToReap s actual >>= fun s =>
          subFromTotalValue s reason actual >>= fun s => pure (s, totalValue balance - actual) :=
        .bind (addAssetToReap_subtracts _) (.bind (subFromTotalValue_subtracts _ _)
          (.pure ⟨fun _ _ _ => rfl, fun _ _ => rfl⟩))
      obtain ⟨t₀, ht, -⟩ := hsub.tracks { s with
        digestMap := s.digestMap.insert (reason, digest) (info.setBalance variant nb) } r extra _ h hle
      exact ⟨t₀, bind_eq_ok.mpr ⟨_, h1, ht⟩⟩
    · rename_i hgt
      rw [if_neg hgt]
      exact ⟨_, rfl⟩

end Commits

section Calls

/-- The calls that place, raise, resolve, revalue, change a slot or reap. -/
def Call.adjusts : Call T → Prop
  | .placeCommit .. | .raiseCommit .. | .resolveCommit .. | .setDigestValue .. => True
  | .setSlotShares .. | .setSlotOfVariant .. => True
  | .reapDigest .. | .reapIndex .. | .reapPool .. => True
  | _ => False

/-- The call succeeds once enough is added to the total of a reason, so that nothing but a
subtraction from that total can make it fail. -/
def Viable (s : State T) (call : Call T) : Prop :=
  ∃ reason extra, ((credit s reason extra).apply call).isOk = true

/-- The total of the reason covers the dust of a deposit before that deposit is added to it. -/
def DustCovered (s : State T) : Call T → Prop
  | .placeCommit who reason digest value _ _ => placeLeak s who reason digest value ≤ getTotalValue s reason
  | .raiseCommit who reason value _ => raiseLeak s who reason value ≤ getTotalValue s reason
  | _ => True

variable {s t : State T} {r : T.Reason} {extra : Nat}

theorem Subtracts.reaches {ρ : Type} [Carries T ρ] {F : State T → Except DispatchError ρ} (hF : Subtracts F)
    {b : ρ} (h : F (credit s r extra) = .ok b) (hle : extra ≤ getTotalValue (state b) r) :
    ∃ b₀, F s = .ok b₀ := by
  obtain ⟨b₀, hb, -⟩ := hF.tracks s r extra b h hle
  exact ⟨b₀, hb⟩

theorem apply_of_result {F : Except DispatchError (State T × Nat)} (h : ∃ p, F = .ok p) :
    ∃ t, (F >>= fun p => pure p.1) = .ok t := by
  obtain ⟨p, hp⟩ := h
  exact ⟨p.1, bind_eq_ok.mpr ⟨p, hp, rfl⟩⟩

theorem setSlotShares_of_credit {reason : T.Reason} {poolOf slotOf : T.AccountId} {shares : Nat}
    (h : setSlotShares (credit s r extra) reason poolOf slotOf shares = .ok t)
    (hle : extra ≤ getTotalValue t r) : ∃ t₀, setSlotShares s reason poolOf slotOf shares = .ok t₀ := by
  have hf : findSlot (credit s r extra) reason poolOf slotOf = findSlot s reason poolOf slotOf := rfl
  unfold setSlotShares at h ⊢
  rw [hf] at h
  split at h <;> split at h
  · rename_i hz
    rw [if_pos hz]
    exact (removePoolSlot_subtracts reason poolOf slotOf).reaches h hle
  · rename_i hz
    rw [if_neg hz]
    exact (setPoolSlot_subtracts reason poolOf slotOf shares _).reaches h hle
  · rename_i hz
    rw [if_pos hz]
    exact ⟨s, rfl⟩
  · rename_i hz
    obtain ⟨u, hu, h⟩ := bind_eq_ok.mp h
    obtain ⟨t₀, ht⟩ := (setPoolSlot_subtracts reason poolOf slotOf shares _).reaches h hle
    rw [if_neg hz]
    exact ⟨t₀, bind_eq_ok.mpr ⟨u, hu, ht⟩⟩

theorem setSlotOfVariant_of_credit {reason : T.Reason} {poolOf slotOf : T.AccountId}
    {variant : T.Position} {shares : Option Nat}
    (h : setSlotOfVariant (credit s r extra) reason poolOf slotOf variant shares = .ok t)
    (hle : extra ≤ getTotalValue t r) :
    ∃ t₀, setSlotOfVariant s reason poolOf slotOf variant shares = .ok t₀ := by
  have hf : findSlot (credit s r extra) reason poolOf slotOf = findSlot s reason poolOf slotOf := rfl
  unfold setSlotOfVariant at h ⊢
  rw [hf] at h
  split at h
  · split at h <;> rename_i hz
    · rw [if_pos hz]
      exact (removePoolSlot_subtracts reason poolOf slotOf).reaches h hle
    · rw [if_neg hz]
      exact (setPoolSlot_subtracts reason poolOf slotOf _ variant).reaches h hle
  · exact (setPoolSlot_subtracts reason poolOf slotOf _ variant).reaches h hle
  · split at h <;> rename_i hz
    · rw [if_pos hz]
      exact ⟨s, rfl⟩
    · obtain ⟨u, hu, h⟩ := bind_eq_ok.mp h
      obtain ⟨t₀, ht⟩ := (setPoolSlot_subtracts reason poolOf slotOf _ variant).reaches h hle
      rw [if_neg hz]
      exact ⟨t₀, bind_eq_ok.mpr ⟨u, hu, ht⟩⟩
  · cases h

theorem Totalled.raise_left (hs : Totalled s) {call : Call T} (h : (credit s r extra).apply call = .ok t) :
    extra ≤ getTotalValue t r := by
  have hb := (apply_books (s := credit s r extra) ⟨hs.sound.digests, hs.sound.pools⟩ h).totals (weightOf r)
  have hlive : liveValue (weightOf r) (credit s r extra).digestMap = getTotalValue s r := by
    rw [← totalReasons_weightOf, hs.totals]
    rfl
  rw [totalReasons_weightOf, totalReasons_weightOf, hlive] at hb
  rw [credit, getTotalValue_setTotalValue, if_pos rfl] at hb
  omega

theorem succeeds_of_covered (hs : Totalled s) {call : Call T} (ha : call.adjusts) (hv : Viable s call)
    (hc : DustCovered s call) : ∃ t, s.apply call = .ok t := by
  obtain ⟨r, extra, hok⟩ := hv
  obtain ⟨t, h⟩ := exists_eq_ok hok
  have hle := hs.raise_left h
  cases call with
  | placeCommit who reason digest value variant q =>
    obtain ⟨⟨s1, v⟩, h, -⟩ := bind_eq_ok.mp h
    obtain ⟨u, hn, h⟩ := bind_eq_ok.mp h
    obtain ⟨u', hz, h⟩ := bind_eq_ok.mp h
    obtain ⟨t₀, ht⟩ := placeCommitOf_of_credit hs.sound h (Int.ofNat_le.mp hc)
    exact apply_of_result ⟨_, bind_eq_ok.mpr ⟨u, hn, bind_eq_ok.mpr ⟨u', hz, ht⟩⟩⟩
  | raiseCommit who reason value q =>
    obtain ⟨⟨s1, v⟩, h, -⟩ := bind_eq_ok.mp h
    obtain ⟨u, hn, h⟩ := bind_eq_ok.mp h
    obtain ⟨u', hz, h⟩ := bind_eq_ok.mp h
    obtain ⟨digest, hd, h⟩ := bind_eq_ok.mp h
    obtain ⟨model, hm, hraise⟩ := bind_eq_ok.mp h
    obtain ⟨info, hi, rfl⟩ := getCommitDigest_eq_ok (s := s) hd
    have hm' : digestModel s info.digest reason = model := digestModel_of_ok hm
    simp only [DustCovered, raiseLeak, hi, hm'] at hc
    obtain ⟨t₀, ht⟩ := raiseCommitOf_of_credit hs.sound hraise (Int.ofNat_le.mp hc)
    exact apply_of_result ⟨_, bind_eq_ok.mpr ⟨u, hn, bind_eq_ok.mpr ⟨u', hz,
      bind_eq_ok.mpr ⟨_, hd, bind_eq_ok.mpr ⟨model, hm, ht⟩⟩⟩⟩⟩
  | resolveCommit who reason =>
    obtain ⟨⟨s1, v⟩, hresolve, ht⟩ := bind_eq_ok.mp h
    obtain rfl := pure_eq_ok.mp ht
    exact apply_of_result ((resolveCommit_subtracts who reason).reaches hresolve hle)
  | setDigestValue reason digest value variant =>
    obtain ⟨⟨s1, v⟩, hvalue, ht⟩ := bind_eq_ok.mp h
    obtain rfl := pure_eq_ok.mp ht
    exact apply_of_result (setDigestVariantValue_of_credit hvalue hle)
  | reapDigest digest reason => exact (reapDigest_subtracts digest reason).reaches h hle
  | reapIndex reason indexOf => exact (reapIndex_subtracts reason indexOf).reaches h hle
  | reapPool reason poolOf => exact (reapPool_subtracts reason poolOf).reaches h hle
  | setSlotShares => exact setSlotShares_of_credit h hle
  | setSlotOfVariant => exact setSlotOfVariant_of_credit h hle
  | _ => exact ha.elim

theorem depositToPool_covered {s s₁ s₂ : State T} {who poolOf : T.AccountId} {reason : T.Reason}
    {value actual amount : Nat} {q : Directive} {receipt : CommitInstance T} (hs : Sound s)
    (h1 : deductBalance s who value q = .ok (s₁, actual))
    (h2 : depositToPool s₁ reason poolOf actual = .ok (s₂, receipt, amount)) :
    depositLeak s who reason (.pool poolOf) value ≤ getTotalValue s reason := by
  obtain rfl := deductBalance_amount h1
  obtain ⟨l, rfl, -⟩ := deductBalance_spec h1
  obtain ⟨pool, hp, htotal⟩ := depositToPool_total (hs.withLedger l) h2
  have hr := htotal reason
  rw [weightOf, if_pos rfl, Nat.one_mul] at hr
  rw [depositLeak_pool (s := s) hp]
  exact hr ▸ Nat.le_add_left _ _

theorem placeCommitOf_covered {who : T.AccountId} {reason : T.Reason} {model : DigestVariant T}
    {value amount : Nat} {variant : T.Position} {q : Directive} (hs : Sound s)
    (h : placeCommitOf s who reason model value variant q = .ok (t, amount)) :
    depositLeak s who reason model value ≤ getTotalValue s reason := by
  cases model with
  | direct digest => exact Nat.zero_le _
  | index indexOf => exact Nat.zero_le _
  | pool poolOf =>
    obtain ⟨⟨s1, actual⟩, h1, h⟩ := bind_eq_ok.mp h
    obtain ⟨⟨s2, receipt, amount'⟩, h2, -⟩ := bind_eq_ok.mp h
    exact depositToPool_covered hs h1 h2

theorem raiseCommitOf_covered {who : T.AccountId} {reason : T.Reason} {model : DigestVariant T}
    {value amount : Nat} {q : Directive} (hs : Sound s)
    (h : raiseCommitOf s who reason model value q = .ok (t, amount)) :
    depositLeak s who reason model value ≤ getTotalValue s reason := by
  cases model with
  | direct digest => exact Nat.zero_le _
  | index indexOf => exact Nat.zero_le _
  | pool poolOf =>
    obtain ⟨⟨s1, actual⟩, h1, h⟩ := bind_eq_ok.mp h
    obtain ⟨⟨s2, receipt, amount'⟩, h2, -⟩ := bind_eq_ok.mp h
    exact depositToPool_covered hs h1 h2

theorem covered_of_succeeds (hs : Sound s) {call : Call T} (h : s.apply call = .ok t) :
    DustCovered s call := by
  cases call with
  | placeCommit who reason digest value variant q =>
    obtain ⟨⟨s1, v⟩, h, -⟩ := bind_eq_ok.mp h
    obtain ⟨_, -, h⟩ := bind_eq_ok.mp h
    obtain ⟨_, -, h⟩ := bind_eq_ok.mp h
    exact Int.ofNat_le.mpr (placeCommitOf_covered hs h)
  | raiseCommit who reason value q =>
    obtain ⟨⟨s1, v⟩, h, -⟩ := bind_eq_ok.mp h
    obtain ⟨info, hi, h⟩ := raiseCommit_eq_ok h
    simp only [DustCovered, raiseLeak, hi]
    exact Int.ofNat_le.mpr (raiseCommitOf_covered hs h)
  | _ => trivial

/-- In every reachable state the total of a reason is what its digests hold, and a call that
fails for nothing but such a total fails exactly when a deposit's dust is above it. -/
theorem total_follows_live {s : State T} (hs : Reachable s) :
    (∀ reason, getTotalValue s reason = liveUnder s.digestMap reason) ∧
      ∀ call : Call T, call.adjusts → Viable s call →
        ((s.apply call).isOk = true ↔ DustCovered s call) := by
  refine ⟨hs.totalled.total_eq, fun call ha hv => ⟨fun hok => ?_, fun hc => ?_⟩⟩
  · obtain ⟨t, h⟩ := exists_eq_ok hok
    exact covered_of_succeeds hs.sound h
  · obtain ⟨t, h⟩ := succeeds_of_covered hs.totalled ha hv hc
    rw [h]
    rfl

end Calls

section Thirds

/-- The members of the pool's digests have left, so that the reason holds nothing. -/
def emptiedThirds : List (Call runtimeConfig) :=
  thirdsPool ++ [.resolveCommit (T := runtimeConfig) 1 0, .resolveCommit (T := runtimeConfig) 2 0,
    .resolveCommit (T := runtimeConfig) 3 0]

theorem total_follows_live_thirds :
    ((State.after fundedLedger thirdsPool).apply (place 4 30 10)).isOk = true ∧
      DustCovered (State.after fundedLedger thirdsPool) (place 4 30 10) :=
  have hok : ((State.after fundedLedger thirdsPool).apply (place 4 30 10)).isOk = true := rfl
  ⟨hok, ((total_follows_live ⟨_, _, rfl⟩).2 (place 4 30 10) trivial ⟨0, 0, rfl⟩).mp hok⟩

/-- Ten units placed in equal slots leave one unit of dust, which no total of zero covers. -/
theorem dust_underflows : ∃ s : State runtimeConfig, Reachable s ∧ Viable s (place 4 30 10) ∧
    s.apply (place 4 30 10) = .error .arithmeticUnderflow :=
  ⟨_, ⟨fundedLedger, emptiedThirds, rfl⟩, ⟨0, 1, rfl⟩, rfl⟩

end Thirds

end FrameSuite
