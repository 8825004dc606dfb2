import FrameSuite.PoolSlots
import FrameSuite.ShareRoundTrip

/-! Deposits and withdrawals on the digests, told without who holds the receipts. None of them moves
a price, so a balance whose value is never set stays at the price of one. -/

namespace FrameSuite

open ShareBalance

variable {T : Config}

section Prices

/-- The balance at the location, if there is one, has the price of one. -/
def AtPar (m : DigestMap T) (l : Location T) : Prop := ∀ b, balanceAt m l = some b → b.bias = Fixed.one

/-- A receipt bought at the price of one for an amount that the carrier holds. -/
structure WholeReceipt (r : Receipt T.share) : Prop where
  bias : r.bias = Fixed.one
  shares : r.shares = r.principal
  shares_ne : r.shares ≠ 0
  fits : Representable T.share r.shares

theorem AtPar.fresh {m : DigestMap T} {l : Location T} (h : AtPar m l) :
    (isFreshBalance (balanceAt m l)).bias = Fixed.one := by
  obtain hb | ⟨b, hb⟩ := (balanceAt m l).eq_none_or_eq_some
  · rw [hb]
    rfl
  · rw [hb]
    exact h b hb

theorem AtPar.touch {m m' : DigestMap T} {l loc : Location T} {b b' : LazyBalance T} (h : AtPar m l)
    (ht : Touch m m' loc b b') (hb : l = loc → ∀ c, b' = some c → c.bias = Fixed.one) : AtPar m' l := by
  intro c hc
  rw [ht.after] at hc
  split at hc
  · exact hb ‹_› c hc
  · exact h c hc

theorem AtPar.deposits {m m' : DigestMap T} {l : Location T} {claims : Claims T} (h : AtPar m l)
    (hd : Deposits m claims m') : AtPar m' l := by
  induction hd with
  | nil => exact h
  | cons touch deposited rest ih =>
    refine ih (h.touch touch fun hl c hc => ?_)
    obtain rfl := Option.some.inj hc
    subst hl
    rw [deposited.after_eq]
    exact h.fresh

theorem AtPar.withdraws {m m' : DigestMap T} {l : Location T} {claims : Claims T} {taken : Nat}
    (h : AtPar m l) (hw : Withdraws m claims taken m') : AtPar m' l := by
  induction hw with
  | nil => exact h
  | cons touch withdrawn rest ih =>
    refine ih (h.touch touch fun hl c hc => ?_)
    obtain rfl := Option.some.inj hc
    subst hl
    have hb := h _ touch.before
    rcases Nat.lt_or_eq_of_le withdrawn.shares_le with hlt | heq
    · rw [(withdrawn.part hlt).2]
      exact hb
    · rcases (withdrawn.last heq).2 with rfl | rfl <;> rfl

theorem deriveShares_at_par {b : Balance T.share} {asset shares : Nat} (hb : b.bias = Fixed.one)
    (ha : Representable T.share asset) (h : deriveShares b asset = .ok shares) : shares = asset := by
  unfold deriveShares at h
  split at h
  · exact (Except.ok.inj h).symm
  · cases hd : (Fixed.saturatingFromInteger asset).checkedDiv b.bias with
    | none => simp [hd] at h
    | some q =>
      simp only [hd, Except.ok.injEq] at h
      obtain ⟨-, hq⟩ := Fixed.checkedDiv_eq_some.mp hd
      rw [Fixed.saturatingFromInteger_of_le ha, hb, Fixed.one_inner,
        Nat.mul_div_cancel _ T.share.rational.div_pos] at hq
      rw [← h, Fixed.toInteger, hq, Nat.mul_div_cancel _ T.share.rational.div_pos]

theorem ShareBalance.Deposited.wholeReceipt {balance : LazyBalance T} {r : Receipt T.share}
    {after : Balance T.share} (h : Deposited balance r.principal r after)
    (hb : (isFreshBalance balance).bias = Fixed.one) (ha : Representable T.share r.principal) :
    WholeReceipt r := by
  have hs := deriveShares_at_par hb ha h.derived
  exact ⟨h.bias_eq.trans hb, hs, h.shares_ne, hs ▸ ha⟩

end Prices

section Trades

/-- The step moves no price from one, and nothing is written to the commits, the entries and the
indexes. -/
structure Traded (s s' : State T) : Prop where
  par : ∀ l, AtPar s.digestMap l → AtPar s'.digestMap l
  commits : s'.commitMap = s.commitMap
  entries : s'.entryMap = s.entryMap
  indexes : s'.indexMap = s.indexMap

variable {s s' : State T} {reason : T.Reason}

theorem Traded.refl (s : State T) : Traded s s := ⟨fun _ h => h, rfl, rfl, rfl⟩

theorem Traded.trans {s s₁ s₂ : State T} (h : Traded s s₁) (h' : Traded s₁ s₂) : Traded s s₂ :=
  ⟨fun l hl => h'.par l (h.par l hl), h'.commits.trans h.commits, h'.entries.trans h.entries,
    h'.indexes.trans h.indexes⟩

theorem depositToDigest_traded {digest : T.AccountId} {value amount : Nat} {variant : T.Position}
    {receipt : CommitInstance T}
    (h : depositToDigest s reason digest value variant = .ok (s', receipt, amount)) :
    Traded s s' ∧ ∃ r, receipt = some r ∧ r.principal = amount := by
  obtain ⟨rfl, r, m, rfl, hp, -, rfl, hd⟩ := depositToDigest_spec h
  exact ⟨⟨fun _ hl => hl.deposits hd, rfl, rfl, rfl⟩, r, rfl, hp⟩

theorem withdrawFromDigest_traded {who digest : T.AccountId} {d : AssetDelta}
    (h : withdrawFromDigest s who reason digest = .ok (s', d)) : Traded s s' := by
  obtain ⟨commit, m, -, rfl, hw, -⟩ := withdrawFromDigest_spec h
  exact ⟨fun _ hl => hl.withdraws hw, rfl, rfl, rfl⟩

theorem rebalanced_traded {s₁ s₂ s₃ : State T} {poolOf : T.AccountId} {balance balance' : LazyBalance T}
    {pool released pool' recovered : PoolInfo T} {claims : Claims T} {m m' : DigestMap T} {dust : Nat}
    (hrel : Released s s₁ reason poolOf balance pool released claims m)
    (hmid : ∃ pm, s₂ = { s₁ with poolMap := pm })
    (hrec : Recovered s₂ s₃ reason poolOf balance' pool' recovered m' dust) : Traded s s₃ := by
  obtain ⟨l, rv, hs₃, -⟩ := hrec.state_eq
  obtain ⟨pm, hmid⟩ := hmid
  have hdep := hrec.deposits
  rw [hmid, hrel.state_eq] at hs₃ hdep
  rw [hs₃]
  exact ⟨fun _ hl => (hl.withdraws hrel.withdraws).deposits hdep, rfl, rfl, rfl⟩

theorem depositToPool_traded {poolOf : T.AccountId} {value amount : Nat} {receipt : CommitInstance T}
    (hs : Sound s) (h : depositToPool s reason poolOf value = .ok (s', receipt, amount)) :
    Traded s s' ∧ ∃ r, receipt = some r ∧ r.principal = amount := by
  obtain ⟨rfl, pool, released, recovered, claims, m, m', balance, r, after, s1, rfl, hd⟩ :=
    depositToPool_spec hs h
  exact ⟨rebalanced_traded hd.release ⟨s1.poolMap, rfl⟩ hd.recover, r, rfl, hd.deposit.principal_eq⟩

theorem withdrawFromPool_traded {who poolOf : T.AccountId} {d : AssetDelta} (hs : Sound s)
    (h : withdrawFromPool s who reason poolOf = .ok (s', d)) : Traded s s' := by
  obtain ⟨commit, -, h⟩ := bind_eq_ok.mp h
  obtain ⟨⟨s1, balance⟩, h1, h⟩ := bind_eq_ok.mp h
  obtain ⟨pool, released, claims, m, hrel⟩ := releasePool_spec h1
  obtain ⟨hsb, -⟩ := hrel.solvent hs
  obtain ⟨⟨nb, d1⟩, h2, h⟩ := bind_eq_ok.mp h
  obtain ⟨hnb, -, -, hmax⟩ := withdrawReceipts_spec hsb h2
  obtain ⟨s2, h3, h⟩ := bind_eq_ok.mp h
  obtain ⟨pool1, recovered, m', dust, hrec⟩ := recoverPool_spec hnb h3
  have ht := rebalanced_traded hrel ⟨s1.poolMap, rfl⟩ hrec
  have hp2 : s2.poolMap.get (reason, poolOf) = some recovered := by
    obtain ⟨l, rv, rfl, -, -⟩ := hrec.state_eq
    exact StorageMap.get_insert_self ..
  obtain ⟨-, l, rv, rfl, -, -⟩ := payCommission_spec hp2 (hmax (Nat.zero_le _)) h
  exact ⟨ht.par, ht.commits, ht.entries, ht.indexes⟩

theorem removePoolSlot_traded {poolOf slotOf : T.AccountId} (hs : Sound s)
    (h : removePoolSlot s reason poolOf slotOf = .ok s') : Traded s s' := by
  obtain ⟨s₁, balance, pool, released, pool', claims, m, hr⟩ := removePoolSlot_reslotted h
  obtain ⟨recovered, m', dust, hrec, -⟩ := hr.recovered hs
  exact rebalanced_traded hr.release ⟨_, rfl⟩ hrec

theorem setPoolSlot_traded {poolOf slotOf : T.AccountId} {shares : Nat} {slotVariant : T.Position}
    (hs : Sound s) (h : setPoolSlot s reason poolOf slotOf shares slotVariant = .ok s') : Traded s s' := by
  obtain ⟨s₁, balance, pool, released, pool', claims, m, hr⟩ := setPoolSlot_reslotted h
  obtain ⟨recovered, m', dust, hrec, -⟩ := hr.recovered hs
  exact rebalanced_traded hr.release ⟨_, rfl⟩ hrec

theorem setSlotShares_traded {poolOf slotOf : T.AccountId} {shares : Nat} (hs : Sound s)
    (h : setSlotShares s reason poolOf slotOf shares = .ok s') : Traded s s' := by
  unfold setSlotShares at h
  split at h <;> split at h
  · exact removePoolSlot_traded hs h
  · exact setPoolSlot_traded hs h
  · exact (pure_eq_ok.mp h) ▸ .refl s
  · obtain ⟨_, -, h⟩ := bind_eq_ok.mp h
    exact setPoolSlot_traded hs h

theorem setSlotOfVariant_traded {poolOf slotOf : T.AccountId} {slotVariant : T.Position}
    {shares : Option Nat} (hs : Sound s)
    (h : setSlotOfVariant s reason poolOf slotOf slotVariant shares = .ok s') : Traded s s' := by
  unfold setSlotOfVariant at h
  split at h
  · split at h
    · exact removePoolSlot_traded hs h
    · exact setPoolSlot_traded hs h
  · exact setPoolSlot_traded hs h
  · split at h
    · exact (pure_eq_ok.mp h) ▸ .refl s
    · obtain ⟨_, -, h⟩ := bind_eq_ok.mp h
      exact setPoolSlot_traded hs h
  · cases h

end Trades

end FrameSuite
