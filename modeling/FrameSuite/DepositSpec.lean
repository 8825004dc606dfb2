import FrameSuite.Holdings

/-! What the deposits of the pallet do: the receipts they issue on the vault, who holds
them, and the rounding they leave to the proprietor or to the manager of a pool. -/

namespace FrameSuite

open ShareBalance

variable {T : Config}

def principal (_ : Location T) (r : Receipt T.share) : Nat := r.principal

theorem tally_principalBy {w : T.Reason → Nat} {claims : Claims T} {reason : T.Reason}
    (h : ∀ c ∈ claims, c.1.1 = reason) : tally (principalBy w) claims = w reason * tally principal claims := by
  induction claims with
  | nil => rfl
  | cons c claims ih =>
    obtain ⟨loc, r⟩ := c
    have hc : loc.1 = reason := h _ (List.mem_cons_self ..)
    rw [tally_cons, tally_cons, ih fun c hm => h c (List.mem_cons_of_mem _ hm), principalBy, hc,
      Nat.mul_add]
    rfl

theorem depositToDigest_spec {s s' : State T} {reason : T.Reason} {digest : T.AccountId}
    {value amount : Nat} {variant : T.Position} {receipt : CommitInstance T}
    (h : depositToDigest s reason digest value variant = .ok (s', receipt, amount)) :
    amount = value ∧ ∃ r m, receipt = some r ∧ r.principal = value ∧ r.shares ≠ 0 ∧
      s' = { s with digestMap := m } ∧
      Deposits s.digestMap [(location reason digest variant, r)] m := by
  obtain ⟨info, hi, h⟩ := bind_eq_ok.mp h
  obtain ⟨⟨info', deposited, receipt'⟩, hd, h⟩ := bind_eq_ok.mp h
  simp only [pure_eq_ok, Prod.mk.injEq] at h
  obtain ⟨rfl, rfl, rfl⟩ := h
  rw [okOr_eq_ok] at hi
  obtain ⟨r, after, rfl, rfl, hdep, ht⟩ := DigestInfo.deposit_spec hd
  have htouch := ht.touch hi
  have hb := htouch.before
  refine ⟨rfl, r, _, rfl, hdep.principal_eq, hdep.shares_ne, rfl, ?_⟩
  have htouch' : Touch s.digestMap _ _ (balanceAt s.digestMap (location reason digest variant))
      (some after) := hb ▸ htouch
  refine .cons htouch' ?_ (.nil _)
  rw [hdep.principal_eq]
  exact hb ▸ hdep

theorem liftShare_failsOnly {α : Type} {p : DispatchError → Prop} (hb : ∀ e, p (.balance e))
    (x : ShareOutcome T.share α) : FailsOnly p (liftShare x) := by
  unfold liftShare
  split
  · exact .ok _
  · exact .error (hb _)

theorem DigestInfo.deposit_failsOnly {p : DispatchError → Prop} (hb : ∀ e, p (.balance e)) (hv : p .variantsExhausted)
    (hn : p .digestVariantBalanceNotFound) (info : DigestInfo T) (variant : T.Position) (value : Nat) :
    FailsOnly p (info.deposit variant value) := by
  refine .bind ?_ fun info _ => .bind (.okOr hn) fun balance _ =>
    .bind (liftShare_failsOnly hb _) fun _ _ => .pure _
  unfold DigestInfo.ensureBalance DigestInfo.initBalance
  split
  · exact .ok _
  · exact .ite (.ok _) (.error hv)

theorem entryDeposit_mul_le {value shares capital : Nat} {part : Fixed T.share.rational}
    (h : entryDeposit T value shares capital = .ok part) :
    part.toInteger * capital ≤ value * shares := by
  obtain ⟨_, -, h⟩ := bind_eq_ok.mp h
  obtain ⟨f, hf, h⟩ := bind_eq_ok.mp h
  rw [okOr_eq_ok, Fixed.checkedFromRational_eq_some] at hf
  rw [okOr_eq_ok] at h
  exact Fixed.toInteger_share_le (hf.2 ▸ Nat.div_mul_le_self _ _) h

theorem slotDeposit_mul_le {effective shares capital part : Nat} (hc : capital ≠ 0)
    (h : slotDeposit T effective shares capital = .ok part) :
    part * capital ≤ effective * shares := by
  obtain ⟨p, hp, h⟩ := bind_eq_ok.mp h
  obtain rfl := pure_eq_ok.mp h
  rw [okOr_eq_ok] at hp
  refine Fixed.toInteger_share_le ?_ hp
  rw [Fixed.saturatingFromRational, if_neg hc]
  exact (Nat.mul_le_mul_right _ (Nat.min_le_left _ _)).trans (Nat.div_mul_le_self _ _)

theorem depositToEntries_spec {who : T.AccountId} {reason : T.Reason} {indexOf : T.AccountId}
    {value capital : Nat} {entries : List (EntryInfo T)} {s s' : State T} {actual actual' : Nat}
    (h : depositToEntries who reason indexOf value capital entries s actual = .ok (s', actual')) :
    ∃ m e claims, s' = { s with digestMap := m, entryMap := e } ∧
      Deposits s.digestMap claims m ∧ (∀ c ∈ claims, c.1.1 = reason ∧ c.2.shares ≠ 0) ∧
      actual' = actual + tally principal claims ∧
      tally principal claims * capital ≤ value * (entries.map EntryInfo.shares).sum ∧
      (∀ φ at_, (∀ entry ∈ entries, φ (at_ (reason, indexOf, entry.digest, who)) =
          φ (location reason entry.digest entry.variant)) →
        entryHeld φ at_ e = entryHeld φ at_ s.entryMap + tally φ claims) ∧
      ∀ k, e.get k ≠ none → (s.entryMap.get k ≠ none ∨
        ∃ entry ∈ entries, k = (reason, indexOf, entry.digest, who)) := by
  induction entries generalizing s actual with
  | nil =>
    cases h
    exact ⟨_, _, [], rfl, .nil _, by simp, by simp, by simp, by simp, fun k hk => .inl hk⟩
  | cons entry entries ih =>
    obtain ⟨part, hp, h⟩ := bind_eq_ok.mp h
    have hpart := entryDeposit_mul_le hp
    split at h
    · obtain ⟨m, e, claims, rfl, hd, hr, ha, hb, he, hk⟩ := ih h
      refine ⟨m, e, claims, rfl, hd, hr, ha, ?_, fun φ at_ hat => ?_, fun k hk' => ?_⟩
      · rw [List.map_cons, List.sum_cons, Nat.mul_add]
        omega
      · exact he φ at_ fun entry hm => hat entry (List.mem_cons_of_mem _ hm)
      · rcases hk k hk' with hk' | ⟨en, hm, hk'⟩
        · exact .inl hk'
        · exact .inr ⟨en, List.mem_cons_of_mem _ hm, hk'⟩
    · obtain ⟨⟨s1, receipt, amount⟩, h1, h⟩ := bind_eq_ok.mp h
      obtain ⟨rfl, r, m1, rfl, hpr, hsh, rfl, hd1⟩ := depositToDigest_spec h1
      obtain ⟨s2, h2, h⟩ := bind_eq_ok.mp h
      obtain ⟨e2, rfl, he2, hk2⟩ := addEntryCommit_spec h2
      dsimp only at h he2 hk2
      obtain ⟨act, hact, h⟩ := bind_eq_ok.mp h
      rw [okOr_eq_ok, checkedAdd_eq_some] at hact
      obtain ⟨m, e, claims, rfl, hd, hr, ha, hb, he, hk⟩ := ih h
      refine ⟨m, e, _ :: claims, rfl, hd1.append hd, ?_, ?_, ?_, fun φ at_ hat => ?_, fun k hk' => ?_⟩
      · intro c hc
        rcases List.mem_cons.mp hc with rfl | hc
        · exact ⟨rfl, hsh⟩
        · exact hr c hc
      · rw [tally_cons, principal, ha, hact.1, hpr]
        omega
      · rw [tally_cons, principal, hpr, List.map_cons, List.sum_cons, Nat.mul_add, Nat.add_mul]
        omega
      · rw [he φ at_ fun entry hm => hat entry (List.mem_cons_of_mem _ hm), he2, tally_cons,
          hat entry (List.mem_cons_self ..)]
        omega
      · rcases hk k hk' with hk' | ⟨en, hm, hk'⟩
        · rcases (hk2 k).mp hk' with hk' | rfl
          · exact .inl hk'
          · exact .inr ⟨entry, List.mem_cons_self .., rfl⟩
        · exact .inr ⟨en, List.mem_cons_of_mem _ hm, hk'⟩

theorem depositToIndex_spec {s s' : State T} {who : T.AccountId}
    {reason : T.Reason} {indexOf : T.AccountId} {value amount : Nat} {receipt : CommitInstance T}
    (h : depositToIndex s who reason indexOf value = .ok (s', receipt, amount)) :
    ∃ info m e l claims, s.indexMap.get (reason, indexOf) = some info ∧ receipt = none ∧
      s' = { s with
        ledger := l
        digestMap := m
        entryMap := e
        indexMap := s.indexMap.insert (reason, indexOf) (info.setBalance (info.principal + amount)) } ∧
      Deposits s.digestMap claims m ∧ (∀ c ∈ claims, c.1.1 = reason ∧ c.2.shares ≠ 0) ∧
      amount = tally principal claims ∧ amount ≤ value ∧
      Flow s.ledger l (value - amount : Nat) ∧
      (∀ φ at_, (∀ entry ∈ info.entries.list, φ (at_ (reason, indexOf, entry.digest, who)) =
          φ (location reason entry.digest entry.variant)) →
        entryHeld φ at_ e = entryHeld φ at_ s.entryMap + tally φ claims) ∧
      ∀ k, e.get k ≠ none → (s.entryMap.get k ≠ none ∨
        ∃ entry ∈ info.entries.list, k = (reason, indexOf, entry.digest, who)) := by
  obtain ⟨info, hi, h⟩ := bind_eq_ok.mp h
  obtain ⟨_, hc, h⟩ := bind_eq_ok.mp h
  rw [ensure_eq_ok] at hc
  rw [getIndex, okOr_eq_ok] at hi
  obtain ⟨⟨s1, actual⟩, h1, h⟩ := bind_eq_ok.mp h
  obtain ⟨m, e, claims, rfl, hd, hr, ha, hb, he, hk⟩ := depositToEntries_spec h1
  obtain ⟨s2, h2, h⟩ := bind_eq_ok.mp h
  obtain ⟨l, rfl, hl⟩ := unlessZero_increase_spec h2
  obtain ⟨total, ht, h⟩ := bind_eq_ok.mp h
  rw [okOr_eq_ok, checkedAdd_eq_some] at ht
  simp only [pure_eq_ok, Prod.mk.injEq] at h
  obtain ⟨rfl, rfl, rfl⟩ := h
  rw [Nat.zero_add] at ha
  refine ⟨info, m, e, l, claims, hi, rfl, ?_, hd, hr, ha, ?_, hl, he, hk⟩
  · rw [ht.1]
  · rw [ha]
    rw [← info.capital_eq] at hb
    exact Nat.le_of_mul_le_mul_right hb (Nat.pos_of_ne_zero hc)

end FrameSuite
