import FrameSuite.ActiveValue
import FrameSuite.CommitInspect
import FrameSuite.EntryAccounts

/-! Withdrawals of receipts that were bought at the price of one. Each pays what was deposited, unless
it takes the last shares of a digest, which take all that the digest holds. -/

namespace FrameSuite

open ShareBalance

section Receipts

variable {T : Config} {b : Balance T.share} {r : Receipt T.share} {rs : List (Receipt T.share)}

theorem WholeReceipt.derivedValue (h : WholeReceipt r) (hb : b.bias = Fixed.one) :
    derivedValue b r = .ok r.shares := by
  have hone : (Fixed.one : Fixed T.share.rational).inner ≠ 0 := by
    rw [Fixed.one_inner]
    exact T.share.rational.div_pos.ne'
  have hprice : (if r.checkpoint < b.drainpoint then (Fixed.one : Fixed T.share.rational) else Fixed.one) =
      Fixed.one :=
    ite_self _
  refine derivedValue_eq_ok.mpr ⟨Fixed.saturatingFromInteger r.shares, Fixed.one,
    Fixed.saturatingFromInteger r.shares, ?_, ?_, ?_, ?_⟩
  · rw [h.bias, Fixed.checkedMul_one]
  · rw [hb, h.bias, hprice, Fixed.checkedDiv_self hone]
  · rw [ite_self, Fixed.checkedMul_one]
  · rw [Fixed.toInteger, Fixed.saturatingFromInteger_of_le h.fits, Nat.mul_div_cancel _ T.share.rational.div_pos]

theorem WholeReceipt.quote_eq (h : WholeReceipt r) (hb : b.bias = Fixed.one) : quote b r = r.shares := by
  simp [quote, h.derivedValue hb]

theorem WholeReceipt.active (h : WholeReceipt r) (hb : b.bias = Fixed.one) (hle : r.shares ≤ b.issued) :
    Active b r :=
  ⟨h.shares_ne, hle, by simp [redeemable, h.derivedValue hb]⟩

/-- What leaves with an amount of shares. -/
def takenWith (b : Balance T.share) (shares : Nat) : Nat := if shares = b.issued then b.effective else shares

theorem le_takenWith (hs : Solvent b) (hb : b.bias = Fixed.one) (shares : Nat) : shares ≤ takenWith b shares := by
  have hle := hs.bias_mul_le
  rw [hb, Fixed.one_inner, Nat.mul_comm] at hle
  have := Nat.le_of_mul_le_mul_right hle T.share.rational.div_pos
  unfold takenWith
  split <;> omega

theorem takenWith_zero (hs : Solvent b) : takenWith b 0 = 0 := by
  unfold takenWith
  split
  · rename_i hz
    exact (hs.of_empty hz.symm).1
  · rfl

/-- All receipts of one holder are withdrawn if the sums fit, for their shares and what the last
shares take. -/
theorem withdrawReceipts_whole (hs : Solvent b) (hb : b.bias = Fixed.one) (hw : ∀ r ∈ rs, WholeReceipt r)
    (hle : outstandingShares rs ≤ b.issued) :
    ∃ after, ∀ d out, d.deposit ≤ T.share.maxAsset → d.withdraw ≤ T.share.maxAsset →
      (withdrawReceipts (rs.map some) (some b) d = .ok out ↔
        out = (after, ⟨d.deposit + outstandingShares rs, d.withdraw + takenWith b (outstandingShares rs)⟩) ∧
        d.deposit + outstandingShares rs ≤ T.share.maxAsset ∧
        d.withdraw + takenWith b (outstandingShares rs) ≤ T.share.maxAsset) := by
  induction rs generalizing b with
  | nil =>
    refine ⟨some b, fun d out h1 h2 => ?_⟩
    rw [outstandingShares_nil, takenWith_zero hs]
    simp [withdrawReceipts, eq_comm, h1, h2]
  | cons r rs ih =>
    rw [outstandingShares_cons] at hle ⊢
    have hr := hw r (List.mem_cons_self ..)
    have hrest := fun t ht => hw t (List.mem_cons_of_mem _ ht)
    obtain ⟨w, nb, hwd, -, hwn⟩ := (hr.active hb (by omega : r.shares ≤ b.issued)).withdraws
    rw [hr.quote_eq hb] at hwn
    have hstep (d : AssetDelta) (out : LazyBalance T × AssetDelta) :
        withdrawReceipts ((r :: rs).map some) (some b) d = .ok out ↔
          d.deposit + r.shares ≤ T.share.maxAsset ∧ d.withdraw + w ≤ T.share.maxAsset ∧
          withdrawReceipts (rs.map some) (some nb)
            { deposit := d.deposit + r.shares, withdraw := d.withdraw + w } = .ok out := by
      simp only [List.map_cons, withdrawReceipts, receiptDepositValue, ← hr.shares, Except.mapError, hwd, liftShare,
        checkedAdd, okOr]
      by_cases h1 : d.deposit + r.shares ≤ T.share.maxAsset <;> by_cases h2 : d.withdraw + w ≤ T.share.maxAsset <;>
        simp [h1, h2, bind, Except.bind]
    -- the last shares leave no receipt behind them
    have hnil (h : r.shares = b.issued) : rs = [] := by
      cases rs with
      | nil => rfl
      | cons t rs =>
        have := (hrest t (List.mem_cons_self ..)).shares_ne
        rw [outstandingShares_cons] at hle
        omega
    have hsn := hwn.solvent hs
    rcases Nat.lt_or_eq_of_le hwn.shares_le with hlt | heq
    · obtain ⟨rfl, rfl⟩ := hwn.part_eq hs hlt
      obtain ⟨after, hafter⟩ := ih hsn hb hrest (by dsimp only; omega)
      refine ⟨after, fun d out h1 h2 => ?_⟩
      have htake : takenWith b (r.shares + outstandingShares rs) = r.shares +
          takenWith { b with effective := b.effective - r.shares, issued := b.issued - r.shares }
            (outstandingShares rs) := by
        have := (hwn.effective_add hs).1
        unfold takenWith
        dsimp only at this ⊢
        split <;> split <;> omega
      have hge := le_takenWith hsn hb (outstandingShares rs)
      rw [hstep, htake]
      constructor
      · rintro ⟨h1, h2, h⟩
        have hout := (hafter _ _ h1 h2).mp h
        simpa only [Nat.add_assoc] using hout
      · rintro ⟨rfl, h1, h2⟩
        refine ⟨by omega, by omega, (hafter _ _ (by dsimp only; omega) (by dsimp only; omega)).mpr ?_⟩
        simpa only [Nat.add_assoc, true_and] using ⟨h1, h2⟩
    · obtain rfl := hnil heq
      obtain ⟨rfl, -⟩ := hwn.last_eq hs heq
      refine ⟨some nb, fun d out h1 h2 => ?_⟩
      rw [hstep, outstandingShares_nil, Nat.add_zero, takenWith, if_pos heq]
      simp only [List.map_nil, withdrawReceipts, Except.ok.injEq]
      tauto

end Receipts

section Entries

variable {T : Config} {who : T.AccountId} {reason : T.Reason} {indexOf : T.AccountId}

/-- The receipts of an entry are withdrawn from one balance, as those of a direct commit. -/
theorem withdrawEntryReceipts_eq {digest : T.AccountId} {variant : T.Position} {receipts : List (CommitInstance T)}
    {m : DigestMap T} {info : DigestInfo T} {balance : LazyBalance T} {d : AssetDelta}
    (hi : m.get (reason, digest) = some info) (hb : info.getBalance variant = some balance) :
    withdrawEntryReceipts reason digest variant receipts m d =
      (withdrawReceipts receipts balance d).map fun out =>
        (m.insert (reason, digest) (info.setBalance variant out.1), out.2) := by
  induction receipts generalizing m info balance d with
  | nil => simp [withdrawEntryReceipts, withdrawReceipts, Except.map, DigestInfo.setBalance_self hb,
    StorageMap.insert_of_get hi]
  | cons receipt receipts ih =>
    simp only [withdrawEntryReceipts, withdrawReceipts]
    cases (receiptDepositValue receipt).mapError DispatchError.balance with
    | error e => rfl
    | ok value =>
      simp only [bind, Except.bind]
      cases okOr (checkedAdd T.share.maxAsset d.deposit value) DispatchError.depositAccumulationExhausted with
      | error e => rfl
      | ok given =>
        simp only [hi, okOr, DigestInfo.withdraw, hb, bind, Except.bind]
        cases liftShare (ShareBalance.withdraw balance receipt) with
        | error e => rfl
        | ok out =>
          obtain ⟨take, nb⟩ := out
          simp only [pure, Except.pure]
          cases checkedAdd T.share.maxAsset d.withdraw take with
          | none => rfl
          | some taken =>
            have hset := DigestInfo.getBalance_setBalance hb nb
            dsimp only
            rw [ih (StorageMap.get_insert_self ..) hset]
            simp only [StorageMap.insert_insert, DigestInfo.setBalance_setBalance]

/-- The receipts of a proprietor on an entry of an index, and the balance they are withdrawn from. -/
structure EntryReady (s : State T) (who : T.AccountId) (reason : T.Reason) (indexOf : T.AccountId)
    (entry : EntryInfo T) (rs : List (Receipt T.share)) (b : Balance T.share) : Prop where
  commits : ∃ commits, s.entryMap.get (reason, indexOf, entry.digest, who) = some commits ∧
    commits.receipts = rs.map some
  balance : ∃ info, s.digestMap.get (reason, entry.digest) = some info ∧
    info.getBalance entry.variant = some (some b)
  par : b.bias = Fixed.one
  solvent : Solvent b
  whole : ∀ r ∈ rs, WholeReceipt r
  shares_le : outstandingShares rs ≤ b.issued

variable {s : State T} {entries : List (EntryInfo T)} {own taken : EntryInfo T → Nat}

theorem EntryReady.other {entry e : EntryInfo T} {rs : List (Receipt T.share)} {b : Balance T.share}
    (h : EntryReady s who reason indexOf e rs b) (hne : e.digest ≠ entry.digest) (info : DigestInfo T) :
    EntryReady { s with
      digestMap := s.digestMap.insert (reason, entry.digest) info
      entryMap := s.entryMap.remove (reason, indexOf, entry.digest, who) } who reason indexOf e rs b := by
  refine ⟨?_, ?_, h.par, h.solvent, h.whole, h.shares_le⟩
  · obtain ⟨commits, hc, hr⟩ := h.commits
    refine ⟨commits, ?_, hr⟩
    dsimp only
    rw [StorageMap.get_remove_of_ne (by simp [hne]), hc]
  · obtain ⟨dinfo, hd, hb⟩ := h.balance
    refine ⟨dinfo, ?_, hb⟩
    dsimp only
    rw [StorageMap.get_insert_of_ne (by simp [hne]), hd]

/-- With a commit on every entry the withdrawal from an index takes all of them, if the sums fit. -/
theorem withdrawEntries_whole (hnd : (entries.map EntryInfo.digest).Nodup)
    (h : ∀ entry ∈ entries, ∃ rs b, EntryReady s who reason indexOf entry rs b ∧
      own entry = outstandingShares rs ∧ taken entry = takenWith b (outstandingShares rs)) :
    ∃ s', ∀ d out, d.deposit ≤ T.share.maxAsset → d.withdraw ≤ T.share.maxAsset →
      (withdrawEntries who reason indexOf entries s d = .ok out ↔
        out = (s', ⟨d.deposit + (entries.map own).sum, d.withdraw + (entries.map taken).sum⟩) ∧
        d.deposit + (entries.map own).sum ≤ T.share.maxAsset ∧
        d.withdraw + (entries.map taken).sum ≤ T.share.maxAsset) := by
  induction entries generalizing s with
  | nil => exact ⟨s, fun d out h1 h2 => by simp [withdrawEntries, eq_comm, h1, h2]⟩
  | cons entry entries ih =>
    rw [List.map_cons, List.nodup_cons] at hnd
    obtain ⟨rs, b, hready, hown, htaken⟩ := h entry (List.mem_cons_self ..)
    obtain ⟨commits, hc, hr⟩ := hready.commits
    obtain ⟨info, hi, hb⟩ := hready.balance
    obtain ⟨after, hafter⟩ := withdrawReceipts_whole hready.solvent hready.par hready.whole hready.shares_le
    rw [← htaken, ← hown] at hafter
    obtain ⟨s', hs'⟩ := ih (s := { s with
      digestMap := s.digestMap.insert (reason, entry.digest) (info.setBalance entry.variant after)
      entryMap := s.entryMap.remove (reason, indexOf, entry.digest, who) }) hnd.2 fun e he => by
        obtain ⟨rs', b', hready', heq⟩ := h e (List.mem_cons_of_mem _ he)
        exact ⟨rs', b', hready'.other (fun hd => hnd.1 (hd ▸ List.mem_map_of_mem he)) _, heq⟩
    refine ⟨s', fun d out h1 h2 => ?_⟩
    have hstep : withdrawEntries who reason indexOf (entry :: entries) s d = .ok out ↔
        ∃ nb, withdrawReceipts commits.receipts (some b) d = .ok nb ∧
          withdrawEntries who reason indexOf entries { s with
            digestMap := s.digestMap.insert (reason, entry.digest) (info.setBalance entry.variant nb.1)
            entryMap := s.entryMap.remove (reason, indexOf, entry.digest, who) } nb.2 = .ok out := by
      simp only [withdrawEntries, hc, okOr, withdrawEntryReceipts_eq hi hb, bind, Except.bind]
      cases withdrawReceipts commits.receipts (some b) d <;> simp [Except.map]
    rw [hstep, hr, List.map_cons, List.map_cons, List.sum_cons, List.sum_cons]
    constructor
    · rintro ⟨nb, hnb, h⟩
      obtain ⟨rfl, h3, h4⟩ := (hafter d nb h1 h2).mp hnb
      simpa only [Nat.add_assoc] using (hs' _ out h3 h4).mp h
    · rintro ⟨rfl, h3, h4⟩
      refine ⟨_, (hafter d _ h1 h2).mpr ⟨rfl, by omega, by omega⟩, (hs' _ _ ?_ ?_).mpr ?_⟩
      · dsimp only
        omega
      · dsimp only
        omega
      · simpa only [Nat.add_assoc, true_and] using ⟨h3, h4⟩

theorem canWithdrawReceipts_whole {rs : List (Receipt T.share)} {b : Balance T.share} (hw : ∀ r ∈ rs, WholeReceipt r)
    (hle : outstandingShares rs ≤ b.issued) : canWithdrawReceipts (some b) (rs.map some) = .ok () := by
  induction rs with
  | nil => rfl
  | cons r rs ih =>
    rw [outstandingShares_cons] at hle
    have hne := (hw r (List.mem_cons_self ..)).shares_ne
    have hvalid : ¬(b.issued < r.shares ∨ r.shares = 0 ∨ b.issued = 0) := by omega
    have hrest := ih (fun t ht => hw t (List.mem_cons_of_mem _ ht)) (by omega)
    simp [canWithdrawReceipts, ShareBalance.canWithdraw, hvalid, Except.mapError, hrest, bind, Except.bind]

theorem canResolveEntries_whole (h : ∀ entry ∈ entries, ∃ rs b, EntryReady s who reason indexOf entry rs b) :
    canResolveEntries s who reason indexOf entries = .ok () := by
  induction entries with
  | nil => rfl
  | cons entry entries ih =>
    obtain ⟨rs, b, hready⟩ := h entry (List.mem_cons_self ..)
    obtain ⟨commits, hc, hr⟩ := hready.commits
    obtain ⟨info, hi, hb⟩ := hready.balance
    have hcan := canWithdrawReceipts_whole hready.whole hready.shares_le
    have hrest := ih fun e he => h e (List.mem_cons_of_mem _ he)
    simp [canResolveEntries, hc, hi, hb, hr, hcan, hrest, okOr, bind, Except.bind]

theorem activeValues_eq {rs : List (Receipt T.share)} {b : Balance T.share} (total : Nat)
    (ha : ∀ r ∈ rs, Active b r) (hmax : total + totalActiveClaims (some b) rs ≤ T.share.maxAsset) :
    activeValues (some b) (rs.map some) total = .ok (total + totalActiveClaims (some b) rs) := by
  induction rs generalizing total with
  | nil => rfl
  | cons r rs ih =>
    obtain ⟨w, after, hw, hclaim, -⟩ := (ha r (List.mem_cons_self ..)).withdraws
    have hsum : totalActiveClaims (some b) (r :: rs) = w + totalActiveClaims (some b) rs := by
      simp [totalActiveClaims, hclaim]
    rw [hsum] at hmax ⊢
    have hrest : activeValues (some b) (rs.map some) (total + w) =
        .ok (total + w + totalActiveClaims (some b) rs) :=
      ih (total + w) (fun t ht => ha t (List.mem_cons_of_mem _ ht)) (by omega)
    have hadd : checkedAdd T.share.maxAsset total w = some (total + w) :=
      checkedAdd_eq_some.mpr ⟨rfl, by omega⟩
    simp [activeValues, receiptActiveValue_eq_ok.mpr ⟨_, hw⟩, Except.mapError, hadd, hrest, okOr, bind,
      Except.bind, Nat.add_assoc]

theorem activeValues_whole {rs : List (Receipt T.share)} {b : Balance T.share} {total : Nat} (hs : Solvent b)
    (hb : b.bias = Fixed.one) (hw : ∀ r ∈ rs, WholeReceipt r) (hle : outstandingShares rs ≤ b.issued)
    (heven : outstandingShares rs = b.issued → b.effective = b.issued)
    (hmax : total + outstandingShares rs ≤ T.share.maxAsset) :
    activeValues (some b) (rs.map some) total = .ok (total + outstandingShares rs) := by
  have hact : ∀ r ∈ rs, Active b r := fun r hr => (hw r hr).active hb ((le_outstandingShares hr).trans hle)
  have hclaims : totalActiveClaims (some b) rs = outstandingShares rs := by
    unfold totalActiveClaims outstandingShares
    refine congrArg List.sum (List.map_congr_left fun r hr => ?_)
    have hlr := le_outstandingShares hr
    rcases Nat.lt_or_eq_of_le (hact r hr).shares_le with hlt | heq
    · rw [(hact r hr).claim_part hs hlt, (hw r hr).quote_eq hb]
    · rw [(hact r hr).claim_last hs heq, heven (by omega), heq]
  rw [← hclaims] at hmax ⊢
  exact activeValues_eq total hact hmax

theorem entryCommitValues_whole {total : Nat}
    (h : ∀ entry ∈ entries, ∃ rs b, EntryReady s who reason indexOf entry rs b ∧
      own entry = outstandingShares rs ∧ (outstandingShares rs = b.issued → b.effective = b.issued))
    (hmax : total + (entries.map own).sum ≤ T.share.maxAsset) :
    entryCommitValues s who reason indexOf entries total = .ok (total + (entries.map own).sum) := by
  induction entries generalizing total with
  | nil => rfl
  | cons entry entries ih =>
    obtain ⟨rs, b, hready, hown, heven⟩ := h entry (List.mem_cons_self ..)
    obtain ⟨commits, hc, hr⟩ := hready.commits
    obtain ⟨info, hi, hb⟩ := hready.balance
    rw [List.map_cons, List.sum_cons] at hmax ⊢
    have hvalues : activeValues (some b) (rs.map some) total = .ok (total + outstandingShares rs) :=
      activeValues_whole hready.solvent hready.par hready.whole hready.shares_le heven (by omega)
    have hrest : entryCommitValues s who reason indexOf entries (total + own entry) =
        .ok (total + own entry + (entries.map own).sum) :=
      ih (fun e he => h e (List.mem_cons_of_mem _ he)) (by omega)
    rw [← hown] at hvalues
    simp [entryCommitValues, hc, hi, hb, hr, hvalues, hrest, okOr, bind, Except.bind, Nat.add_assoc]

end Entries

end FrameSuite
