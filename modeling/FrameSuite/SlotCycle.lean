import FrameSuite.ActiveValue
import FrameSuite.EvenParts

/-! The slots of a pool through a recovery and the release after it. A slot is never worth more than
its deposit; where it is worth as much, the digest takes the same deposit again. -/

namespace FrameSuite

open ShareBalance

section Receipts

variable {C : ShareConfig} {balance : VirtualBalance C} {asset : Nat} {r : Receipt C} {after : Balance C}

theorem ShareBalance.Deposited.claim_le_asset (h : Deposited balance asset r after)
    (hs : Solvent (isFreshBalance balance)) {w : Nat} {nb : VirtualBalance C}
    (hw : withdraw (some after) (some r) = (.ok w, nb)) : w ≤ asset := by
  have hsol := h.solvent hs
  obtain ⟨b, t, derived, c, hb, ht, rfl, hwd⟩ := withdraw_eq_ok hw
  obtain rfl := Option.some.inj hb
  obtain rfl := Option.some.inj ht
  have hbias : after.bias = (isFreshBalance balance).bias := by rw [h.after_eq]
  have hissued : after.issued = (isFreshBalance balance).issued + r.shares := by rw [h.after_eq]
  have heffective : after.effective = (isFreshBalance balance).effective + asset := by rw [h.after_eq]
  rcases Nat.lt_or_eq_of_le hwd.shares_le with hlt | heq
  · obtain ⟨rfl, -⟩ := hwd.part_eq hsol hlt
    have hle := derivedValue_le hwd.derived_eq
    rw [hbias, Nat.mul_comm r.shares] at hle
    exact Nat.le_of_mul_le_mul_right (hle.trans (deriveShares_mul_le hs h.derived)) C.rational.div_pos
  · obtain ⟨rfl, -⟩ := hwd.last_eq hsol heq
    have hempty := (hs.of_empty (by omega)).1
    omega

theorem derivedValue_at_one {b : Balance C} {t : Receipt C} (hb : b.bias = Fixed.one) (ht : t.bias = Fixed.one) :
    redeemable b t = true := by
  have hone : (Fixed.one : Fixed C.rational).inner ≠ 0 := C.rational.div_pos.ne'
  simp [redeemable, derivedValue, hb, ht, Fixed.checkedMul_one, Fixed.checkedDiv_self hone]

theorem ShareBalance.Deposited.redeposit (h : Deposited balance asset r after)
    (hs : Solvent (isFreshBalance balance)) {nb : VirtualBalance C}
    (hw : withdraw (some after) (some r) = (.ok asset, nb)) :
    ∃ mid t again, nb = some mid ∧ Deposited (some mid) asset t again ∧
      receiptActiveValue (some again) (some t) = .ok asset := by
  have hsol := h.solvent hs
  obtain ⟨b, t, derived, mid, hb, ht, rfl, hwd⟩ := withdraw_eq_ok hw
  obtain rfl := Option.some.inj hb
  obtain rfl := Option.some.inj ht
  rcases Nat.lt_or_eq_of_le hwd.shares_le with hlt | heq
  · obtain ⟨rfl, hmid⟩ := hwd.part_eq hsol hlt
    have hback : mid = isFreshBalance balance := by
      rw [hmid, h.after_eq]
      simp
    refine ⟨mid, r, after, rfl, ?_, receiptActiveValue_eq_ok.mpr ⟨_, hw⟩⟩
    have hfresh : isFreshBalance (some mid) = isFreshBalance balance := hback
    obtain ⟨h1, h2, h3, h4, h5, h6, h7, h8, h9, h10⟩ := h
    rw [← hfresh] at h2 h3 h5 h6 h8 h9 h10
    exact ⟨h1, h2, h3, h4, h5, h6, h7, h8, h9, h10⟩
  · obtain ⟨hpaid, hclosed⟩ := hwd.last_eq hsol heq
    have hfits : asset ≤ C.maxAsset := le_trans (Nat.le_add_left _ _) h.effective_le
    have hdeposit : Deposited (some mid) asset
        { principal := asset, shares := asset, bias := mid.bias, checkpoint := mid.checkpoint }
        { mid with effective := mid.effective + asset, issued := mid.issued + asset } := by
      refine ⟨h.asset_ne, ?_, ?_, h.asset_ne, ?_, ?_, rfl, rfl, rfl, rfl⟩
      · change mid.bias.inner ≠ 0
        rw [hclosed.bias_eq]
        exact C.rational.div_pos.ne'
      · exact if_pos hclosed.issued_eq
      · change mid.effective + asset ≤ _
        rw [hclosed.effective_eq]
        omega
      · change mid.issued + asset ≤ _
        rw [hclosed.issued_eq]
        omega
    have hagain := hdeposit.solvent (hwd.solvent hsol)
    have hact : Active { mid with effective := mid.effective + asset, issued := mid.issued + asset }
        { principal := asset, shares := asset, bias := mid.bias, checkpoint := mid.checkpoint } :=
      ⟨h.asset_ne, Nat.le_add_left _ _, derivedValue_at_one hclosed.bias_eq hclosed.bias_eq⟩
    obtain ⟨w, last, hlast, hclaim, -⟩ := hact.withdraws
    have hall : asset = mid.issued + asset := by rw [hclosed.issued_eq, Nat.zero_add]
    have hvalue := hact.claim_last hagain hall
    rw [hclaim] at hvalue
    refine ⟨mid, _, _, rfl, hdeposit, ?_⟩
    rw [receiptActiveValue_eq_ok.mpr ⟨_, hlast⟩, hvalue]
    change Except.ok (mid.effective + asset) = _
    rw [hclosed.effective_eq, Nat.zero_add]

end Receipts

variable {T : Config}

section Digests

theorem DigestInfo.getBalance_of_lt {info : DigestInfo T} {variant : T.Position}
    (h : T.positionIndex variant < info.balances.length) :
    info.getBalance variant = some (info.at (T.positionIndex variant)) := by
  simp [DigestInfo.getBalance, DigestInfo.at, h]

theorem DigestInfo.redeposit {info info' : DigestInfo T} {variant : T.Position} {value : Nat}
    {receipt : CommitInstance T} (hs : Solvent (isFreshBalance (info.at (T.positionIndex variant))))
    (h : info.deposit variant value = .ok (info', value, receipt))
    (hv : receiptActiveValue (info'.at (T.positionIndex variant)) receipt = .ok value) :
    ∃ mid again renewed, info'.withdraw variant receipt = .ok (mid, value) ∧
      mid.deposit variant value = .ok (again, value, renewed) ∧
      receiptActiveValue (again.at (T.positionIndex variant)) renewed = .ok value := by
  obtain ⟨r, after, -, rfl, hdep, htouch⟩ := DigestInfo.deposit_spec h
  have hat : info'.at (T.positionIndex variant) = some after := by rw [htouch.after, if_pos rfl]
  have hget := DigestInfo.getBalance_of_lt htouch.lt
  rw [hat] at hv hget
  obtain ⟨nb, hw⟩ := receiptActiveValue_eq_ok.mp hv
  obtain ⟨b, t, again, rfl, hdeposit, hvalue⟩ := hdep.redeposit hs hw
  have hset := DigestInfo.setBalance_touch hget (some b)
  have hmid := DigestInfo.getBalance_of_lt hset.lt
  rw [hset.after, if_pos rfl] at hmid
  have hok : ShareBalance.deposit (some b) value = (.ok (value, t), some again) :=
    deposit_eq_ok.mpr ⟨again, rfl, rfl, hdeposit⟩
  refine ⟨info'.setBalance variant (some b), (info'.setBalance variant (some b)).setBalance variant (some again),
    some t, ?_, ?_, ?_⟩
  · simp [DigestInfo.withdraw, hget, hw, liftShare, okOr, bind, Except.bind, pure, Except.pure]
  · simp [DigestInfo.deposit, DigestInfo.ensureBalance, hmid, hok, liftShare, okOr, bind, Except.bind, pure,
      Except.pure]
  · rw [(DigestInfo.setBalance_touch hmid (some again)).after, if_pos rfl]
    exact hvalue

end Digests

section Slots

variable {reason : T.Reason} {slots done : List (SlotInfo T)} {m₀ m m' : DigestMap T} {taken taken' : Nat}

/-- What was deposited to a slot. -/
def SlotInfo.deposited (slot : SlotInfo T) : Nat := slot.commit.elim 0 Receipt.principal

/-- What a recovery leaves on a slot: nothing where its part is zero, a deposit of its part otherwise. -/
structure SlotFilled (m m' : DigestMap T) (reason : T.Reason) (part : Nat) (slot : SlotInfo T) : Prop where
  idle : part = 0 → slot.commit = none
  held : part ≠ 0 → ∃ info info', m.get (reason, slot.digest) = some info ∧
    info.deposit slot.variant part = .ok (info', part, slot.commit) ∧ m'.get (reason, slot.digest) = some info'

theorem SlotFilled.deposited_eq {part : Nat} {slot : SlotInfo T} (h : SlotFilled m m' reason part slot) :
    slot.deposited = part := by
  by_cases hz : part = 0
  · rw [SlotInfo.deposited, h.idle hz, hz]
    rfl
  · obtain ⟨info, info', -, hd, -⟩ := h.held hz
    obtain ⟨r, after, -, hr, hdep, -⟩ := DigestInfo.deposit_spec hd
    rw [SlotInfo.deposited, hr]
    exact hdep.principal_eq

theorem SlotFilled.slotValue_of_zero {slot : SlotInfo T} (h : SlotFilled m m' reason 0 slot) :
    slotValue m' reason slot = 0 := by
  rw [slotValue, if_pos (h.idle rfl)]

theorem SlotFilled.slotValue_le {part : Nat} {slot : SlotInfo T} (hs : AllSolvent m)
    (h : SlotFilled m m' reason part slot) : slotValue m' reason slot ≤ part := by
  by_cases hz : part = 0
  · subst hz
    rw [h.slotValue_of_zero]
  · obtain ⟨info, info', hm, hd, hm'⟩ := h.held hz
    obtain ⟨r, after, -, hr, hdep, htouch⟩ := DigestInfo.deposit_spec hd
    have hsol := hs.fresh (location reason slot.digest slot.variant)
    simp only [balanceAt, location, hm] at hsol
    have hat : balanceAt m' (location reason slot.digest slot.variant) = some after := by
      simp [balanceAt, location, hm', htouch.after]
    rw [slotValue, hat, hr]
    split
    · exact Nat.zero_le _
    · split
      · rename_i value hv
        obtain ⟨nb, hw⟩ := receiptActiveValue_eq_ok.mp hv
        exact hdep.claim_le_asset hsol hw
      · exact Nat.zero_le _

theorem SlotFilled.restores {part : Nat} {slot : SlotInfo T} (hs : AllSolvent m)
    (h : SlotFilled m m' reason part slot) (hv : slotValue m' reason slot = part) (hz : part ≠ 0) :
    ∃ info mid again renewed, m'.get (reason, slot.digest) = some info ∧
      info.withdraw slot.variant slot.commit = .ok (mid, part) ∧
      mid.deposit slot.variant part = .ok (again, part, renewed) ∧
      receiptActiveValue (again.at (T.positionIndex slot.variant)) renewed = .ok part := by
  obtain ⟨info, info', hm, hd, hm'⟩ := h.held hz
  have hsol := hs.fresh (location reason slot.digest slot.variant)
  simp only [balanceAt, location, hm] at hsol
  have hat : balanceAt m' (location reason slot.digest slot.variant) =
      info'.at (T.positionIndex slot.variant) := by
    simp [balanceAt, location, hm']
  have hactive : receiptActiveValue (info'.at (T.positionIndex slot.variant)) slot.commit = .ok part := by
    rw [slotValue, hat] at hv
    split at hv
    · exact absurd hv.symm hz
    · split at hv
      · rename_i value hvalue
        rw [hvalue, hv]
      · exact absurd hv.symm hz
  obtain ⟨mid, again, renewed, hw, hagain, hvalue⟩ := DigestInfo.redeposit hsol hd hactive
  exact ⟨info', mid, again, renewed, hm', hw, hagain, hvalue⟩

theorem ne_of_nodup_cons {slot other : SlotInfo T} (hnd : ((slot :: slots).map SlotInfo.digest).Nodup)
    (ho : other ∈ slots) : (reason, other.digest) ≠ (reason, slot.digest) := by
  rw [List.map_cons, List.nodup_cons] at hnd
  intro he
  exact hnd.1 ((Prod.mk.inj he).2 ▸ List.mem_map_of_mem ho)

/-- A recovery fills its slots one by one; none of them shares a digest with another. -/
theorem recoverSlots_filled {effective : Nat} {pool pool' : PoolInfo T} (hnd : (slots.map SlotInfo.digest).Nodup)
    (hm : ∀ slot ∈ slots, m.get (reason, slot.digest) = m₀.get (reason, slot.digest))
    (hs : pool.slots = done ++ slots)
    (h : recoverSlots reason effective slots m pool taken = .ok (m', pool', taken')) :
    ∃ rest, pool'.slots = done ++ rest ∧ slotShapes rest = slotShapes slots ∧
      (∀ slot ∈ rest, SlotFilled m₀ m' reason (slotPart T effective pool.capital slot.shares) slot) ∧
      ∀ key, (∀ slot ∈ slots, (reason, slot.digest) ≠ key) → m'.get key = m.get key := by
  induction slots generalizing m pool taken done with
  | nil =>
    cases h
    exact ⟨[], hs, rfl, by simp, fun _ _ => rfl⟩
  | cons slot slots ih =>
    have hnd' := (List.nodup_cons.mp hnd).2
    obtain ⟨part, hp, h⟩ := bind_eq_ok.mp h
    have hpart : slotPart T effective pool.capital slot.shares = part := by rw [slotPart, hp]
    split at h
    · rename_i hz
      obtain ⟨pool1, h1, h⟩ := bind_eq_ok.mp h
      obtain ⟨hs1, hc1, -⟩ := setSlotCommit_spec h1 hs
      obtain ⟨rest, hr, hshapes, hfilled, hframe⟩ := ih hnd' (fun other ho => hm other (List.mem_cons_of_mem _ ho))
        (show pool1.slots = (done ++ [slot.setCommit none]) ++ slots by simpa using hs1) h
      rw [hc1] at hfilled
      refine ⟨slot.setCommit none :: rest, by simpa using hr, ?_, ?_, fun key hkey => ?_⟩
      · rw [slotShapes, List.map_cons, ← slotShapes, hshapes]
        rfl
      · rw [List.forall_mem_cons]
        refine ⟨⟨fun _ => rfl, fun hne => absurd (hpart.trans hz) hne⟩, hfilled⟩
      · exact hframe key fun other ho => hkey other (List.mem_cons_of_mem _ ho)
    · rename_i hz
      obtain ⟨info, hi, h⟩ := bind_eq_ok.mp h
      rw [okOr_eq_ok, hm slot (List.mem_cons_self ..)] at hi
      obtain ⟨⟨info', deposited, receipt⟩, hd, h⟩ := bind_eq_ok.mp h
      obtain ⟨r, after, rfl, rfl, -⟩ := DigestInfo.deposit_spec hd
      obtain ⟨_, -, h⟩ := bind_eq_ok.mp h
      obtain ⟨total, -, h⟩ := bind_eq_ok.mp h
      obtain ⟨pool1, h1, h⟩ := bind_eq_ok.mp h
      obtain ⟨hs1, hc1, -⟩ := setSlotCommit_spec h1 hs
      obtain ⟨rest, hr, hshapes, hfilled, hframe⟩ := ih hnd'
        (fun other ho => by
          rw [StorageMap.get_insert_of_ne (ne_of_nodup_cons hnd ho)]
          exact hm other (List.mem_cons_of_mem _ ho))
        (show pool1.slots = (done ++ [slot.setCommit (some r)]) ++ slots by simpa using hs1) h
      rw [hc1] at hfilled
      refine ⟨slot.setCommit (some r) :: rest, by simpa using hr, ?_, ?_, fun key hkey => ?_⟩
      · rw [slotShapes, List.map_cons, ← slotShapes, hshapes]
        rfl
      · rw [List.forall_mem_cons]
        refine ⟨⟨fun he => absurd (hpart.symm.trans he) hz, fun _ => ⟨info, info', hi, ?_, ?_⟩⟩, hfilled⟩
        · rw [← hpart] at hd
          exact hd
        · change m'.get (reason, slot.digest) = some info'
          rw [hframe _ fun other ho => ne_of_nodup_cons hnd ho]
          exact StorageMap.get_insert_self ..
      · rw [hframe key fun other ho => hkey other (List.mem_cons_of_mem _ ho),
          StorageMap.get_insert_of_ne (hkey slot (List.mem_cons_self ..)).symm]

theorem recoverSlots_isOk {effective : Nat} {pool : PoolInfo T} (taken : Nat)
    (hnd : (slots.map SlotInfo.digest).Nodup)
    (hm : ∀ slot ∈ slots, m.get (reason, slot.digest) = m₀.get (reason, slot.digest))
    (hs : pool.slots = done ++ slots) (hc : pool.capital ≠ 0)
    (hfill : ∀ slot ∈ slots, slotPart T effective pool.capital slot.shares ≠ 0 →
      ∃ info out, m₀.get (reason, slot.digest) = some info ∧
        info.deposit slot.variant (slotPart T effective pool.capital slot.shares) = .ok out)
    (hmax : taken + (slotParts T effective pool.capital (slots.map SlotInfo.shares)).sum ≤ T.share.maxAsset) :
    ∃ out, recoverSlots reason effective slots m pool taken = .ok out := by
  induction slots generalizing m pool taken done with
  | nil => exact ⟨_, rfl⟩
  | cons slot slots ih =>
    have hnd' := (List.nodup_cons.mp hnd).2
    have hshares : slot.shares ≤ pool.capital := by
      rw [pool.capital_eq, hs]
      exact List.single_le_sum (fun _ _ => Nat.zero_le _) _ (List.mem_map_of_mem (by simp))
    have hmem : slot.digest ∈ pool.slots.map SlotInfo.digest := by
      rw [hs]
      exact List.mem_map_of_mem (by simp)
    rw [slotParts, List.map_cons, List.map_cons, List.sum_cons, ← slotParts] at hmax
    have hset (commit : CommitInstance T) : ∃ pool1, pool.setSlotCommit slot.digest commit = .ok pool1 :=
      ⟨_, if_pos hmem⟩
    by_cases hz : slotPart T effective pool.capital slot.shares = 0
    · obtain ⟨pool1, h1⟩ := hset none
      obtain ⟨hs1, hc1, -⟩ := setSlotCommit_spec h1 hs
      obtain ⟨out, hout⟩ := ih taken hnd' (fun other ho => hm other (List.mem_cons_of_mem _ ho))
        (show pool1.slots = (done ++ [slot.setCommit none]) ++ slots by simpa using hs1) (hc1 ▸ hc)
        (fun other ho => hc1 ▸ hfill other (List.mem_cons_of_mem _ ho)) (by rw [hc1]; omega)
      refine ⟨out, ?_⟩
      simp [recoverSlots, slotDeposit_isOk hc hshares, hz, h1, hout, bind, Except.bind]
    · obtain ⟨info, ⟨info', deposited, receipt⟩, hi, hd⟩ := hfill slot (List.mem_cons_self ..) hz
      obtain ⟨r, after, rfl, rfl, -⟩ := DigestInfo.deposit_spec hd
      obtain ⟨pool1, h1⟩ := hset (some r)
      obtain ⟨hs1, hc1, -⟩ := setSlotCommit_spec h1 hs
      obtain ⟨out, hout⟩ := ih (m := m.insert (reason, slot.digest) info')
        (taken + slotPart T effective pool.capital slot.shares) hnd'
        (fun other ho => by
          rw [StorageMap.get_insert_of_ne (ne_of_nodup_cons hnd ho)]
          exact hm other (List.mem_cons_of_mem _ ho))
        (show pool1.slots = (done ++ [slot.setCommit (some r)]) ++ slots by simpa using hs1) (hc1 ▸ hc)
        (fun other ho => hc1 ▸ hfill other (List.mem_cons_of_mem _ ho)) (by rw [hc1]; omega)
      rw [← hm slot (List.mem_cons_self ..)] at hi
      have hadd : checkedAdd T.share.maxAsset taken (slotPart T effective pool.capital slot.shares) =
          some (taken + slotPart T effective pool.capital slot.shares) := checkedAdd_eq_some.mpr ⟨rfl, by omega⟩
      refine ⟨out, ?_⟩
      simp [recoverSlots, slotDeposit_isOk hc hshares, hz, hi, hd, h1, hadd, hout, ensure, okOr, bind, Except.bind]

theorem releaseSlots_emptied (hnd : (slots.map SlotInfo.digest).Nodup)
    (hm : ∀ slot ∈ slots, m.get (reason, slot.digest) = m₀.get (reason, slot.digest))
    (h : releaseSlots reason slots m taken = .ok (m', taken')) :
    (∀ slot ∈ slots, slot.commit ≠ none → ∃ info info' take, m₀.get (reason, slot.digest) = some info ∧
      info.withdraw slot.variant slot.commit = .ok (info', take) ∧ m'.get (reason, slot.digest) = some info') ∧
    ∀ key, (∀ slot ∈ slots, (reason, slot.digest) ≠ key) → m'.get key = m.get key := by
  induction slots generalizing m taken with
  | nil =>
    cases h
    exact ⟨by simp, fun _ _ => rfl⟩
  | cons slot slots ih =>
    have hnd' := (List.nodup_cons.mp hnd).2
    unfold releaseSlots at h
    split at h
    · rename_i hc
      obtain ⟨hall, hframe⟩ := ih hnd' (fun other ho => hm other (List.mem_cons_of_mem _ ho)) h
      refine ⟨?_, fun key hkey => hframe key fun other ho => hkey other (List.mem_cons_of_mem _ ho)⟩
      rw [List.forall_mem_cons]
      exact ⟨fun hne => absurd hc hne, hall⟩
    · rename_i hc
      obtain ⟨info, hi, h⟩ := bind_eq_ok.mp h
      rw [okOr_eq_ok, hm slot (List.mem_cons_self ..)] at hi
      obtain ⟨⟨info', take⟩, hw, h⟩ := bind_eq_ok.mp h
      obtain ⟨total, -, h⟩ := bind_eq_ok.mp h
      obtain ⟨hall, hframe⟩ := ih hnd' (fun other ho => by
        rw [StorageMap.get_insert_of_ne (ne_of_nodup_cons hnd ho)]
        exact hm other (List.mem_cons_of_mem _ ho)) h
      refine ⟨?_, fun key hkey => ?_⟩
      · rw [List.forall_mem_cons]
        refine ⟨fun _ => ⟨info, info', take, hi, hw, ?_⟩, hall⟩
        rw [hframe _ fun other ho => ne_of_nodup_cons hnd ho]
        exact StorageMap.get_insert_self ..
      · rw [hframe key fun other ho => hkey other (List.mem_cons_of_mem _ ho),
          StorageMap.get_insert_of_ne (hkey slot (List.mem_cons_self ..)).symm]

theorem releaseSlots_isOk (taken : Nat) (value : SlotInfo T → Nat) (hnd : (slots.map SlotInfo.digest).Nodup)
    (hm : ∀ slot ∈ slots, m.get (reason, slot.digest) = m₀.get (reason, slot.digest))
    (hheld : ∀ slot ∈ slots, slot.commit ≠ none → ∃ info info', m₀.get (reason, slot.digest) = some info ∧
      info.withdraw slot.variant slot.commit = .ok (info', value slot))
    (hmax : taken + (slots.map value).sum ≤ T.share.maxAsset) :
    ∃ out, releaseSlots reason slots m taken = .ok out := by
  induction slots generalizing m taken with
  | nil => exact ⟨_, rfl⟩
  | cons slot slots ih =>
    have hnd' := (List.nodup_cons.mp hnd).2
    rw [List.map_cons, List.sum_cons] at hmax
    by_cases hc : slot.commit = none
    · obtain ⟨out, hout⟩ := ih taken hnd' (fun other ho => hm other (List.mem_cons_of_mem _ ho))
        (fun other ho => hheld other (List.mem_cons_of_mem _ ho)) (by omega)
      exact ⟨out, by rw [releaseSlots, if_pos hc, hout]⟩
    · obtain ⟨info, info', hi, hw⟩ := hheld slot (List.mem_cons_self ..) hc
      obtain ⟨out, hout⟩ := ih (m := m.insert (reason, slot.digest) info') (taken + value slot) hnd'
        (fun other ho => by
          rw [StorageMap.get_insert_of_ne (ne_of_nodup_cons hnd ho)]
          exact hm other (List.mem_cons_of_mem _ ho))
        (fun other ho => hheld other (List.mem_cons_of_mem _ ho)) (by omega)
      rw [← hm slot (List.mem_cons_self ..)] at hi
      have hadd : checkedAdd T.share.maxAsset taken (value slot) = some (taken + value slot) :=
        checkedAdd_eq_some.mpr ⟨rfl, by omega⟩
      refine ⟨out, ?_⟩
      rw [releaseSlots, if_neg hc]
      simp [hi, hw, hadd, hout, okOr, bind, Except.bind]

end Slots

end FrameSuite
