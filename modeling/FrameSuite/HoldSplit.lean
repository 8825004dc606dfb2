import FrameSuite.AuthorRuntime
import FrameSuite.HoldSettlement
import Mathlib.Algebra.Order.Field.Basic
import Mathlib.Algebra.Order.Floor.Div
import Mathlib.Data.Rat.Cast.Order
import Mathlib.Tactic.Linarith

/-! A hold splits over funding and collateral by a ratio in parts per billion. The parts stay less than one unit
off their exact shares as long as what the ratio cuts off is worth less than a unit of the new hold. -/

namespace FrameSuite

/-- The parts of a new hold share it as the funding and the collateral shared the old one. -/
structure SplitFaithfully (funding collateral value : Nat) (parts : Nat × Nat) : Prop where
  sum : parts.1 + parts.2 = value
  same : value = funding + collateral → parts = (funding, collateral)
  raised : funding + collateral < value → funding ≤ parts.1 ∧ collateral ≤ parts.2
  lowered : value < funding + collateral → parts.1 ≤ funding ∧ parts.2 ≤ collateral
  proportional : funding + collateral ≠ 0 →
    |(parts.1 : ℚ) - funding * value / (funding + collateral)| < 1 ∧
      |(parts.2 : ℚ) - collateral * value / (funding + collateral)| < 1

theorem abs_sub_share_lt_one_iff {part share hold : Nat} (hhold : 0 < hold) :
    |(part : ℚ) - share / hold| < 1 ↔ share < part * hold + hold ∧ part * hold < share + hold := by
  have hpos : (0 : ℚ) < hold := Nat.cast_pos.mpr hhold
  rw [abs_sub_lt_iff, sub_lt_iff_lt_add, sub_lt_iff_lt_add, div_lt_iff₀ hpos, and_comm]
  refine and_congr ?_ ?_
  · rw [add_mul, one_mul, add_comm]
    exact_mod_cast Iff.rfl
  · rw [← sub_lt_iff_lt_add', lt_div_iff₀ hpos, sub_mul, one_mul, sub_lt_iff_lt_add]
    exact_mod_cast Iff.rfl

section Share

variable {funding collateral value part : Nat}

theorem le_of_lt_share {whole part share hold : Nat} (hle : whole * hold ≤ share) (hlt : share < part * hold + hold) :
    whole ≤ part := by
  have hmul : whole * hold < (part + 1) * hold := by
    rw [Nat.add_mul, Nat.one_mul]
    exact Nat.lt_of_le_of_lt hle hlt
  exact Nat.le_of_lt_succ (Nat.lt_of_mul_lt_mul_right hmul)

theorem le_of_share_lt {whole part share hold : Nat} (hle : share ≤ whole * hold) (hlt : part * hold < share + hold) :
    part ≤ whole := le_of_lt_share (Nat.le_refl _) (Nat.lt_of_lt_of_le hlt (Nat.add_le_add_right hle hold))

/-- For a part of the value and the rest of it, one close share is all there is to a faithful split. -/
theorem splitFaithfully_iff (hhold : funding + collateral ≠ 0) (hle : part ≤ value) :
    SplitFaithfully funding collateral value (part, value - part) ↔
      funding * value < part * (funding + collateral) + (funding + collateral) ∧
        part * (funding + collateral) < funding * value + (funding + collateral) := by
  have hpos := Nat.pos_of_ne_zero hhold
  have hfunding := @abs_sub_share_lt_one_iff part (funding * value) (funding + collateral) hpos
  have hcollateral := @abs_sub_share_lt_one_iff (value - part) (collateral * value) (funding + collateral) hpos
  simp only [Nat.cast_mul, Nat.cast_add] at hfunding hcollateral
  have hsplit : part * (funding + collateral) + (value - part) * (funding + collateral) =
      value * (funding + collateral) := by rw [← Nat.add_mul, Nat.add_sub_cancel' hle]
  have hshares : funding * value + collateral * value = value * (funding + collateral) := by
    rw [← Nat.add_mul, Nat.mul_comm]
  constructor
  · intro h
    exact hfunding.mp (h.proportional hhold).1
  · rintro ⟨hbelow, habove⟩
    have hbelow' : collateral * value < (value - part) * (funding + collateral) + (funding + collateral) := by omega
    have habove' : (value - part) * (funding + collateral) < collateral * value + (funding + collateral) := by omega
    have hraised (h : funding + collateral ≤ value) : funding ≤ part ∧ collateral ≤ value - part :=
      ⟨le_of_lt_share (Nat.mul_le_mul_left funding h) hbelow, le_of_lt_share (Nat.mul_le_mul_left collateral h) hbelow'⟩
    have hlowered (h : value ≤ funding + collateral) : part ≤ funding ∧ value - part ≤ collateral :=
      ⟨le_of_share_lt (Nat.mul_le_mul_left funding h) habove, le_of_share_lt (Nat.mul_le_mul_left collateral h) habove'⟩
    refine ⟨Nat.add_sub_cancel' hle, fun hsame => ?_, fun h => hraised h.le, fun h => hlowered h.le, fun _ => ?_⟩
    · obtain ⟨hf, hc⟩ := hraised hsame.ge
      obtain ⟨hf', hc'⟩ := hlowered hsame.le
      exact Prod.ext (hf'.antisymm hf) (hc'.antisymm hc)
    · exact ⟨hfunding.mpr ⟨hbelow, habove⟩, hcollateral.mpr ⟨hbelow', habove'⟩⟩

/-- The least whole unit in which a hold comes to at most a billion. -/
def holdUnit (hold : Nat) : Nat := max (hold ⌈/⌉ 10 ^ 9) 1

/-- What the ratio cuts off: the remainder of the funding in billionths, counted in whole units, by the hold. -/
def cutOff (funding hold : Nat) : Nat := funding / holdUnit hold * 10 ^ 9 % (hold / holdUnit hold)

/-- There is nothing to share, or what the ratio cuts off, over the whole value, does not reach past the next
whole numbers of the funding's exact share. -/
def SharesClosely (funding collateral value : Nat) : Prop :=
  let hold := funding + collateral
  let units := hold / holdUnit hold
  let lost := value * cutOff funding hold
  hold = 0 ∨
    funding * value / hold * units * 10 ^ 9 + lost < value * (funding / holdUnit hold) * 10 ^ 9 + units * 10 ^ 9 ∧
      value * (funding / holdUnit hold) * 10 ^ 9 ≤ (funding * value ⌈/⌉ hold) * units * 10 ^ 9 + lost

instance : Decidable (SharesClosely funding collateral value) := inferInstanceAs (Decidable (_ ∨ _ ∧ _))

theorem le_ceilDiv_iff {whole n d : Nat} (hd : 0 < d) : whole ≤ n ⌈/⌉ d ↔ whole * d < n + d := by
  rw [Nat.ceilDiv_eq_add_pred_div, Nat.le_div_iff_mul_le hd]
  omega

theorem billion_pos : 0 < 10 ^ 9 := Nat.pow_pos (by decide)

theorem Perbill.mulCeil_eq_ceilDiv (r : Perbill) (n : Nat) : r.mulCeil n = n * r.parts ⌈/⌉ 10 ^ 9 := by
  rw [Nat.ceilDiv_eq_add_pred_div, Nat.add_sub_assoc billion_pos, Perbill.mulCeil, Perbill.accuracy]

theorem units_pos {hold : Nat} (hhold : hold ≠ 0) : 0 < hold / holdUnit hold := by
  refine Nat.div_pos ?_ (Nat.lt_of_lt_of_le Nat.one_pos (Nat.le_max_right _ _))
  refine max_le ?_ (Nat.pos_of_ne_zero hhold)
  rw [ceilDiv_le_iff_le_mul billion_pos]
  exact Nat.le_mul_of_pos_left hold billion_pos

theorem parts_add_cutOff (hhold : funding + collateral ≠ 0) :
    (Perbill.fromRational funding (funding + collateral)).parts *
        ((funding + collateral) / holdUnit (funding + collateral)) + cutOff funding (funding + collateral) =
      funding / holdUnit (funding + collateral) * 10 ^ 9 := by
  have hunit : max ((funding + collateral + (Perbill.accuracy - 1)) / Perbill.accuracy) 1 =
      holdUnit (funding + collateral) := by
    rw [holdUnit, Nat.ceilDiv_eq_add_pred_div, Nat.add_sub_assoc billion_pos, Perbill.accuracy]
  have hproper : ¬(funding + collateral = 0 ∨ funding + collateral < funding) := by omega
  rw [Perbill.fromRational, dif_neg hproper]
  dsimp only
  rw [hunit]
  exact Nat.div_add_mod' _ _

theorem fundingPart_close_iff (hhold : funding + collateral ≠ 0) :
    (funding * value < fundingPart funding collateral value * (funding + collateral) + (funding + collateral) ∧
        fundingPart funding collateral value * (funding + collateral) < funding * value + (funding + collateral)) ↔
      SharesClosely funding collateral value := by
  have hpos := Nat.pos_of_ne_zero hhold
  have hunits := units_pos hhold
  have hcut := congrArg (value * ·) (parts_add_cutOff hhold)
  unfold SharesClosely
  simp only [hhold, false_or]
  rw [← le_ceilDiv_iff hpos, fundingPart, Perbill.mulCeil_eq_ceilDiv]
  generalize (Perbill.fromRational funding (funding + collateral)).parts = ratio at hcut ⊢
  generalize (funding + collateral) / holdUnit (funding + collateral) = units at hcut hunits ⊢
  generalize cutOff funding (funding + collateral) = cut at hcut ⊢
  simp only [Nat.mul_add, ← Nat.mul_assoc] at hcut
  generalize funding / holdUnit (funding + collateral) = whole at hcut ⊢
  generalize funding + collateral = hold at hpos ⊢
  refine and_congr ?_ ?_
  · -- the whole units of the exact share are not cut off
    have hfloor : funding * value < (value * ratio ⌈/⌉ 10 ^ 9) * hold + hold ↔
        funding * value / hold * 10 ^ 9 < value * ratio + 10 ^ 9 := by
      rw [← le_ceilDiv_iff billion_pos, ← Nat.lt_succ_iff, Nat.div_lt_iff_lt_mul hpos, Nat.succ_mul]
    rw [hfloor, ← Nat.mul_lt_mul_right hunits, Nat.add_mul, Nat.mul_right_comm _ (10 ^ 9), Nat.mul_comm (10 ^ 9) units]
    omega
  · -- and nothing reaches past the next whole number
    rw [ceilDiv_le_iff_le_mul billion_pos, ← Nat.mul_le_mul_right_iff hunits, Nat.mul_comm (10 ^ 9),
      Nat.mul_right_comm _ (10 ^ 9)]
    omega

theorem splitFaithfully_of_empty (hhold : funding + collateral = 0) :
    SplitFaithfully funding collateral value
      (fundingPart funding collateral value, value - fundingPart funding collateral value) := by
  obtain ⟨rfl, rfl⟩ := Nat.add_eq_zero_iff.mp hhold
  refine ⟨Nat.add_sub_cancel' (Perbill.mulCeil_le _ value), ?_, ?_, ?_, fun h => absurd rfl h⟩
  · rintro rfl
    rfl
  · exact fun _ => ⟨Nat.zero_le _, Nat.zero_le _⟩
  · exact fun h => absurd h (Nat.not_lt_zero _)

theorem sharesClosely_iff_of_le (hhold : funding + collateral ≠ 0) (hle : funding + collateral ≤ 10 ^ 9) :
    SharesClosely funding collateral value ↔
      value * (funding * 10 ^ 9 % (funding + collateral)) <
        (funding + collateral + funding * value % (funding + collateral)) * 10 ^ 9 := by
  have hpos := Nat.pos_of_ne_zero hhold
  have hunit : holdUnit (funding + collateral) = 1 :=
    max_eq_right ((ceilDiv_le_iff_le_mul billion_pos).mpr (by rwa [Nat.mul_one]))
  simp only [SharesClosely, cutOff, hunit, Nat.div_one, hhold, false_or]
  generalize funding * 10 ^ 9 % (funding + collateral) = cut
  generalize funding + collateral = hold at hpos
  have hceil : funding * value ≤ (funding * value ⌈/⌉ hold) * hold := by
    rw [Nat.mul_comm _ hold]
    exact le_smul_ceilDiv hpos
  have hfloor := Nat.div_add_mod' (funding * value) hold
  rw [Nat.mul_comm value funding]
  constructor
  · rintro ⟨hlost, -⟩
    omega
  · intro hlost
    exact ⟨by omega, by omega⟩

theorem sharesClosely_of_le (hle : funding + collateral ≤ 10 ^ 9) (hvalue : value ≤ 10 ^ 9) :
    SharesClosely funding collateral value := by
  by_cases hhold : funding + collateral = 0
  · exact .inl hhold
  · rw [sharesClosely_iff_of_le hhold hle]
    have hcut := Nat.mod_lt (funding * 10 ^ 9) (Nat.pos_of_ne_zero hhold)
    have hmul : value * (funding * 10 ^ 9 % (funding + collateral)) < 10 ^ 9 * (funding + collateral) :=
      Nat.mul_lt_mul_of_le_of_lt hvalue hcut billion_pos
    omega

end Share

section Writes

variable {T : Config} {s s' : State T} {reason : T.Reason} {digest : T.AccountId} {value reached : Nat}

theorem getDigestValue_eq (s : State T) (reason : T.Reason) (digest : T.AccountId) :
    getDigestValue s reason digest =
      if s.digestMap.containsKey (reason, digest) then
        .ok (ShareBalance.totalValue (balanceAt s.digestMap (location reason digest T.positionDefault)))
      else .error .digestNotFound := by
  unfold getDigestValue getDigestVariantValue StorageMap.containsKey balanceAt location
  cases hinfo : s.digestMap.get (reason, digest) with
  | none => rfl
  | some info => rfl

/-- A digest that is set has the new value, and those of the other reasons have the values they had. -/
theorem getDigestValue_of_write (h : writeDigestValue s reason digest value T.positionDefault = (s', .ok reached)) :
    getDigestValue s' reason digest = .ok value ∧
      ∀ r d, r ≠ reason → getDigestValue s' r d = getDigestValue s r d := by
  have hset := writeDigestValue_map s reason digest value T.positionDefault
  rw [h] at hset
  obtain ⟨m, rv, b, b', gain, loss, hs', htouch, -, hvalue, -, hkey⟩ := setDigestVariantValue_spec hset.symm
  dsimp only at hs'
  have hmap : s'.digestMap = m := congrArg State.digestMap hs'
  constructor
  · rw [getDigestValue_eq, hmap, htouch.contains, hkey, htouch.after, if_pos rfl, if_pos rfl, hvalue]
  · intro r d hne
    have hloc : location r d T.positionDefault ≠ location reason digest T.positionDefault :=
      fun heq => hne (congrArg Prod.fst heq)
    rw [getDigestValue_eq, getDigestValue_eq, hmap, htouch.contains, htouch.after, if_neg hloc]

end Writes

section Hold

variable {T : AuthorConfig} {s s' : AuthorState T} {who : T.AccountId} {funding collateral value : Nat}

theorem writeValue_eq_ok {reason : T.Reason} {digest : T.AccountId} (h : writeValue s reason digest value = (s', .ok ())) :
    s'.authorsMap = s.authorsMap ∧ getDigestValue s'.commitment reason digest = .ok value ∧
      ∀ r d, r ≠ reason → getDigestValue s'.commitment r d = getDigestValue s.commitment r d := by
  unfold writeValue at h
  cases hwrite : writeDigestValue s.commitment reason digest value T.positionDefault with
  | mk commitment result =>
    rw [hwrite] at h
    obtain ⟨rfl, hresult⟩ := Prod.mk.inj h
    cases result with
    | error e => cases hresult
    | ok reached => exact ⟨rfl, getDigestValue_of_write hwrite⟩

theorem holdParts_eq_ok {parts : Nat × Nat} : holdParts s who = .ok parts ↔
    ∃ info, getMeta s who = .ok info ∧ getDigestValue s.commitment T.authorFunding info.digest = .ok parts.1 ∧
      getDigestValue s.commitment T.authorCollateral info.digest = .ok parts.2 ∧
        parts.1 + parts.2 ≤ T.share.maxAsset := by
  constructor
  · intro h
    obtain ⟨info, hi, h⟩ := bind_eq_ok.mp h
    obtain ⟨funding, hf, h⟩ := bind_eq_ok.mp h
    obtain ⟨collateral, hc, h⟩ := bind_eq_ok.mp h
    obtain ⟨_, hle, h⟩ := bind_eq_ok.mp h
    obtain rfl := pure_eq_ok.mp h
    exact ⟨info, hi, liftCommit_eq_ok.mp hf, liftCommit_eq_ok.mp hc, ensure_eq_ok.mp hle⟩
  · rintro ⟨info, hi, hf, hc, hle⟩
    refine bind_eq_ok.mpr ⟨info, hi, bind_eq_ok.mpr ⟨parts.1, liftCommit_eq_ok.mpr hf, ?_⟩⟩
    refine bind_eq_ok.mpr ⟨parts.2, liftCommit_eq_ok.mpr hc, ?_⟩
    exact bind_eq_ok.mpr ⟨(), ensure_eq_ok.mpr hle, rfl⟩

theorem holdParts_of_writeHold (hvalue : value ≤ T.share.maxAsset) (hparts : holdParts s who = .ok (funding, collateral))
    (hset : writeHold s who value = (s', .ok ())) :
    holdParts s' who = .ok (fundingPart funding collateral value, value - fundingPart funding collateral value) := by
  obtain ⟨info, hi, -, -, -⟩ := holdParts_eq_ok.mp hparts
  cases hfirst : writeValue s T.authorFunding info.digest (fundingPart funding collateral value) with
  | mk t result =>
    cases result with
    | error e =>
      simp only [writeHold, hi, hparts, hfirst] at hset
      cases hset
    | ok _ =>
      obtain ⟨hinfos, hfunding, -⟩ := writeValue_eq_ok hfirst
      rw [writeHold_eq hi hparts hfirst] at hset
      obtain ⟨hinfos', hcollateral, hother⟩ := writeValue_eq_ok hset
      have hsum := Nat.add_sub_cancel' (Perbill.mulCeil_le (Perbill.fromRational funding (funding + collateral)) value)
      refine holdParts_eq_ok.mpr ⟨info, ?_, ?_, hcollateral, hsum.trans_le hvalue⟩
      · rw [getMeta_eq_ok, hinfos', hinfos]
        exact getMeta_eq_ok.mp hi
      · rw [hother _ _ T.reasons_ne, hfunding]

/-- A hold that is set is split faithfully if and only if its parts are shared closely. -/
theorem hold_split_iff (hvalue : value ≤ T.share.maxAsset) (hparts : holdParts s who = .ok (funding, collateral))
    (hset : writeHold s who value = (s', .ok ())) :
    (∃ parts, holdParts s' who = .ok parts ∧ SplitFaithfully funding collateral value parts) ↔
      SharesClosely funding collateral value := by
  have hafter := holdParts_of_writeHold hvalue hparts hset
  have hle : fundingPart funding collateral value ≤ value := Perbill.mulCeil_le _ value
  have hsplit : (∃ parts, holdParts s' who = .ok parts ∧ SplitFaithfully funding collateral value parts) ↔
      SplitFaithfully funding collateral value
        (fundingPart funding collateral value, value - fundingPart funding collateral value) := by
    rw [hafter]
    exact ⟨fun ⟨_, hparts, h⟩ => Except.ok.inj hparts ▸ h, fun h => ⟨_, rfl, h⟩⟩
  rw [hsplit]
  by_cases hhold : funding + collateral = 0
  · exact iff_of_true (splitFaithfully_of_empty hhold) (.inl hhold)
  · rw [splitFaithfully_iff hhold hle, fundingPart_close_iff hhold]

end Hold

section Examples

/-- An author with twice as much collateral as funding. -/
def sharedHold : AuthorState authorConfig := authorRun [enrolls 1 51, backs 3 (.direct 1) 50]

theorem hold_split_shared :
    ∃ parts, holdParts (writeHold sharedHold (1 : Nat) 301).1 (1 : Nat) = .ok parts ∧
      SplitFaithfully 50 100 301 parts :=
  (hold_split_iff (by decide) (show holdParts sharedHold (1 : Nat) = .ok (50, 100) from rfl) rfl).mpr (by decide)

/-- An author whose collateral and funding come to a thousand billion units. -/
def wealthyAuthor : AuthorState authorConfig :=
  AuthorState.after (T := authorConfig) (.ofFree [(1, 10 ^ 13), (3, 10 ^ 13)])
    { plainGenesis with maxExposure := 10 ^ 13, minFund_le := by decide }
    [.enlist (T := authorConfig) (1 : Nat) 666666666667 .force (51 : Nat), backs 3 (.direct 1) 333333333333]

/-- A reward of one unit takes 332 units from the funding. -/
theorem reward_shrinks_funding :
    holdParts wealthyAuthor (1 : Nat) = .ok (333333333333, 666666666667) ∧
      (writeHold wealthyAuthor (1 : Nat) 1000000000001).2 = .ok () ∧
      holdParts (writeHold wealthyAuthor (1 : Nat) 1000000000001).1 (1 : Nat) = .ok (333333333001, 666666667000) ∧
      ¬∃ parts, holdParts (writeHold wealthyAuthor (1 : Nat) 1000000000001).1 (1 : Nat) = .ok parts ∧
        SplitFaithfully 333333333333 666666666667 1000000000001 parts := by
  have hafter : holdParts (writeHold wealthyAuthor (1 : Nat) 1000000000001).1 (1 : Nat) =
      .ok (333333333001, 666666667000) := by rfl
  refine ⟨by rfl, by rfl, hafter, fun ⟨parts, hparts, hsplit⟩ => ?_⟩
  obtain rfl := Except.ok.inj (hafter.symm.trans hparts)
  exact absurd (hsplit.raised (by norm_num)).1 (by norm_num)

end Examples

end FrameSuite
