import FrameSuite.FixedBridge

/-! The payouts that only multiply by a rate, and the payee model that splits a payout evenly: with the rate
one they return their input, and every payee gets its whole share, exactly when the bridge to fixed-point
numbers loses nothing. -/

namespace FrameSuite

open FixedNumber IntValue

variable {t : IntType}

structure FixedRateConfig (F : FixedRepr) where
  rate : FixedNumber F

structure InflationPayoutConfig (F : FixedRepr) where
  inflationRate : FixedNumber F

def fixedRatePayout (input : IntValue t) (context : FixedRateConfig t.fixedPoint.repr) : IntValue t :=
  fromFixed (input.toFixed.saturatingMul context.rate)

def inflationPayout (input : IntValue t) (context : InflationPayoutConfig t.fixedPoint.repr) : IntValue t :=
  fromFixed (context.inflationRate.saturatingMul input.toFixed)

/-- The number of payees, built by adding one repeatedly. -/
def countFixed {F : FixedRepr} (count : Nat) : FixedNumber F :=
  (fun c => FixedNumber.saturatingAdd c one)^[count - 1] one

def equalPay {Id Share : Type} (payout : IntValue t) (payoutFor : List (Id × Share)) : List (Id × IntValue t) :=
  if payoutFor.length = 0 then []
  else
    let equal := (payout.toFixed.checkedDiv (countFixed payoutFor.length)).getD FixedNumber.zero
    payoutFor.map fun entry => (entry.1, fromFixed equal)

theorem saturatingMul_one {F : FixedRepr} (x : FixedNumber F) : x.saturatingMul one = x := by
  refine FixedNumber.ext ?_
  rw [saturatingMul_inner, one_inner, Int.mul_tdiv_cancel _ F.div_pos'.ne',
    FixedNumber.clamp_of_mem x.min_le x.le_max]

theorem one_saturatingMul {F : FixedRepr} (x : FixedNumber F) : FixedNumber.saturatingMul one x = x := by
  rw [FixedNumber.saturatingMul, Int.mul_comm]
  exact saturatingMul_one x

theorem countFixed_succ_inner {F : FixedRepr} (n : Nat) :
    (countFixed (n + 1) : FixedNumber F).inner = min (((n + 1 : Nat) : Int) * F.div) F.maxInner := by
  have hD := F.div_pos'
  have hle := F.div_le
  rw [countFixed, Nat.add_sub_cancel]
  induction n with
  | zero =>
    rw [Function.iterate_zero, id_eq, one_inner]
    omega
  | succ n ih =>
    rw [Function.iterate_succ_apply', saturatingAdd_inner, ih, one_inner, clamp_of_nonneg]
    · push_cast
      rw [show ((n : Int) + 1 + 1) * F.div = (n + 1) * F.div + F.div by ring]
      omega
    · have hpos : 0 ≤ ((n + 1 : Nat) : Int) * F.div := Int.mul_nonneg (Int.natCast_nonneg _) hD.le
      omega

/-- Every payee of every list gets the whole part of its share. -/
def EqualPayExact (payout : IntValue t) : Prop :=
  ∀ (Id Share : Type) (payoutFor : List (Id × Share)),
    (equalPay payout payoutFor).map (fun p => (p.1, p.2.value)) =
      payoutFor.map fun entry => (entry.1, payout.value / payoutFor.length)

/-- No bound of a fixed-point type is a whole number, and its lower bound is at most one step further from
zero than its upper one. -/
theorem FixedKind.bounds (k : FixedKind) :
    ¬(k.repr.div : Int) ∣ k.repr.maxInner ∧ ¬(k.repr.div : Int) ∣ k.repr.maxInner + 1 ∧
      -(k.repr.maxInner + 1) ≤ k.repr.minInner := by
  cases k <;> decide

section EqualPay

variable {payout : IntValue t} {n : Nat}

theorem equalPay_eq {Id Share : Type} {payoutFor : List (Id × Share)} (hlen : payoutFor.length = n + 1) :
    equalPay payout payoutFor = payoutFor.map fun entry =>
      (entry.1, fromFixed ((payout.toFixed.checkedDiv (countFixed (n + 1))).getD FixedNumber.zero)) := by
  rw [equalPay, if_neg (by omega), hlen]

theorem equalPay_quotient {q : Int}
    (hq : (payout.toFixed.inner * t.fixedPoint.repr.div).tdiv
      (countFixed (F := t.fixedPoint.repr) (n + 1)).inner = q)
    (hmin : t.fixedPoint.repr.minInner ≤ q) (hmax : q ≤ t.fixedPoint.repr.maxInner) :
    (payout.toFixed.checkedDiv (countFixed (n + 1))).getD FixedNumber.zero = ⟨q, hmin, hmax⟩ := by
  have hD := t.fixedPoint.repr.div_pos'
  have hM := t.fixedPoint.repr.one_le_max
  have hne : (countFixed (F := t.fixedPoint.repr) (n + 1)).inner ≠ 0 := by
    have hpos : 0 < ((n + 1 : Nat) : Int) * t.fixedPoint.repr.div := Int.mul_pos (by omega) hD
    rw [countFixed_succ_inner]
    omega
  rw [(checkedDiv_eq_some (z := ⟨q, hmin, hmax⟩)).mpr ⟨hne, hq.symm⟩, Option.getD_some]

theorem equalPayExact_of_inRange (h : InRange payout) (hpos : 0 ≤ payout.value) : EqualPayExact payout := by
  intro Id Share payoutFor
  have hD := t.fixedPoint.repr.div_pos'
  obtain ⟨hndvd, -, -⟩ := t.fixedPoint.bounds
  cases hlen : payoutFor.length with
  | zero =>
    obtain rfl := List.length_eq_zero_iff.mp hlen
    rfl
  | succ n =>
    have hnum : 0 ≤ payout.value * t.fixedPoint.repr.div := Int.mul_nonneg hpos hD.le
    have hpay : (fromFixed ((payout.toFixed.checkedDiv (countFixed (n + 1))).getD FixedNumber.zero) :
        IntValue t).value = payout.value / ((n + 1 : Nat) : Int) := by
      have hn : (0 : Int) < (n + 1 : Nat) := by omega
      have hquot : 0 ≤ payout.value / ((n + 1 : Nat) : Int) := Int.ediv_nonneg hpos hn.le
      have hquot' : payout.value / ((n + 1 : Nat) : Int) ≤ payout.value := Int.ediv_le_self _ hpos
      rcases le_or_gt (((n + 1 : Nat) : Int) * t.fixedPoint.repr.div) t.fixedPoint.repr.maxInner with hle | hgt
      · have hinner : (payout.toFixed.inner * t.fixedPoint.repr.div).tdiv
            (countFixed (F := t.fixedPoint.repr) (n + 1)).inner =
              payout.value * t.fixedPoint.repr.div / (n + 1 : Nat) := by
          rw [countFixed_succ_inner, min_eq_left hle, toFixed_inner_of_inRange h, mul_div_tdiv_mul,
            Int.tdiv_eq_ediv_of_nonneg hnum]
        have hq0 : 0 ≤ payout.value * t.fixedPoint.repr.div / (n + 1 : Nat) := Int.ediv_nonneg hnum hn.le
        have hq1 : payout.value * t.fixedPoint.repr.div / (n + 1 : Nat) ≤ t.fixedPoint.repr.maxInner :=
          (Int.ediv_le_self _ hnum).trans h.2
        rw [equalPay_quotient hinner (t.fixedPoint.repr.min_nonpos.trans hq0) hq1, fromFixed,
          Int.tdiv_eq_ediv_of_nonneg hq0, Int.ediv_ediv_of_nonneg hn.le, Int.mul_comm ((n + 1 : Nat) : Int),
          ← Int.ediv_ediv_of_nonneg hD.le, Int.mul_ediv_cancel _ hD.ne',
          clamp_of_mem (t.min_nonpos.trans hquot) (hquot'.trans payout.le_max)]
      · -- More payees than the type can count: the payout is below their number and nobody gets a unit.
        have hlt : payout.value * t.fixedPoint.repr.div < t.fixedPoint.repr.maxInner := by
          refine lt_of_le_of_ne h.2 fun heq => hndvd ?_
          rw [← heq]
          exact Int.dvd_mul_left _ _
        have hfew : payout.value < (n + 1 : Nat) :=
          lt_of_mul_lt_mul_right (hlt.trans hgt) hD.le
        have hq0 : 0 ≤ payout.value * t.fixedPoint.repr.div * t.fixedPoint.repr.div / t.fixedPoint.repr.maxInner :=
          Int.ediv_nonneg (Int.mul_nonneg hnum hD.le) (hnum.trans hlt.le)
        have hqD : payout.value * t.fixedPoint.repr.div * t.fixedPoint.repr.div / t.fixedPoint.repr.maxInner <
            t.fixedPoint.repr.div := by
          refine Int.ediv_lt_of_lt_mul (hnum.trans_lt hlt) ?_
          rw [Int.mul_comm (t.fixedPoint.repr.div : Int) t.fixedPoint.repr.maxInner]
          exact Int.mul_lt_mul_of_pos_right hlt hD
        have hinner : (payout.toFixed.inner * t.fixedPoint.repr.div).tdiv
            (countFixed (F := t.fixedPoint.repr) (n + 1)).inner =
              payout.value * t.fixedPoint.repr.div * t.fixedPoint.repr.div / t.fixedPoint.repr.maxInner := by
          rw [countFixed_succ_inner, min_eq_right hgt.le, toFixed_inner_of_inRange h,
            Int.tdiv_eq_ediv_of_nonneg (Int.mul_nonneg hnum hD.le)]
        rw [equalPay_quotient hinner (t.fixedPoint.repr.min_nonpos.trans hq0)
          (hqD.le.trans t.fixedPoint.repr.div_le), fromFixed, Int.tdiv_eq_zero_of_lt hq0 hqD,
          clamp_of_mem t.min_nonpos t.max_pos.le, Int.ediv_eq_zero_of_lt hpos hfew]
    rw [equalPay_eq hlen, List.map_map]
    refine List.map_congr_left fun entry _ => ?_
    exact congrArg (Prod.mk entry.1) hpay

theorem EqualPayExact.pay (h : EqualPayExact payout) (n : Nat) :
    (fromFixed ((payout.toFixed.checkedDiv (countFixed (n + 1))).getD FixedNumber.zero) : IntValue t).value =
      payout.value / ((n + 1 : Nat) : Int) := by
  have hmap := h Unit Unit (List.replicate (n + 1) ((), ()))
  rw [equalPay_eq List.length_replicate, List.length_replicate] at hmap
  simp only [List.replicate_succ, List.map_cons, List.cons.injEq, Prod.mk.injEq] at hmap
  exact hmap.1.2

theorem EqualPayExact.inRange (h : EqualPayExact payout) : InRange payout := by
  refine (fromFixed_toFixed_eq_iff payout).mp (IntValue.ext ?_)
  have hpay := h.pay 0
  have hinner : (payout.toFixed.inner * t.fixedPoint.repr.div).tdiv
      (countFixed (F := t.fixedPoint.repr) (0 + 1)).inner = payout.toFixed.inner := by
    have hle := t.fixedPoint.repr.div_le
    rw [countFixed_succ_inner, Nat.zero_add, Nat.cast_one, Int.one_mul, min_eq_left hle,
      Int.mul_tdiv_cancel _ t.fixedPoint.repr.div_pos'.ne']
  rw [equalPay_quotient hinner payout.toFixed.min_le payout.toFixed.le_max] at hpay
  rw [hpay, Nat.zero_add, Nat.cast_one, Int.ediv_one]

/-- A payout below zero among more payees than its size is cut off to nothing, its share rounded down is not. -/
theorem EqualPayExact.nonneg (h : EqualPayExact payout) : 0 ≤ payout.value := by
  by_contra hneg
  have hin := h.inRange
  have hD := t.fixedPoint.repr.div_pos'
  obtain ⟨hM, hM', hmin⟩ := t.fixedPoint.bounds
  obtain ⟨n, hn⟩ := Int.eq_ofNat_of_zero_le (show 0 ≤ -payout.value by omega)
  have hnD : ((n : Nat) : Int) * t.fixedPoint.repr.div = -(payout.value * t.fixedPoint.repr.div) := by
    rw [← hn, Int.neg_mul]
  have hlt : (n : Int) * t.fixedPoint.repr.div < t.fixedPoint.repr.maxInner := by
    have hle : (n : Int) * t.fixedPoint.repr.div ≤ t.fixedPoint.repr.maxInner + 1 := by
      have hlow := hin.1
      omega
    have hne : (n : Int) * t.fixedPoint.repr.div ≠ t.fixedPoint.repr.maxInner := fun heq =>
      hM (heq ▸ Int.dvd_mul_left _ _)
    have hne' : (n : Int) * t.fixedPoint.repr.div ≠ t.fixedPoint.repr.maxInner + 1 := fun heq =>
      hM' (heq ▸ Int.dvd_mul_left _ _)
    omega
  have hcount : (n : Int) * t.fixedPoint.repr.div < (countFixed (F := t.fixedPoint.repr) (n + 1)).inner := by
    rw [countFixed_succ_inner]
    push_cast
    rw [Int.add_mul]
    omega
  have hnn : (0 : Int) ≤ n * t.fixedPoint.repr.div := Int.mul_nonneg (Int.natCast_nonneg _) hD.le
  generalize hc : (countFixed (F := t.fixedPoint.repr) (n + 1)).inner = c at hcount
  have hq0 : 0 ≤ (n : Int) * t.fixedPoint.repr.div * t.fixedPoint.repr.div / c :=
    Int.ediv_nonneg (Int.mul_nonneg hnn hD.le) (by omega)
  have hqD : (n : Int) * t.fixedPoint.repr.div * t.fixedPoint.repr.div / c < t.fixedPoint.repr.div := by
    refine Int.ediv_lt_of_lt_mul (by omega) ?_
    rw [Int.mul_comm (t.fixedPoint.repr.div : Int) c]
    exact Int.mul_lt_mul_of_pos_right hcount hD
  have hinner : (payout.toFixed.inner * t.fixedPoint.repr.div).tdiv
      (countFixed (F := t.fixedPoint.repr) (n + 1)).inner =
        -((n : Int) * t.fixedPoint.repr.div * t.fixedPoint.repr.div / c) := by
    rw [hc, toFixed_inner_of_inRange hin, ← Int.tdiv_eq_ediv_of_nonneg (Int.mul_nonneg hnn hD.le), hnD,
      Int.neg_mul, Int.neg_tdiv, Int.neg_neg]
  have hfits : t.fixedPoint.repr.minInner ≤ -((n : Int) * t.fixedPoint.repr.div * t.fixedPoint.repr.div / c) := by
    have hdiv := hin.1
    have hone : (t.fixedPoint.repr.div : Int) ≤ n * t.fixedPoint.repr.div := by
      have hnpos : (1 : Int) ≤ n := by omega
      nlinarith
    omega
  have hpay := h.pay n
  rw [equalPay_quotient hinner hfits (by have := t.fixedPoint.repr.one_le_max; omega), fromFixed, Int.neg_tdiv,
    Int.tdiv_eq_zero_of_lt hq0 hqD, Int.neg_zero, clamp_of_mem t.min_nonpos t.max_pos.le] at hpay
  have hfloor : payout.value / ((n + 1 : Nat) : Int) < 0 := Int.ediv_neg_of_neg_of_pos (by omega) (by omega)
  omega

end EqualPay

/-- The bridge, the payouts with rate one and the even split are exact on the integers that the fixed-point
type represents, the even split on those that are not negative, and on no others. Only 128-bit integers are
not represented; beyond the range the bridge comes back with the whole part of the bound. -/
theorem bridge_exact_iff (t : IntType) (n : IntValue t) :
    (fromFixed n.toFixed = n ↔ InRange n) ∧
      (fixedRatePayout n ⟨one⟩ = n ↔ InRange n) ∧
      (inflationPayout n ⟨one⟩ = n ↔ InRange n) ∧
      (EqualPayExact n ↔ InRange n ∧ 0 ≤ n.value) ∧
      (InRange n ∨ t = .u128 ∨ t = .i128) ∧
      (t.fixedPoint.repr.maxInner < n.value * t.fixedPoint.repr.div →
        (fromFixed n.toFixed).value = t.fixedPoint.repr.maxInner / t.fixedPoint.repr.div) ∧
      (n.value * t.fixedPoint.repr.div < t.fixedPoint.repr.minInner →
        (fromFixed n.toFixed).value = -(-t.fixedPoint.repr.minInner / t.fixedPoint.repr.div)) := by
  refine ⟨fromFixed_toFixed_eq_iff n, ?_, ?_, ?_, inRange_or n, fun h => (fromFixed_toFixed_of_gt h).1,
    fun h => (fromFixed_toFixed_of_lt h).1⟩
  · rw [fixedRatePayout, saturatingMul_one]
    exact fromFixed_toFixed_eq_iff n
  · rw [inflationPayout, one_saturatingMul]
    exact fromFixed_toFixed_eq_iff n
  · exact ⟨fun h => ⟨h.inRange, h.nonneg⟩, fun h => equalPayExact_of_inRange h.1 h.2⟩

/-- The largest 128-bit integer does not come back. -/
theorem bridge_loses_max :
    ¬∀ (t : IntType) (n : IntValue t), fromFixed n.toFixed = n := by
  intro h
  have hmax := h .u128 ⟨2 ^ 128 - 1, by decide, by decide⟩
  revert hmax
  decide +kernel

end FrameSuite
