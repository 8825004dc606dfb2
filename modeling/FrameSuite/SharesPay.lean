import FrameSuite.FixedBridge
import FrameSuite.Apportionment
import Mathlib.Algebra.BigOperators.Ring.Finset
import Mathlib.Algebra.BigOperators.Ring.List

/-! The payee model that splits a payout by shares. Every payee gets the whole part of its product with a
ratio that was rounded down first, and what is left goes to the largest remainders, at most one unit each. -/

namespace FrameSuite

open FixedNumber IntValue

namespace IntValue

variable {t : IntType}

def saturatingAdd (m n : IntValue t) : IntValue t := clamp (m.value + n.value)

def saturatingSub (m n : IntValue t) : IntValue t := clamp (m.value - n.value)

end IntValue

/-- The types of payouts and shares, which have one fixed-point type. -/
structure PayTypes where
  payout : IntType
  share : IntType
  same : share.fixedPoint = payout.fixedPoint
  payout_unsigned : payout.min = 0
  share_unsigned : share.min = 0

namespace SharesPay

variable {T : PayTypes} {Id : Type}

abbrev Number (T : PayTypes) := T.payout.fixedPoint.Number

/-- The share in the fixed-point type of the payout, which is its own. -/
def shareFixed (share : IntValue T.share) : Number T :=
  ⟨share.toFixed.inner, T.same ▸ share.toFixed.min_le, T.same ▸ share.toFixed.le_max⟩

/-- A payee with its payout so far and the part of it that was cut off. -/
structure Payee (T : PayTypes) (Id : Type) where
  id : Id
  pay : IntValue T.payout
  remainder : Number T

/-- The unit of the payout type. -/
def payUnit : IntValue T.payout := fromFixed one

def totalShares (payoutFor : List (Id × IntValue T.share)) : IntValue T.share :=
  payoutFor.foldl (fun acc e => acc.saturatingAdd e.2) IntValue.zero

def rawPay (payout : IntValue T.payout) (total : IntValue T.share) (entry : Id × IntValue T.share) : Payee T Id :=
  let ratio := ((shareFixed entry.2).checkedDiv (shareFixed total)).getD (shareFixed IntValue.zero)
  let payFixed := payout.toFixed.saturatingMul ratio
  let payInt := fromFixed payFixed
  { id := entry.1
    pay := payInt
    remainder := payFixed.saturatingSub payInt.toFixed }

def Payee.addUnit (p : Payee T Id) : Payee T Id := { p with pay := p.pay.saturatingAdd payUnit }

/-- One unit for each position of the list, as long as something is left. -/
def giveUnits : IntValue T.payout → List (Nat × Number T) → List (Payee T Id) → List (Payee T Id)
  | _, [], payouts => payouts
  | undistributed, r :: rs, payouts =>
    if 0 < undistributed.value then
      giveUnits (undistributed.saturatingSub payUnit) rs (payouts.modify r.1 Payee.addUnit)
    else payouts

def sortRemainders (remainders : List (Nat × Number T)) : List (Nat × Number T) :=
  remainders.insertionSort fun a b => b.2.inner ≤ a.2.inner

def compute (payout : IntValue T.payout) (payoutFor : List (Id × IntValue T.share)) :
    List (Id × IntValue T.payout) :=
  let total := totalShares payoutFor
  if total.value = 0 ∨ payoutFor.length = 0 then []
  else
    let payouts := payoutFor.map (rawPay payout total)
    let distributed := payouts.foldl (fun acc p => acc.saturatingAdd p.pay) IntValue.zero
    let remainders := payouts.zipIdx.map fun p => (p.2, p.1.remainder)
    (giveUnits (payout.saturatingSub distributed) (sortRemainders remainders) payouts).map fun p => (p.id, p.pay)

section Values

/-- Payouts and shares as natural numbers. -/
def amount (payout : IntValue T.payout) : Nat := payout.value.toNat

def points (entry : Id × IntValue T.share) : Nat := entry.2.value.toNat

variable {payout : IntValue T.payout} {payoutFor : List (Id × IntValue T.share)}

theorem payout_value (payout : IntValue T.payout) : payout.value = amount payout := by
  have hmin := payout.min_le
  rw [T.payout_unsigned] at hmin
  exact (Int.toNat_of_nonneg hmin).symm

theorem share_value (entry : Id × IntValue T.share) : entry.2.value = points entry := by
  have hmin := entry.2.min_le
  rw [T.share_unsigned] at hmin
  exact (Int.toNat_of_nonneg hmin).symm

theorem foldl_saturatingAdd {α : Type} {t : IntType} (f : α → IntValue t) (g : α → Nat)
    (hmin : t.min = 0) (xs : List α) (hf : ∀ x ∈ xs, (f x).value = g x) (acc : IntValue t) (a : Nat)
    (ha : acc.value = a) (hmax : ((a + (xs.map g).sum : Nat) : Int) ≤ t.max) :
    (xs.foldl (fun acc x => acc.saturatingAdd (f x)) acc).value = ((a + (xs.map g).sum : Nat) : Int) := by
  induction xs generalizing acc a with
  | nil => simpa using ha
  | cons x xs ih =>
    rw [List.map_cons, List.sum_cons] at hmax ⊢
    have hx := hf x List.mem_cons_self
    have hstep : (acc.saturatingAdd (f x)).value = ((a + g x : Nat) : Int) := by
      rw [IntValue.saturatingAdd, ha, hx, IntValue.clamp_of_mem] <;> omega
    rw [List.foldl_cons, ih (fun y hy => hf y (List.mem_cons_of_mem _ hy)) _ _ hstep (by omega)]
    omega

/-- The total of the shares, as long as it does not overflow. -/
def sumPoints (payoutFor : List (Id × IntValue T.share)) : Nat := (payoutFor.map points).sum

theorem totalShares_value (hmax : (sumPoints payoutFor : Int) ≤ T.share.max) :
    (totalShares payoutFor).value = sumPoints payoutFor := by
  have hfold := foldl_saturatingAdd (fun e : Id × IntValue T.share => e.2) points T.share_unsigned payoutFor
    (fun e _ => share_value e) IntValue.zero 0 rfl (by simpa [sumPoints] using hmax)
  rw [totalShares, hfold, Nat.zero_add]
  rfl

theorem payUnit_value : (payUnit : IntValue T.payout).value = 1 := by
  have hmax := T.payout.max_pos
  have hmin := T.payout.min_nonpos
  rw [payUnit, fromFixed, one_inner, Int.tdiv_self T.payout.fixedPoint.repr.div_pos'.ne', IntValue.clamp_of_mem] <;> omega

end Values

section RawPay

variable {payout : IntValue T.payout} {total : IntValue T.share} {entry : Id × IntValue T.share} {S : Nat}

/-- The accuracy of the fixed-point type of the payout. -/
def accuracy (T : PayTypes) : Nat := T.payout.fixedPoint.repr.div

theorem accuracy_pos : 0 < accuracy T := T.payout.fixedPoint.repr.div_pos

/-- The ratio of a share, rounded down. -/
def ratio (T : PayTypes) (S s : Nat) : Nat := s * accuracy T / S

def base (T : PayTypes) (P S s : Nat) : Nat := P * ratio T S s / accuracy T

def rest (T : PayTypes) (P S s : Nat) : Nat := P * ratio T S s % accuracy T

theorem ratio_le {s : Nat} (hs : s ≤ S) : ratio T S s ≤ accuracy T := by
  refine Nat.div_le_of_le_mul ?_
  exact Nat.mul_le_mul_right _ hs

theorem base_le {P s : Nat} (hs : s ≤ S) : base T P S s ≤ P := by
  refine Nat.div_le_of_le_mul ?_
  rw [Nat.mul_comm (accuracy T)]
  exact Nat.mul_le_mul_left _ (ratio_le hs)

/-- The fixed-point types represent the payout and the total of the shares. -/
def Fits (payout : IntValue T.payout) (S : Nat) : Prop :=
  ((amount payout * accuracy T : Nat) : Int) ≤ T.payout.fixedPoint.repr.maxInner ∧
    ((S * accuracy T : Nat) : Int) ≤ T.payout.fixedPoint.repr.maxInner

theorem shareFixed_inner {share : IntValue T.share} {s : Nat} (hs : share.value = s)
    (hfit : ((s * accuracy T : Nat) : Int) ≤ T.payout.fixedPoint.repr.maxInner) :
    (shareFixed share).inner = ((s * accuracy T : Nat) : Int) := by
  have hmin := T.payout.fixedPoint.repr.min_nonpos
  have hin : InRange share := by
    unfold InRange
    rw [T.same, hs, ← Int.natCast_mul]
    exact ⟨hmin.trans (Int.natCast_nonneg _), hfit⟩
  have hdiv : T.share.fixedPoint.repr.div = accuracy T := by
    rw [T.same]
    rfl
  have hinner := toFixed_inner_of_inRange hin
  rw [hdiv, hs, ← Int.natCast_mul] at hinner
  exact hinner

theorem payoutFixed_inner {n : IntValue T.payout} {p : Nat} (hp : n.value = p)
    (hfit : ((p * accuracy T : Nat) : Int) ≤ T.payout.fixedPoint.repr.maxInner) :
    n.toFixed.inner = ((p * accuracy T : Nat) : Int) := by
  have hmin := T.payout.fixedPoint.repr.min_nonpos
  have hin : InRange n := by
    unfold InRange
    rw [hp, ← Int.natCast_mul]
    exact ⟨hmin.trans (Int.natCast_nonneg _), hfit⟩
  rw [toFixed_inner_of_inRange hin, hp, ← Int.natCast_mul]
  rfl

theorem rawPay_spec (hfits : Fits payout S) (hS : 0 < S) (htotal : total.value = S) (hs : points entry ≤ S) :
    (rawPay payout total entry).id = entry.1 ∧
      (rawPay payout total entry).pay.value = base T (amount payout) S (points entry) ∧
      (rawPay payout total entry).remainder.inner = rest T (amount payout) S (points entry) := by
  obtain ⟨hP, hT⟩ := hfits
  have hD := accuracy_pos (T := T)
  have hmin := T.payout.fixedPoint.repr.min_nonpos
  have hPmax := payout.le_max
  rw [payout_value] at hPmax
  have hsS : points entry * accuracy T ≤ S * accuracy T := Nat.mul_le_mul_right _ hs
  have hr := ratio_le (T := T) hs
  have hrP : amount payout * ratio T S (points entry) ≤ amount payout * accuracy T := Nat.mul_le_mul_left _ hr
  have hb := base_le (T := T) (P := amount payout) hs
  have hshare := shareFixed_inner (share_value entry) (by omega)
  have hquot : (shareFixed entry.2).checkedDiv (shareFixed total) = some ⟨ratio T S (points entry),
      hmin.trans (Int.natCast_nonneg _), by
        have hle := T.payout.fixedPoint.repr.div_le
        unfold accuracy at hr
        omega⟩ := by
    rw [checkedDiv_eq_some, shareFixed_inner htotal hT, hshare]
    have hne : S * accuracy T ≠ 0 := (Nat.mul_pos hS hD).ne'
    refine ⟨by exact_mod_cast hne, ?_⟩
    change _ = (((points entry * accuracy T : Nat) : Int) * (accuracy T : Nat)).tdiv _
    rw [← Int.natCast_mul, ← Int.ofNat_tdiv, Nat.mul_div_mul_right _ _ hD]
    rfl
  have hfixed : (payout.toFixed.saturatingMul (((shareFixed entry.2).checkedDiv (shareFixed total)).getD
      (shareFixed IntValue.zero))).inner = ((amount payout * ratio T S (points entry) : Nat) : Int) := by
    rw [hquot, Option.getD_some, saturatingMul_inner, payoutFixed_inner (payout_value payout) hP]
    change (FixedNumber.clamp ((((amount payout * accuracy T : Nat) : Int) * (ratio T S (points entry) : Nat)).tdiv
      (accuracy T : Nat)) : Number T).inner = _
    rw [← Int.natCast_mul, ← Int.ofNat_tdiv, Nat.mul_right_comm, Nat.mul_div_cancel _ hD,
      FixedNumber.clamp_of_mem] <;> omega
  have hpay : (rawPay payout total entry).pay.value = base T (amount payout) S (points entry) := by
    change (fromFixed _ : IntValue T.payout).value = _
    rw [fromFixed, hfixed]
    change (IntValue.clamp (((amount payout * ratio T S (points entry) : Nat) : Int).tdiv (accuracy T : Nat)) :
      IntValue T.payout).value = _
    have hlow := T.payout.min_nonpos
    rw [← Int.ofNat_tdiv]
    change (IntValue.clamp ((base T (amount payout) S (points entry) : Nat) : Int) : IntValue T.payout).value = _
    rw [IntValue.clamp_of_mem] <;> omega
  refine ⟨rfl, hpay, ?_⟩
  have hmod := Nat.div_add_mod (amount payout * ratio T S (points entry)) (accuracy T)
  change accuracy T * base T (amount payout) S (points entry) + rest T (amount payout) S (points entry) = _ at hmod
  rw [Nat.mul_comm] at hmod
  have hback := payoutFixed_inner hpay (by omega)
  change (FixedNumber.saturatingSub _ (rawPay payout total entry).pay.toFixed).inner = _
  rw [saturatingSub_inner, hfixed, hback, FixedNumber.clamp_of_mem] <;> omega

end RawPay

section GiveUnits

theorem addUnit_pay {p : Payee T Id} (h : p.pay.value + 1 ≤ T.payout.max) :
    p.addUnit.pay.value = p.pay.value + 1 := by
  have hp := payout_value p.pay
  have hmin := T.payout.min_nonpos
  change (p.pay.saturatingAdd payUnit).value = _
  rw [IntValue.saturatingAdd, payUnit_value, IntValue.clamp_of_mem] <;> omega

/-- The positions at the front of the list get a unit each, and the others keep what they have. -/
theorem giveUnits_getElem? {u : Nat} {undistributed : IntValue T.payout} {rs : List (Nat × Number T)}
    (payouts : List (Payee T Id)) (hu : undistributed.value = u) (hnodup : (rs.map Prod.fst).Nodup) (i : Nat) :
    (giveUnits undistributed rs payouts)[i]? =
      payouts[i]?.map fun p => if i ∈ (rs.map Prod.fst).take u then p.addUnit else p := by
  induction rs generalizing undistributed u payouts with
  | nil => simp [giveUnits]
  | cons r rs ih =>
    rw [List.map_cons, List.nodup_cons] at hnodup
    obtain ⟨hr, hrs⟩ := hnodup
    rw [giveUnits]
    split
    · rename_i hpos
      obtain ⟨u, rfl⟩ : ∃ v, u = v + 1 := ⟨u - 1, by omega⟩
      have hsub : (undistributed.saturatingSub payUnit).value = u := by
        have hmax := undistributed.le_max
        have hmin := T.payout.min_nonpos
        rw [IntValue.saturatingSub, payUnit_value, hu, IntValue.clamp_of_mem] <;> omega
      rw [ih _ hsub hrs, List.map_cons, List.take_succ_cons, List.getElem?_modify]
      by_cases hi : r.1 = i
      · have hnot : i ∉ (rs.map Prod.fst).take u := fun hmem => hr (hi ▸ List.mem_of_mem_take hmem)
        subst hi
        simp [hnot, Function.comp_def]
      · have hiff : i ∈ r.1 :: (rs.map Prod.fst).take u ↔ i ∈ (rs.map Prod.fst).take u := by
          rw [List.mem_cons]
          exact or_iff_right fun h => hi h.symm
        simp [hi, hiff]
    · rename_i hpos
      obtain rfl : u = 0 := by omega
      simp

end GiveUnits

section Quotas

variable {P S s : Nat}

/-- What is cut off from the ratio of a share. -/
def excess (T : PayTypes) (S s : Nat) : Nat := s * accuracy T % S

theorem rest_lt : rest T P S s < accuracy T := Nat.mod_lt _ accuracy_pos

theorem mul_share_eq (T : PayTypes) (P S s : Nat) :
    P * s * accuracy T = S * accuracy T * base T P S s + S * rest T P S s + P * excess T S s := by
  have hratio := Nat.div_add_mod (s * accuracy T) S
  have hpay := Nat.div_add_mod (P * ratio T S s) (accuracy T)
  change S * ratio T S s + excess T S s = _ at hratio
  change accuracy T * base T P S s + rest T P S s = _ at hpay
  calc P * s * accuracy T = P * (S * ratio T S s + excess T S s) := by rw [hratio, Nat.mul_assoc]
    _ = S * (P * ratio T S s) + P * excess T S s := by ring
    _ = S * (accuracy T * base T P S s + rest T P S s) + P * excess T S s := by rw [hpay]
    _ = _ := by ring

theorem base_zero : base T P S 0 = 0 := by simp [base, ratio]

theorem rest_zero : rest T P S 0 = 0 := by simp [rest, ratio]

/-- The share of the payout is the part of it that is paid first, or one unit more as long as the excess is
too small to be seen. -/
theorem quota_cases (hS : 0 < S) (hexcess : P * excess T S s < accuracy T * S) :
    (P * s / S = base T P S s ∧ S * rest T P S s + P * excess T S s < S * accuracy T) ∨
      (P * s / S = base T P S s + 1 ∧ S * accuracy T ≤ S * rest T P S s + P * excess T S s) := by
  have hD := accuracy_pos (T := T)
  have heq := mul_share_eq T P S s
  have hrest : S * rest T P S s < S * accuracy T := Nat.mul_lt_mul_of_pos_left rest_lt hS
  have hSD : 0 < S * accuracy T := Nat.mul_pos hS hD
  have hquot : P * s / S = P * s * accuracy T / (S * accuracy T) := (Nat.mul_div_mul_right _ _ hD).symm
  rw [hquot, heq]
  rcases lt_or_ge (S * rest T P S s + P * excess T S s) (S * accuracy T) with hlt | hge
  · left
    refine ⟨?_, hlt⟩
    rw [Nat.add_assoc, Nat.mul_add_div hSD, Nat.div_eq_of_lt hlt, Nat.add_zero]
  · right
    refine ⟨?_, hge⟩
    rw [Nat.mul_comm (accuracy T) S] at hexcess
    rw [Nat.add_assoc, Nat.mul_add_div hSD, Nat.add_left_cancel_iff]
    refine Nat.div_eq_of_lt_le (by omega) (by omega)

end Quotas

section Split

variable {n P S : Nat} {s : Nat → Nat} {order : List Nat}

/-- What is left after the first round of payments. -/
def undistributed (T : PayTypes) (n P S : Nat) (s : Nat → Nat) : Nat :=
  P - ((List.range n).map fun i => base T P S (s i)).sum

/-- The excess is too small to move a unit of the payout, even over all payees together. -/
def RatiosFine (T : PayTypes) (n P S : Nat) (s : Nat → Nat) : Prop :=
  ∀ i < n, n * (P * excess T S (s i)) < accuracy T * S

theorem sum_eq (hS : ((List.range n).map s).sum = S) :
    P * S * accuracy T = S * accuracy T * ((List.range n).map fun i => base T P S (s i)).sum +
      S * ((List.range n).map fun i => rest T P S (s i)).sum +
      P * ((List.range n).map fun i => excess T S (s i)).sum := by
  have hmap : ((List.range n).map fun i => P * accuracy T * s i) = (List.range n).map fun i =>
      S * accuracy T * base T P S (s i) + S * rest T P S (s i) + P * excess T S (s i) :=
    List.map_congr_left fun i _ => by rw [← mul_share_eq, Nat.mul_right_comm]
  have hsum := congrArg List.sum hmap
  simp only [List.sum_map_add, List.sum_map_mul_left] at hsum
  rw [hS] at hsum
  rw [← hsum]
  ring

theorem sum_base_le (hS : ((List.range n).map s).sum = S) (hpos : 0 < S) :
    ((List.range n).map fun i => base T P S (s i)).sum ≤ P := by
  have heq := sum_eq (T := T) (P := P) hS
  refine Nat.le_of_mul_le_mul_left ?_ (Nat.mul_pos hpos (accuracy_pos (T := T)))
  calc S * accuracy T * ((List.range n).map fun i => base T P S (s i)).sum ≤ P * S * accuracy T := by omega
    _ = S * accuracy T * P := by ring

/-- The rest of the payout is made of the remainders and of what the ratios were cut off. -/
theorem undistributed_eq (hS : ((List.range n).map s).sum = S) (hpos : 0 < S) :
    S * accuracy T * undistributed T n P S s = S * ((List.range n).map fun i => rest T P S (s i)).sum +
      P * ((List.range n).map fun i => excess T S (s i)).sum := by
  have heq := sum_eq (T := T) (P := P) hS
  have hle := sum_base_le (T := T) (P := P) hS hpos
  unfold undistributed
  rw [Nat.mul_sub, show S * accuracy T * P = P * S * accuracy T by ring, heq]
  omega

theorem sum_rest_le (P S : Nat) (s : Nat → Nat) :
    ((List.range n).map fun i => rest T P S (s i)).sum + n ≤ n * accuracy T := by
  have hle := List.sum_le_card_nsmul ((List.range n).map fun i => rest T P S (s i) + 1) (accuracy T) fun r hr => by
    obtain ⟨i, -, rfl⟩ := List.mem_map.mp hr
    exact rest_lt
  simpa [List.sum_map_add] using hle

theorem RatiosFine.sum_lt (h : RatiosFine T n P S s) (hpos : 0 < S) :
    P * ((List.range n).map fun i => excess T S (s i)).sum < accuracy T * S := by
  have hDS : 0 < accuracy T * S := Nat.mul_pos accuracy_pos hpos
  cases n with
  | zero => simpa using hDS
  | succ n =>
    have hlt : ((List.range (n + 1)).map fun i => (n + 1) * (P * excess T S (s i)) + 1).sum ≤
        (n + 1) * (accuracy T * S) := by
      have hle := List.sum_le_card_nsmul ((List.range (n + 1)).map fun i => (n + 1) * (P * excess T S (s i)) + 1)
        (accuracy T * S) fun r hr => by
          obtain ⟨i, hi, rfl⟩ := List.mem_map.mp hr
          exact h i (List.mem_range.mp hi)
      simpa using hle
    simp only [List.sum_map_add, List.sum_map_mul_left, List.map_const', List.sum_replicate, List.length_range,
      smul_eq_mul, Nat.mul_one] at hlt
    refine Nat.lt_of_mul_lt_mul_left (a := n + 1) ?_
    omega

theorem RatiosFine.undistributed_le (h : RatiosFine T n P S s) (hS : ((List.range n).map s).sum = S)
    (hpos : 0 < S) : undistributed T n P S s ≤ n := by
  have heq := undistributed_eq (T := T) (P := P) hS hpos
  have hlt := h.sum_lt hpos
  have hrest := Nat.mul_le_mul_left S (sum_rest_le (T := T) (n := n) P S s)
  refine Nat.lt_succ_iff.mp (Nat.lt_of_mul_lt_mul_left (a := S * accuracy T) ?_)
  calc S * accuracy T * undistributed T n P S s < S * (n * accuracy T) + accuracy T * S := by
        rw [Nat.mul_add] at hrest
        omega
    _ = S * accuracy T * (n + 1) := by ring

theorem RatiosFine.mem_take (h : RatiosFine T n P S s) (hS : ((List.range n).map s).sum = S) (hpos : 0 < S)
    (ho : RemainderOrder n (fun i => rest T P S (s i)) order) {i : Nat} (hi : i < n)
    (hwrap : S * accuracy T ≤ S * rest T P S (s i) + P * excess T S (s i)) :
    i ∈ order.take (undistributed T n P S s) := by
  by_contra hnot
  obtain ⟨hlt, hle⟩ := ho.mul_le_sum hi hnot
  have heq := undistributed_eq (T := T) (P := P) hS hpos
  have hfine := h i hi
  have hself : excess T S (s i) ≤ ((List.range n).map fun i => excess T S (s i)).sum :=
    List.le_sum_of_mem (List.mem_map_of_mem (f := fun i => excess T S (s i)) (List.mem_range.mpr hi))
  have hPself := Nat.mul_le_mul_left P hself
  have hSle := Nat.mul_le_mul_left S hle
  have hwrap' := Nat.mul_le_mul_left (undistributed T n P S s + 1) hwrap
  have hfew : undistributed T n P S s * (P * excess T S (s i)) ≤ n * (P * excess T S (s i)) :=
    Nat.mul_le_mul_right _ hlt.le
  -- One more unit than there is would have to fit into the remainders.
  have hsplit : (undistributed T n P S s + 1) * (S * rest T P S (s i) + P * excess T S (s i)) =
      S * ((undistributed T n P S s + 1) * rest T P S (s i)) +
        (undistributed T n P S s * (P * excess T S (s i)) + P * excess T S (s i)) := by ring
  have hunits : (undistributed T n P S s + 1) * (S * accuracy T) =
      S * accuracy T * undistributed T n P S s + accuracy T * S := by ring
  omega

theorem RatiosFine.not_mem_take (h : RatiosFine T n P S s) (hS : ((List.range n).map s).sum = S) (hpos : 0 < S)
    (ho : RemainderOrder n (fun i => rest T P S (s i)) order) {i : Nat} (hzero : rest T P S (s i) = 0) :
    i ∉ order.take (undistributed T n P S s) := by
  intro hi
  have hD := accuracy_pos (T := T)
  have heq := undistributed_eq (T := T) (P := P) hS hpos
  have hlt := h.sum_lt hpos
  have hle := ho.sum_le_of_mem_take hi hzero fun j _ => Nat.le_sub_one_of_lt rest_lt
  have hunits : 0 < undistributed T n P S s := by
    rcases Nat.eq_zero_or_pos (undistributed T n P S s) with hz | hp
    · rw [hz] at hi
      simp at hi
    · exact hp
  obtain ⟨d, hd⟩ := Nat.exists_eq_succ_of_ne_zero hD.ne'
  rw [hd, Nat.succ_sub_one] at hle
  rw [hd] at heq hlt
  have hSle := Nat.mul_le_mul_left S hle
  have hS1 := Nat.mul_le_mul_left S hunits
  rw [Nat.mul_add] at hSle
  have hunit : S * (d + 1) * undistributed T n P S s =
      S * (undistributed T n P S s * d) + S * undistributed T n P S s := by ring
  have hlast : (d + 1) * S = S * d + S := by ring
  simp only [Nat.succ_eq_add_one] at heq hlt
  omega

end Split

section Compute

variable {payout : IntValue T.payout} {payoutFor : List (Id × IntValue T.share)} {S : Nat}

/-- The points of the payee at a position. -/
def pointsAt (payoutFor : List (Id × IntValue T.share)) (i : Nat) : Nat := (payoutFor[i]?.map points).getD 0

theorem pointsAt_eq {i : Nat} {e : Id × IntValue T.share} (h : payoutFor[i]? = some e) :
    pointsAt payoutFor i = points e := by
  rw [pointsAt, h, Option.map_some, Option.getD_some]

theorem map_pointsAt {α : Type} (payoutFor : List (Id × IntValue T.share)) (f : Nat → α) :
    ((List.range payoutFor.length).map fun i => f (pointsAt payoutFor i)) = payoutFor.map fun e => f (points e) := by
  refine List.ext_getElem (by simp) fun i _ hi => ?_
  rw [List.length_map] at hi
  rw [List.getElem_map, List.getElem_map, List.getElem_range, pointsAt_eq (List.getElem?_eq_getElem hi)]

theorem sum_pointsAt : ((List.range payoutFor.length).map (pointsAt payoutFor)).sum = sumPoints payoutFor :=
  congrArg List.sum (map_pointsAt payoutFor id)

theorem points_le {e : Id × IntValue T.share} (he : e ∈ payoutFor) : points e ≤ sumPoints payoutFor :=
  List.le_sum_of_mem (List.mem_map_of_mem he)

/-- The shares add up without overflow to a positive total that the fixed-point type represents, with the
payout. -/
structure Splits (payout : IntValue T.payout) (payoutFor : List (Id × IntValue T.share)) : Prop where
  pos : 0 < sumPoints payoutFor
  le_max : (sumPoints payoutFor : Int) ≤ T.share.max
  fits : Fits payout (sumPoints payoutFor)

/-- The payees after the first round of payments. -/
def rawPayouts (payout : IntValue T.payout) (payoutFor : List (Id × IntValue T.share)) : List (Payee T Id) :=
  payoutFor.map (rawPay payout (totalShares payoutFor))

/-- The positions of the payees by their remainders. -/
def remainderOrder (payout : IntValue T.payout) (payoutFor : List (Id × IntValue T.share)) : List Nat :=
  (sortRemainders ((rawPayouts payout payoutFor).zipIdx.map fun p => (p.2, p.1.remainder))).map Prod.fst

theorem Splits.rawPay (h : Splits payout payoutFor) {e : Id × IntValue T.share} (he : e ∈ payoutFor) :
    (rawPay payout (totalShares payoutFor) e).id = e.1 ∧
      (rawPay payout (totalShares payoutFor) e).pay.value =
        base T (amount payout) (sumPoints payoutFor) (points e) ∧
      (rawPay payout (totalShares payoutFor) e).remainder.inner =
        rest T (amount payout) (sumPoints payoutFor) (points e) :=
  rawPay_spec h.fits h.pos (totalShares_value h.le_max) (points_le he)

theorem Splits.order (h : Splits payout payoutFor) :
    RemainderOrder payoutFor.length
      (fun i => rest T (amount payout) (sumPoints payoutFor) (pointsAt payoutFor i))
      (remainderOrder payout payoutFor) := by
  have hperm : (sortRemainders ((rawPayouts payout payoutFor).zipIdx.map fun p => (p.2, p.1.remainder))).Perm
      ((rawPayouts payout payoutFor).zipIdx.map fun p => (p.2, p.1.remainder)) := List.perm_insertionSort _ _
  constructor
  · refine (hperm.map Prod.fst).trans (List.Perm.of_eq ?_)
    rw [List.map_map, List.range_eq_range']
    have hidx := List.zipIdx_map_snd 0 (rawPayouts payout payoutFor)
    rw [show (rawPayouts payout payoutFor).length = payoutFor.length from List.length_map _] at hidx
    exact hidx
  · have hrest : ∀ r ∈ sortRemainders ((rawPayouts payout payoutFor).zipIdx.map fun p => (p.2, p.1.remainder)),
        r.2.inner = rest T (amount payout) (sumPoints payoutFor) (pointsAt payoutFor r.1) := by
      intro r hr
      obtain ⟨⟨p, i⟩, hp, rfl⟩ := List.mem_map.mp (hperm.mem_iff.mp hr)
      rw [List.mem_zipIdx_iff_getElem?, rawPayouts, List.getElem?_map] at hp
      obtain ⟨e, he, rfl⟩ := Option.map_eq_some_iff.mp hp
      change (SharesPay.rawPay payout (totalShares payoutFor) e).remainder.inner = _
      rw [(h.rawPay (List.mem_of_getElem? he)).2.2, pointsAt_eq he]
    have hsorted : (sortRemainders ((rawPayouts payout payoutFor).zipIdx.map
        fun p => (p.2, p.1.remainder))).Pairwise fun a b => b.2.inner ≤ a.2.inner := by
      have htotal : Std.Total fun a b : Nat × Number T => b.2.inner ≤ a.2.inner :=
        ⟨fun a b => le_total b.2.inner a.2.inner⟩
      have htrans : IsTrans (Nat × Number T) fun a b => b.2.inner ≤ a.2.inner :=
        ⟨fun _ _ _ hab hbc => hbc.trans hab⟩
      exact List.pairwise_insertionSort _ _
    rw [remainderOrder, List.pairwise_map]
    refine hsorted.imp_of_mem fun ha hb hle => ?_
    rw [hrest _ ha, hrest _ hb] at hle
    exact_mod_cast hle

/-- The units that are left for the second round. -/
def unitsLeft (payout : IntValue T.payout) (payoutFor : List (Id × IntValue T.share)) : Nat :=
  undistributed T payoutFor.length (amount payout) (sumPoints payoutFor) (pointsAt payoutFor)

theorem Splits.undistributed (h : Splits payout payoutFor) :
    (payout.saturatingSub ((rawPayouts payout payoutFor).foldl (fun acc p => acc.saturatingAdd p.pay)
      IntValue.zero)).value = unitsLeft payout payoutFor := by
  have hle := sum_base_le (T := T) (P := amount payout) sum_pointsAt h.pos
  rw [map_pointsAt _ fun s => base T (amount payout) (sumPoints payoutFor) s] at hle
  have hmap : ((rawPayouts payout payoutFor).map fun p => amount p.pay) =
      payoutFor.map fun e => base T (amount payout) (sumPoints payoutFor) (points e) := by
    rw [rawPayouts, List.map_map]
    refine List.map_congr_left fun e he => ?_
    change amount (SharesPay.rawPay payout (totalShares payoutFor) e).pay = _
    rw [amount, (h.rawPay he).2.1, Int.toNat_natCast]
  have hmax := payout.le_max
  have hlow := T.payout.min_nonpos
  rw [payout_value] at hmax
  have hfold := foldl_saturatingAdd (fun p : Payee T Id => p.pay) (fun p => amount p.pay) T.payout_unsigned
    (rawPayouts payout payoutFor) (fun p _ => payout_value p.pay) IntValue.zero 0 rfl (by rw [hmap]; omega)
  rw [hmap, Nat.zero_add] at hfold
  rw [IntValue.saturatingSub, hfold, payout_value payout, unitsLeft, SharesPay.undistributed,
    map_pointsAt _ fun s => base T (amount payout) (sumPoints payoutFor) s, IntValue.clamp_of_mem] <;> omega

theorem Splits.compute_eq (h : Splits payout payoutFor) :
    compute payout payoutFor = (giveUnits (payout.saturatingSub ((rawPayouts payout payoutFor).foldl
      (fun acc p => acc.saturatingAdd p.pay) IntValue.zero))
        (sortRemainders ((rawPayouts payout payoutFor).zipIdx.map fun p => (p.2, p.1.remainder)))
        (rawPayouts payout payoutFor)).map fun p => (p.id, p.pay) := by
  have htotal := totalShares_value h.le_max
  have hpos := h.pos
  have hlen : payoutFor.length ≠ 0 := by
    intro hz
    rw [List.length_eq_zero_iff.mp hz] at hpos
    exact Nat.lt_irrefl 0 hpos
  rw [compute]
  exact if_neg (by omega)

/-- What each payee is paid: its first payment, and one unit for the first ones of the order. -/
theorem Splits.compute_getElem? (h : Splits payout payoutFor) {i : Nat} {e : Id × IntValue T.share}
    (he : payoutFor[i]? = some e) :
    ∃ v : IntValue T.payout, (compute payout payoutFor)[i]? = some (e.1, v) ∧
      v.value = ((base T (amount payout) (sumPoints payoutFor) (points e) +
        if i ∈ (remainderOrder payout payoutFor).take (unitsLeft payout payoutFor) then 1 else 0 : Nat) : Int) := by
  have hmem := List.mem_of_getElem? he
  obtain ⟨hid, hpay, -⟩ := h.rawPay hmem
  have hget : (rawPayouts payout payoutFor)[i]? = some (SharesPay.rawPay payout (totalShares payoutFor) e) := by
    rw [rawPayouts, List.getElem?_map, he, Option.map_some]
  have hunits := giveUnits_getElem? (rawPayouts payout payoutFor) h.undistributed h.order.nodup i
  rw [hget, Option.map_some] at hunits
  have hroom : i ∈ (remainderOrder payout payoutFor).take (unitsLeft payout payoutFor) →
      (base T (amount payout) (sumPoints payoutFor) (points e) : Int) + 1 ≤ T.payout.max := by
    intro hi
    have hle := sum_base_le (T := T) (P := amount payout) sum_pointsAt h.pos
    have hself : base T (amount payout) (sumPoints payoutFor) (points e) ≤ ((List.range payoutFor.length).map
        fun i => base T (amount payout) (sumPoints payoutFor) (pointsAt payoutFor i)).sum := by
      rw [map_pointsAt _ fun s => base T (amount payout) (sumPoints payoutFor) s]
      exact List.le_sum_of_mem (List.mem_map_of_mem hmem)
    have hleft : 0 < unitsLeft payout payoutFor := by
      rcases Nat.eq_zero_or_pos (unitsLeft payout payoutFor) with hz | hp
      · rw [hz] at hi
        simp at hi
      · exact hp
    have hmax := payout.le_max
    rw [payout_value] at hmax
    unfold unitsLeft SharesPay.undistributed at hleft
    omega
  rw [h.compute_eq, List.getElem?_map, hunits, Option.map_some]
  change ∃ v, some (Payee.id (if i ∈ (remainderOrder payout payoutFor).take (unitsLeft payout payoutFor) then _ else _),
    Payee.pay (if i ∈ (remainderOrder payout payoutFor).take (unitsLeft payout payoutFor) then _ else _)) = _ ∧ _
  split
  · rename_i hi
    refine ⟨_, congrArg (fun id => some (id, _)) hid, ?_⟩
    rw [addUnit_pay (by rw [hpay]; exact hroom hi), hpay]
    rfl
  · exact ⟨_, congrArg (fun id => some (id, _)) hid, hpay⟩

theorem Splits.compute_length (h : Splits payout payoutFor) :
    (compute payout payoutFor).length = payoutFor.length := by
  have hlen (us : List (Nat × Number T)) : ∀ (u : IntValue T.payout) (ps : List (Payee T Id)),
      (giveUnits u us ps).length = ps.length := by
    induction us with
    | nil => exact fun _ _ => rfl
    | cons r rs ih =>
      intro u ps
      rw [giveUnits]
      split
      · rw [ih, List.length_modify]
      · rfl
  rw [h.compute_eq, List.length_map, hlen, rawPayouts, List.length_map]

end Compute

section Fairness

variable {payout : IntValue T.payout} {payoutFor : List (Id × IntValue T.share)}

/-- The remainder of each payee with the units it got for it. -/
def awards (payout : IntValue T.payout) (payoutFor : List (Id × IntValue T.share)) : List (Int × Int) :=
  List.zipWith (fun p paid => (p.remainder.inner, paid.2.value - p.pay.value)) (rawPayouts payout payoutFor)
    (compute payout payoutFor)

/-- The payout is split without loss and in proportion to the shares. A permuted list only exchanges the units
of equal remainders. -/
structure Exact (payout : IntValue T.payout) (payoutFor : List (Id × IntValue T.share)) : Prop where
  sum : ((compute payout payoutFor).map fun paid => paid.2.value).sum = payout.value
  ids : (compute payout payoutFor).map Prod.fst = payoutFor.map Prod.fst
  fair : ∀ {i : Nat} {e : Id × IntValue T.share} {paid : Id × IntValue T.payout}, payoutFor[i]? = some e →
    (compute payout payoutFor)[i]? = some paid →
      paid.2.value = payout.value * e.2.value / sumPoints payoutFor ∨
        paid.2.value = payout.value * e.2.value / sumPoints payoutFor + 1
  zero : ∀ {i : Nat} {e : Id × IntValue T.share} {paid : Id × IntValue T.payout}, payoutFor[i]? = some e →
    (compute payout payoutFor)[i]? = some paid → e.2.value = 0 → paid.2.value = 0
  monotone : ∀ {i j : Nat} {e e' : Id × IntValue T.share} {paid paid' : Id × IntValue T.payout},
    payoutFor[i]? = some e → (compute payout payoutFor)[i]? = some paid →
      payoutFor[j]? = some e' → (compute payout payoutFor)[j]? = some paid' →
        e.2.value ≤ e'.2.value → paid.2.value ≤ paid'.2.value + 1
  permutes : ∀ payoutFor' : List (Id × IntValue T.share), payoutFor'.Perm payoutFor →
    (awards payout payoutFor').Perm (awards payout payoutFor)

theorem Splits.sum_eq (h : Splits payout payoutFor) :
    ((compute payout payoutFor).map fun paid => paid.2.value).sum =
      ((((List.range payoutFor.length).map
        fun i => base T (amount payout) (sumPoints payoutFor) (pointsAt payoutFor i)).sum +
          min (unitsLeft payout payoutFor) payoutFor.length : Nat) : Int) := by
  have hpays : ((compute payout payoutFor).map fun paid => paid.2.value) =
      ((List.range payoutFor.length).map fun i => ((base T (amount payout) (sumPoints payoutFor)
        (pointsAt payoutFor i) + if i ∈ (remainderOrder payout payoutFor).take (unitsLeft payout payoutFor)
          then 1 else 0 : Nat) : Int)) := by
    refine List.ext_getElem? fun i => ?_
    rw [List.getElem?_map, List.getElem?_map]
    rcases lt_or_ge i payoutFor.length with hlt | hge
    · have he := List.getElem?_eq_getElem hlt
      obtain ⟨v, hv, hvalue⟩ := h.compute_getElem? he
      rw [hv, List.getElem?_range hlt, Option.map_some, Option.map_some, hvalue, pointsAt_eq he]
    · rw [List.getElem?_eq_none (by rw [h.compute_length]; exact hge),
        List.getElem?_eq_none (by rw [List.length_range]; exact hge)]
      rfl
  rw [hpays, ← h.order.sum_units, ← List.sum_map_add, Nat.cast_list_sum, List.map_map]
  rfl

theorem Splits.awards_eq (h : Splits payout payoutFor) :
    awards payout payoutFor = ((List.range payoutFor.length).map fun i =>
      (rest T (amount payout) (sumPoints payoutFor) (pointsAt payoutFor i),
        decide (i ∈ (remainderOrder payout payoutFor).take (unitsLeft payout payoutFor)))).map
          fun a => ((a.1 : Int), if a.2 then 1 else 0) := by
  refine List.ext_getElem? fun i => ?_
  rw [awards, List.getElem?_zipWith, rawPayouts, List.getElem?_map, List.getElem?_map, List.getElem?_map]
  rcases lt_or_ge i payoutFor.length with hlt | hge
  · have he := List.getElem?_eq_getElem hlt
    obtain ⟨v, hv, hvalue⟩ := h.compute_getElem? he
    obtain ⟨-, hpay, hrest⟩ := h.rawPay (List.mem_of_getElem? he)
    rw [he, hv, List.getElem?_range hlt]
    simp only [Option.map_some, hvalue, hpay, hrest, pointsAt_eq he, decide_eq_true_eq]
    push_cast
    rw [add_sub_cancel_left]
  · rw [List.getElem?_eq_none hge, List.getElem?_eq_none (l := List.range _) (by rw [List.length_range]; exact hge)]
    rfl

theorem Splits.perm {payoutFor' : List (Id × IntValue T.share)} (h : Splits payout payoutFor)
    (hperm : payoutFor'.Perm payoutFor) :
    Splits payout payoutFor' ∧ sumPoints payoutFor' = sumPoints payoutFor := by
  have hsum : sumPoints payoutFor' = sumPoints payoutFor := (hperm.map points).sum_eq
  exact ⟨⟨hsum ▸ h.pos, hsum ▸ h.le_max, hsum ▸ h.fits⟩, hsum⟩

theorem Splits.awards_perm {payoutFor' : List (Id × IntValue T.share)} (h : Splits payout payoutFor)
    (hperm : payoutFor'.Perm payoutFor) : (awards payout payoutFor').Perm (awards payout payoutFor) := by
  obtain ⟨h', hsum⟩ := h.perm hperm
  have hunits : unitsLeft payout payoutFor' = unitsLeft payout payoutFor := by
    rw [unitsLeft, unitsLeft, SharesPay.undistributed, SharesPay.undistributed, hsum,
      map_pointsAt _ fun s => base T (amount payout) (sumPoints payoutFor) s,
      map_pointsAt _ fun s => base T (amount payout) (sumPoints payoutFor) s, (hperm.map _).sum_eq]
  have horder' := h'.order
  have horder := h.order
  rw [hsum, hperm.length_eq] at horder'
  rw [h'.awards_eq, h.awards_eq, hsum, hunits, hperm.length_eq]
  refine (horder'.units_perm horder ?_).map _
  rw [map_pointsAt _ fun s => rest T (amount payout) (sumPoints payoutFor) s]
  have hmap := map_pointsAt payoutFor' fun s => rest T (amount payout) (sumPoints payoutFor) s
  rw [hperm.length_eq] at hmap
  rw [hmap]
  exact hperm.map _

theorem quota_value (payout : IntValue T.payout) (e : Id × IntValue T.share) (S : Nat) :
    payout.value * e.2.value / S = ((amount payout * points e / S : Nat) : Int) := by
  rw [payout_value, share_value]
  push_cast
  rfl

theorem exact_of_ratiosFine (h : Splits payout payoutFor)
    (hfine : RatiosFine T payoutFor.length (amount payout) (sumPoints payoutFor) (pointsAt payoutFor)) :
    Exact payout payoutFor := by
  have hle : unitsLeft payout payoutFor ≤ payoutFor.length := hfine.undistributed_le sum_pointsAt h.pos
  have hbase := sum_base_le (T := T) (P := amount payout) sum_pointsAt h.pos
  have hquota {i : Nat} {e : Id × IntValue T.share} {paid : Id × IntValue T.payout}
      (he : payoutFor[i]? = some e) (hpaid : (compute payout payoutFor)[i]? = some paid) :
      (paid.2.value = ((amount payout * points e / sumPoints payoutFor : Nat) : Int) ∨
        paid.2.value = ((amount payout * points e / sumPoints payoutFor : Nat) : Int) + 1) ∧
          (points e = 0 → paid.2.value = 0) := by
    obtain ⟨v, hv, hvalue⟩ := h.compute_getElem? he
    obtain rfl := Option.some.inj (hv.symm.trans hpaid)
    obtain ⟨hi, -⟩ := List.getElem?_eq_some_iff.mp he
    have hi' := hfine i hi
    rw [pointsAt_eq he] at hi'
    have hone : amount payout * excess T (sumPoints payoutFor) (points e) ≤
        payoutFor.length * (amount payout * excess T (sumPoints payoutFor) (points e)) :=
      Nat.le_mul_of_pos_left _ (by omega)
    refine ⟨?_, fun hzero => ?_⟩
    · rcases quota_cases (P := amount payout) h.pos (hone.trans_lt hi') with ⟨hq, -⟩ | ⟨hq, hwrap⟩
      · change v.value = _ ∨ v.value = _
        split at hvalue <;> omega
      · rw [← pointsAt_eq he] at hwrap
        have hmem : i ∈ (remainderOrder payout payoutFor).take (unitsLeft payout payoutFor) :=
          hfine.mem_take sum_pointsAt h.pos h.order hi hwrap
        rw [if_pos hmem] at hvalue
        left
        change v.value = _
        omega
    · have hrest : rest T (amount payout) (sumPoints payoutFor) (pointsAt payoutFor i) = 0 := by
        rw [pointsAt_eq he, hzero]
        exact rest_zero
      have hnot : i ∉ (remainderOrder payout payoutFor).take (unitsLeft payout payoutFor) :=
        hfine.not_mem_take sum_pointsAt h.pos h.order hrest
      rw [if_neg hnot, hzero, base_zero] at hvalue
      exact hvalue
  constructor
  case sum =>
    rw [h.sum_eq, payout_value, min_eq_left hle, unitsLeft, SharesPay.undistributed, Nat.add_sub_cancel' hbase]
  case ids =>
    refine List.ext_getElem? fun i => ?_
    rw [List.getElem?_map, List.getElem?_map]
    rcases lt_or_ge i payoutFor.length with hlt | hge
    · have he := List.getElem?_eq_getElem hlt
      obtain ⟨v, hv, -⟩ := h.compute_getElem? he
      rw [hv, he, Option.map_some, Option.map_some]
    · rw [List.getElem?_eq_none hge, List.getElem?_eq_none (by rw [h.compute_length]; exact hge)]
      rfl
  case fair =>
    intro i e paid he hpaid
    rw [quota_value]
    exact (hquota he hpaid).1
  case zero =>
    intro i e paid he hpaid hzero
    refine (hquota he hpaid).2 ?_
    rw [points, hzero, Int.toNat_zero]
  case monotone =>
    intro i j e e' paid paid' he hpaid he' hpaid' hle'
    rw [share_value, share_value, Int.ofNat_le] at hle'
    have hmono : amount payout * points e / sumPoints payoutFor ≤ amount payout * points e' / sumPoints payoutFor :=
      Nat.div_le_div_right (Nat.mul_le_mul_left _ hle')
    have hp := (hquota he hpaid).1
    have hp' := (hquota he' hpaid').1
    omega
  case permutes => exact fun _ hperm => h.awards_perm hperm

theorem Exact.excess_le (hexact : Exact payout payoutFor) (h : Splits payout payoutFor) :
    amount payout * ((List.range payoutFor.length).map
        fun i => excess T (sumPoints payoutFor) (pointsAt payoutFor i)).sum ≤
      payoutFor.length * (accuracy T * sumPoints payoutFor) := by
  have hsum := hexact.sum
  rw [h.sum_eq, payout_value, Int.ofNat_inj] at hsum
  have heq := undistributed_eq (T := T) (P := amount payout) sum_pointsAt h.pos
  have hle : unitsLeft payout payoutFor ≤ payoutFor.length := by
    unfold unitsLeft SharesPay.undistributed at hsum ⊢
    omega
  have hmul := Nat.mul_le_mul_left (sumPoints payoutFor * accuracy T) hle
  unfold unitsLeft at hmul
  rw [show payoutFor.length * (accuracy T * sumPoints payoutFor) =
    sumPoints payoutFor * accuracy T * payoutFor.length by ring]
  omega

end Fairness

/-- A payout that its fixed-point type represents is split without loss if the ratio of each payee is cut off by
less than its part of a unit, and only if the ratios are cut off by at most one unit for each payee in total. -/
theorem exact_conditions {Id : Type} (payout : IntValue T.payout) (payoutFor : List (Id × IntValue T.share))
    (hpos : 0 < sumPoints payoutFor) (hmax : (sumPoints payoutFor : Int) ≤ T.share.max) :
    (Fits payout (sumPoints payoutFor) →
      RatiosFine T payoutFor.length (amount payout) (sumPoints payoutFor) (pointsAt payoutFor) →
        Exact payout payoutFor) ∧
      (Fits payout (sumPoints payoutFor) → Exact payout payoutFor →
        amount payout * ((List.range payoutFor.length).map
            fun i => excess T (sumPoints payoutFor) (pointsAt payoutFor i)).sum ≤
          payoutFor.length * (accuracy T * sumPoints payoutFor)) :=
  ⟨fun hfits => exact_of_ratiosFine ⟨hpos, hmax, hfits⟩,
    fun hfits hexact => hexact.excess_le ⟨hpos, hmax, hfits⟩⟩

end SharesPay

/-- The runtime pays out 128-bit assets by 64-bit points. -/
def runtimePayTypes : PayTypes :=
  { payout := .u128
    share := .u64
    same := rfl
    payout_unsigned := rfl
    share_unsigned := rfl }

namespace SharesPay

/-- Three payees, one of them without a share. -/
def threePayees : List (Nat × IntValue runtimePayTypes.share) :=
  [(1, ⟨2, by decide, by decide⟩), (2, ⟨0, by decide, by decide⟩), (3, ⟨5, by decide, by decide⟩)]

theorem exact_conditions_threePayees :
    Exact (⟨100, by decide, by decide⟩ : IntValue runtimePayTypes.payout) threePayees :=
  (exact_conditions _ threePayees (by decide) (by decide)).1 (by unfold Fits; decide +kernel)
    (by unfold RatiosFine; decide +kernel)

/-- Ten units of 18 decimal places, split evenly among three payees. -/
def tenTokens : IntValue runtimePayTypes.payout := ⟨10 ^ 19, by decide, by decide⟩

def evenShares : List (Nat × IntValue runtimePayTypes.share) :=
  [1, 2, 3].map fun id => (id, ⟨1, by decide, by decide⟩)

theorem evenShares_lose_payout :
    0 < sumPoints evenShares ∧ (sumPoints evenShares : Int) ≤ runtimePayTypes.share.max ∧
      ((compute tenTokens evenShares).map fun paid => paid.2.value).sum = tenTokens.value - 7 ∧
      ¬Exact tenTokens evenShares := by
  have hsum : ((compute tenTokens evenShares).map fun paid => paid.2.value).sum = tenTokens.value - 7 := by
    decide +kernel
  refine ⟨by decide, by decide, hsum, fun hexact => ?_⟩
  have hwhole := hexact.sum
  omega

end SharesPay

end FrameSuite
