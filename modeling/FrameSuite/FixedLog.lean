import FrameSuite.FixedExp

/-! The logarithm and the powers of a fixed-point number. Square roots bring the argument near one, where the
series of the inverse hyperbolic tangent converges; a power with a whole exponent is a repeated product, and any
other is the exponential of a multiple of the logarithm. -/

namespace FrameSuite

open FixedNumber

variable {F : FixedRepr}

/-- The iterations that remain, the value and the number of roots taken so far. -/
def rangeReduceLoop : Nat → FixedNumber F → Nat → FixedNumber F × Nat
  | 0, y, k => (y, k)
  | n + 1, y, k =>
    let diff := if (one : FixedNumber F).inner < y.inner then y.saturatingSub one else one.saturatingSub y
    if diff.inner ≤ (saturatingFromRational 1 2 : FixedNumber F).inner then (y, k)
    else
      let ny := fixedSqrtNewton y
      if ny = y ∨ ny = zero then (y, k) else rangeReduceLoop n ny (k + 1)

def rangeReduceSqrt (y : FixedNumber F) : FixedNumber F × Nat := rangeReduceLoop maxIterations y 0

/-- The iterations that remain, the index of the next term, the square of the argument, the sum and the power. -/
def atanhLoop : Nat → Nat → FixedNumber F → FixedNumber F → FixedNumber F → FixedNumber F
  | 0, _, _, sum, _ => sum
  | n + 1, i, tSq, sum, power =>
    let term := (power.checkedDiv (saturatingFromInteger (2 * i + 1))).getD zero
    if term.saturatingAbs.inner ≤ (ulp : FixedNumber F).inner then sum
    else
      let newSum := sum.saturatingAdd term
      if newSum = sum then sum else atanhLoop n (i + 1) tSq newSum ((power.checkedMul tSq).getD zero)

def lnNearOne (y : FixedNumber F) : FixedNumber F :=
  let t := ((y.saturatingSub one).checkedDiv (y.saturatingAdd one)).getD zero
  let tSq := (t.checkedMul t).getD zero
  (atanhLoop maxIterations 0 tSq zero t).saturatingMul (one.saturatingAdd one)

/-- Zero minus one is zero in the formats without a sign. -/
def isUnsigned (F : FixedRepr) : Prop := (zero : FixedNumber F).saturatingSub one = zero

instance : Decidable (isUnsigned F) := inferInstanceAs (Decidable ((zero : FixedNumber F).saturatingSub one = zero))

def fixedLn (x : FixedNumber F) : Option (FixedNumber F) :=
  if x.inner ≤ 0 then none
  else if x = one then some zero
  else if isUnsigned F ∧ x.inner < (one : FixedNumber F).inner then none
  else
    let reduced := rangeReduceSqrt x
    let lnVal := lnNearOne reduced.1
    if 31 < reduced.2 then none
    else some (if 0 < reduced.2 then lnVal.saturatingMul (saturatingFromInteger (2 ^ reduced.2)) else lnVal)

def fixedToI128? (x : FixedNumber F) : Option Int :=
  (innerI128? x).bind fun inner => if inner.tmod F.div = 0 then some (inner.tdiv F.div) else none

def fixedPow (x p : FixedNumber F) : Option (FixedNumber F) :=
  if x = zero ∧ p.inner ≤ 0 then none
  else if x = zero then some zero
  else
    let intExp := fixedToI128? p
    if x.inner < 0 ∧ intExp.isNone then none
    else if p = zero then some one
    else if x = one then some one
    else
      match intExp with
      | some n => fixedPowi x n
      | none => (fixedLn x).bind fun lnX => fixedExp (p.saturatingMul lnX)

end FrameSuite
