import FrameSuite.FixedBridge
import FrameSuite.FixedLog

/-! The payouts that follow a curve: halving, exponential decay, a logistic curve given by its parameters or by
two of its levels, an inverse proportion, and a function put together from segments. -/

namespace FrameSuite

open FixedNumber IntValue FixedKind

variable {t : IntType} {F : FixedRepr}

namespace IntType

def bits : IntType → Nat
  | u8 | i8 => 8
  | u16 | i16 => 16
  | u32 | i32 => 32
  | u64 | i64 => 64
  | u128 | i128 => 128
  | usize width | isize width => width.bits

end IntType

/-- A shift by an amount outside the width stops the program when overflow is checked, and is taken modulo the
width otherwise. -/
def shiftRight (overflowChecks : Bool) (m n : IntValue t) : Option (IntValue t) :=
  if 0 ≤ n.value ∧ n.value < t.bits then some (IntValue.clamp (m.value / 2 ^ n.value.toNat))
  else if overflowChecks then none
  else some (IntValue.clamp (m.value / 2 ^ (n.value % t.bits).toNat))

structure HalvingPayoutConfig (t : IntType) where
  initialReward : IntValue t

def halvingPayout (overflowChecks : Bool) (n : IntValue t) (context : HalvingPayoutConfig t) : Option (IntValue t) :=
  if n = IntValue.zero then some context.initialReward else shiftRight overflowChecks context.initialReward n

structure ExpDecayPayoutConfig (t : IntType) where
  initialReward : IntValue t
  decayConstant : t.fixedPoint.Number

/-- The factor of the decay, in the workspace. -/
def decayFactor (x a : FixedNumber F) : FixedNumber F :=
  (fixedExp (FixedNumber.zero.saturatingSub (a.saturatingMul x))).getD FixedNumber.zero

def expDecayPayout (x : IntValue t) (context : ExpDecayPayoutConfig t) : IntValue t :=
  fromFixed (context.initialReward.toFixed.saturatingMul
    (saturatedFrom (decayFactor (saturatedInto x.toFixed) (saturatedInto context.decayConstant))))

/-- The logistic curve in the workspace, with its largest value for an exponential that overflows. -/
def logistic (l k x0 x : FixedNumber F) : FixedNumber F :=
  let negKDelta := FixedNumber.zero.saturatingSub (k.saturatingMul (x.saturatingSub x0))
  let expVal := (fixedExp negKDelta).getD maxValue
  (l.checkedDiv (one.saturatingAdd expVal)).getD FixedNumber.zero

structure SigmoidPayoutConfig (t : IntType) where
  maxReward : IntValue t
  growthStart : t.fixedPoint.Number
  growthEnd : t.fixedPoint.Number

/-- The logarithm of the odds. -/
def logit {k : FixedKind} (p : k.Number) : Option k.signed.Number :=
  (p.checkedDiv (one.saturatingSub p)).bind fun ratio => fixedLn (saturatedInto ratio)

/-- Strictly between zero and one. -/
def inUnit (p : FixedNumber F) : Prop := 0 < p.inner ∧ p.inner < (one : FixedNumber F).inner

instance (p : FixedNumber F) : Decidable (inUnit p) :=
  inferInstanceAs (Decidable (0 < p.inner ∧ p.inner < (one : FixedNumber F).inner))

/-- The growth rate and the midpoint of the curve, unless the levels are equal or out of range. -/
def sigmoidShape {k : FixedKind} (growthStart growthEnd : k.Number) : Option (k.signed.Number × k.signed.Number) :=
  if inUnit growthStart ∧ inUnit growthEnd then
    (logit growthStart).bind fun logitA =>
      (logit growthEnd).bind fun logitB =>
        let rate := logitB.saturatingSub logitA
        if rate = FixedNumber.zero then none
        else ((FixedNumber.zero.saturatingSub logitA).checkedDiv rate).map fun x0 => (rate, x0)
  else none

def sigmoidPayout (x : IntValue t) (context : SigmoidPayoutConfig t) : IntValue t :=
  match sigmoidShape context.growthStart context.growthEnd with
  | none => IntValue.zero
  | some (rate, x0) =>
    fromFixed (saturatedFrom (logistic (saturatedInto context.maxReward.toFixed) rate x0 (saturatedInto x.toFixed)))

structure InverseProportionalConfig (F : FixedRepr) where
  k : FixedNumber F
  epsilon : FixedNumber F

def inverseProportionalPayout (input : IntValue t) (context : InverseProportionalConfig t.fixedPoint.repr) :
    IntValue t :=
  let denom := input.toFixed.saturatingAdd context.epsilon
  if denom.inner ≤ 0 then fromFixed FixedNumber.zero
  else fromFixed ((context.k.checkedDiv denom).getD FixedNumber.zero)

structure CurveParams (kind : FixedKind) where
  l : kind.Number
  k : kind.Number
  x0 : kind.Number

def CurveParams.evaluate {kind : FixedKind} (params : CurveParams kind) (x : kind.Number) : kind.Number :=
  saturatedFrom (logistic (saturatedInto params.l) (saturatedInto params.k) (saturatedInto params.x0)
    (saturatedInto x))

inductive Segment (k : FixedKind)
  | linear (startX endX startY endY : k.Number)
  | curve (startX endX : k.Number) (params : CurveParams k)

namespace Segment

variable {k : FixedKind}

def startX : Segment k → k.Number
  | linear startX _ _ _ => startX
  | curve startX _ _ => startX

def endX : Segment k → k.Number
  | linear _ endX _ _ => endX
  | curve _ endX _ => endX

def contains (s : Segment k) (x : k.Number) : Bool := s.startX.inner ≤ x.inner && x.inner ≤ s.endX.inner

/-- The interpolation between the ends, by a ratio that is rounded down first. -/
def linearValue (startX endX startY endY x : k.Number) : k.Number :=
  let width := endX.saturatingSub startX
  if width = FixedNumber.zero then startY
  else
    let ratio := ((x.saturatingSub startX).checkedDiv width).getD FixedNumber.zero
    let deltaY := (saturatedInto endY).saturatingSub (saturatedInto startY)
    saturatedFrom ((saturatedInto startY).saturatingAdd ((saturatedInto ratio).saturatingMul deltaY))

def value (s : Segment k) (x : k.Number) : k.Number :=
  match s with
  | linear startX endX startY endY => linearValue startX endX startY endY x
  | curve _ _ params => params.evaluate x

end Segment

structure PiecewiseConfig (k : FixedKind) where
  segments : List (Segment k)

def piecewisePayout (input : IntValue t) (context : PiecewiseConfig t.fixedPoint) : IntValue t :=
  match context.segments.find? fun seg => seg.contains input.toFixed with
  | none => IntValue.zero
  | some segment => fromFixed (segment.value input.toFixed)

end FrameSuite
