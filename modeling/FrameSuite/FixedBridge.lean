import FrameSuite.FixedNumber

/-! The bridge between the primitive integers and the fixed-point types: each integer type has a fixed-point
type, a saturating conversion to it and a clamping one back, and each fixed-point type a signed workspace that
its inner values are cast to. -/

namespace FrameSuite

open FixedNumber

namespace FixedKind

/-- The signed workspace of a fixed-point type. -/
def signed : FixedKind → FixedKind
  | fixedI64 => fixedI64
  | fixedU64 | fixedU128 | fixedI128 => fixedI128

variable {k : FixedKind}

def saturatedInto (x : k.Number) : k.signed.Number := FixedNumber.clamp x.inner

def saturatedFrom (y : k.signed.Number) : k.Number := FixedNumber.clamp y.inner

end FixedKind

/-- The width of a pointer on the target. -/
inductive PointerWidth
  | w32
  | w64
deriving DecidableEq

def PointerWidth.bits : PointerWidth → Nat
  | w32 => 32
  | w64 => 64

inductive IntType
  | u8
  | u16
  | u32
  | u64
  | u128
  | usize (width : PointerWidth)
  | i8
  | i16
  | i32
  | i64
  | i128
  | isize (width : PointerWidth)
deriving DecidableEq

namespace IntType

def min : IntType → Int
  | i8 => -2 ^ 7
  | i16 => -2 ^ 15
  | i32 => -2 ^ 31
  | i64 => -2 ^ 63
  | i128 => -2 ^ 127
  | isize width => -2 ^ (width.bits - 1)
  | _ => 0

def max : IntType → Int
  | u8 => 2 ^ 8 - 1
  | u16 => 2 ^ 16 - 1
  | u32 => 2 ^ 32 - 1
  | u64 => 2 ^ 64 - 1
  | u128 => 2 ^ 128 - 1
  | usize width => 2 ^ width.bits - 1
  | i8 => 2 ^ 7 - 1
  | i16 => 2 ^ 15 - 1
  | i32 => 2 ^ 31 - 1
  | i64 => 2 ^ 63 - 1
  | i128 => 2 ^ 127 - 1
  | isize width => 2 ^ (width.bits - 1) - 1

def fixedPoint : IntType → FixedKind
  | u8 | u16 | u32 => .fixedU64
  | u64 | u128 | usize _ => .fixedU128
  | i8 | i16 | i32 => .fixedI64
  | i64 | i128 | isize _ => .fixedI128

variable (t : IntType)

theorem min_nonpos : t.min ≤ 0 := by
  cases t
  case usize w => exact le_refl 0
  case isize w => cases w <;> decide
  all_goals decide

theorem max_pos : 0 < t.max := by
  cases t
  case usize w => cases w <;> decide
  case isize w => cases w <;> decide
  all_goals decide

end IntType

structure IntValue (t : IntType) where
  value : Int
  min_le : t.min ≤ value
  le_max : value ≤ t.max
deriving DecidableEq

namespace IntValue

variable {t : IntType}

@[ext]
theorem ext {m n : IntValue t} (h : m.value = n.value) : m = n := by
  cases m
  cases n
  simpa using h

def zero : IntValue t := ⟨0, t.min_nonpos, t.max_pos.le⟩

/-- The integer, or the bound of the type that it exceeds. -/
def clamp (n : Int) : IntValue t :=
  if h : t.max < n then ⟨t.max, t.min_nonpos.trans t.max_pos.le, le_refl _⟩
  else if h' : n < t.min then ⟨t.min, le_refl _, t.min_nonpos.trans t.max_pos.le⟩
  else ⟨n, not_lt.mp h', not_lt.mp h⟩

def toFixed (n : IntValue t) : t.fixedPoint.Number := saturatingFromInteger n.value

def fromFixed (f : t.fixedPoint.Number) : IntValue t := clamp (f.inner.tdiv t.fixedPoint.repr.div)

theorem clamp_of_mem {n : Int} (h : t.min ≤ n) (h' : n ≤ t.max) : (clamp n : IntValue t).value = n := by
  rw [clamp, dif_neg (not_lt.mpr h'), dif_neg (not_lt.mpr h)]

/-- The fixed-point type represents the integer. -/
def InRange (n : IntValue t) : Prop :=
  t.fixedPoint.repr.minInner ≤ n.value * t.fixedPoint.repr.div ∧
    n.value * t.fixedPoint.repr.div ≤ t.fixedPoint.repr.maxInner

theorem toFixed_inner_of_inRange {n : IntValue t} (h : InRange n) :
    n.toFixed.inner = n.value * t.fixedPoint.repr.div :=
  FixedNumber.clamp_of_mem h.1 h.2

theorem inRange_or (n : IntValue t) : InRange n ∨ t = .u128 ∨ t = .i128 := by
  have hmin := n.min_le
  have hmax := n.le_max
  cases t
  case u128 => exact Or.inr (Or.inl rfl)
  case i128 => exact Or.inr (Or.inr rfl)
  case usize w => cases w <;> (left; constructor <;> simp [IntType.min, IntType.max, IntType.fixedPoint,
    PointerWidth.bits, FixedKind.repr] at * <;> omega)
  case isize w => cases w <;> (left; constructor <;> simp [IntType.min, IntType.max, IntType.fixedPoint,
    PointerWidth.bits, FixedKind.repr] at * <;> omega)
  all_goals
    left
    constructor <;> simp [IntType.min, IntType.max, IntType.fixedPoint, FixedKind.repr] at * <;> omega

theorem fromFixed_toFixed_of_inRange {n : IntValue t} (h : InRange n) : fromFixed n.toFixed = n := by
  refine IntValue.ext ?_
  rw [fromFixed, toFixed_inner_of_inRange h, Int.mul_tdiv_cancel _ t.fixedPoint.repr.div_pos'.ne',
    clamp_of_mem n.min_le n.le_max]

theorem fromFixed_toFixed_of_gt {n : IntValue t}
    (h : t.fixedPoint.repr.maxInner < n.value * t.fixedPoint.repr.div) :
    (fromFixed n.toFixed).value = t.fixedPoint.repr.maxInner / t.fixedPoint.repr.div ∧
      t.fixedPoint.repr.maxInner / t.fixedPoint.repr.div < n.value := by
  have hD := t.fixedPoint.repr.div_pos'
  have hM := t.fixedPoint.repr.one_le_max
  have hlt : t.fixedPoint.repr.maxInner / t.fixedPoint.repr.div < n.value := Int.ediv_lt_of_lt_mul hD h
  have hinner : n.toFixed.inner = t.fixedPoint.repr.maxInner := by
    rw [toFixed, saturatingFromInteger, clamp_of_nonneg (by omega)]
    omega
  have hnonneg : 0 ≤ t.fixedPoint.repr.maxInner / t.fixedPoint.repr.div := Int.ediv_nonneg (by omega) hD.le
  refine ⟨?_, hlt⟩
  rw [fromFixed, hinner, Int.tdiv_eq_ediv_of_nonneg (by omega),
    clamp_of_mem (t.min_nonpos.trans hnonneg) (hlt.le.trans n.le_max)]

/-- Below the range the conversion comes back with the lower bound, cut off toward zero. -/
theorem fromFixed_toFixed_of_lt {n : IntValue t}
    (h : n.value * t.fixedPoint.repr.div < t.fixedPoint.repr.minInner) :
    (fromFixed n.toFixed).value = -(-t.fixedPoint.repr.minInner / t.fixedPoint.repr.div) ∧
      n.value < -(-t.fixedPoint.repr.minInner / t.fixedPoint.repr.div) := by
  have hD := t.fixedPoint.repr.div_pos'
  have hm := t.fixedPoint.repr.min_nonpos
  have hM := t.fixedPoint.repr.one_le_max
  have hlt : -t.fixedPoint.repr.minInner / t.fixedPoint.repr.div < -n.value := by
    refine Int.ediv_lt_of_lt_mul hD ?_
    rw [Int.neg_mul]
    omega
  have hinner : n.toFixed.inner = t.fixedPoint.repr.minInner := by
    rw [toFixed, saturatingFromInteger, clamp_inner]
    omega
  have hnonneg : 0 ≤ -t.fixedPoint.repr.minInner / t.fixedPoint.repr.div := Int.ediv_nonneg (by omega) hD.le
  have hquot : t.fixedPoint.repr.minInner.tdiv t.fixedPoint.repr.div =
      -(-t.fixedPoint.repr.minInner / t.fixedPoint.repr.div) := by
    rw [← Int.tdiv_eq_ediv_of_nonneg (by omega), Int.neg_tdiv, Int.neg_neg]
  have hmin := n.min_le
  have hmax := t.max_pos
  refine ⟨?_, by omega⟩
  rw [fromFixed, hinner, hquot, clamp_of_mem (by omega) (by omega)]

/-- The bridge loses nothing exactly on the integers that the fixed-point type represents. -/
theorem fromFixed_toFixed_eq_iff (n : IntValue t) : fromFixed n.toFixed = n ↔ InRange n := by
  constructor
  · intro heq
    have hvalue := congrArg IntValue.value heq
    constructor
    · by_contra hlt
      have hout := fromFixed_toFixed_of_lt (not_le.mp hlt)
      omega
    · by_contra hgt
      have hout := fromFixed_toFixed_of_gt (not_le.mp hgt)
      omega
  · exact fromFixed_toFixed_of_inRange

end IntValue

end FrameSuite
