import Mathlib.Tactic.Linarith
import Mathlib.Tactic.Ring
import Mathlib.Algebra.Order.Ring.Int

/-! Fixed-point numbers over a bounded integer, signed or not. Products and quotients are cut off toward
zero; a result outside the bounds is `none` for a checked operation and the nearest bound for a saturating
one. -/

namespace FrameSuite

structure FixedRepr where
  div : Nat
  decimals : Nat
  minInner : Int
  maxInner : Int
  div_pos : 0 < div
  min_nonpos : minInner ≤ 0
  two_div_le : 2 * (div : Int) ≤ maxInner

namespace FixedRepr

variable (F : FixedRepr)

theorem div_pos' : (0 : Int) < F.div := Int.natCast_pos.mpr F.div_pos

theorem div_le : (F.div : Int) ≤ F.maxInner := by
  have hpos := F.div_pos'
  have hle := F.two_div_le
  omega

theorem one_le_max : 1 ≤ F.maxInner := by
  have hpos := F.div_pos'
  have hle := F.div_le
  omega

end FixedRepr

structure FixedNumber (F : FixedRepr) where
  inner : Int
  min_le : F.minInner ≤ inner
  le_max : inner ≤ F.maxInner
deriving DecidableEq

namespace FixedNumber

variable {F : FixedRepr}

@[ext]
theorem ext {x y : FixedNumber F} (h : x.inner = y.inner) : x = y := by
  cases x
  cases y
  simpa using h

def ofInner? (n : Int) : Option (FixedNumber F) :=
  if h : F.minInner ≤ n ∧ n ≤ F.maxInner then some ⟨n, h.1, h.2⟩ else none

/-- The number with the given inner value, or the bound it exceeds. -/
def clamp (n : Int) : FixedNumber F :=
  ⟨max F.minInner (min n F.maxInner), le_max_left _ _, by
    have hmin := F.min_nonpos
    have hmax := F.one_le_max
    omega⟩

def zero : FixedNumber F := ⟨0, F.min_nonpos, zero_le_one.trans F.one_le_max⟩

def one : FixedNumber F := ⟨F.div, F.min_nonpos.trans F.div_pos'.le, F.div_le⟩

def maxValue : FixedNumber F := ⟨F.maxInner, F.min_nonpos.trans (zero_le_one.trans F.one_le_max), le_refl _⟩

/-- The unit in the last place. -/
def ulp : FixedNumber F := ⟨1, F.min_nonpos.trans zero_le_one, F.one_le_max⟩

instance : Inhabited (FixedNumber F) := ⟨zero⟩

def checkedMul (x y : FixedNumber F) : Option (FixedNumber F) := ofInner? ((x.inner * y.inner).tdiv F.div)

def checkedDiv (x y : FixedNumber F) : Option (FixedNumber F) :=
  if y.inner = 0 then none else ofInner? ((x.inner * F.div).tdiv y.inner)

def saturatingMul (x y : FixedNumber F) : FixedNumber F := clamp ((x.inner * y.inner).tdiv F.div)

def saturatingAdd (x y : FixedNumber F) : FixedNumber F := clamp (x.inner + y.inner)

def saturatingSub (x y : FixedNumber F) : FixedNumber F := clamp (x.inner - y.inner)

def saturatingAbs (x : FixedNumber F) : FixedNumber F := clamp |x.inner|

def saturatingFromInteger (n : Int) : FixedNumber F := clamp (n * F.div)

/-- Division by zero stops the original; no caller passes a zero. -/
def saturatingFromRational (n d : Int) : FixedNumber F := clamp ((n * F.div).tdiv d)

@[simp] theorem zero_inner : (zero : FixedNumber F).inner = 0 := rfl

@[simp] theorem one_inner : (one : FixedNumber F).inner = F.div := rfl

@[simp] theorem ulp_inner : (ulp : FixedNumber F).inner = 1 := rfl

@[simp] theorem maxValue_inner : (maxValue : FixedNumber F).inner = F.maxInner := rfl

theorem clamp_inner (n : Int) : (clamp n : FixedNumber F).inner = max F.minInner (min n F.maxInner) := rfl

theorem clamp_of_mem {n : Int} (h : F.minInner ≤ n) (h' : n ≤ F.maxInner) :
    (clamp n : FixedNumber F).inner = n := by
  rw [clamp_inner, min_eq_left h', max_eq_right h]

theorem clamp_of_nonneg {n : Int} (h : 0 ≤ n) : (clamp n : FixedNumber F).inner = min n F.maxInner := by
  have hmin := F.min_nonpos
  have hmax := F.one_le_max
  rw [clamp_inner]
  omega

theorem clamp_mono {m n : Int} (h : m ≤ n) :
    (clamp m : FixedNumber F).inner ≤ (clamp n : FixedNumber F).inner := by
  rw [clamp_inner, clamp_inner]
  exact max_le_max_left _ (min_le_min_right _ h)

theorem clamp_le_of_le {n m : Int} (h : n ≤ m) (hm : F.minInner ≤ m) : (clamp n : FixedNumber F).inner ≤ m := by
  rw [clamp_inner]
  exact max_le hm ((min_le_left _ _).trans h)

theorem le_clamp_of_le {n m : Int} (h : m ≤ n) (hm : m ≤ F.maxInner) : m ≤ (clamp n : FixedNumber F).inner := by
  rw [clamp_inner]
  exact le_max_of_le_right (le_min h hm)

theorem ofInner?_eq_some {n : Int} {x : FixedNumber F} : ofInner? n = some x ↔ x.inner = n := by
  unfold ofInner?
  split
  · rename_i h
    constructor
    · intro he
      rw [← Option.some.inj he]
    · intro he
      exact congrArg some (FixedNumber.ext he.symm)
  · rename_i h
    simp only [reduceCtorEq, false_iff]
    intro he
    exact h ⟨he ▸ x.min_le, he ▸ x.le_max⟩

theorem ofInner?_eq_none {n : Int} :
    (ofInner? n : Option (FixedNumber F)) = none ↔ n < F.minInner ∨ F.maxInner < n := by
  unfold ofInner?
  split
  · simp only [reduceCtorEq, false_iff]
    omega
  · simp only [true_iff]
    omega

theorem checkedMul_eq_some {x y z : FixedNumber F} :
    checkedMul x y = some z ↔ z.inner = (x.inner * y.inner).tdiv F.div :=
  ofInner?_eq_some

theorem checkedDiv_eq_some {x y z : FixedNumber F} :
    checkedDiv x y = some z ↔ y.inner ≠ 0 ∧ z.inner = (x.inner * F.div).tdiv y.inner := by
  unfold checkedDiv
  split
  · rename_i h
    simp [h]
  · rename_i h
    rw [ofInner?_eq_some]
    simp [h]

theorem saturatingMul_inner (x y : FixedNumber F) :
    (saturatingMul x y).inner = (clamp ((x.inner * y.inner).tdiv F.div) : FixedNumber F).inner := rfl

theorem saturatingAdd_inner (x y : FixedNumber F) :
    (saturatingAdd x y).inner = (clamp (x.inner + y.inner) : FixedNumber F).inner := rfl

theorem saturatingSub_inner (x y : FixedNumber F) :
    (saturatingSub x y).inner = (clamp (x.inner - y.inner) : FixedNumber F).inner := rfl

theorem mul_div_tdiv_mul (a : Int) {b : Int} (F : FixedRepr) :
    (a * F.div).tdiv (b * F.div) = a.tdiv b :=
  Int.mul_tdiv_mul_of_pos_left a b F.div_pos'

end FixedNumber

/-- The formats of the four fixed-point types. -/
inductive FixedKind
  | fixedU64
  | fixedU128
  | fixedI64
  | fixedI128
deriving DecidableEq

namespace FixedKind

theorem nineDecimals_pos : 0 < 10 ^ 9 := by decide

def repr : FixedKind → FixedRepr
  | fixedU64 =>
    { div := 10 ^ 9
      decimals := 9
      minInner := 0
      maxInner := 2 ^ 64 - 1
      div_pos := nineDecimals_pos
      min_nonpos := by decide
      two_div_le := by decide }
  | fixedU128 =>
    { div := 10 ^ 18
      decimals := 18
      minInner := 0
      maxInner := 2 ^ 128 - 1
      div_pos := by decide
      min_nonpos := by decide
      two_div_le := by decide }
  | fixedI64 =>
    { div := 10 ^ 9
      decimals := 9
      minInner := -2 ^ 63
      maxInner := 2 ^ 63 - 1
      div_pos := nineDecimals_pos
      min_nonpos := by decide
      two_div_le := by decide }
  | fixedI128 =>
    { div := 10 ^ 18
      decimals := 18
      minInner := -2 ^ 127
      maxInner := 2 ^ 127 - 1
      div_pos := by decide
      min_nonpos := by decide
      two_div_le := by decide }

abbrev Number (k : FixedKind) := FixedNumber k.repr

end FixedKind

abbrev FixedU64 := FixedNumber FixedKind.fixedU64.repr

abbrev FixedU128 := FixedNumber FixedKind.fixedU128.repr

abbrev FixedI64 := FixedNumber FixedKind.fixedI64.repr

abbrev FixedI128 := FixedNumber FixedKind.fixedI128.repr

end FrameSuite
