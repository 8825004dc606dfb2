import Mathlib.Data.Nat.Basic
import Mathlib.Algebra.Order.Floor.Div
import Mathlib.Tactic.Ring
import Mathlib.Tactic.Linarith

/-! Unsigned fixed-point numbers over a bounded carrier, with operations that
round down and report an overflow or a zero divisor as `none`. The lemmas bound
the rounding of one operation and of a quotient followed by a product. -/

namespace FrameSuite

structure FixedFormat where
  div : Nat
  maxInner : Nat
  div_pos : 0 < div
  div_le : div ≤ maxInner

structure Fixed (F : FixedFormat) where
  inner : Nat
  inner_le : inner ≤ F.maxInner
deriving DecidableEq

namespace Fixed

variable {F : FixedFormat}

@[ext]
theorem ext {x y : Fixed F} (h : x.inner = y.inner) : x = y := by
  cases x
  cases y
  simpa using h

def ofInner? (n : Nat) : Option (Fixed F) :=
  if h : n ≤ F.maxInner then some ⟨n, h⟩ else none

def zero : Fixed F := ⟨0, Nat.zero_le _⟩

def one : Fixed F := ⟨F.div, F.div_le⟩

instance : Inhabited (Fixed F) := ⟨zero⟩

def checkedMul (x y : Fixed F) : Option (Fixed F) :=
  ofInner? (x.inner * y.inner / F.div)

def checkedDiv (x y : Fixed F) : Option (Fixed F) :=
  if y.inner = 0 then none else ofInner? (x.inner * F.div / y.inner)

def checkedFromRational (n d : Nat) : Option (Fixed F) :=
  if d = 0 then none else ofInner? (n * F.div / d)

def saturatingFromInteger (n : Nat) : Fixed F :=
  ⟨min (n * F.div) F.maxInner, Nat.min_le_right _ _⟩

/-- Division by zero stops the original; the model returns the bound there. -/
def saturatingFromRational (n d : Nat) : Fixed F :=
  if d = 0 then ⟨F.maxInner, le_refl _⟩ else ⟨min (n * F.div / d) F.maxInner, Nat.min_le_right _ _⟩

/-- The whole part of the number. -/
def toInteger (x : Fixed F) : Nat := x.inner / F.div

/-- The least whole number not below the number. -/
def ceil (x : Fixed F) : Nat := (x.inner + F.div - 1) / F.div

@[simp] theorem zero_inner : (zero : Fixed F).inner = 0 := rfl

@[simp] theorem one_inner : (one : Fixed F).inner = F.div := rfl

@[simp] theorem saturatingFromInteger_inner (n : Nat) :
    (saturatingFromInteger n : Fixed F).inner = min (n * F.div) F.maxInner := rfl

theorem ofInner?_eq_some {n : Nat} {x : Fixed F} : ofInner? n = some x ↔ x.inner = n := by
  unfold ofInner?
  split
  · rename_i h
    constructor
    · intro he
      rw [← Option.some.inj he]
    · intro he
      exact congrArg some (Fixed.ext he.symm)
  · rename_i h
    constructor
    · intro he
      cases he
    · intro he
      exact absurd (he ▸ x.inner_le) h

theorem ofInner?_eq_none {n : Nat} : (ofInner? n : Option (Fixed F)) = none ↔ F.maxInner < n := by
  unfold ofInner?
  split
  · rename_i h
    simp only [reduceCtorEq, false_iff]
    omega
  · rename_i h
    simp only [true_iff]
    omega

theorem checkedMul_eq_some {x y z : Fixed F} :
    checkedMul x y = some z ↔ z.inner = x.inner * y.inner / F.div :=
  ofInner?_eq_some

theorem checkedDiv_eq_some {x y z : Fixed F} :
    checkedDiv x y = some z ↔ y.inner ≠ 0 ∧ z.inner = x.inner * F.div / y.inner := by
  unfold checkedDiv
  split
  · rename_i h
    simp [h]
  · rename_i h
    rw [ofInner?_eq_some]
    simp [h]

theorem checkedFromRational_eq_some {n d : Nat} {z : Fixed F} :
    checkedFromRational n d = some z ↔ d ≠ 0 ∧ z.inner = n * F.div / d := by
  unfold checkedFromRational
  split
  · rename_i h
    simp [h]
  · rename_i h
    rw [ofInner?_eq_some]
    simp [h]

theorem checkedDiv_self {x : Fixed F} (hx : x.inner ≠ 0) : checkedDiv x x = some one := by
  rw [checkedDiv_eq_some]
  exact ⟨hx, (Nat.mul_div_cancel_left _ (Nat.pos_of_ne_zero hx)).symm⟩

theorem checkedMul_one (x : Fixed F) : checkedMul x one = some x := by
  rw [checkedMul_eq_some]
  exact (Nat.mul_div_cancel _ F.div_pos).symm

theorem saturatingFromInteger_le (n : Nat) :
    (saturatingFromInteger n : Fixed F).inner ≤ n * F.div :=
  Nat.min_le_left _ _

theorem saturatingFromInteger_of_le {n : Nat} (hn : n * F.div ≤ F.maxInner) :
    (saturatingFromInteger n : Fixed F).inner = n * F.div :=
  Nat.min_eq_left hn

theorem toInteger_mul_le (x : Fixed F) : x.toInteger * F.div ≤ x.inner :=
  Nat.div_mul_le_self _ _

theorem inner_le_ceil_mul (x : Fixed F) : x.inner ≤ x.ceil * F.div := by
  have hpos := F.div_pos
  have hlt := Nat.lt_div_mul_add (a := x.inner + F.div - 1) hpos
  unfold ceil
  omega

theorem checkedMul_ratio_le {x r b v q p : Fixed F} (hv : checkedMul x r = some v)
    (hq : checkedDiv b r = some q) (hp : checkedMul v q = some p) :
    p.inner * F.div ≤ x.inner * b.inner := by
  rw [checkedMul_eq_some] at hv hp
  obtain ⟨hr, hq⟩ := checkedDiv_eq_some.mp hq
  have hvr : v.inner * F.div ≤ x.inner * r.inner := hv ▸ Nat.div_mul_le_self _ _
  have hqr : q.inner * r.inner ≤ b.inner * F.div := hq ▸ Nat.div_mul_le_self _ _
  have hpv : p.inner * F.div ≤ v.inner * q.inner := hp ▸ Nat.div_mul_le_self _ _
  have hpos : 0 < r.inner * F.div := Nat.mul_pos (Nat.pos_of_ne_zero hr) F.div_pos
  refine Nat.le_of_mul_le_mul_right ?_ hpos
  calc p.inner * F.div * (r.inner * F.div)
      ≤ v.inner * q.inner * (r.inner * F.div) := Nat.mul_le_mul_right _ hpv
    _ = v.inner * F.div * (q.inner * r.inner) := by ring
    _ ≤ x.inner * r.inner * (b.inner * F.div) := Nat.mul_le_mul hvr hqr
    _ = x.inner * b.inner * (r.inner * F.div) := by ring

/-- A whole multiple of `r` scaled by `b / r` loses less than that multiple and one step. -/
theorem lt_checkedMul_ratio {r b v q p : Fixed F} {n : Nat} (hv : v.inner = n * r.inner)
    (hq : checkedDiv b r = some q) (hp : checkedMul v q = some p) :
    n * b.inner * F.div < p.inner * F.div + n * r.inner + F.div := by
  rw [checkedMul_eq_some] at hp
  obtain ⟨hr, hq⟩ := checkedDiv_eq_some.mp hq
  have hqr : b.inner * F.div < q.inner * r.inner + r.inner :=
    hq ▸ Nat.lt_div_mul_add (Nat.pos_of_ne_zero hr)
  have hpv : v.inner * q.inner < p.inner * F.div + F.div := hp ▸ Nat.lt_div_mul_add F.div_pos
  calc n * b.inner * F.div = n * (b.inner * F.div) := Nat.mul_assoc _ _ _
    _ ≤ n * (q.inner * r.inner + r.inner) := Nat.mul_le_mul_left _ hqr.le
    _ = v.inner * q.inner + n * r.inner := by rw [hv]; ring
    _ < p.inner * F.div + n * r.inner + F.div := by omega

theorem toInteger_mul_share_le {shares capital : Nat} {x f p : Fixed F}
    (hf : f.inner * capital ≤ shares * F.div) (hp : checkedMul x f = some p) :
    p.toInteger * F.div * capital ≤ x.inner * shares := by
  rw [checkedMul_eq_some] at hp
  have hpf : p.inner * F.div ≤ x.inner * f.inner := by
    rw [hp]
    exact Nat.div_mul_le_self _ _
  refine Nat.le_of_mul_le_mul_right ?_ F.div_pos
  calc p.toInteger * F.div * capital * F.div
      = p.toInteger * F.div * F.div * capital := by ring
    _ ≤ p.inner * F.div * capital := Nat.mul_le_mul_right _ (Nat.mul_le_mul_right _ p.toInteger_mul_le)
    _ ≤ x.inner * f.inner * capital := Nat.mul_le_mul_right _ hpf
    _ = x.inner * (f.inner * capital) := by ring
    _ ≤ x.inner * (shares * F.div) := Nat.mul_le_mul_left _ hf
    _ = x.inner * shares * F.div := by ring

theorem toInteger_share_le {value shares capital : Nat} {f p : Fixed F}
    (hf : f.inner * capital ≤ shares * F.div)
    (hp : checkedMul (saturatingFromInteger value) f = some p) :
    p.toInteger * capital ≤ value * shares := by
  refine Nat.le_of_mul_le_mul_right ?_ F.div_pos
  calc p.toInteger * capital * F.div = p.toInteger * F.div * capital := by ring
    _ ≤ (saturatingFromInteger value : Fixed F).inner * shares := toInteger_mul_share_le hf hp
    _ ≤ value * F.div * shares := Nat.mul_le_mul_right _ (saturatingFromInteger_le value)
    _ = value * shares * F.div := by ring

theorem exists_checkedMul {x f : Fixed F} (hf : f.inner ≤ F.div) :
    ∃ p, checkedMul x f = some p ∧ p.inner ≤ x.inner := by
  have hle : x.inner * f.inner / F.div ≤ x.inner := by
    rw [Nat.div_le_iff_le_mul_add_pred F.div_pos]
    calc x.inner * f.inner ≤ x.inner * F.div := Nat.mul_le_mul_left _ hf
      _ = F.div * x.inner := Nat.mul_comm _ _
      _ ≤ F.div * x.inner + (F.div - 1) := Nat.le_add_right _ _
  exact ⟨⟨_, hle.trans x.inner_le⟩, checkedMul_eq_some.mpr rfl, hle⟩

theorem exists_checkedFromRational {n d : Nat} (hd : d ≠ 0) (hn : n ≤ d) :
    ∃ f : Fixed F, checkedFromRational n d = some f ∧ f.inner ≤ F.div ∧ f.inner * d ≤ n * F.div := by
  have hle : n * F.div / d ≤ F.div := by
    refine Nat.div_le_of_le_mul ?_
    exact Nat.mul_le_mul_right _ hn
  exact ⟨⟨_, hle.trans F.div_le⟩, checkedFromRational_eq_some.mpr ⟨hd, rfl⟩, hle, Nat.div_mul_le_self _ _⟩

end Fixed

end FrameSuite
