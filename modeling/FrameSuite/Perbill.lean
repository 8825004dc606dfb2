import Mathlib.Data.Nat.Basic
import Mathlib.Algebra.Order.Floor.Div
import Mathlib.Tactic.Linarith

/-! Parts per billion of an unsigned integer, with products rounded either way and the
quotient of two integers as a part of the second. -/

namespace FrameSuite

structure Perbill where
  parts : Nat
  parts_le : parts ≤ 10 ^ 9
deriving DecidableEq

namespace Perbill

def accuracy : Nat := 10 ^ 9

def zero : Perbill := ⟨0, Nat.zero_le _⟩

def one : Perbill := ⟨accuracy, le_refl _⟩

def mulFloor (r : Perbill) (n : Nat) : Nat := n * r.parts / accuracy

def mulCeil (r : Perbill) (n : Nat) : Nat := (n * r.parts + (accuracy - 1)) / accuracy

/-- Both numbers are first reduced to the width of the parts. A quotient above one or by
zero is one. -/
def fromRational (p q : Nat) : Perbill :=
  if h : q = 0 ∨ q < p then one
  else
    let factor := max ((q + (accuracy - 1)) / accuracy) 1
    { parts := p / factor * accuracy / (q / factor)
      parts_le := by
        obtain ⟨-, hle⟩ := not_or.mp h
        have hp : p / factor ≤ q / factor := Nat.div_le_div_right (Nat.le_of_not_lt hle)
        exact Nat.div_le_of_le_mul (Nat.mul_le_mul_right accuracy hp) }

end Perbill

end FrameSuite
