import FrameSuite.AuthorHold
import Mathlib.Logic.Function.Basic

/-! The holds of the authors as a sheet of stakes, one of funding and one of collateral for each author.
An obligation sets both stakes of its author and leaves those of all others. -/

namespace FrameSuite

/-- What becomes of the hold of an author. -/
inductive Obligation
  | reward (value : Nat)
  | penalty (factor : Perbill)
deriving DecidableEq

inductive DueKind
  | reward
  | penalty
deriving DecidableEq

namespace Obligation

def kind : Obligation → DueKind
  | .reward _ => .reward
  | .penalty _ => .penalty

def due : Obligation → Nat → Nat
  | .reward value, hold => hold + value
  | .penalty factor, hold => hold - factor.mulFloor hold

/-- The funding and the collateral that share the new hold as they shared the old one. -/
def settle (o : Obligation) (parts : Nat × Nat) : Nat × Nat :=
  let hold := o.due (parts.1 + parts.2)
  (fundingPart parts.1 parts.2 hold, hold - fundingPart parts.1 parts.2 hold)

end Obligation

inductive HoldSide
  | funding
  | collateral
deriving DecidableEq

/-- The value of a side of a hold and the shares issued against it. -/
structure Stake where
  value : Nat
  issued : Nat
deriving DecidableEq

structure HoldSheet (A : Type) where
  stake : HoldSide → A → Option Stake
  total : HoldSide → Nat
  toIssue : Nat
  toReap : Nat

theorem Perbill.mulCeil_le (r : Perbill) (n : Nat) : r.mulCeil n ≤ n := by
  have hparts := Nat.mul_le_mul_left n r.parts_le
  unfold Perbill.mulCeil Perbill.accuracy
  omega

theorem Obligation.settle_sum (o : Obligation) (parts : Nat × Nat) :
    (o.settle parts).1 + (o.settle parts).2 = o.due (parts.1 + parts.2) :=
  Nat.add_sub_cancel' (Perbill.mulCeil_le _ _)

theorem Obligation.foldl_settle_sum (dues : List Obligation) (parts : Nat × Nat) :
    (dues.foldl (fun p o => o.settle p) parts).1 + (dues.foldl (fun p o => o.settle p) parts).2 =
      dues.foldl (fun hold o => o.due hold) (parts.1 + parts.2) := by
  induction dues generalizing parts with
  | nil => rfl
  | cons o dues ih => rw [List.foldl_cons, List.foldl_cons, ih, o.settle_sum]

namespace HoldSheet

variable {A : Type} {C : ShareConfig} {sheet : HoldSheet A} {who a : A}

def parts (sheet : HoldSheet A) (who : A) : Option (Nat × Nat) := do
  let funding ← sheet.stake .funding who
  let collateral ← sheet.stake .collateral who
  pure (funding.value, collateral.value)

theorem parts_eq_some {parts : Nat × Nat} :
    sheet.parts who = some parts ↔ ∃ funding collateral, sheet.stake .funding who = some funding ∧
      sheet.stake .collateral who = some collateral ∧ (funding.value, collateral.value) = parts := by
  unfold HoldSheet.parts
  cases sheet.stake .funding who with
  | none => simp
  | some funding => cases sheet.stake .collateral who <;> simp

variable [DecidableEq A]

def write (sheet : HoldSheet A) (side : HoldSide) (who : A) (value : Nat) : HoldSheet A :=
  match sheet.stake side who with
  | none => sheet
  | some old =>
    { stake := fun side' a =>
        if side' = side ∧ a = who then some { old with value } else sheet.stake side' a
      total := fun side' =>
        if side' = side then sheet.total side + (value - old.value) - (old.value - value) else sheet.total side'
      toIssue := sheet.toIssue + (value - old.value)
      toReap := sheet.toReap + (old.value - value) }

/-- The stake exists, the price of the new value fits and the counters have room for the change. Without
shares the value cannot change. -/
def Takes (C : ShareConfig) (sheet : HoldSheet A) (side : HoldSide) (who : A) (value : Nat) : Prop :=
  ∃ old, sheet.stake side who = some old ∧
    (old.value ≠ value → old.issued ≠ 0 ∧ value * C.rational.div / old.issued ≤ C.rational.maxInner) ∧
    (old.value < value → value ≤ C.maxAsset ∧ sheet.toIssue + (value - old.value) ≤ C.maxAsset ∧
      sheet.total side + (value - old.value) ≤ C.maxAsset) ∧
    (value < old.value → sheet.toReap + (old.value - value) ≤ C.maxAsset ∧
      old.value - value ≤ sheet.total side)

def settle (sheet : HoldSheet A) (who : A) (o : Obligation) : HoldSheet A :=
  match sheet.parts who with
  | none => sheet
  | some parts => (sheet.write .funding who (o.settle parts).1).write .collateral who (o.settle parts).2

/-- The author has both stakes, neither the hold nor what is due of it exceeds the asset type, and the stakes
take their new values. -/
def Bears (C : ShareConfig) (sheet : HoldSheet A) (who : A) (o : Obligation) : Prop :=
  ∃ parts, sheet.parts who = some parts ∧ parts.1 + parts.2 ≤ C.maxAsset ∧
    o.due (parts.1 + parts.2) ≤ C.maxAsset ∧ sheet.Takes C .funding who (o.settle parts).1 ∧
    (sheet.write .funding who (o.settle parts).1).Takes C .collateral who (o.settle parts).2

def settleAll (sheet : HoldSheet A) (dues : List (A × Obligation)) : HoldSheet A :=
  dues.foldl (fun sheet due => sheet.settle due.1 due.2) sheet

/-- Each obligation is borne by the sheet on which those before it are settled. -/
def BearsAll (C : ShareConfig) : HoldSheet A → List (A × Obligation) → Prop
  | _, [] => True
  | sheet, due :: dues => sheet.Bears C due.1 due.2 ∧ BearsAll C (sheet.settle due.1 due.2) dues

theorem stake_write {side side' : HoldSide} {value : Nat} {old : Stake} (h : sheet.stake side who = some old) :
    (sheet.write side who value).stake side' a =
      if side' = side ∧ a = who then some { old with value } else sheet.stake side' a := by
  simp [write, h]

theorem stake_write_of_ne {side side' : HoldSide} {value : Nat} (hne : a ≠ who) :
    (sheet.write side who value).stake side' a = sheet.stake side' a := by
  cases h : sheet.stake side who with
  | none => simp [write, h]
  | some old => simp [stake_write h, hne]

theorem parts_settle_of_ne {o : Obligation} (hne : a ≠ who) : (sheet.settle who o).parts a = sheet.parts a := by
  unfold settle
  cases sheet.parts who with
  | none => rfl
  | some p => simp [HoldSheet.parts, stake_write_of_ne hne]

theorem parts_settle_self {o : Obligation} {p : Nat × Nat} (h : sheet.parts who = some p) :
    (sheet.settle who o).parts who = some (o.settle p) := by
  obtain ⟨funding, collateral, hf, hc, -⟩ := parts_eq_some.mp h
  have hc' : (sheet.write .funding who (o.settle p).1).stake .collateral who = some collateral := by
    simp [stake_write hf, hc]
  rw [settle, h, parts_eq_some]
  refine ⟨{ funding with value := (o.settle p).1 }, { collateral with value := (o.settle p).2 }, ?_, ?_, rfl⟩
  · simp [stake_write hc', stake_write hf]
  · simp [stake_write hc']

theorem parts_settleAll {dues : List (A × Obligation)} {p : Nat × Nat} (h : sheet.parts a = some p) :
    (sheet.settleAll dues).parts a =
      some (((dues.filter fun due => due.1 = a).map Prod.snd).foldl (fun p o => o.settle p) p) := by
  induction dues generalizing sheet p with
  | nil => exact h
  | cons due dues ih =>
    by_cases hd : due.1 = a
    · subst hd
      simpa [settleAll] using ih (parts_settle_self h)
    · have hnext : (sheet.settle due.1 due.2).parts a = some p := by
        rw [parts_settle_of_ne (Ne.symm hd), h]
      simpa [settleAll, hd] using ih hnext

theorem bearsAll_append {xs ys : List (A × Obligation)} :
    sheet.BearsAll C (xs ++ ys) ↔ sheet.BearsAll C xs ∧ (sheet.settleAll xs).BearsAll C ys := by
  induction xs generalizing sheet with
  | nil => exact ⟨fun h => ⟨trivial, h⟩, And.right⟩
  | cons due xs ih => exact (and_congr_right' ih).trans and_assoc.symm

theorem BearsAll.parts {dues : List (A × Obligation)} (h : sheet.BearsAll C dues) {o : Obligation}
    (hmem : (a, o) ∈ dues) : ∃ p, sheet.parts a = some p ∧ p.1 + p.2 ≤ C.maxAsset := by
  induction dues generalizing sheet with
  | nil => cases hmem
  | cons due dues ih =>
    obtain ⟨hbears, hrest⟩ := h
    by_cases hd : a = due.1
    · obtain ⟨p, hp, hle, -⟩ := hbears
      exact ⟨p, hd ▸ hp, hle⟩
    · obtain rfl | hmem := List.mem_cons.mp hmem
      · exact absurd rfl hd
      · obtain ⟨p, hp, hle⟩ := ih hrest hmem
        rw [parts_settle_of_ne hd] at hp
        exact ⟨p, hp, hle⟩

theorem BearsAll.parts_le {dues : List (A × Obligation)} (h : sheet.BearsAll C dues) {p q : Nat × Nat}
    (hp : sheet.parts a = some p) (hle : p.1 + p.2 ≤ C.maxAsset) (hq : (sheet.settleAll dues).parts a = some q) :
    q.1 + q.2 ≤ C.maxAsset := by
  induction dues generalizing sheet p with
  | nil =>
    obtain rfl := Option.some.inj (hp.symm.trans hq)
    exact hle
  | cons due dues ih =>
    obtain ⟨⟨p', hp', -, hdue, -⟩, hrest⟩ := h
    by_cases hd : a = due.1
    · subst hd
      obtain rfl := Option.some.inj (hp.symm.trans hp')
      refine ih hrest (parts_settle_self hp) ?_ hq
      rw [Obligation.settle_sum]
      exact hdue
    · refine ih hrest ?_ hle hq
      rw [parts_settle_of_ne hd, hp]

end HoldSheet

end FrameSuite
