import FrameSuite.AuthorRuntime
import Mathlib.Data.List.Sort
import Mathlib.Tactic.Linarith

/-! The models that rank candidates by their backers: by the total, by total and average, and by the
loads of the backers, which are kept in a map ordered by the backer. -/

namespace FrameSuite

variable {C B V : Type}

/-- Candidates with their backers and what each of them contributes. -/
abbrev FairInput (C B V : Type) := List (C × List (B × V))

section Scores

def totalBacked (maxBacked : Nat) (fairweight : List (B × Nat)) : Nat :=
  fairweight.foldl (fun total b => saturatingAdd maxBacked total b.2) 0

/-- The candidates by their scores, the largest first and equal ones in the order given. -/
def rankByScore (score : List (B × Nat) → Nat) (input : FairInput C B Nat) : List C :=
  let items := input.map fun c => (c.1, score c.2)
  (items.insertionSort fun a b => b.2 ≤ a.2).map Prod.fst

def topDownFairModel (maxBacked : Nat) (input : FairInput C B Nat) : List C :=
  rankByScore (totalBacked maxBacked) input

/-- The total with the average of the backers. -/
def balancedScore (maxBacked : Nat) (fairweight : List (B × Nat)) : Nat :=
  let count := if fairweight.isEmpty then 1 else fairweight.length
  let total := totalBacked maxBacked fairweight
  saturatingAdd maxBacked total (total / count)

def balancedModel (maxBacked : Nat) (input : FairInput C B Nat) : List C :=
  rankByScore (balancedScore maxBacked) input

theorem topDownFair_eq (maxBacked : Nat) (candidates : Candidates Nat) :
    topDownFair maxBacked candidates = topDownFairModel maxBacked candidates := rfl

end Scores

section Loads

/-- The keys of a `BTreeMap` are told apart by their order alone. -/
abbrev LoadMap (B V : Type) (cmp : B → B → Ordering) := Std.TreeMap B V cmp

variable [Zero V] [Add V] [LinearOrder V] {cmp : B → B → Ordering}

def initialLoads (cmp : B → B → Ordering) (input : FairInput C B V) : LoadMap B V cmp :=
  input.foldl (fun load c => c.2.foldl (fun load b => load.insertIfNew b.1 0) load) ∅

/-- The largest load of one of the backers if the candidate is chosen; every backer must have a load. -/
def maxLoad (contribution : V → V) (load : LoadMap B V cmp) (fairweight : List (B × V)) : Option V :=
  fairweight.foldlM (fun most b => do
    let held ← load[b.1]?
    let newLoad := held + contribution b.2
    pure (if most < newLoad then newLoad else most)) 0

/-- The candidate of least load, the first of equal ones. -/
def bestCandidate (contribution : V → V) (load : LoadMap B V cmp) (remaining : FairInput C B V) :
    Option (Option (C × V)) :=
  remaining.foldlM (fun best c => do
    let most ← maxLoad contribution load c.2
    match best with
    | none => pure (some (c.1, most))
    | some b => pure (if most < b.2 then some (c.1, most) else some b)) none

def addLoads (contribution : V → V) (load : LoadMap B V cmp) (fairweight : List (B × V)) : LoadMap B V cmp :=
  fairweight.foldl (fun load b => load.alter b.1 fun held => some (held.getD 0 + contribution b.2)) load

variable [DecidableEq C]

/-- Every turn ranks one of the remaining candidates, which is looked up by its name. -/
def rankRemaining (contribution : V → V) : Nat → LoadMap B V cmp → FairInput C B V → Option (List C)
  | _, _, [] => some []
  | 0, _, _ :: _ => none
  | fuel + 1, load, c :: remaining => do
    let best ← bestCandidate contribution load (c :: remaining)
    let (candidate, _) ← best
    let index ← (c :: remaining).findIdx? fun other => other.1 = candidate
    let chosen ← (c :: remaining)[index]?
    let ranking ← rankRemaining contribution fuel (addLoads contribution load chosen.2)
      ((c :: remaining).eraseIdx index)
    pure (candidate :: ranking)

def rankByLoad (cmp : B → B → Ordering) (contribution : V → V) (input : FairInput C B V) : Option (List C) :=
  rankRemaining contribution input.length (initialLoads cmp input) input

structure PhragmenConfig (V : Type) where
  weighted : Bool
  scale : Option V

def PhragmenConfig.contribution [Mul V] (ctx : PhragmenConfig V) (backed : V) : V :=
  if ctx.weighted then
    match ctx.scale with
    | some scale => backed * scale
    | none => backed
  else backed

def phragmenModel [Mul V] (cmp : B → B → Ordering) (ctx : PhragmenConfig V) (input : FairInput C B V) :
    Option (List C) :=
  rankByLoad cmp ctx.contribution input

/-- The same loop without a configuration. -/
def maxMinLoadModel (cmp : B → B → Ordering) (input : FairInput C B V) : Option (List C) :=
  rankByLoad cmp id input

end Loads

example :
    maxMinLoadModel (V := Nat) compare [(0, [(10, 100)]), (1, [(10, 50)]), (2, [(10, 75)])] = some [1, 2, 0] := by
  decide

end FrameSuite
