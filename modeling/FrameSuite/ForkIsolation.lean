import FrameSuite.ForkAware
import FrameSuite.Run
import Mathlib.Logic.Relation

/-! Calls on two branches of one fork graph. A branch is undisturbed by the calls of another one
as long as these write no value whose key it can see. -/

namespace FrameSuite

variable {H K V ε : Type} [DecidableEq H] [DecidableEq K]

namespace ForkCall

/-- Whether the call stores or clears the value of its key. -/
def writes (E : ForkErrors ε) (depot : ForkLocalDepot K) (slot : Slot V) : ForkCall K V ε → Bool
  | insert _ _ => true
  | get _ => false
  | remove key => depot.sees key && slot.decode.isSome
  | mutate contended key f => (f (given E depot key slot)).isOk && !(depot.sees key && contended)

theorem onBranch_of_not_writes {E : ForkErrors ε} {depot : ForkLocalDepot K} {slot : Slot V}
    {call : ForkCall K V ε} (h : call.writes E depot slot = false) :
    (call.onBranch E depot slot).2 = (depot, slot) := by
  cases call with
  | insert key value => cases h
  | get key => rfl
  | remove key =>
    have hnot : ¬(depot.sees key = true ∧ slot.decode.isSome = true) := by simpa [writes] using h
    simp [onBranch, hnot]
  | mutate contended key f =>
    cases hf : f (given E depot key slot) with
    | error e => simp [onBranch, hf]
    | ok value =>
      obtain ⟨hsees, hcontended⟩ : depot.sees key = true ∧ contended = true := by
        simpa [writes, hf, Except.isOk, Except.toBool] using h
      simp [onBranch, hf, hsees, hcontended]

theorem sees_onBranch_of_ne {E : ForkErrors ε} {depot : ForkLocalDepot K} {slot : Slot V}
    {call : ForkCall K V ε} {key : K} (h : key ≠ call.key) :
    (call.onBranch E depot slot).2.1.sees key = depot.sees key := by
  have hadd : (depot.addToLocal call.key).sees key = depot.sees key := by
    rw [Bool.eq_iff_iff, ForkLocalDepot.sees_addToLocal]
    simp [h]
  cases call with
  | insert item value => exact hadd
  | get item => rfl
  | remove item =>
    simp only [onBranch]
    split
    · exact ForkLocalDepot.sees_removeKey_of_ne h
    · rfl
  | mutate contended item f =>
    simp only [onBranch]
    split
    · rfl
    · split
      · exact hadd
      · split <;> rfl

/-- On a branch that cannot see its key, a call does not depend on the value kept there. -/
theorem onBranch_unseen {E : ForkErrors ε} {depot : ForkLocalDepot K} {call : ForkCall K V ε}
    (h : depot.sees call.key = false) (x y : Slot V) :
    (call.onBranch E depot x).1 = (call.onBranch E depot y).1 ∧
      (call.onBranch E depot x).2.1 = (call.onBranch E depot y).2.1 ∧
      ((call.onBranch E depot x).2.1.sees call.key = true →
        (call.onBranch E depot x).2.2 = (call.onBranch E depot y).2.2) := by
  cases call with
  | insert key value => exact ⟨rfl, rfl, fun _ => rfl⟩
  | get key => simp_all [onBranch, given, ForkCall.key]
  | remove key => simp_all [onBranch, given, ForkCall.key]
  | mutate contended key f =>
    have hsees : depot.sees key = false := h
    simp only [onBranch, given, hsees, Bool.false_eq_true, if_false]
    cases f (.ok none) with
    | error e => exact ⟨rfl, rfl, fun hseen => by simp [ForkCall.key, hsees] at hseen⟩
    | ok value => exact ⟨rfl, rfl, fun _ => rfl⟩

end ForkCall

/-- A call and the block whose worker makes it. -/
structure ForkStep (H K V ε : Type) where
  view : View H
  call : ForkCall K V ε

namespace NodeStorage

def sees (s : NodeStorage H K V) (b : BranchKey H) (key : K) : Bool :=
  match s.forks.getBranch b with
  | none => false
  | some branch => branch.scope.sees key

/-- The block of the step is on the branch. -/
def runsOn (s : NodeStorage H K V) (b : BranchKey H) (step : ForkStep H K V ε) : Bool :=
  s.forks.getBranchHash step.view.current = some b

def writes (E : ForkErrors ε) (s : NodeStorage H K V) (step : ForkStep H K V ε) : Bool :=
  match s.forks.getPrevBlockBranch step.view with
  | none => false
  | some branch => step.call.writes E branch.scope (s.items step.call.key)

def act (E : ForkErrors ε) (s : NodeStorage H K V) (step : ForkStep H K V ε) : NodeStorage H K V :=
  (step.call.perform E step.view s).2

/-- What the calls on one branch give back, in a run of calls on any branch. -/
def repliesOn (E : ForkErrors ε) (b : BranchKey H) :
    NodeStorage H K V → List (ForkStep H K V ε) → List (Reply V ε)
  | _, [] => []
  | s, step :: steps =>
    if s.runsOn b step then (step.call.perform E step.view s).1 :: repliesOn E b (s.act E step) steps
    else repliesOn E b (s.act E step) steps

/-- The calls on the branch give back what they do when all other calls are deleted. -/
def Undisturbed (E : ForkErrors ε) (b : BranchKey H) (s : NodeStorage H K V)
    (steps : List (ForkStep H K V ε)) : Prop :=
  repliesOn E b s steps = repliesOn E b s (steps.filter (s.runsOn b))

/-- Two storages that a branch cannot tell apart. -/
structure AgreeOn (b : BranchKey H) (s t : NodeStorage H K V) : Prop where
  block : s.forks.block = t.forks.block
  divider : s.forks.divider = t.forks.divider
  branch : s.forks.branch b = t.forks.branch b
  items : ∀ key, s.sees b key = true → s.items key = t.items key

section Agreement

variable {E : ForkErrors ε} {b : BranchKey H} {s t : NodeStorage H K V} {step : ForkStep H K V ε}

omit [DecidableEq H] in
theorem sees_of_stored {branch : Branch H (ForkLocalDepot K)} (hbranch : s.forks.branch b = .stored branch)
    (key : K) : s.sees b key = branch.scope.sees key := by
  simp [sees, LocalStorage.getBranch, hbranch]

omit [DecidableEq K] in
theorem runsOn_eq_true : s.runsOn b step = true ↔ s.forks.getBranchHash step.view.current = some b := by
  simp [runsOn]

theorem act_of_routed {branch : Branch H (ForkLocalDepot K)}
    (hroute : s.forks.getBranchHash step.view.current = some b) (hbranch : s.forks.branch b = .stored branch) :
    s.act E step =
      s.settle b { branch with scope := (step.call.onBranch E branch.scope (s.items step.call.key)).2.1 }
        step.call.key (step.call.onBranch E branch.scope (s.items step.call.key)).2.2 :=
  congrArg Prod.snd (ForkCall.perform_of_routed hroute hbranch step.call)

theorem act_of_lost (hroute : s.forks.getBranchHash step.view.current = some b)
    (hlost : s.forks.getBranch b = none) : s.act E step = s :=
  congrArg Prod.snd (ForkCall.perform_of_lost hroute hlost step.call)

@[simp] theorem settle_branch_self (s : NodeStorage H K V) (b : BranchKey H)
    (branch : Branch H (ForkLocalDepot K)) (key : K) (slot : Slot V) :
    (s.settle b branch key slot).forks.branch b = .stored branch := Function.update_self ..

theorem settle_branch_of_ne {b' : BranchKey H} (h : b' ≠ b) (branch : Branch H (ForkLocalDepot K)) (key : K)
    (slot : Slot V) : (s.settle b branch key slot).forks.branch b' = s.forks.branch b' :=
  Function.update_of_ne h ..

@[simp] theorem settle_items_self (s : NodeStorage H K V) (b : BranchKey H)
    (branch : Branch H (ForkLocalDepot K)) (key : K) (slot : Slot V) :
    (s.settle b branch key slot).items key = slot := Function.update_self ..

theorem settle_items_of_ne {key item : K} (h : item ≠ key) (branch : Branch H (ForkLocalDepot K))
    (slot : Slot V) : (s.settle b branch key slot).items item = s.items item :=
  Function.update_of_ne h ..

omit [DecidableEq H] in
theorem AgreeOn.refl (b : BranchKey H) (s : NodeStorage H K V) : AgreeOn b s s := ⟨rfl, rfl, rfl, fun _ _ => rfl⟩

omit [DecidableEq H] in
theorem AgreeOn.getBranchHash (h : AgreeOn b s t) (hash : H) :
    s.forks.getBranchHash hash = t.forks.getBranchHash hash := by
  simp only [LocalStorage.getBranchHash, LocalStorage.getDivider, h.block, h.divider]

theorem AgreeOn.runsOn (h : AgreeOn b s t) : (s.runsOn b : ForkStep H K V ε → Bool) = t.runsOn b := by
  funext step
  simp only [NodeStorage.runsOn, h.getBranchHash]

theorem act_runsOn {x : BranchKey H} (hon : s.runsOn b step = true) :
    ((s.act E step).runsOn x : ForkStep H K V ε → Bool) = s.runsOn x := by
  have hroute := runsOn_eq_true.mp hon
  obtain hlost | ⟨branch, hget⟩ := (s.forks.getBranch b).eq_none_or_eq_some
  · rw [act_of_lost hroute hlost]
  · rw [act_of_routed hroute (Slot.load_eq_some.mp hget)]
    rfl

theorem AgreeOn.perform (h : AgreeOn b s t) (hon : s.runsOn b step = true) :
    (step.call.perform E step.view s).1 = (step.call.perform E step.view t).1 ∧
      AgreeOn b (s.act E step) (t.act E step) := by
  have hroute := runsOn_eq_true.mp hon
  have hroute' := (h.getBranchHash _).symm.trans hroute
  obtain hlost | ⟨branch, hget⟩ := (s.forks.getBranch b).eq_none_or_eq_some
  · have hlost' : t.forks.getBranch b = none := by rwa [LocalStorage.getBranch, ← h.branch]
    rw [act_of_lost hroute hlost, act_of_lost hroute' hlost', ForkCall.perform_of_lost hroute hlost,
      ForkCall.perform_of_lost hroute' hlost']
    exact ⟨rfl, h⟩
  · have hbranch := Slot.load_eq_some.mp hget
    have hbranch' : t.forks.branch b = .stored branch := h.branch ▸ hbranch
    obtain ⟨hreply, hdepot, hslot⟩ :
        (step.call.onBranch E branch.scope (s.items step.call.key)).1 =
            (step.call.onBranch E branch.scope (t.items step.call.key)).1 ∧
          (step.call.onBranch E branch.scope (s.items step.call.key)).2.1 =
            (step.call.onBranch E branch.scope (t.items step.call.key)).2.1 ∧
          ((step.call.onBranch E branch.scope (s.items step.call.key)).2.1.sees step.call.key = true →
            (step.call.onBranch E branch.scope (s.items step.call.key)).2.2 =
              (step.call.onBranch E branch.scope (t.items step.call.key)).2.2) := by
      cases hsees : branch.scope.sees step.call.key with
      | false => exact ForkCall.onBranch_unseen hsees _ _
      | true =>
        rw [h.items _ ((sees_of_stored hbranch _).trans hsees)]
        exact ⟨rfl, rfl, fun _ => rfl⟩
    rw [ForkCall.perform_of_routed hroute hbranch, ForkCall.perform_of_routed hroute' hbranch',
      act_of_routed hroute hbranch, act_of_routed hroute' hbranch']
    refine ⟨hreply, h.block, h.divider, by simp [hdepot], fun key hkey => ?_⟩
    rw [sees_of_stored (settle_branch_self ..)] at hkey
    by_cases heq : key = step.call.key
    · subst heq
      simpa using hslot hkey
    · rw [settle_items_of_ne heq, settle_items_of_ne heq]
      rw [ForkCall.sees_onBranch_of_ne heq] at hkey
      exact h.items key ((sees_of_stored hbranch key).trans hkey)

theorem AgreeOn.act_other {b' : BranchKey H} (h : AgreeOn b s t) (hne : b ≠ b')
    (hon : s.runsOn b' step = true)
    (hapart : s.writes E step = true → s.sees b step.call.key = false) : AgreeOn b (s.act E step) t := by
  have hroute := runsOn_eq_true.mp hon
  obtain hlost | ⟨branch, hget⟩ := (s.forks.getBranch b').eq_none_or_eq_some
  · rwa [act_of_lost hroute hlost]
  · have hbranch := Slot.load_eq_some.mp hget
    have hwrites : s.writes E step = step.call.writes E branch.scope (s.items step.call.key) := by
      rw [NodeStorage.writes, LocalStorage.getPrevBlockBranch_of_routed hroute, hget]
    rw [act_of_routed hroute hbranch]
    refine ⟨h.block, h.divider, (settle_branch_of_ne hne ..).trans h.branch, fun key hkey => ?_⟩
    have hseen : s.sees b key = true := by
      rwa [sees, LocalStorage.getBranch, settle_branch_of_ne hne] at hkey
    by_cases heq : key = step.call.key
    · subst heq
      have hkept : step.call.writes E branch.scope (s.items step.call.key) = false := by
        cases hw : step.call.writes E branch.scope (s.items step.call.key) with
        | false => rfl
        | true => simp [hapart (hwrites.trans hw)] at hseen
      rw [settle_items_self, ForkCall.onBranch_of_not_writes hkept]
      exact h.items _ hseen
    · rw [settle_items_of_ne heq]
      exact h.items key hseen

end Agreement

/-- A call that writes is made with a key the competing branch cannot see. -/
def KeepsApart (E : ForkErrors ε) (x y : BranchKey H) (s : NodeStorage H K V) (step : ForkStep H K V ε) :
    Prop :=
  s.writes E step = true →
    (s.runsOn x step = true → s.sees y step.call.key = false) ∧
      (s.runsOn y step = true → s.sees x step.call.key = false)

/-- The calls of a run as total steps. -/
def actStep (E : ForkErrors ε) (s : NodeStorage H K V) (step : ForkStep H K V ε) :
    Except ε (NodeStorage H K V) := .ok (s.act E step)

/-- Every step of a run on two branches runs on one of them. -/
def RunsOnEither (x y : BranchKey H) (s : NodeStorage H K V) (steps : List (ForkStep H K V ε)) : Prop :=
  ∀ step ∈ steps, s.runsOn x step = true ∨ s.runsOn y step = true

theorem repliesOn_eq_filter {E : ForkErrors ε} {x y : BranchKey H} {s t : NodeStorage H K V}
    {steps : List (ForkStep H K V ε)} (hne : x ≠ y) (hagree : AgreeOn x s t)
    (hon : RunsOnEither x y s steps)
    (hapart : RunMeets (actStep E)
      (fun s step => s.writes E step = true → s.runsOn y step = true → s.sees x step.call.key = false) s steps) :
    repliesOn E x s steps = repliesOn E x t (steps.filter (t.runsOn x)) := by
  induction steps generalizing s t with
  | nil => rfl
  | cons step steps ih =>
    obtain ⟨hhead, htail⟩ := hapart
    have heither := hon step (List.mem_cons_self ..)
    have hruns : ∀ z, ((s.act E step).runsOn z : ForkStep H K V ε → Bool) = s.runsOn z := fun z =>
      heither.elim (fun hx => act_runsOn hx) (fun hy => act_runsOn hy)
    have hon' : RunsOnEither x y (s.act E step) steps := fun other hother => by
      rw [hruns, hruns]
      exact hon other (List.mem_cons_of_mem _ hother)
    have hsame : (s.runsOn x : ForkStep H K V ε → Bool) = t.runsOn x := hagree.runsOn
    cases hx : s.runsOn x step with
    | true =>
      obtain ⟨hreply, hnext⟩ := hagree.perform (E := E) hx
      have hfilter := ih hnext hon' htail
      have hkept : ((t.act E step).runsOn x : ForkStep H K V ε → Bool) = t.runsOn x := act_runsOn (hsame ▸ hx)
      rw [List.filter_cons_of_pos (hsame ▸ hx), repliesOn, repliesOn, if_pos hx, if_pos (hsame ▸ hx),
        hreply, hfilter, hkept]
    | false =>
      have hy : s.runsOn y step = true := heither.resolve_left (by simp [hx])
      have hnext := hagree.act_other (E := E) hne hy (fun hw => hhead _ rfl hw hy)
      have hfilter := ih hnext hon' htail
      have hskip : ¬t.runsOn x step = true := by simp [← hsame, hx]
      rw [List.filter_cons_of_neg hskip, repliesOn, if_neg (by simp [hx])]
      exact hfilter

/-- Two branches do not disturb each other in a run of calls that keep them apart. -/
theorem undisturbed_of_keepsApart {E : ForkErrors ε} {x y : BranchKey H} {s : NodeStorage H K V}
    {steps : List (ForkStep H K V ε)} (hne : x ≠ y) (hon : RunsOnEither x y s steps)
    (hapart : RunMeets (actStep E) (KeepsApart E x y) s steps) :
    Undisturbed E x s steps ∧ Undisturbed E y s steps := by
  constructor
  · exact repliesOn_eq_filter hne (AgreeOn.refl x s) hon
      (hapart.mono fun _ _ hkeep hw hy => (hkeep hw).2 hy)
  · exact repliesOn_eq_filter hne.symm (AgreeOn.refl y s) (fun step hstep => (hon step hstep).symm)
      (hapart.mono fun _ _ hkeep hw hx => (hkeep hw).1 hx)

/-- One branch descends from the other. -/
def Descends (s : NodeStorage H K V) (older newer : BranchKey H) : Prop :=
  Relation.TransGen
    (fun a b => ∃ branch, s.forks.branch b = .stored branch ∧ branch.parent = some a) older newer

omit [DecidableEq H] [DecidableEq K] in
theorem Descends.eq_root {s : NodeStorage H K V} {older root child : BranchKey H}
    {first next : Branch H (ForkLocalDepot K)} (hroot : s.forks.branch root = .stored first)
    (hfirst : first.parent = none) (hchild : s.forks.branch child = .stored next)
    (hnext : next.parent = some root) (h : s.Descends older child) : older = root := by
  have hparent : ∀ a, (∃ branch, s.forks.branch child = .stored branch ∧ branch.parent = some a) → a = root := by
    rintro a ⟨branch, hbranch, ha⟩
    obtain rfl := Slot.stored.inj (hchild.symm.trans hbranch)
    exact Option.some.inj (ha.symm.trans hnext)
  have hnone : ∀ a, ¬∃ branch, s.forks.branch root = .stored branch ∧ branch.parent = some a := by
    rintro a ⟨branch, hbranch, ha⟩
    obtain rfl := Slot.stored.inj (hroot.symm.trans hbranch)
    simp [hfirst] at ha
  cases h with
  | single hlast => exact hparent older hlast
  | tail hinit hlast =>
    obtain rfl := hparent _ hlast
    cases hinit with
    | single h => exact absurd h (hnone _)
    | tail _ h => exact absurd h (hnone _)

end NodeStorage

section Siblings

/-- The worker of a block on one of three forks above block 2. -/
def forkView (fork number : Nat) : View Nat where
  number
  hash height := if height ≤ 2 then height else 10 * fork + height

/-- Blocks 2, 3 and 4 of the first fork have run, and then block 4 of the other two. -/
def forkedStorage : NodeStorage Nat Nat Nat where
  forks := [forkView 0 2, forkView 0 3, forkView 0 4, forkView 1 4, forkView 2 4].foldl
    (fun s v => match start ⟨4, 4⟩ false v 2 s with | some (.ran t) => t | _ => s) LocalStorage.empty
  items _ := .missing

def forkErrors : ForkErrors Nat := ⟨0, 1, 2, 3⟩

open NodeStorage in
/-- Two siblings insert under one key, and the first reads the value of the second. -/
theorem siblings_share_values :
    forkedStorage.forks.getBranchHash (forkView 1 4).current = some ⟨0, [0]⟩ ∧
      forkedStorage.forks.getBranchHash (forkView 2 4).current = some ⟨0, [1]⟩ ∧
      ¬forkedStorage.Descends ⟨0, [0]⟩ ⟨0, [1]⟩ ∧ ¬forkedStorage.Descends ⟨0, [1]⟩ ⟨0, [0]⟩ ∧
      ¬Undisturbed forkErrors ⟨0, [0]⟩ forkedStorage
        [⟨forkView 1 4, .insert 7 10⟩, ⟨forkView 2 4, .insert 7 20⟩, ⟨forkView 1 4, .get 7⟩] := by
  refine ⟨by decide, by decide, fun h => ?_, fun h => ?_, by unfold Undisturbed; decide⟩
  · exact absurd (show (⟨0, [0]⟩ : BranchKey Nat) = ⟨0, []⟩ from h.eq_root rfl rfl rfl rfl) (by decide)
  · exact absurd (show (⟨0, [1]⟩ : BranchKey Nat) = ⟨0, []⟩ from h.eq_root rfl rfl rfl rfl) (by decide)

/-- Different keys on the two siblings. -/
def apartSteps : List (ForkStep Nat Nat Nat Nat) :=
  [⟨forkView 1 4, .insert 7 10⟩, ⟨forkView 2 4, .insert 8 20⟩, ⟨forkView 2 4, .mutate false 9 fun _ => .ok 3⟩,
    ⟨forkView 1 4, .get 7⟩, ⟨forkView 2 4, .remove 8⟩, ⟨forkView 1 4, .get 8⟩]

open NodeStorage in
theorem undisturbed_apart :
    Undisturbed forkErrors ⟨0, [0]⟩ forkedStorage apartSteps ∧
      Undisturbed forkErrors ⟨0, [1]⟩ forkedStorage apartSteps :=
  undisturbed_of_keepsApart (by decide) (by unfold RunsOnEither; decide)
    ⟨fun _ _ => by unfold KeepsApart; decide, fun _ _ => by unfold KeepsApart; decide,
      fun _ _ => by unfold KeepsApart; decide, fun _ _ => by unfold KeepsApart; decide,
      fun _ _ => by unfold KeepsApart; decide, fun _ _ => by unfold KeepsApart; decide, trivial⟩

end Siblings

end FrameSuite
