import Mathlib.Data.Nat.Basic

/-! Bounded arithmetic and the fallible steps of a program in the `Except` monad.
Each step has one lemma that says when it succeeds. -/

namespace FrameSuite

def checkedAdd (bound a b : Nat) : Option Nat := if a + b ≤ bound then some (a + b) else none

def checkedSub (a b : Nat) : Option Nat := if b ≤ a then some (a - b) else none

def saturatingAdd (bound a b : Nat) : Nat := min (a + b) bound

variable {ε α β : Type}

def okOr (o : Option α) (e : ε) : Except ε α :=
  match o with
  | some a => .ok a
  | none => .error e

def ensure (p : Prop) [Decidable p] (e : ε) : Except ε Unit :=
  if p then .ok () else .error e

@[simp] theorem checkedAdd_eq_some {bound a b c : Nat} :
    checkedAdd bound a b = some c ↔ c = a + b ∧ a + b ≤ bound := by
  unfold checkedAdd
  split <;> rename_i h <;> simp [h, eq_comm]

@[simp] theorem checkedSub_eq_some {a b c : Nat} :
    checkedSub a b = some c ↔ b ≤ a ∧ a = c + b := by
  unfold checkedSub
  split
  · simp only [Option.some.injEq]
    omega
  · simp only [reduceCtorEq, false_iff]
    omega

theorem saturatingAdd_of_le {bound a b : Nat} (h : a + b ≤ bound) : saturatingAdd bound a b = a + b :=
  Nat.min_eq_left h

@[simp] theorem okOr_eq_ok {o : Option α} {e : ε} {a : α} : okOr o e = .ok a ↔ o = some a := by
  cases o <;> simp [okOr]

@[simp] theorem ensure_eq_ok {p : Prop} [Decidable p] {e : ε} {u : Unit} :
    ensure p e = .ok u ↔ p := by
  unfold ensure
  split <;> rename_i h <;> simp [h]

theorem ensure_isOk_iff {p : Prop} [Decidable p] {e : ε} : (ensure p e).isOk = true ↔ p := by
  unfold ensure
  split <;> rename_i h <;> simp [h, Except.isOk, Except.toBool]

theorem ensure_isOk_eq_false_iff {p : Prop} [Decidable p] {e : ε} : (ensure p e).isOk = false ↔ ¬p := by
  rw [← Bool.not_eq_true, ensure_isOk_iff]

theorem bind_eq_ok {x : Except ε α} {f : α → Except ε β} {b : β} :
    (x >>= f) = .ok b ↔ ∃ a, x = .ok a ∧ f a = .ok b := by
  cases x with
  | error e => simp [bind, Except.bind]
  | ok a => simp [bind, Except.bind]

theorem map_eq_ok {x : Except ε α} {f : α → β} {b : β} : x.map f = .ok b ↔ ∃ a, x = .ok a ∧ f a = b := by
  cases x with
  | error e => simp [Except.map]
  | ok a => simp [Except.map]

theorem mapError_eq_ok {ε' : Type} {f : ε → ε'} {x : Except ε α} {a : α} :
    x.mapError f = .ok a ↔ x = .ok a := by
  cases x <;> simp [Except.mapError]

theorem isOk_mapError {ε' : Type} (f : ε → ε') (x : Except ε α) : (x.mapError f).isOk = x.isOk := by
  cases x <;> rfl

theorem exists_bind_ok {x : Except ε α} {f : α → Except ε β} {a : α} (hx : x = .ok a) (hf : ∃ b, f a = .ok b) :
    ∃ b, (x >>= f) = .ok b := by
  obtain ⟨b, hb⟩ := hf
  exact ⟨b, bind_eq_ok.mpr ⟨a, hx, hb⟩⟩

theorem exists_eq_ok {x : Except ε α} (h : x.isOk = true) : ∃ a, x = .ok a := by
  cases x with
  | error e => cases h
  | ok a => exact ⟨a, rfl⟩

theorem isOk_eq_false {x : Except ε α} (h : ∀ a, x ≠ .ok a) : x.isOk = false := by
  cases x with
  | ok a => exact absurd rfl (h a)
  | error e => rfl

@[simp] theorem pure_eq_ok {a b : α} : (pure a : Except ε α) = .ok b ↔ a = b := by
  simp [pure, Except.pure]

/-- A step whose errors all satisfy the condition. -/
def FailsOnly (p : ε → Prop) (x : Except ε α) : Prop := ∀ e, x = .error e → p e

namespace FailsOnly

variable {p : ε → Prop} {e : ε}

@[simp] theorem ok (a : α) : FailsOnly p (.ok a : Except ε α) := fun _ h => nomatch h

@[simp] theorem pure (a : α) : FailsOnly p (Pure.pure a : Except ε α) := fun _ h => nomatch h

theorem error (he : p e) : FailsOnly p (.error e : Except ε α) := by
  intro e' h
  cases h
  exact he

theorem bind {x : Except ε α} {f : α → Except ε β} (hx : FailsOnly p x)
    (hf : ∀ a, x = .ok a → FailsOnly p (f a)) : FailsOnly p (x >>= f) := by
  cases x with
  | error e => exact error (hx e rfl)
  | ok a => exact hf a rfl

theorem okOr {o : Option α} (he : p e) : FailsOnly p (okOr o e) := by
  cases o with
  | none => exact error he
  | some a => exact ok a

theorem ensure {c : Prop} [Decidable c] (he : p e) : FailsOnly p (ensure c e) := by
  intro e' h
  unfold FrameSuite.ensure at h
  split at h
  · cases h
  · cases h
    exact he

theorem ite {c : Prop} [Decidable c] {x y : Except ε α} (hx : FailsOnly p x) (hy : FailsOnly p y) :
    FailsOnly p (if c then x else y) := by
  split
  · exact hx
  · exact hy

end FailsOnly

end FrameSuite
