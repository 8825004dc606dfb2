import FrameSuite.Checked

/-! Calls on a stored state that may fail after some of their writes. Those writes stay, so
an invariant has to survive the failures of a call as well as its successes. -/

namespace FrameSuite

variable {σ ε α β : Type}

/-- The state a call leaves, whether it succeeds or fails. -/
def leaves (x : EStateM ε σ α) (s : σ) : σ :=
  match x s with
  | .ok _ t => t
  | .error _ t => t

/-- A check or a getter. -/
def reads (f : σ → Except ε α) : EStateM ε σ α := fun s =>
  match f s with
  | .ok a => .ok a s
  | .error e => .error e s

/-- Whether a call keeps a property of the state, its failures included. -/
def Keeps (P : σ → Prop) (x : EStateM ε σ α) : Prop := ∀ s, P s → P (leaves x s)

@[simp] theorem leaves_pure (a : α) (s : σ) : leaves (pure a : EStateM ε σ α) s = s := rfl

@[simp] theorem leaves_throw (e : ε) (s : σ) : leaves (throw e : EStateM ε σ α) s = s := rfl

@[simp] theorem leaves_modify (f : σ → σ) (s : σ) : leaves (modify f : EStateM ε σ Unit) s = f s := rfl

@[simp] theorem leaves_reads (f : σ → Except ε α) (s : σ) : leaves (reads f) s = s := by
  unfold leaves reads
  cases f s <;> rfl

theorem bind_of_ok {x : EStateM ε σ α} {f : α → EStateM ε σ β} {s t : σ} {a : α} (h : x s = .ok a t) :
    (x >>= f) s = f a t := by
  change EStateM.bind x f s = f a t
  simp [EStateM.bind, h]

theorem bind_of_error {x : EStateM ε σ α} {f : α → EStateM ε σ β} {s t : σ} {e : ε}
    (h : x s = .error e t) : (x >>= f) s = .error e t := by
  change EStateM.bind x f s = .error e t
  simp [EStateM.bind, h]

theorem reads_bind (f : σ → Except ε α) (k : α → EStateM ε σ β) (s : σ) :
    (reads f >>= k) s =
      match f s with
      | .ok a => k a s
      | .error e => .error e s := by
  cases h : f s with
  | ok a => exact bind_of_ok (by simp [reads, h])
  | error e => exact bind_of_error (by simp [reads, h])

theorem reads_bind_of_ok {f : σ → Except ε α} {k : α → EStateM ε σ β} {s : σ} {a : α} (h : f s = .ok a) :
    (reads f >>= k) s = k a s := by
  rw [reads_bind, h]

theorem reads_bind_of_error {f : σ → Except ε α} {k : α → EStateM ε σ β} {s : σ} {e : ε}
    (h : f s = .error e) : (reads f >>= k) s = .error e s := by
  rw [reads_bind, h]

theorem check_bind_of_ok {x : Except ε α} {k : α → EStateM ε σ β} {s : σ} {a : α} (h : x = .ok a) :
    (reads (fun _ => x) >>= k) s = k a s :=
  reads_bind_of_ok h

theorem check_bind_of_error {x : Except ε α} {k : α → EStateM ε σ β} {s : σ} {e : ε} (h : x = .error e) :
    (reads (fun _ => x) >>= k) s = .error e s :=
  reads_bind_of_error h

theorem get_bind (k : σ → EStateM ε σ β) (s : σ) : ((get : EStateM ε σ σ) >>= k) s = k s s := rfl

theorem leaves_reads_bind (f : σ → Except ε α) (k : α → EStateM ε σ β) (s : σ) :
    leaves (reads f >>= k) s =
      match f s with
      | .ok a => leaves (k a) s
      | .error _ => s := by
  unfold leaves
  rw [reads_bind]
  cases f s <;> rfl

@[simp] theorem leaves_get_bind (k : σ → EStateM ε σ β) (s : σ) :
    leaves ((get : EStateM ε σ σ) >>= k) s = leaves (k s) s := rfl

@[simp] theorem leaves_set_bind (t : σ) (k : Unit → EStateM ε σ β) (s : σ) :
    leaves ((set t : EStateM ε σ Unit) >>= k) s = leaves (k ()) t := rfl

theorem leaves_bind_of_ok {x : EStateM ε σ α} {f : α → EStateM ε σ β} {s t : σ} {a : α}
    (h : x s = .ok a t) : leaves (x >>= f) s = leaves (f a) t := by
  unfold leaves
  rw [bind_of_ok h]

theorem leaves_bind_pure (x : EStateM ε σ α) (f : α → β) (s : σ) :
    leaves (x >>= fun a => pure (f a)) s = leaves x s := by
  unfold leaves
  cases hx : x s with
  | ok a t =>
    rw [bind_of_ok hx]
    rfl
  | error e t => rw [bind_of_error hx]

section

variable {P : σ → Prop}

theorem Keeps.pure (a : α) : Keeps P (pure a : EStateM ε σ α) := fun _ h => h

theorem Keeps.throw (e : ε) : Keeps P (throw e : EStateM ε σ α) := fun _ h => h

theorem Keeps.reads (f : σ → Except ε α) : Keeps P (reads f) := fun s h => by
  rwa [leaves_reads]

theorem Keeps.bind {x : EStateM ε σ α} {f : α → EStateM ε σ β} (hx : Keeps P x)
    (hf : ∀ a, Keeps P (f a)) : Keeps P (x >>= f) := by
  intro s h
  have hleft := hx s h
  unfold leaves at hleft ⊢
  cases hs : x s with
  | ok a t =>
    rw [hs] at hleft
    rw [bind_of_ok hs]
    exact hf a t hleft
  | error e t =>
    rw [hs] at hleft
    rw [bind_of_error hs]
    exact hleft

theorem Keeps.reads_bind {f : σ → Except ε α} {k : α → EStateM ε σ β}
    (hk : ∀ s a, f s = .ok a → P s → P (leaves (k a) s)) : Keeps P (FrameSuite.reads f >>= k) := by
  intro s h
  rw [leaves_reads_bind]
  cases hs : f s with
  | ok a => exact hk s a hs h
  | error e => exact h

theorem Keeps.ite {p : Prop} [Decidable p] {x y : EStateM ε σ α} (hx : p → Keeps P x)
    (hy : ¬p → Keeps P y) : Keeps P (if p then x else y) := by
  split
  · exact hx ‹_›
  · exact hy ‹_›

end

end FrameSuite
