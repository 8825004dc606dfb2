import FrameSuite.Run

/-! The calls of a run that succeed, each with the state it starts from. What they were decides what a state
can hold: an invariant may speak of them. -/

namespace FrameSuite

variable {σ α ε : Type} {step : σ → α → Except ε σ}

def history (step : σ → α → Except ε σ) : σ → List α → List (σ × α)
  | _, [] => []
  | s, a :: calls =>
    match step s a with
    | .ok t => (s, a) :: history step t calls
    | .error _ => history step s calls

theorem history_of_ok {s t : σ} {a : α} (h : step s a = .ok t) (calls : List α) :
    history step s (a :: calls) = (s, a) :: history step t calls := by
  simp [history, h]

theorem history_of_error {s : σ} {a : α} {e : ε} (h : step s a = .error e) (calls : List α) :
    history step s (a :: calls) = history step s calls := by
  simp [history, h]

/-- An invariant of the state and of what has succeeded so far. -/
theorem run_history_invariant {P : List (σ × α) → σ → Prop}
    (hstep : ∀ past s a t, P past s → step s a = .ok t → P (past ++ [(s, a)]) t) {s : σ} {past : List (σ × α)}
    (h : P past s) (calls : List α) : P (past ++ history step s calls) (run step s calls) := by
  induction calls generalizing s past with
  | nil => simpa [history] using h
  | cons a calls ih =>
    rw [run_cons]
    cases hs : step s a with
    | ok t =>
      rw [history_of_ok hs, attempt_of_ok hs, List.append_cons]
      exact ih (hstep past s a t h hs)
    | error e =>
      have hsame : attempt step s a = s := by simp [attempt, hs]
      rw [history_of_error hs, hsame]
      exact ih h

end FrameSuite
