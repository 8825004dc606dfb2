import Mathlib.Data.List.Basic

/-! Runs of a system whose calls may fail. A failed call leaves the state as it was,
so an invariant of the successful steps holds along every run. -/

namespace FrameSuite

variable {σ α ε : Type}

/-- One call; a failed one is ignored. -/
def attempt (step : σ → α → Except ε σ) (s : σ) (a : α) : σ :=
  match step s a with
  | .ok t => t
  | .error _ => s

def run (step : σ → α → Except ε σ) (s : σ) (calls : List α) : σ :=
  calls.foldl (attempt step) s

/-- Every successful call of the run meets the condition in the state it starts from. -/
def RunMeets (step : σ → α → Except ε σ) (Q : σ → α → Prop) : σ → List α → Prop
  | _, [] => True
  | s, a :: calls => (∀ t, step s a = .ok t → Q s a) ∧ RunMeets step Q (attempt step s a) calls

variable {step : σ → α → Except ε σ}

instance RunMeets.decidable {Q : σ → α → Prop} [∀ s a, Decidable (Q s a)] :
    ∀ (s : σ) (calls : List α), Decidable (RunMeets step Q s calls)
  | _, [] => .isTrue trivial
  | s, a :: calls =>
    have : Decidable (∀ t, step s a = .ok t → Q s a) :=
      decidable_of_iff ((step s a).isOk = true → Q s a) (by cases step s a <;> simp [Except.isOk, Except.toBool])
    have := RunMeets.decidable (Q := Q) (attempt step s a) calls
    instDecidableAnd

@[simp] theorem run_nil (s : σ) : run step s [] = s := rfl

@[simp] theorem run_cons (s : σ) (a : α) (calls : List α) :
    run step s (a :: calls) = run step (attempt step s a) calls := rfl

theorem run_append (s : σ) (xs ys : List α) : run step s (xs ++ ys) = run step (run step s xs) ys :=
  List.foldl_append

theorem attempt_of_ok {s t : σ} {a : α} (h : step s a = .ok t) : attempt step s a = t := by
  simp [attempt, h]

theorem attempt_invariant {P : σ → Prop} {s : σ} {a : α}
    (hstep : ∀ t, step s a = .ok t → P t) (h : P s) : P (attempt step s a) := by
  cases hs : step s a with
  | ok t => simpa [attempt, hs] using hstep t hs
  | error e => simpa [attempt, hs] using h

theorem run_map {τ : Type} {view : σ → τ} {step' : τ → α → Except ε τ}
    (h : ∀ s a, (step s a).map view = step' (view s) a) (s : σ) (calls : List α) :
    view (run step s calls) = run step' (view s) calls := by
  induction calls generalizing s with
  | nil => rfl
  | cons a calls ih =>
    have hview : view (attempt step s a) = attempt step' (view s) a := by
      unfold attempt
      rw [← h s a]
      cases step s a <;> rfl
    rw [run_cons, run_cons, ih, hview]

theorem run_invariant {P : σ → Prop} (hstep : ∀ s a t, P s → step s a = .ok t → P t)
    {s : σ} (h : P s) (calls : List α) : P (run step s calls) := by
  induction calls generalizing s with
  | nil => exact h
  | cons a calls ih => exact ih (attempt_invariant (fun t ht => hstep s a t h ht) h)

/-- An invariant kept by the steps that meet the condition holds along runs that meet it. -/
theorem run_invariant_of_meets {P : σ → Prop} {Q : σ → α → Prop}
    (hstep : ∀ s a t, P s → Q s a → step s a = .ok t → P t)
    {s : σ} (h : P s) {calls : List α} (hq : RunMeets step Q s calls) : P (run step s calls) := by
  induction calls generalizing s with
  | nil => exact h
  | cons a calls ih =>
    obtain ⟨ha, hcalls⟩ := hq
    exact ih (attempt_invariant (fun t ht => hstep s a t h (ha t ht) ht) h) hcalls

/-- A condition that, under an invariant, implies another one and keeps the invariant. -/
theorem RunMeets.of_invariant {P : σ → Prop} {Q R : σ → α → Prop}
    (hstep : ∀ s a t, P s → Q s a → step s a = .ok t → P t ∧ R s a)
    {s : σ} (h : P s) {calls : List α} (hq : RunMeets step Q s calls) : RunMeets step R s calls := by
  induction calls generalizing s with
  | nil => trivial
  | cons a calls ih =>
    obtain ⟨ha, hcalls⟩ := hq
    refine ⟨fun t ht => (hstep s a t h (ha t ht) ht).2, ih (attempt_invariant (fun t ht => ?_) h) hcalls⟩
    exact (hstep s a t h (ha t ht) ht).1

theorem RunMeets.and {Q R : σ → α → Prop} {s : σ} {calls : List α} (hq : RunMeets step Q s calls)
    (hr : RunMeets step R s calls) : RunMeets step (fun s a => Q s a ∧ R s a) s calls := by
  induction calls generalizing s with
  | nil => trivial
  | cons a calls ih => exact ⟨fun t ht => ⟨hq.1 t ht, hr.1 t ht⟩, ih hq.2 hr.2⟩

theorem RunMeets.mono {Q R : σ → α → Prop} (himp : ∀ s a, Q s a → R s a) {s : σ} {calls : List α}
    (h : RunMeets step Q s calls) : RunMeets step R s calls := by
  induction calls generalizing s with
  | nil => trivial
  | cons a calls ih => exact ⟨fun t ht => himp s a (h.1 t ht), ih h.2⟩

theorem RunMeets.congr {Q R : σ → α → Prop} (hiff : ∀ s a t, step s a = .ok t → (Q s a ↔ R s a)) {s : σ}
    {calls : List α} : RunMeets step Q s calls ↔ RunMeets step R s calls := by
  induction calls generalizing s with
  | nil => exact Iff.rfl
  | cons a calls ih => exact and_congr (forall₂_congr fun t ht => hiff s a t ht) ih

/-- Under an invariant that one condition keeps, two conditions on the steps say the same of a run. -/
theorem RunMeets.iff_of_invariant {P : σ → Prop} {F Q R : σ → α → Prop}
    (hiff : ∀ s a t, P s → F s a → step s a = .ok t → (Q s a ↔ R s a))
    (hkeep : ∀ s a t, P s → F s a → Q s a → step s a = .ok t → P t) {s : σ} (h : P s) {calls : List α}
    (hf : RunMeets step F s calls) : RunMeets step Q s calls ↔ RunMeets step R s calls := by
  induction calls generalizing s with
  | nil => exact Iff.rfl
  | cons a calls ih =>
    have hhead : (∀ t, step s a = .ok t → Q s a) ↔ ∀ t, step s a = .ok t → R s a :=
      forall₂_congr fun t ht => hiff s a t h (hf.1 t ht) ht
    constructor
    · rintro ⟨hq, hrest⟩
      have hnext := attempt_invariant (fun t ht => hkeep s a t h (hf.1 t ht) (hq t ht) ht) h
      exact ⟨hhead.mp hq, (ih hnext hf.2).mp hrest⟩
    · rintro ⟨hr, hrest⟩
      have hq := hhead.mpr hr
      have hnext := attempt_invariant (fun t ht => hkeep s a t h (hf.1 t ht) (hq t ht) ht) h
      exact ⟨hq, (ih hnext hf.2).mpr hrest⟩

theorem RunMeets.of_forall {Q : α → Prop} {calls : List α} (h : ∀ a ∈ calls, Q a) (s : σ) :
    RunMeets step (fun _ a => Q a) s calls := by
  induction calls generalizing s with
  | nil => trivial
  | cons a calls ih =>
    exact ⟨fun _ _ => h a (List.mem_cons_self ..), ih (fun b hb => h b (List.mem_cons_of_mem _ hb)) _⟩

theorem RunMeets.of_append {Q : σ → α → Prop} {s : σ} {xs ys : List α} (h : RunMeets step Q s (xs ++ ys)) :
    RunMeets step Q s xs ∧ RunMeets step Q (run step s xs) ys := by
  induction xs generalizing s with
  | nil => exact ⟨trivial, h⟩
  | cons a xs ih =>
    obtain ⟨ha, hrest⟩ := h
    obtain ⟨hxs, hys⟩ := ih hrest
    exact ⟨⟨ha, hxs⟩, hys⟩

theorem RunMeets.append {Q : σ → α → Prop} {s : σ} {xs ys : List α} (hxs : RunMeets step Q s xs)
    (hys : RunMeets step Q (run step s xs) ys) : RunMeets step Q s (xs ++ ys) := by
  induction xs generalizing s with
  | nil => exact hys
  | cons a xs ih => exact ⟨hxs.1, ih hxs.2 hys⟩

theorem RunMeets.of_view {τ : Type} {step' : τ → α → Except ε τ}
    {view : σ → τ} (hview : ∀ s a, (step s a).map view = step' (view s) a) {Q : τ → α → Prop} {s : σ}
    {calls : List α} (h : RunMeets step' Q (view s) calls) : RunMeets step (fun s a => Q (view s) a) s calls := by
  induction calls generalizing s with
  | nil => trivial
  | cons a calls ih =>
    obtain ⟨ha, hrest⟩ := h
    refine ⟨fun t ht => ha (view t) ?_, ih ?_⟩
    · rw [← hview, ht]
      rfl
    · have hstep : view (attempt step s a) = attempt step' (view s) a := by
        unfold attempt
        rw [← hview s a]
        cases step s a <;> rfl
      rwa [hstep]

/-- When, in runs whose steps meet `F`, the condition is exactly what keeps the property, the property
holds in every state of such a run if and only if all steps meet the condition. -/
theorem forall_prefix_iff_of_meets {I P : σ → Prop} {F Q : σ → α → Prop} (himp : ∀ s, I s → P s)
    (hkeep : ∀ s a t, I s → F s a → Q s a → step s a = .ok t → I t)
    (hbreak : ∀ s a t, I s → F s a → step s a = .ok t → P t → Q s a) {s : σ} (h : I s) {calls : List α}
    (hf : RunMeets step F s calls) : (∀ pre, pre <+: calls → P (run step s pre)) ↔ RunMeets step Q s calls := by
  constructor
  · intro hall
    induction calls generalizing s with
    | nil => trivial
    | cons a calls ih =>
      have hq : ∀ t, step s a = .ok t → Q s a := by
        intro t ht
        have hp := hall [a] (List.prefix_append [a] calls)
        rw [run_cons, run_nil, attempt_of_ok ht] at hp
        exact hbreak s a t h (hf.1 t ht) ht hp
      have hnext := attempt_invariant (fun t ht => hkeep s a t h (hf.1 t ht) (hq t ht) ht) h
      refine ⟨hq, ih hnext hf.2 fun pre hpre => ?_⟩
      exact hall (a :: pre) (List.cons_prefix_cons.mpr ⟨rfl, hpre⟩)
  · intro hmeets pre hpre
    induction calls generalizing s pre with
    | nil =>
      obtain rfl := List.prefix_nil.mp hpre
      exact himp s h
    | cons a calls ih =>
      cases pre with
      | nil => exact himp s h
      | cons b pre =>
        obtain ⟨rfl, htail⟩ := List.cons_prefix_cons.mp hpre
        have hnext := attempt_invariant (fun t ht => hkeep s b t h (hf.1 t ht) (hmeets.1 t ht) ht) h
        exact ih hnext hf.2 hmeets.2 pre htail

/-- When the condition is exactly what keeps the property, the property holds in every state
of a run if and only if all steps meet the condition. -/
theorem forall_prefix_iff {I P : σ → Prop} {Q : σ → α → Prop} (himp : ∀ s, I s → P s)
    (hkeep : ∀ s a t, I s → Q s a → step s a = .ok t → I t)
    (hbreak : ∀ s a t, I s → step s a = .ok t → P t → Q s a) {s : σ} (h : I s) (calls : List α) :
    (∀ pre, pre <+: calls → P (run step s pre)) ↔ RunMeets step Q s calls :=
  forall_prefix_iff_of_meets (F := fun _ _ => True) himp (fun s a t hi _ => hkeep s a t hi)
    (fun s a t hi _ => hbreak s a t hi) h (RunMeets.of_forall (fun _ _ => trivial) s)

end FrameSuite
