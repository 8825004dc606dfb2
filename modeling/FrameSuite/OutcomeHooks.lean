import FrameSuite.ChainRuntime

/-! The loops that reward and penalize authors call the hook for a success after every attempt, also after
one that failed. -/

namespace FrameSuite

variable {σ α β ε : Type}

/-- What a loop does with an entry: it attempts the call, and calls the hooks. -/
inductive OutcomeEvent (α β ε : Type)
  | attempt (who : α) (value : β)
  | onSuccess (who : α) (value : β)
  | onFail (who : α) (e : ε)
deriving DecidableEq

namespace OutcomeEvent

def entry? : OutcomeEvent α β ε → Option (α × β)
  | attempt who value => some (who, value)
  | _ => none

def isHook : OutcomeEvent α β ε → Bool
  | attempt _ _ => false
  | _ => true

end OutcomeEvent

/-- A failed call may leave changes of the state behind. -/
abbrev OutcomeCall (σ α β ε : Type) := σ → α → β → σ × Except ε Unit

/-- The hook inside of the branch for an error. -/
def failHook (who : α) : Except ε Unit → List (OutcomeEvent α β ε)
  | .ok _ => []
  | .error e => [.onFail who e]

/-- The call of the hook for a success stands behind that branch, so it is made in any case. -/
def reportEach (act : OutcomeCall σ α β ε) : List (α × β) → σ → σ × List (OutcomeEvent α β ε)
  | [], s => (s, [])
  | (who, value) :: entries, s =>
    let (t, result) := act s who value
    let (u, events) := reportEach act entries t
    (u, .attempt who value :: failHook who result ++ .onSuccess who value :: events)

/-- The payees, who are computed for a payout other than zero only. -/
def payeesFor (payout : Nat) (payeeProcess : Nat → List (α × β)) : List (α × β) :=
  if payout = 0 then [] else payeeProcess payout

def rewardAuthorsBy (reward : OutcomeCall σ α β ε) (payout : Nat) (payeeProcess : Nat → List (α × β)) (s : σ) :
    σ × List (OutcomeEvent α β ε) :=
  if payout = 0 then (s, []) else reportEach reward (payeeProcess payout) s

def penalizeAuthorsBy (penalize : OutcomeCall σ α β ε) (transformPenalty : List (α × β) → List (α × β))
    (towards : List (α × β)) (s : σ) : σ × List (OutcomeEvent α β ε) :=
  reportEach penalize (transformPenalty towards) s

theorem rewardAuthorsBy_eq (reward : OutcomeCall σ α β ε) (payout : Nat) (payeeProcess : Nat → List (α × β)) (s : σ) :
    rewardAuthorsBy reward payout payeeProcess s = reportEach reward (payeesFor payout payeeProcess) s := by
  unfold rewardAuthorsBy payeesFor
  split <;> rfl

def outcomes (act : OutcomeCall σ α β ε) : List (α × β) → σ → List (Except ε Unit)
  | [], _ => []
  | (who, value) :: entries, s => (act s who value).2 :: outcomes act entries (act s who value).1

def succeeding (act : OutcomeCall σ α β ε) (entries : List (α × β)) (s : σ) : List (α × β) :=
  ((entries.zip (outcomes act entries s)).filter fun p => p.2.isOk).map Prod.fst

/-- The one hook that an entry with this outcome calls for. -/
def properHook (entry : α × β) : Except ε Unit → OutcomeEvent α β ε
  | .ok _ => .onSuccess entry.1 entry.2
  | .error e => .onFail entry.1 e

/-- Every entry is attempted once and in order, calls the hook for its outcome and no other, and entries that
fail change nothing. -/
structure Truthful (act : OutcomeCall σ α β ε) (entries : List (α × β)) (s : σ)
    (report : σ × List (OutcomeEvent α β ε)) : Prop where
  attempts : report.2.filterMap OutcomeEvent.entry? = entries
  hooks : report.2.filter OutcomeEvent.isHook = List.zipWith properHook entries (outcomes act entries s)
  effect : report.1 = (reportEach act (succeeding act entries s) s).1

def AllSucceed (act : OutcomeCall σ α β ε) : List (α × β) → σ → Prop
  | [], _ => True
  | (who, value) :: entries, s => (act s who value).2 = .ok () ∧ AllSucceed act entries (act s who value).1

section Loop

variable {act : OutcomeCall σ α β ε} {entries : List (α × β)} {s : σ}

theorem reportEach_attempts (act : OutcomeCall σ α β ε) (entries : List (α × β)) (s : σ) :
    (reportEach act entries s).2.filterMap OutcomeEvent.entry? = entries := by
  induction entries generalizing s with
  | nil => rfl
  | cons entry entries ih =>
    have hrest := ih (act s entry.1 entry.2).1
    unfold reportEach
    cases hresult : (act s entry.1 entry.2).2 <;>
      simp [List.filterMap_cons, OutcomeEvent.entry?, failHook, hresult, hrest]

@[simp] theorem length_outcomes (act : OutcomeCall σ α β ε) (entries : List (α × β)) (s : σ) :
    (outcomes act entries s).length = entries.length := by
  induction entries generalizing s with
  | nil => rfl
  | cons entry entries ih => exact congrArg Nat.succ (ih _)

theorem length_hooks (act : OutcomeCall σ α β ε) (entries : List (α × β)) (s : σ) :
    ((reportEach act entries s).2.filter OutcomeEvent.isHook).length =
      entries.length + ((outcomes act entries s).filter fun result => !result.isOk).length := by
  induction entries generalizing s with
  | nil => rfl
  | cons entry entries ih =>
    have hrest := ih (act s entry.1 entry.2).1
    unfold reportEach outcomes
    cases hresult : (act s entry.1 entry.2).2 with
    | ok u =>
      have hok : (Except.ok u : Except ε Unit).isOk = true := rfl
      simp [List.filter_cons, OutcomeEvent.isHook, failHook, hresult, hrest, hok]
      omega
    | error e =>
      have herror : (Except.error e : Except ε Unit).isOk = false := rfl
      simp [List.filter_cons, OutcomeEvent.isHook, failHook, hresult, hrest, herror]
      omega

theorem allSucceed_iff : AllSucceed act entries s ↔ ∀ result ∈ outcomes act entries s, result.isOk = true := by
  induction entries generalizing s with
  | nil => simp [AllSucceed, outcomes]
  | cons entry entries ih =>
    unfold AllSucceed outcomes
    rw [ih, List.forall_mem_cons]
    refine and_congr_left fun _ => ?_
    cases (act s entry.1 entry.2).2 <;> simp [Except.isOk, Except.toBool]

theorem AllSucceed.hooks (h : AllSucceed act entries s) :
    (reportEach act entries s).2.filter OutcomeEvent.isHook =
      List.zipWith properHook entries (outcomes act entries s) := by
  induction entries generalizing s with
  | nil => rfl
  | cons entry entries ih =>
    obtain ⟨hresult, hrest⟩ := h
    unfold reportEach outcomes
    simp [hresult, List.filter_cons, OutcomeEvent.isHook, failHook, properHook, ih hrest]

theorem AllSucceed.succeeding_eq (h : AllSucceed act entries s) : succeeding act entries s = entries := by
  have hall : ((entries.zip (outcomes act entries s)).filter fun p => p.2.isOk) =
      entries.zip (outcomes act entries s) :=
    List.filter_eq_self.mpr fun p hp => allSucceed_iff.mp h p.2 (List.of_mem_zip hp).2
  rw [succeeding, hall, List.map_fst_zip]
  simp

theorem truthful_iff : Truthful act entries s (reportEach act entries s) ↔ AllSucceed act entries s := by
  constructor
  · intro h
    have hlength := congrArg List.length h.hooks
    rw [length_hooks, List.length_zipWith, length_outcomes, Nat.min_self] at hlength
    have hnone : ((outcomes act entries s).filter fun result => !result.isOk) = [] :=
      List.eq_nil_of_length_eq_zero (by omega)
    refine allSucceed_iff.mpr fun result hr => ?_
    have hok := List.filter_eq_nil_iff.mp hnone result hr
    simpa using hok
  · intro h
    exact ⟨reportEach_attempts act entries s, h.hooks, by rw [h.succeeding_eq]⟩

end Loop

/-- Rewards and penalties are reported truly exactly when none of them fails. -/
theorem reports_truthful_iff {γ : Type} (reward : OutcomeCall σ α β ε) (penalize : OutcomeCall σ α γ ε) (payout : Nat)
    (payeeProcess : Nat → List (α × β)) (transformPenalty : List (α × γ) → List (α × γ)) (towards : List (α × γ))
    (s : σ) :
    (Truthful reward (payeesFor payout payeeProcess) s (rewardAuthorsBy reward payout payeeProcess s) ↔
        AllSucceed reward (payeesFor payout payeeProcess) s) ∧
      (Truthful penalize (transformPenalty towards) s (penalizeAuthorsBy penalize transformPenalty towards s) ↔
        AllSucceed penalize (transformPenalty towards) s) := by
  refine ⟨?_, truthful_iff⟩
  rw [rewardAuthorsBy_eq]
  exact truthful_iff

section Pallet

variable {A : AuthorConfig} {P : ChainParameters A}

/-- A reward by the authors pallet, with what it leaves behind. -/
def rewardAttempt : OutcomeCall (AuthorState A) A.AccountId Nat AuthorError :=
  fun s who value => (rewardKept s who value, (reward s who value).map fun _ => ())

/-- A penalty outside of any transaction: the risk stays raised when no block is left for it. -/
def penalizeKept (s : AuthorState A) (who : A.AccountId) (factor : Perbill) : AuthorState A :=
  if factor.parts = 0 then s
  else
    match raiseRisk s who with
    | .error _ => s
    | .ok s =>
      match schedulePenalty s who factor with
      | .ok (s, _) => s
      | .error _ => s

def penalizeAttempt : OutcomeCall (AuthorState A) A.AccountId Perbill AuthorError :=
  fun s who factor => (penalizeKept s who factor, (penalize s who factor).map fun _ => ())

theorem reportEach_fst (act : OutcomeCall σ α β ε) (entries : List (α × β)) (s : σ) :
    (reportEach act entries s).1 = entries.foldl (fun s entry => (act s entry.1 entry.2).1) s := by
  induction entries generalizing s with
  | nil => rfl
  | cons entry entries ih => exact ih _

theorem rewardAuthors_reported (s : ChainState P.chain) :
    (rewardAuthors s).roles =
      (rewardAuthorsBy rewardAttempt (P.payout s.roles) (fun payout => P.payees payout (payoutFor s)) s.roles).1 := by
  unfold rewardAuthors rewardAuthorsBy
  simp only [apply_ite ChainState.roles, apply_ite Prod.fst, reportEach_fst]
  rfl

end Pallet

/-- The reward of an account that is no author fails, and is reported as a success too. -/
theorem failed_reward_reported :
    (rewardAuthorsBy (rewardAttempt (A := authorConfig)) 5 (fun _ => [((7 : Nat), (5 : Nat))]) (authorRun [])).2 =
        [.attempt 7 5, .onFail 7 .authorNotFound, .onSuccess 7 5] ∧
      ¬Truthful rewardAttempt (payeesFor 5 fun _ => [((7 : Nat), (5 : Nat))]) (authorRun [])
        (rewardAuthorsBy (rewardAttempt (A := authorConfig)) 5 (fun _ => [((7 : Nat), (5 : Nat))])
          (authorRun [])) := by
  have hevents :
      (rewardAuthorsBy (rewardAttempt (A := authorConfig)) 5 (fun _ => [((7 : Nat), (5 : Nat))]) (authorRun [])).2 =
        [.attempt 7 5, .onFail 7 .authorNotFound, .onSuccess 7 5] := by decide +kernel
  refine ⟨hevents, fun h => ?_⟩
  have hlength := congrArg List.length h.hooks
  rw [hevents] at hlength
  exact absurd hlength (by decide +kernel)

end FrameSuite
