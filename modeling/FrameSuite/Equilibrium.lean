import FrameSuite.Conservation

/-! The two counters against the value gained on the digests. They agree along a run
exactly as long as no pool pays out dust or a commission from a reward. -/

namespace FrameSuite

variable {T : Config}

/-- Outstanding issuance less outstanding reaping is what the digests hold beyond the
deposits of the proprietors. -/
def InEquilibrium (s : State T) : Prop :=
  (s.assetToIssue : Int) - s.assetToReap = digestsValue s - depositsOwed s

instance (s : State T) : Decidable (InEquilibrium s) := Int.instDecidableEq _ _

theorem inEquilibrium_iff (s : State T) : InEquilibrium s ↔ disequilibrium s = 0 := by
  unfold InEquilibrium disequilibrium
  omega

theorem disequilibrium_genesis (ledger : T.Ledger) : disequilibrium (State.genesis ledger) = 0 := rfl

theorem disequilibrium_run {s : State T} (hs : Sound s) (h : disequilibrium s = 0)
    (calls : List (Call T)) :
    (∀ n, disequilibrium (run State.apply s (calls.take n)) = 0) ↔
      RunMeets State.apply (fun s call => call.leak s = 0) s calls := by
  induction calls generalizing s with
  | nil => simp [RunMeets, h]
  | cons call calls ih =>
    have hnext : Sound (attempt State.apply s call) :=
      attempt_invariant (fun t ht => (apply_books hs ht).sound) hs
    constructor
    · intro hall
      have h1 : disequilibrium (attempt State.apply s call) = 0 := by
        simpa using hall 1
      refine ⟨fun t ht => ?_, (ih hnext h1).mp fun n => by simpa using hall (n + 1)⟩
      have hb := (apply_books hs ht).sheet
      rw [attempt_of_ok ht] at h1
      omega
    · rintro ⟨hleak, hmeets⟩ n
      have h1 : disequilibrium (attempt State.apply s call) = 0 :=
        attempt_invariant (P := fun t => disequilibrium t = 0)
          (fun t ht => by rw [(apply_books hs ht).sheet, h, hleak t ht, Int.add_zero]) h
      cases n with
      | zero => exact h
      | succ n => exact (ih hnext h1).mpr hmeets n

/-- The states along a run are in equilibrium exactly when no call of the run leaks. -/
theorem equilibrium_iff_no_leak (ledger : T.Ledger) (calls : List (Call T)) :
    (∀ n, InEquilibrium (State.after ledger (calls.take n))) ↔
      RunMeets State.apply (fun s call => call.leak s = 0) (State.genesis ledger) calls := by
  simp only [inEquilibrium_iff]
  exact disequilibrium_run (sound_genesis ledger) (disequilibrium_genesis ledger) calls

/-- Ten units spread over three equal slots leave one unit of dust with the manager. -/
theorem disequilibrium_thirds :
    ¬InEquilibrium (State.after fundedLedger (thirdsPool ++ [place 4 30 10])) := by
  decide +kernel

end FrameSuite
