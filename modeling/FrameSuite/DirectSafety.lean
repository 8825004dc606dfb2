import FrameSuite.DirectResolve
import FrameSuite.Equilibrium

/-! Direct commits over whole runs: placing, raising, resolving and value updates, in any
order. Without rounded deposits and rounded reaping every proprietor can leave at any
time; one rounded deposit already locks its proprietor in. -/

namespace FrameSuite

open ShareBalance

variable {T : Config}

/-- The calls that concern direct commits, and changes of the fungible by others. -/
def Call.isDirect : Call T → Prop
  | .placeCommit .. => True
  | .raiseCommit .. => True
  | .resolveCommit .. => True
  | .setDigestValue .. => True
  | .external _ => True
  | _ => False

/-- Amounts and prices are representable after the call. A resolution only takes receipts
away. -/
def Call.fits (s : State T) (call : Call T) : Prop :=
  match call with
  | .resolveCommit .. => True
  | .external _ => True
  | _ => AmountsFit (attempt State.apply s call)

/-- The call rounds no further value away from the outstanding receipts. Raising a value
may round. -/
def Call.keepsRemainder (s : State T) (call : Call T) : Prop :=
  match call with
  | .resolveCommit .. => True
  | .external _ => True
  | .setDigestValue .. => digestsValue s ≤ digestsValue (attempt State.apply s call) ∨
      remainder (attempt State.apply s call) ≤ remainder s
  | _ => remainder (attempt State.apply s call) ≤ remainder s

theorem DirectOnly.leak_eq {s : State T} (h : DirectOnly s) {call : Call T} (hc : call.isDirect) :
    call.leak s = 0 := by
  cases call with
  | placeCommit who reason digest value variant q =>
    simp [Call.leak, placeLeak, h.digestModel_eq, depositLeak]
  | raiseCommit who reason value q =>
    simp only [Call.leak, raiseLeak]
    split
    · rfl
    · simp [h.digestModel_eq, depositLeak]
  | resolveCommit who reason =>
    simp only [Call.leak, leaveLeak]
    split
    · rfl
    · rename_i info hi
      simp [h.digestModel_eq, resolveLeak, hi]
  | setDigestValue => rfl
  | external => rfl
  | _ => exact hc.elim

theorem DirectOnly.of_books {s s' : State T} (h : DirectOnly s) (hb : Books s s' 0)
    (hi : s'.indexMap = s.indexMap) (hp : s'.poolMap = s.poolMap) (he : s'.entryMap = s.entryMap) :
    DirectOnly s' := by
  refine ⟨hi.trans h.indexes, hp.trans h.pools, he.trans h.entries, hb.sound, ?_, fun w => ?_⟩
  · rw [hb.sheet, h.balanced]
    rfl
  · have h1 := hb.totals w
    have h2 := h.totals w
    omega

/-- What holds along a run of direct calls. -/
structure DirectState (s : State T) : Prop where
  only : DirectOnly s
  covered : Covered s
  fits : AmountsFit s

theorem DirectState.join {s s' : State T} (h : DirectState s) {key : T.AccountId × T.Reason}
    {info : CommitInfo T} {r : Receipt T.share} {after : Balance T.share}
    (hj : Joined s s' key info r after) (hb : Books s s' 0) (hf : AmountsFit s')
    (hr : remainder s' ≤ remainder s) : DirectState s' := by
  refine ⟨?_, hj.covered h.covered hb.sound.digests h.fits hf hr, hf⟩
  obtain ⟨l, m, rv, rfl⟩ := hj.state_eq
  exact h.only.of_books hb rfl rfl rfl

theorem DirectState.leave {s s' : State T} (h : DirectState s) {who : T.AccountId} {reason : T.Reason}
    {resolved : Nat} (hok : resolveCommit s who reason = .ok (s', resolved)) (hb : Books s s' 0) :
    DirectState s' := by
  obtain ⟨info, hi, -, hok⟩ := resolveCommit_eq_ok hok
  rw [h.only.digestModel_eq] at hok
  obtain ⟨variant, -, hok⟩ := bind_eq_ok.mp hok
  obtain ⟨⟨s1, d⟩, hw, hfin⟩ := bind_eq_ok.mp hok
  obtain ⟨m, d', b, after, hw', hl⟩ := withdrawFromDigest_leaving h.covered h.fits hi
  obtain ⟨rfl, rfl⟩ := Prod.mk.inj (Except.ok.inj (hw.symm.trans hw'))
  have hmax : d.withdraw ≤ T.share.maxAsset := by
    have := (h.only.sound.digests _ _ hl.touch.before).effective_le
    have := hl.paid
    omega
  obtain ⟨-, l, issue, reap', rv, rfl, -, -, hreap, -⟩ := finalizeResolveCommit_spec hmax hfin
  suffices hkeeps : Covered _ ∧ AmountsFit _ from ⟨h.only.of_books hb rfl rfl rfl, hkeeps.1, hkeeps.2⟩
  exact hl.keeps h.covered h.fits rfl rfl hreap

theorem DirectState.step {s s' : State T} {call : Call T} (h : DirectState s) (hd : call.isDirect)
    (hf : call.fits s) (hr : call.keepsRemainder s) (hok : s.apply call = .ok s') : DirectState s' := by
  have hb := apply_books h.only.sound hok
  rw [h.only.leak_eq hd] at hb
  have hnext := attempt_of_ok hok
  cases call with
  | placeCommit who reason digest value variant q =>
    obtain ⟨⟨s1, v⟩, h1, hok⟩ := bind_eq_ok.mp hok
    obtain rfl := pure_eq_ok.mp hok
    obtain ⟨info, r, after, hj⟩ := placeCommitOfVariant_joined h.only h1
    exact h.join hj hb (hnext ▸ hf) (hnext ▸ hr)
  | raiseCommit who reason value q =>
    obtain ⟨⟨s1, v⟩, h1, hok⟩ := bind_eq_ok.mp hok
    obtain rfl := pure_eq_ok.mp hok
    obtain ⟨info, r, after, hj⟩ := raiseCommit_joined h.only h1
    exact h.join hj hb (hnext ▸ hf) (hnext ▸ hr)
  | resolveCommit who reason =>
    obtain ⟨⟨s1, v⟩, h1, hok⟩ := bind_eq_ok.mp hok
    obtain rfl := pure_eq_ok.mp hok
    exact h.leave h1 hb
  | setDigestValue reason digest value variant =>
    have hf' : AmountsFit s' := hnext ▸ hf
    have hr' : digestsValue s ≤ digestsValue s' ∨ remainder s' ≤ remainder s := hnext ▸ hr
    obtain ⟨⟨s1, v⟩, h1, hok⟩ := bind_eq_ok.mp hok
    obtain rfl := pure_eq_ok.mp hok
    obtain ⟨b, b', gain, loss, ha⟩ := setDigestVariantValue_adjusted h1
    refine ⟨?_, ha.covered h.covered h.fits hf' fun hl => hr'.resolve_left fun hle => ?_, hf'⟩
    · obtain ⟨m, rv, rfl⟩ := ha.state_eq
      exact h.only.of_books hb rfl rfl rfl
    · have hv := ha.value
      have hrev := ha.revalued
      cases hrev with
      | minted => exact hl rfl
      | reaped => omega
      | same => exact hl rfl
  | external ledger =>
    obtain rfl := Except.ok.inj hok
    exact ⟨h.only.of_books hb rfl rfl rfl,
      ⟨h.covered.backed, h.covered.deposited, h.covered.initiated, h.covered.covers⟩,
      ⟨h.fits.deposits, h.fits.active⟩⟩
  | _ => exact hd.elim

theorem directState_genesis (ledger : T.Ledger) : DirectState (State.genesis ledger) := by
  have hempty {c : Location T × Receipt T.share} :
      ¬c ∈ outstanding (State.genesis ledger).commitMap := fun hc => by
    obtain ⟨key, info, hi, -⟩ := mem_outstanding.mp hc
    cases hi
  refine ⟨⟨rfl, rfl, rfl, sound_genesis ledger, rfl, fun _ => rfl⟩,
    ⟨⟨(sound_genesis ledger).digests, fun l => ?_, fun c hc => (hempty hc).elim⟩,
      fun c hc => (hempty hc).elim, fun _ _ hi => (nomatch hi), Nat.le_refl 0⟩,
    ⟨fun _ _ hi => (nomatch hi), fun _ _ hi => (nomatch hi)⟩⟩
  rw [tally_outstanding]
  rfl

theorem DirectState.after {ledger : T.Ledger} {calls : List (Call T)}
    (hd : ∀ call ∈ calls, call.isDirect)
    (hf : RunMeets State.apply (fun s call => call.fits s) (State.genesis ledger) calls)
    (hr : RunMeets State.apply (fun s call => call.keepsRemainder s) (State.genesis ledger) calls) :
    DirectState (State.after ledger calls) :=
  run_invariant_of_meets (fun _ _ _ h hq ht => h.step hq.1 hq.2.1 hq.2.2 ht)
    (directState_genesis ledger) ((RunMeets.of_forall hd _).and (hf.and hr))

/-- Along runs that round no value away from the receipts, whoever has a commit can
resolve it, whoever left before. -/
theorem direct_commit_resolves {ledger : T.Ledger} {calls : List (Call T)}
    (hd : ∀ call ∈ calls, call.isDirect)
    (hf : RunMeets State.apply (fun s call => call.fits s) (State.genesis ledger) calls)
    (hr : RunMeets State.apply (fun s call => call.keepsRemainder s) (State.genesis ledger) calls)
    {who : T.AccountId} {reason : T.Reason} {info : CommitInfo T}
    (hi : (State.after ledger calls).commitMap.get (who, reason) = some info)
    (hp : ∃ l, T.asset.thaw (State.after ledger calls).ledger reason who = .ok l ∧
      Payable l who (depositValue info.commits.receipts + (State.after ledger calls).assetToIssue)) :
    ∃ out, resolveCommit (State.after ledger calls) who reason = .ok out :=
  have h := DirectState.after hd hf hr
  resolveCommit_isOk h.only h.covered h.fits hi hp

theorem TokenLedger.payable {l : TokenLedger} {who room : Nat} (halive : 0 < l.freeOf who)
    (hroom : l.freeOf who + room ≤ TokenLedger.maxBalance) :
    Payable (T := runtimeConfig) l who room := by
  have hinc (l : TokenLedger) (v : Nat) (ha : 0 < l.freeOf who)
      (hv : l.freeOf who + v ≤ TokenLedger.maxBalance) :
      l.increase who v = .ok (l.setFree who (l.freeOf who + v)) := by
    unfold TokenLedger.increase TokenLedger.existentialDeposit
    rw [if_neg (by omega)]
  have hfree (v : Nat) : (l.setFree who v).freeOf who = v := by
    simp [TokenLedger.setFree, TokenLedger.freeOf]
  have hburn (l : TokenLedger) (w : Nat) (hw : w ≤ l.freeOf who) :
      l.burn who w = .ok (l.setFree who (l.freeOf who - w)) := if_pos hw
  refine ⟨fun v _ hv => ⟨_, hinc l v halive (by omega)⟩, fun v w l' hl _ hvw => ?_, fun v w l' hl hw => ?_⟩
  · obtain rfl := Except.ok.inj ((hinc l v halive (by omega)).symm.trans hl)
    exact ⟨_, hinc _ w (by rw [hfree]; omega) (by rw [hfree]; omega)⟩
  · change l.increase who v = .ok l' at hl
    unfold TokenLedger.increase at hl
    split at hl
    · cases hl
    · obtain rfl := Except.ok.inj hl
      exact ⟨_, hburn _ w (by rw [hfree]; omega)⟩

def revalue (digest value : Nat) : Call runtimeConfig :=
  .setDigestValue (T := runtimeConfig) 0 digest value .affirmative

/-- A hundred shares, sold again at 1.5 each. -/
def evenDeposit : List (Call runtimeConfig) := [place 1 11 100, revalue 11 150, place 2 11 150]

theorem direct_commit_resolves_even :
    ∃ out, resolveCommit (State.after fundedLedger evenDeposit) (2 : Nat) (0 : Nat) = .ok out := by
  refine @direct_commit_resolves runtimeConfig fundedLedger evenDeposit ?_ ?_ ?_ _ _ _ rfl
    ⟨_, rfl, TokenLedger.payable ?_ ?_⟩
  · simp [evenDeposit, place, revalue, Call.isDirect]
  · exact ⟨fun _ _ => show AmountsFit _ by decide +kernel, fun _ _ => show AmountsFit _ by decide +kernel,
      fun _ _ => show AmountsFit _ by decide +kernel, trivial⟩
  · exact ⟨fun _ _ => show remainder _ ≤ remainder _ by decide +kernel,
      fun _ _ => Or.inl (by decide +kernel),
      fun _ _ => show remainder _ ≤ remainder _ by decide +kernel, trivial⟩
  · decide +kernel
  · decide +kernel

/-- A hundred units buy 66 shares at 1.5 each, worth 99. Nothing books the lost unit, so
the burn that its resolution asks for is refused. -/
def roundedDeposit : List (Call runtimeConfig) := [place 1 11 100, revalue 11 150, place 2 11 100]

theorem rounded_deposit_locks_in :
    ¬∀ (ledger : TokenLedger) (calls : List (Call runtimeConfig)),
      (∀ call ∈ calls, call.isDirect) →
      RunMeets State.apply (fun s call => call.fits s) (State.genesis (T := runtimeConfig) ledger) calls →
      ∀ (who reason : Nat) (info : CommitInfo runtimeConfig),
        (State.after (T := runtimeConfig) ledger calls).commitMap.get (who, reason) = some info →
        (∃ l, runtimeConfig.asset.thaw (State.after (T := runtimeConfig) ledger calls).ledger reason who =
            .ok l ∧ Payable (T := runtimeConfig) l who (depositValue info.commits.receipts +
              (State.after (T := runtimeConfig) ledger calls).assetToIssue)) →
        ∃ out, resolveCommit (State.after (T := runtimeConfig) ledger calls) who reason = .ok out := by
  intro h
  obtain ⟨out, ho⟩ := h fundedLedger roundedDeposit
    (by simp [roundedDeposit, place, revalue, Call.isDirect])
    ⟨fun _ _ => show AmountsFit _ by decide +kernel, fun _ _ => show AmountsFit _ by decide +kernel,
      fun _ _ => show AmountsFit _ by decide +kernel, trivial⟩
    2 0 _ rfl ⟨_, rfl, TokenLedger.payable (by decide +kernel) (by decide +kernel)⟩
  have he : resolveCommit (State.after fundedLedger roundedDeposit) (2 : Nat) (0 : Nat) =
      .error .burningMoreThanReapable := rfl
  cases he.symm.trans ho

end FrameSuite
