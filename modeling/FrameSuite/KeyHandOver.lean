import FrameSuite.AffidavitKeys
import FrameSuite.KeyRoutines

/-! The hand-over of affidavit keys over whole runs of a node, watched for the keys that were declared and
the sessions that ended without. It holds exactly in the runs that rotate a declared key in its own session. -/

namespace FrameSuite

variable {T : ChainConfig} {W : OffchainConfig T}

/-- What the next execution of the rotation owes: to promote a key that was declared as the next one, or to
clear the keys that a session left behind in which none was declared. -/
inductive Due (V : Type)
  | nothing
  | promotion (key : V)
  | reset
deriving DecidableEq

/-- A node with what it owes and whether its next key was declared in this session. -/
structure WatchedNode (W : OffchainConfig T) where
  node : KeyNode W
  due : Due T.AffidavitId
  declared : Bool

namespace WatchedNode

def endsSession (w : WatchedNode W) : Due T.AffidavitId :=
  match w.due with
  | .promotion key => .promotion key
  | due => if w.declared ∨ w.node.nextKey = none ∧ w.node.activeKey = none then due else .reset

/-- What is owed once the step succeeded. -/
def dueAfter (w : WatchedNode W) : NodeStep T → Due T.AffidavitId
  | .chain (.dispatch _ (.declare _ key _)) => if w.node.nextKey = some key then .promotion key else w.due
  | .chain .rotateSession => w.endsSession
  | .rotateAffidavitKey => if w.node.rotates then .nothing else w.due
  | _ => w.due

def declaredAfter (w : WatchedNode W) : NodeStep T → Bool
  | .chain (.dispatch _ (.declare _ key _)) => w.declared || w.node.nextKey = some key
  | .chain .rotateSession => false
  | _ => w.declared

def apply (w : WatchedNode W) (step : NodeStep T) : Except (NodeError T) (WatchedNode W) := do
  let node ← w.node.apply step
  pure { node, due := w.dueAfter step, declared := w.declaredAfter step }

def start (W : OffchainConfig T) (chain : ChainState T) (policy : FinalizedPolicy) (now : Nat)
    (keystore : W.Keystore) :
    WatchedNode W :=
  { node := .start W chain policy now keystore, due := .nothing, declared := false }

/-- An execution of the rotation past `who` meets a key that was declared while it is registered for the session after
next, and never a session that ended without a declaration. -/
def Timely (w : WatchedNode W) : NodeStep T → Prop
  | .rotateAffidavitKey => w.node.rotates = true →
      (∀ key, w.due = .promotion key → w.node.chain.registersAhead key = true) ∧ w.due ≠ .reset
  | _ => True

end WatchedNode

def NodeStep.endsSession : NodeStep T → Bool
  | .chain .rotateSession => true
  | _ => false

/-- Sessions last exactly as long as the average one: they rotate in the block where they are over, first. -/
def NodeStep.OnTime (s : ChainState T) (step : NodeStep T) : Prop :=
  if step.endsSession then s.blockNumber = RotateAffidavitKey.endBlock s
  else s.blockNumber < RotateAffidavitKey.endBlock s

instance (s : ChainState T) (step : NodeStep T) : Decidable (step.OnTime s) :=
  inferInstanceAs (Decidable (ite _ _ _))

/-- A step pays what is owed, and never drops the next key while the active one is another. A rotation is executed
only once `who` has found a key to build the routine with; before that nothing of it runs, and nothing is due. -/
structure HandsKeyOver (w : WatchedNode W) (step : NodeStep T) (t : KeyNode W) : Prop where
  promotes : step = .rotateAffidavitKey → w.node.rotates = true → ∀ key, w.due = .promotion key →
    t.activeKey = some key ∧ t.nextKey = none
  clears : step = .rotateAffidavitKey → w.node.rotates = true → w.due = .reset →
    t.nextKey = none ∧ t.activeKey = none
  supersedes : ∀ key, w.node.nextKey = some key → t.nextKey = none →
    t.activeKey = some key ∨ t.activeKey = none

variable {w w' : WatchedNode W} {n t : KeyNode W} {step : NodeStep T} {key : T.AffidavitId}

theorem WatchedNode.apply_eq_ok : w.apply step = .ok w' ↔ ∃ t, w.node.apply step = .ok t ∧
    { node := t, due := w.dueAfter step, declared := w.declaredAfter step } = w' :=
  bind_eq_ok.trans (exists_congr fun _ => and_congr_right fun _ => pure_eq_ok)

theorem WatchedNode.run_node (w : WatchedNode W) (steps : List (NodeStep T)) :
    (run WatchedNode.apply w steps).node = run KeyNode.apply w.node steps := by
  have hview : ∀ (w : WatchedNode W) (step : NodeStep T),
      (w.apply step).map WatchedNode.node = w.node.apply step := by
    intro w step
    unfold WatchedNode.apply
    cases w.node.apply step <;> rfl
  exact run_map hview w steps

theorem WatchedNode.endsSession_promotion (h : w.endsSession = .promotion key) : w.due = .promotion key := by
  unfold endsSession at h
  cases hdue : w.due with
  | promotion other => rwa [hdue] at h
  | nothing =>
    simp only [hdue] at h
    split at h <;> cases h
  | reset =>
    simp only [hdue] at h
    split at h <;> cases h

/-- A promotion is owed once the next key is declared, until an execution of the rotation. -/
theorem WatchedNode.dueAfter_promotion (h : w.dueAfter step = .promotion key) :
    (w.due = .promotion key ∨ w.node.nextKey = some key) ∧ (step = .rotateAffidavitKey → w.node.rotates = false) := by
  unfold dueAfter at h
  split at h
  · refine ⟨?_, by simp⟩
    split at h
    · rename_i hnext
      cases h
      exact .inr hnext
    · exact .inl h
  · exact ⟨.inl (endsSession_promotion h), by simp⟩
  · split at h
    · cases h
    · rename_i hidle
      exact ⟨.inl h, fun _ => Bool.eq_false_iff.mpr hidle⟩
  · rename_i hother
    exact ⟨.inl h, fun hstep => absurd hstep hother⟩

/-- The key that is owed a promotion is the next one. -/
def WatchedNode.Watches (w : WatchedNode W) : Prop := ∀ key, w.due = .promotion key → w.node.nextKey = some key

theorem WatchedNode.Watches.apply (hw : w.Watches) (h : w.apply step = .ok w') : w'.Watches := by
  obtain ⟨t, ht, rfl⟩ := apply_eq_ok.mp h
  intro key hdue
  obtain ⟨hnext, hidle⟩ := dueAfter_promotion hdue
  exact KeyNode.nextKey_apply ht hidle (hnext.elim (hw key) id)

theorem KeyNode.apply_supersedes (h : n.apply step = .ok t) (hkey : n.nextKey = some key) (hnone : t.nextKey = none) :
    t.activeKey = some key ∨ t.activeKey = none := by
  by_cases hrotates : step = .rotateAffidavitKey → n.rotates = false
  · rw [nextKey_apply h hrotates hkey] at hnone
    cases hnone
  · push Not at hrotates
    obtain ⟨rfl, hrotates⟩ := hrotates
    obtain rfl := Except.ok.inj h
    obtain ⟨key', hkey', hcases⟩ := rotateAffidavitKey_cases (Bool.eq_true_of_not_eq_false hrotates)
    obtain rfl := Option.some.inj (hkey.symm.trans hkey')
    rcases hcases with ⟨-, -, hactive⟩ | ⟨-, -, -, hactive⟩ | ⟨-, -, hstays⟩
    · exact .inl hactive
    · exact .inr hactive
    · rw [hstays] at hnone
      cases hnone

theorem WatchedNode.timely_of_idle (h : step = .rotateAffidavitKey → w.node.rotates = false) : w.Timely step := by
  cases step with
  | rotateAffidavitKey =>
    intro hrotates
    rw [h rfl] at hrotates
    cases hrotates
  | _ => trivial

/-- While the session lasts, an execution promotes a key that is registered ahead and leaves any other. -/
theorem KeyNode.rotateAffidavitKey_onTime (h : n.rotates = true)
    (htime : n.chain.blockNumber < RotateAffidavitKey.endBlock n.chain) : ∃ key, n.nextKey = some key ∧
      (n.chain.registersAhead key = true ∧ n.rotateAffidavitKey.1.nextKey = none ∧
          n.rotateAffidavitKey.1.activeKey = some key ∨
        n.chain.registersAhead key = false ∧ n.rotateAffidavitKey.1.nextKey = some key) := by
  obtain ⟨key, hkey, hahead | ⟨-, hover, -⟩ | ⟨hahead, -, hstays⟩⟩ := rotateAffidavitKey_cases h
  · exact ⟨key, hkey, .inl hahead⟩
  · omega
  · exact ⟨key, hkey, .inr ⟨hahead, hstays⟩⟩

/-- In sessions of the average length the recovery is never reached: a next key stays or becomes active. -/
theorem KeyNode.next_or_active (htime : step.OnTime n.chain) (h : n.apply step = .ok t)
    (hkey : n.nextKey = some key) :
    t.nextKey = some key ∨ t.activeKey = some key := by
  by_cases hidle : step = .rotateAffidavitKey → n.rotates = false
  · exact .inl (nextKey_apply h hidle hkey)
  · push Not at hidle
    obtain ⟨rfl, hrotates⟩ := hidle
    obtain rfl := Except.ok.inj h
    obtain ⟨key', hkey', hcases⟩ := rotateAffidavitKey_onTime (Bool.eq_true_of_not_eq_false hrotates) htime
    obtain rfl := Option.some.inj (hkey.symm.trans hkey')
    rcases hcases with ⟨-, -, hactive⟩ | ⟨-, hstays⟩
    · exact .inr hactive
    · exact .inl hstays

theorem handsKeyOver_iff (hw : w.Watches) (htime : step.OnTime w.node.chain) (h : w.node.apply step = .ok t) :
    HandsKeyOver w step t ↔ w.Timely step := by
  by_cases hidle : step = .rotateAffidavitKey → w.node.rotates = false
  · have hnot : step = .rotateAffidavitKey → ¬w.node.rotates = true := fun hstep => Bool.eq_false_iff.mp (hidle hstep)
    refine ⟨fun _ => w.timely_of_idle hidle, fun _ => ⟨?_, ?_, fun key => KeyNode.apply_supersedes h⟩⟩
    · intro hstep hrotates
      exact absurd hrotates (hnot hstep)
    · intro hstep hrotates
      exact absurd hrotates (hnot hstep)
  · push Not at hidle
    obtain ⟨rfl, hrotates⟩ := hidle
    have hrotates := Bool.eq_true_of_not_eq_false hrotates
    obtain rfl := Except.ok.inj h
    obtain ⟨key', hnext, hcases⟩ := KeyNode.rotateAffidavitKey_onTime hrotates htime
    constructor
    · intro hover _
      constructor
      · intro key hdue
        obtain rfl := Option.some.inj (hnext.symm.trans (hw key hdue))
        have hnone := (hover.promotes rfl hrotates _ hdue).2
        rcases hcases with ⟨hahead, -⟩ | ⟨-, hstays⟩
        · exact hahead
        · rw [hstays] at hnone
          cases hnone
      · intro hreset
        obtain ⟨hnone, hcleared⟩ := hover.clears rfl hrotates hreset
        rcases hcases with ⟨-, -, hactive⟩ | ⟨-, hstays⟩
        · rw [hactive] at hcleared
          cases hcleared
        · rw [hstays] at hnone
          cases hnone
    · intro htimely
      obtain ⟨hahead, hreset⟩ := htimely hrotates
      refine ⟨fun _ _ key hdue => ?_, fun _ _ hdue => absurd hdue hreset, fun key => KeyNode.apply_supersedes h⟩
      obtain rfl := Option.some.inj (hnext.symm.trans (hw key hdue))
      rcases hcases with ⟨-, hnone, hactive⟩ | ⟨hnot, -⟩
      · exact ⟨hactive, hnone⟩
      · rw [hahead _ hdue] at hnot
        cases hnot

/-- In runs whose sessions last exactly as long as the average one, keys are handed over if and only if every
execution of the rotation, past `who`, is timely. -/
theorem key_handed_over_iff {roles : T.Roles} {validators : List T.AccountId} {g : ChainGenesis}
    {policy : FinalizedPolicy} {now : Nat} {keystore : W.Keystore} {steps : List (NodeStep T)}
    (hexact : RunMeets WatchedNode.apply (fun w step => step.OnTime w.node.chain)
      (.start W (.genesis roles validators g) policy now keystore) steps) :
    RunMeets WatchedNode.apply (fun w step => ∀ t, w.node.apply step = .ok t → HandsKeyOver w step t)
        (.start W (.genesis roles validators g) policy now keystore) steps ↔
      RunMeets WatchedNode.apply (fun w step => w.Timely step)
        (.start W (.genesis roles validators g) policy now keystore) steps := by
  have hstart : (WatchedNode.start W (.genesis roles validators g) policy now keystore).Watches :=
    fun _ hdue => by cases hdue
  constructor
  · intro hover
    refine (hexact.and hover).of_invariant (P := WatchedNode.Watches) (fun w step w' hw hq h => ?_) hstart
    obtain ⟨t, ht, -⟩ := WatchedNode.apply_eq_ok.mp h
    exact ⟨hw.apply h, (handsKeyOver_iff hw hq.1 ht).mp (hq.2 t ht)⟩
  · intro htimely
    refine (hexact.and htimely).of_invariant (P := WatchedNode.Watches) (fun w step w' hw hq h => ?_) hstart
    exact ⟨hw.apply h, fun t ht => (handsKeyOver_iff hw hq.1 ht).mpr hq.2⟩

section Sessions

variable {s s' : ChainState T} {call : ChainCall T} {origin : Origin T.AccountId} {signer : T.Public}
  {signature : T.Signature}

theorem apply_currentSession (h : s.apply call = .ok s') (hr : call ≠ .rotateSession) :
    s'.currentSession = s.currentSession := by
  cases call with
  | dispatch origin extrinsic =>
    obtain ⟨hx, -⟩ := dispatch_eq_ok h
    cases extrinsic with
    | validate signer signature =>
      obtain ⟨author, -, -, -, rfl⟩ := validate_eq_ok hx
      rfl
    | declare signer rotate signature =>
      obtain ⟨-, -, author, weights, -, rfl⟩ := declare_eq_ok hx
      rfl
    | elect signer signature =>
      obtain ⟨-, author, roles, -, -, -, -, rfl⟩ := elect_eq_ok hx
      rfl
    | chill affidavitPub =>
      obtain ⟨author, session, -, -, -, rfl⟩ := chill_eq_ok hx
      rfl
  | forceGenesisConfig field => exact (forceGenesisConfig_eq_ok h).session
  | rotateSession => exact absurd rfl hr
  | enterBlock author =>
    obtain ⟨roles, points, -, rfl⟩ := chainEnterBlock_eq_ok h
    rfl
  | callRoles call =>
    obtain ⟨roles, -, rfl⟩ := callRoles_eq_ok h
    rfl

theorem registersAhead_of_declare (h : s.apply (.dispatch origin (.declare signer key signature)) = .ok s') :
    s'.registersAhead key = true := by
  obtain ⟨-, -, author, weights, -, rfl⟩ := declare_eq_ok (dispatch_eq_ok h).1
  refine StorageMap.containsKey_iff.mpr ⟨author, ?_⟩
  rw [nextAffidavitSession_eq]
  exact StorageMap.get_insert_self ..

/-- In its session a registered key stays registered, unless its author chills it. -/
theorem registersAhead_apply (h : s.apply call = .ok s') (hr : call ≠ .rotateSession)
    (hc : ∀ author, call ≠ .dispatch (.signed author) (.chill key)) (hk : s.registersAhead key = true) :
    s'.registersAhead key = true := by
  rw [ChainState.registersAhead, apply_currentSession h hr]
  rw [ChainState.registersAhead, StorageMap.containsKey_iff] at hk
  obtain ⟨author, hk⟩ := hk
  rw [StorageMap.containsKey_iff]
  cases apply_keyStep h with
  | validated he =>
    rw [he, StorageMap.get_insert]
    split
    · exact ⟨_, rfl⟩
    · exact ⟨author, hk⟩
  | declared _ _ he =>
    rw [he, StorageMap.get_insert]
    split
    · exact ⟨_, rfl⟩
    · exact ⟨author, hk⟩
  | chilled _ he =>
    rw [he, StorageMap.get_remove]
    split
    · rename_i hkey
      exact absurd (by rw [(Prod.mk.inj hkey).2]) (hc _)
    · exact ⟨author, hk⟩
  | kept _ he => exact ⟨author, he ▸ hk⟩

/-- A step within the session of a key that its author keeps, and before its rotation is executed. -/
def WithinSession (key : T.AffidavitId) (n : KeyNode W) (step : NodeStep T) : Prop :=
  step ≠ .chain .rotateSession ∧ (∀ author, step ≠ .chain (.dispatch (.signed author) (.chill key))) ∧
    (step = .rotateAffidavitKey → n.rotates = false)

theorem declared_key_promoted {steps : List (NodeStep T)}
    (h : n.apply (.chain (.dispatch origin (.declare signer key signature))) = .ok t) (hnext : n.nextKey = some key)
    (hin : RunMeets KeyNode.apply (WithinSession key) t steps)
    (hrotates : (run KeyNode.apply t steps).rotates = true) :
    (run KeyNode.apply t steps).rotateAffidavitKey.1.activeKey = some key ∧
      (run KeyNode.apply t steps).rotateAffidavitKey.1.nextKey = none := by
  have hdeclared : t.nextKey = some key ∧ t.chain.registersAhead key = true := by
    refine ⟨KeyNode.nextKey_apply h (by simp) hnext, ?_⟩
    obtain ⟨chain, hcall, h⟩ := bind_eq_ok.mp h
    obtain rfl := pure_eq_ok.mp h
    exact registersAhead_of_declare (mapError_eq_ok.mp hcall)
  have hlast : (run KeyNode.apply t steps).nextKey = some key ∧
      (run KeyNode.apply t steps).chain.registersAhead key = true := by
    refine run_invariant_of_meets (P := fun n => n.nextKey = some key ∧ n.chain.registersAhead key = true)
      (fun n step t hn hq hok => ⟨KeyNode.nextKey_apply hok hq.2.2 hn.1, ?_⟩) hdeclared hin
    rcases KeyNode.apply_chain hok with hc | ⟨call, rfl, hcall⟩
    · rw [hc]
      exact hn.2
    · exact registersAhead_apply hcall (fun hr => hq.1 (by rw [hr]))
        (fun author hc => hq.2.1 author (by rw [hc])) hn.2
  obtain ⟨key', hkey, hcases⟩ := KeyNode.rotateAffidavitKey_cases hrotates
  obtain rfl := Option.some.inj (hlast.1.symm.trans hkey)
  rcases hcases with ⟨-, hnone, hactive⟩ | ⟨hnot, -⟩ | ⟨hnot, -⟩
  · exact ⟨hactive, hnone⟩
  · rw [hlast.2] at hnot
    cases hnot
  · rw [hlast.2] at hnot
    cases hnot

end Sessions

section Worker

/-- A worker that signs with the keys it generated, numbered from 11 on. -/
abbrev workerConfig : OffchainConfig chainConfig :=
  { offchainConfig with
    Keystore := List Nat
    generatePair := fun keystore => (11 + keystore.length, keystore ++ [11 + keystore.length])
    sign := fun keystore payload => if payload.signer ∈ keystore then some payload.signer else none
    all := id
    signsTransaction := fun keystore signer _ => signer ∈ keystore }

def promptPolicy : FinalizedPolicy :=
  { finalityAfter := 1, finalityTicks := 1, maxMoment := 2 ^ 64 - 1, after_pos := by decide, ticks_pos := by decide }

def onChain (calls : List (ChainCall chainConfig)) : List (NodeStep chainConfig) := calls.map .chain

/-- A declaration is tried at each moment. -/
def triesAt (moments : List Nat) : List (NodeStep chainConfig) :=
  moments.flatMap fun moment => [.setTimestamp moment, .declareAffidavit]

/-- Author 1 validates its active key, and declares its next key once that is final. -/
def declaresNext : List (NodeStep chainConfig) :=
  [.initAffidavitKey] ++ triesAt [1, 2, 3] ++ onChain (validates 1 11 :: blocksBy 1 6) ++ triesAt [4, 5, 6] ++
    onChain [declares 11 12]

def watchedStart : WatchedNode workerConfig :=
  .start workerConfig (.genesis (T := chainConfig) (authorRun readyAuthors) [9] plainChain) promptPolicy 0 []

def declaredNext : WatchedNode workerConfig := run WatchedNode.apply watchedStart declaresNext

/-- Executed in the session of the declaration, the rotation promotes the key. -/
theorem key_promoted_in_session :
    RunMeets WatchedNode.apply (fun w step => ∀ t, w.node.apply step = .ok t → HandsKeyOver w step t)
        watchedStart (declaresNext ++ [.rotateAffidavitKey]) ∧
      declaredNext.node.rotates = true ∧ declaredNext.due = .promotion (12 : Nat) := by
  have hdue : declaredNext.due = .promotion (12 : Nat) := by decide +kernel
  have hahead : declaredNext.node.chain.registersAhead (12 : Nat) = true := by decide +kernel
  have hother : ∀ step ∈ declaresNext, step ≠ .rotateAffidavitKey := by
    simp [declaresNext, triesAt, onChain, blocksBy, or_imp, forall_and]
  have hbefore : RunMeets WatchedNode.apply (fun w step => w.Timely step) watchedStart declaresNext :=
    (RunMeets.of_forall hother watchedStart).mono fun w step hstep =>
      w.timely_of_idle fun hrotate => absurd hrotate hstep
  have htimely : declaredNext.Timely .rotateAffidavitKey := by
    intro _
    rw [hdue]
    refine ⟨fun key hkey => ?_, by simp⟩
    cases hkey
    exact hahead
  refine ⟨(key_handed_over_iff (by decide +kernel)).mpr ?_, by decide +kernel, hdue⟩
  exact hbefore.append ⟨fun _ _ => htimely, trivial⟩

def crossesBoundary : List (NodeStep chainConfig) := declaresNext ++ onChain (blocksBy 1 4 ++ [.rotateSession])

def crossedBoundary : WatchedNode workerConfig := run WatchedNode.apply watchedStart crossesBoundary

/-- Executed only after the boundary, it leaves the declared key behind. -/
theorem key_stranded_at_boundary :
    ¬∀ steps, RunMeets WatchedNode.apply (fun w step => step.OnTime w.node.chain) watchedStart steps →
      RunMeets WatchedNode.apply (fun w step => ∀ t, w.node.apply step = .ok t → HandsKeyOver w step t)
        watchedStart steps := by
  intro h
  obtain ⟨-, hlast, -⟩ := RunMeets.of_append (h (crossesBoundary ++ [.rotateAffidavitKey]) (by decide +kernel))
  have hover : HandsKeyOver crossedBoundary .rotateAffidavitKey crossedBoundary.node.rotateAffidavitKey.1 :=
    hlast _ rfl _ rfl
  have hactive := (hover.promotes rfl (by decide +kernel) (12 : Nat) (by decide +kernel)).1
  exact absurd hactive (by decide +kernel)

end Worker

end FrameSuite
