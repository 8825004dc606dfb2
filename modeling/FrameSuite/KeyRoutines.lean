import FrameSuite.OffchainRoutines

/-! The affidavit keys that a node stores on one fork, how sure it is of each, and the routines of its worker
that make, declare and rotate them. The node takes a step with every call of the chain and every routine. -/

namespace FrameSuite

/-- When a key counts as final; the chain refuses zero for either threshold. -/
structure FinalizedPolicy extends FinalityTerms where
  after_pos : 0 < finalityAfter
  ticks_pos : 0 < finalityTicks

instance : Coe FinalizedPolicy FinalityTerms := ⟨FinalizedPolicy.toFinalityTerms⟩

/-- The next and the active affidavit key of a node. -/
structure KeyStorage (V : Type) where
  next : Option (Observation V)
  active : Option (Observation V)

namespace KeyStorage

variable {V : Type}

def nextKey (storage : KeyStorage V) : Option V := storage.next.map Observation.value

def activeKey (storage : KeyStorage V) : Option V := storage.active.map Observation.value

def empty : KeyStorage V := { next := none, active := none }

def readNext (policy : FinalizedPolicy) (now : Nat) (storage : KeyStorage V) : Option (Confidence V) × KeyStorage V :=
  let read := Finalized.get policy now storage.next
  (read.1, { storage with next := read.2 })

def readActive (policy : FinalizedPolicy) (now : Nat) (storage : KeyStorage V) :
    Option (Confidence V) × KeyStorage V :=
  let read := Finalized.get policy now storage.active
  (read.1, { storage with active := read.2 })

def setNext (now : Nat) (key : V) (storage : KeyStorage V) : KeyStorage V :=
  { storage with next := some (Finalized.observe now key) }

def setActive (now : Nat) (key : V) (storage : KeyStorage V) : KeyStorage V :=
  { storage with active := some (Finalized.observe now key) }

def removeNext (storage : KeyStorage V) : KeyStorage V := { storage with next := none }

def removeActive (storage : KeyStorage V) : KeyStorage V := { storage with active := none }

end KeyStorage

variable {T : ChainConfig}

/-- The node with this storage, which does not fail, at some moment. -/
abbrev OffchainConfig.storing (W : OffchainConfig T) (policy : FinalizedPolicy) (now : Nat) : OffchainConfig T :=
  { Storage := KeyStorage T.AffidavitId
    Keystore := W.Keystore
    get := fun storage => (.ok (storage.readNext policy now).1, (storage.readNext policy now).2)
    insert := fun storage key => (.ok (), storage.setNext now key)
    generatePair := W.generatePair
    sign := W.sign
    all := W.all
    signsTransaction := W.signsTransaction
    accountOf := W.accountOf
    pool := W.pool }

inductive KeyRoutineError (T : ChainConfig)
  | routine (e : RoutineError T)
  | affidavitKeyExists
  | activeAfdtKeyNotYetFinalized
  | expectedToHoldActiveAffidavitKey
  | expectedActiveAffidavitKeyPairNotFound
  | expectedToHoldFinalizedNextAffidavitKey
  | expectedNextAffidavitKeyPairNotFound
  | affidavitTxAwaitingStatus
  | validationStopped

/-- The node: its view of the chain, the chain's clock and policy, and what it keeps itself. -/
structure KeyNode (W : OffchainConfig T) where
  chain : ChainState T
  policy : FinalizedPolicy
  now : Nat
  storage : KeyStorage T.AffidavitId
  keystore : W.Keystore

variable {W : OffchainConfig T}

namespace KeyNode

def nextKey (n : KeyNode W) : Option T.AffidavitId := n.storage.nextKey

def activeKey (n : KeyNode W) : Option T.AffidavitId := n.storage.activeKey

def readNext (n : KeyNode W) : Option (Confidence T.AffidavitId) × KeyNode W :=
  let read := n.storage.readNext n.policy n.now
  (read.1, { n with storage := read.2 })

def readActive (n : KeyNode W) : Option (Confidence T.AffidavitId) × KeyNode W :=
  let read := n.storage.readActive n.policy n.now
  (read.1, { n with storage := read.2 })

/-- The pair of a key in the keystore. -/
def pairOf (n : KeyNode W) (key : T.AffidavitId) : Option T.Public :=
  (W.all n.keystore).find? fun pair => T.intoAccount pair = key

end KeyNode

namespace InitAffidavitKey

def canRun (n : KeyNode W) : KeyNode W × Except (KeyRoutineError T) Unit :=
  match n.readActive with
  | (none, n) => (n, .ok ())
  | (some (.safe key), n) => if (n.pairOf key).isSome then (n, .error .affidavitKeyExists) else (n, .ok ())
  | (some _, n) => (n, .error .activeAfdtKeyNotYetFinalized)

def runService (n : KeyNode W) : KeyNode W × Except (KeyRoutineError T) Unit :=
  match canRun n with
  | (n, .error .affidavitKeyExists) => (n, .ok ())
  | (n, .error e) => (n, .error e)
  | (n, .ok _) =>
    let generated := W.generatePair n.keystore
    ({ n with
      keystore := generated.2
      storage := n.storage.setActive n.now (T.intoAccount generated.1) }, .ok ())

end InitAffidavitKey

/-- The active key declares, when it is final and in the keystore. -/
def DeclareAffidavit.who (n : KeyNode W) : KeyNode W × Except (KeyRoutineError T) T.Public :=
  match n.readActive with
  | (some (.safe key), n) => (n, okOr (n.pairOf key) .expectedActiveAffidavitKeyPairNotFound)
  | (none, n) => (n, .error .expectedToHoldActiveAffidavitKey)
  | (some _, n) => (n, .error .activeAfdtKeyNotYetFinalized)

namespace RotateAffidavitKey

/-- The next key is rotated in, when it is final and in the keystore. -/
def who (n : KeyNode W) : KeyNode W × Except (KeyRoutineError T) T.Public :=
  match n.readNext with
  | (some (.safe key), n) => (n, okOr (n.pairOf key) .expectedNextAffidavitKeyPairNotFound)
  | (_, n) => (n, .error .expectedToHoldFinalizedNextAffidavitKey)

/-- The block at which the session counts as over. -/
def endBlock (s : ChainState T) : Nat := saturatingAdd T.maxBlock s.sessionStartAt T.averageSessionLength

def canRun (n : KeyNode W) (signer : T.Public) : KeyNode W × Except (KeyRoutineError T) Unit :=
  let forSession := saturatingAdd T.maxSession n.chain.currentSession 2
  if n.chain.affidavitKeys.containsKey (forSession, T.intoAccount signer) then (n, .ok ())
  else if endBlock n.chain ≤ n.chain.blockNumber then
    ({ n with storage := n.storage.removeNext.removeActive }, .error .validationStopped)
  else (n, .error .affidavitTxAwaitingStatus)

def runService (n : KeyNode W) (signer : T.Public) : KeyNode W × Except (KeyRoutineError T) Unit :=
  match canRun n signer with
  | (n, .error e) => (n, .error e)
  | (n, .ok _) => ({ n with storage := n.storage.removeNext.setActive n.now (T.intoAccount signer) }, .ok ())

end RotateAffidavitKey

inductive NodeError (T : ChainConfig)
  | chain (e : ChainError T.RoleError)
  | timestampTooEarly
  | valueCannotBeZero

/-- What happens to a node: a call of its chain, the chain's clock and policy, and the routines that its worker
executes in any order. -/
inductive NodeStep (T : ChainConfig)
  | chain (call : ChainCall T)
  | setTimestamp (moment : Nat)
  | finalityAfter (moment : Nat)
  | finalityTicks (ticks : Nat)
  | initAffidavitKey
  | declareAffidavit
  | rotateAffidavitKey

namespace KeyNode

def declareAffidavit (n : KeyNode W) : KeyNode W × Except (KeyRoutineError T) Unit :=
  match DeclareAffidavit.who n with
  | (n, .error e) => (n, .error e)
  | (n, .ok signer) =>
    let ran := DeclareAffidavit.runService (W.storing n.policy n.now) n.chain signer
      { storage := n.storage, keystore := n.keystore }
    ({ n with storage := ran.worker.storage, keystore := ran.worker.keystore }, ran.result.mapError .routine)

def rotateAffidavitKey (n : KeyNode W) : KeyNode W × Except (KeyRoutineError T) Unit :=
  match RotateAffidavitKey.who n with
  | (n, .error e) => (n, .error e)
  | (n, .ok signer) => RotateAffidavitKey.runService n signer

def apply (n : KeyNode W) : NodeStep T → Except (NodeError T) (KeyNode W)
  | .chain call => do
    let chain ← (n.chain.apply call).mapError .chain
    pure { n with chain }
  | .setTimestamp moment => do
    ensure (n.now ≤ moment) .timestampTooEarly
    pure { n with now := moment }
  | .finalityAfter moment =>
    if h : 0 < moment then .ok { n with policy := { n.policy with finalityAfter := moment, after_pos := h } }
    else .error .valueCannotBeZero
  | .finalityTicks ticks =>
    if h : 0 < ticks then .ok { n with policy := { n.policy with finalityTicks := ticks, ticks_pos := h } }
    else .error .valueCannotBeZero
  | .initAffidavitKey => .ok (InitAffidavitKey.runService n).1
  | .declareAffidavit => .ok n.declareAffidavit.1
  | .rotateAffidavitKey => .ok n.rotateAffidavitKey.1

/-- A node that stores nothing yet, on a chain that starts. -/
def start (W : OffchainConfig T) (chain : ChainState T) (policy : FinalizedPolicy) (now : Nat)
    (keystore : W.Keystore) :
    KeyNode W :=
  { chain, policy, now, storage := .empty, keystore }

end KeyNode

section Reads

variable {V : Type} {policy : FinalizedPolicy} {now : Nat} {storage : KeyStorage V}

@[simp] theorem KeyStorage.nextKey_readNext : (storage.readNext policy now).2.nextKey = storage.nextKey := by
  cases h : storage.next <;> simp [KeyStorage.readNext, KeyStorage.nextKey, Finalized.get, h]

@[simp] theorem KeyStorage.activeKey_readNext : (storage.readNext policy now).2.activeKey = storage.activeKey := rfl

@[simp] theorem KeyStorage.nextKey_readActive : (storage.readActive policy now).2.nextKey = storage.nextKey := rfl

@[simp] theorem KeyStorage.activeKey_readActive :
    (storage.readActive policy now).2.activeKey = storage.activeKey := by
  cases h : storage.active <;> simp [KeyStorage.readActive, KeyStorage.activeKey, Finalized.get, h]

theorem KeyStorage.nextKey_of_safe {key : V} (h : (storage.readNext policy now).1 = some (.safe key)) :
    storage.nextKey = some key := by
  obtain ⟨seen, hseen, hsafe⟩ := Option.map_eq_some_iff.mp h
  rw [KeyStorage.nextKey, hseen, Finalized.value_of_safe hsafe]
  rfl

theorem KeyStorage.nextKey_of_read (h : (storage.readNext policy now).1 = none) : storage.nextKey = none := by
  rw [KeyStorage.nextKey, Option.map_eq_none_iff.mp h]
  rfl

end Reads

section Routines

variable {n t : KeyNode W} {key : T.AffidavitId} {signer : T.Public}

/-- The key that is registered for the session after next. -/
def ChainState.registersAhead (s : ChainState T) (key : T.AffidavitId) : Bool :=
  s.affidavitKeys.containsKey (saturatingAdd T.maxSession s.currentSession 2, key)

/-- A routine got as far as to have the key that it is executed with. -/
def KeyNode.rotates (n : KeyNode W) : Bool := (RotateAffidavitKey.who n).2.isOk

@[simp] theorem KeyNode.nextKey_readNext : n.readNext.2.nextKey = n.nextKey := KeyStorage.nextKey_readNext

@[simp] theorem KeyNode.activeKey_readActive : n.readActive.2.activeKey = n.activeKey :=
  KeyStorage.activeKey_readActive

theorem KeyNode.pairOf_eq_some (h : n.pairOf key = some signer) : T.intoAccount signer = key := by
  simpa using List.find?_some h

theorem RotateAffidavitKey.who_node (n : KeyNode W) : (who n).1 = n.readNext.2 := by
  unfold who
  split <;> rename_i h <;> rw [h]

theorem RotateAffidavitKey.who_eq_ok (h : (who n).2 = .ok signer) : n.nextKey = some (T.intoAccount signer) := by
  unfold who at h
  split at h
  · rename_i key m hread
    have hsafe : (n.storage.readNext n.policy n.now).1 = some (.safe key) := congrArg Prod.fst hread
    rw [KeyNode.pairOf_eq_some (okOr_eq_ok.mp h)]
    exact KeyStorage.nextKey_of_safe hsafe
  · cases h

theorem DeclareAffidavit.who_node (n : KeyNode W) : (who n).1 = n.readActive.2 := by
  unfold who
  split <;> rename_i h <;> rw [h]

theorem InitAffidavitKey.canRun_node (n : KeyNode W) : (canRun n).1 = n.readActive.2 := by
  unfold canRun
  split
  · rename_i h
    rw [h]
  · rename_i h
    rw [h]
    split <;> rfl
  · rename_i h
    rw [h]

theorem InitAffidavitKey.nextKey_runService (n : KeyNode W) : (runService n).1.nextKey = n.nextKey := by
  have hnode := canRun_node n
  unfold runService
  split <;> rename_i h <;> rw [h] at hnode <;> obtain rfl := hnode <;> rfl

theorem sendSignedTransaction_worker {W : OffchainConfig T} {w : OffchainWorker W} {call : Extrinsic T}
    {refused unsigned : RoutineError T} : (sendSignedTransaction W w call refused unsigned).worker = w := by
  unfold sendSignedTransaction
  split <;> rfl

theorem DeclareAffidavit.submit_worker {W : OffchainConfig T} {w : OffchainWorker W} :
    (submit W signer w key).worker = w := by
  unfold submit
  split
  · rfl
  · exact sendSignedTransaction_worker

section Declaration

variable {policy : FinalizedPolicy} {now : Nat} {s : ChainState T} {w : OffchainWorker (W.storing policy now)}

theorem DeclareAffidavit.nextKey_canRun (signer : T.Public) (h : w.storage.nextKey = some key) :
    (canRun (W.storing policy now) s signer w).1.storage.nextKey = some key := by
  have hread : (w.storage.readNext policy now).2.nextKey = some key := by rw [KeyStorage.nextKey_readNext, h]
  unfold canRun
  dsimp only
  split
  · rename_i hnone
    rw [KeyStorage.nextKey_of_read (Except.ok.inj hnone)] at h
    cases h
  · exact hread
  · exact hread
  · exact hread

theorem DeclareAffidavit.nextKey_runService (h : w.storage.nextKey = some key) :
    (runService (W.storing policy now) s signer w).worker.storage.nextKey = some key := by
  have hrun := nextKey_canRun (s := s) signer h
  unfold runService
  split
  · rename_i ran e hcan
    rwa [hcan] at hrun
  · rename_i ran u hcan
    rw [hcan] at hrun
    have hread : (ran.storage.readNext policy now).2.nextKey = some key := by rw [KeyStorage.nextKey_readNext, hrun]
    dsimp only
    split
    · rw [submit_worker]
      exact hread
    · exact hread
    · exact hread

end Declaration

theorem KeyNode.nextKey_declareAffidavit (h : n.nextKey = some key) : n.declareAffidavit.1.nextKey = some key := by
  have hnode := DeclareAffidavit.who_node n
  unfold declareAffidavit
  split
  · rename_i m e hwho
    rw [hwho] at hnode
    rw [hnode]
    exact h
  · rename_i m signer hwho
    have hm : m = n.readActive.2 := by rw [← hnode, hwho]
    have hread : m.nextKey = some key := by rw [hm]; exact h
    exact DeclareAffidavit.nextKey_runService hread

theorem KeyNode.rotateAffidavitKey_idle (h : n.rotates = false) : n.rotateAffidavitKey.1 = n.readNext.2 := by
  have hnode := RotateAffidavitKey.who_node n
  unfold rotateAffidavitKey
  split
  · rename_i m e hwho
    rwa [hwho] at hnode
  · rename_i m signer hwho
    rw [rotates, hwho] at h
    cases h

theorem RotateAffidavitKey.runService_registered (h : n.chain.registersAhead (T.intoAccount signer) = true) :
    (runService n signer).1.nextKey = none ∧ (runService n signer).1.activeKey = some (T.intoAccount signer) := by
  have hcan : canRun n signer = (n, .ok ()) := if_pos h
  rw [runService, hcan]
  exact ⟨rfl, rfl⟩

theorem RotateAffidavitKey.runService_over (h : n.chain.registersAhead (T.intoAccount signer) = false)
    (hover : endBlock n.chain ≤ n.chain.blockNumber) :
    (runService n signer).1.nextKey = none ∧ (runService n signer).1.activeKey = none := by
  have hcan : canRun n signer =
      ({ n with storage := n.storage.removeNext.removeActive }, .error .validationStopped) :=
    (if_neg (Bool.eq_false_iff.mp h)).trans (if_pos hover)
  rw [runService, hcan]
  exact ⟨rfl, rfl⟩

theorem RotateAffidavitKey.runService_waiting (h : n.chain.registersAhead (T.intoAccount signer) = false)
    (hwait : n.chain.blockNumber < endBlock n.chain) : (runService n signer).1 = n := by
  have hcan : canRun n signer = (n, .error .affidavitTxAwaitingStatus) :=
    (if_neg (Bool.eq_false_iff.mp h)).trans (if_neg (Nat.not_le.mpr hwait))
  rw [runService, hcan]

/-- What an execution does with the next key: it becomes the active one when it is registered ahead, is
dropped with the active one when the session is over, and stays otherwise. -/
theorem KeyNode.rotateAffidavitKey_cases (h : n.rotates = true) : ∃ key, n.nextKey = some key ∧
    (n.chain.registersAhead key = true ∧ n.rotateAffidavitKey.1.nextKey = none ∧
        n.rotateAffidavitKey.1.activeKey = some key ∨
      n.chain.registersAhead key = false ∧ RotateAffidavitKey.endBlock n.chain ≤ n.chain.blockNumber ∧
        n.rotateAffidavitKey.1.nextKey = none ∧ n.rotateAffidavitKey.1.activeKey = none ∨
      n.chain.registersAhead key = false ∧ n.chain.blockNumber < RotateAffidavitKey.endBlock n.chain ∧
        n.rotateAffidavitKey.1.nextKey = some key) := by
  obtain ⟨signer, hsigner⟩ := exists_eq_ok h
  have hnext := RotateAffidavitKey.who_eq_ok hsigner
  have hwho : RotateAffidavitKey.who n = (n.readNext.2, .ok signer) :=
    Prod.ext (RotateAffidavitKey.who_node n) hsigner
  have hran : n.rotateAffidavitKey = RotateAffidavitKey.runService n.readNext.2 signer := by
    rw [rotateAffidavitKey, hwho]
  refine ⟨_, hnext, ?_⟩
  rw [hran]
  by_cases hahead : n.chain.registersAhead (T.intoAccount signer) = true
  · exact .inl ⟨hahead, RotateAffidavitKey.runService_registered (n := n.readNext.2) hahead⟩
  · rw [Bool.not_eq_true] at hahead
    by_cases hover : RotateAffidavitKey.endBlock n.chain ≤ n.chain.blockNumber
    · exact .inr (.inl ⟨hahead, hover, RotateAffidavitKey.runService_over (n := n.readNext.2) hahead hover⟩)
    · have hwait := Nat.not_le.mp hover
      refine .inr (.inr ⟨hahead, hwait, ?_⟩)
      rw [RotateAffidavitKey.runService_waiting (n := n.readNext.2) hahead hwait, nextKey_readNext, hnext]

/-- What a step does: a call changes the chain, the clock and the policy change neither the chain nor the
stored keys, and a routine leaves the node as it ran. -/
inductive KeyMove (n t : KeyNode W) : NodeStep T → Prop
  | called {call : ChainCall T} (h : n.chain.apply call = .ok t.chain) (hs : t.storage = n.storage) :
      KeyMove n t (.chain call)
  | set {step : NodeStep T} (h : t.chain = n.chain) (hs : t.storage = n.storage)
      (hr : step ≠ .rotateAffidavitKey) : KeyMove n t step
  | initialised (h : (InitAffidavitKey.runService n).1 = t) : KeyMove n t .initAffidavitKey
  | declared (h : n.declareAffidavit.1 = t) : KeyMove n t .declareAffidavit
  | rotated (h : n.rotateAffidavitKey.1 = t) : KeyMove n t .rotateAffidavitKey

theorem KeyNode.apply_keyMove {step : NodeStep T} (h : n.apply step = .ok t) : KeyMove n t step := by
  cases step with
  | chain call =>
    obtain ⟨chain, hcall, h⟩ := bind_eq_ok.mp h
    obtain rfl := pure_eq_ok.mp h
    exact .called (mapError_eq_ok.mp hcall) rfl
  | setTimestamp moment =>
    obtain ⟨u, -, h⟩ := bind_eq_ok.mp h
    obtain rfl := pure_eq_ok.mp h
    exact .set rfl rfl (by simp)
  | finalityAfter moment =>
    by_cases hpos : 0 < moment
    · rw [KeyNode.apply, dif_pos hpos] at h
      cases h
      exact .set rfl rfl (by simp)
    · rw [KeyNode.apply, dif_neg hpos] at h
      cases h
  | finalityTicks ticks =>
    by_cases hpos : 0 < ticks
    · rw [KeyNode.apply, dif_pos hpos] at h
      cases h
      exact .set rfl rfl (by simp)
    · rw [KeyNode.apply, dif_neg hpos] at h
      cases h
  | initAffidavitKey => exact .initialised (Except.ok.inj h)
  | declareAffidavit => exact .declared (Except.ok.inj h)
  | rotateAffidavitKey => exact .rotated (Except.ok.inj h)

theorem KeyNode.nextKey_apply {step : NodeStep T} (h : n.apply step = .ok t)
    (hidle : step = .rotateAffidavitKey → n.rotates = false) (hkey : n.nextKey = some key) :
    t.nextKey = some key := by
  cases apply_keyMove h with
  | called _ hs => rwa [nextKey, hs]
  | set _ hs _ => rwa [nextKey, hs]
  | initialised ht => rw [← ht, InitAffidavitKey.nextKey_runService, hkey]
  | declared ht => exact ht ▸ nextKey_declareAffidavit hkey
  | rotated ht => rw [← ht, rotateAffidavitKey_idle (hidle rfl), nextKey_readNext, hkey]

theorem InitAffidavitKey.chain_runService (n : KeyNode W) : (runService n).1.chain = n.chain := by
  have hnode := canRun_node n
  unfold runService
  split <;> rename_i h <;> rw [h] at hnode <;> obtain rfl := hnode <;> rfl

theorem KeyNode.chain_declareAffidavit (n : KeyNode W) : n.declareAffidavit.1.chain = n.chain := by
  have hnode := DeclareAffidavit.who_node n
  unfold declareAffidavit
  split <;> rename_i h <;> rw [h] at hnode <;> obtain rfl := hnode <;> rfl

theorem RotateAffidavitKey.chain_runService (n : KeyNode W) (signer : T.Public) :
    (runService n signer).1.chain = n.chain := by
  have hcan : (canRun n signer).1.chain = n.chain := by
    unfold canRun
    dsimp only
    split
    · rfl
    · split <;> rfl
  unfold runService
  split <;> rename_i h <;> rw [h] at hcan <;> exact hcan

theorem KeyNode.chain_rotateAffidavitKey (n : KeyNode W) : n.rotateAffidavitKey.1.chain = n.chain := by
  have hnode := RotateAffidavitKey.who_node n
  unfold rotateAffidavitKey
  split <;> rename_i h <;> rw [h] at hnode <;> obtain rfl := hnode
  · rfl
  · exact RotateAffidavitKey.chain_runService _ _

theorem KeyNode.apply_chain {step : NodeStep T} (h : n.apply step = .ok t) :
    t.chain = n.chain ∨ ∃ call, step = .chain call ∧ n.chain.apply call = .ok t.chain := by
  cases apply_keyMove h with
  | called hcall _ => exact .inr ⟨_, rfl, hcall⟩
  | set hc _ _ => exact .inl hc
  | initialised ht => exact .inl (ht ▸ InitAffidavitKey.chain_runService n)
  | declared ht => exact .inl (ht ▸ chain_declareAffidavit n)
  | rotated ht => exact .inl (ht ▸ chain_rotateAffidavitKey n)

end Routines

end FrameSuite
