import FrameSuite.ChainRuntime
import FrameSuite.ChainSteps
import FrameSuite.FinalizedStorage

/-! The routines of the offchain worker that declare affidavits and run elections. Both send their call as
a signed transaction, whose origin the calls refuse; sent without a signature it would have been accepted. -/

namespace FrameSuite

/-- The node of the worker: its local storage, read and written under the next affidavit key, its keystore,
and its pool of transactions. -/
structure OffchainConfig (T : ChainConfig) where
  Storage : Type
  Keystore : Type
  get : Storage → Except Unit (Option (Confidence T.AffidavitId)) × Storage
  insert : Storage → T.AffidavitId → Except Unit Unit × Storage
  generatePair : Keystore → T.Public × Keystore
  sign : Keystore → AffidavitPayload T.Public T.AffidavitId → Option T.Signature
  /-- The keys of the keystore, and those it can sign a transaction with. -/
  all : Keystore → List T.Public
  signsTransaction : Keystore → T.Public → Extrinsic T → Bool
  accountOf : T.Public → T.AccountId
  pool : Origin T.AccountId → Extrinsic T → Bool

inductive RoutineError (T : ChainConfig)
  | chain (e : ChainError T.RoleError)
  | setNextAffidavitKeyFailed
  | nextAfdtKeyNotYetFinalized
  | ocwStorageDecisionHalt
  | expectedToHoldFinalizedNextAffidavitKey
  | cannotSignAffidavitTxPayload
  | failedToDeclareAffidavit
  | cannotSubmitAffidavitTx
  | cannotSignElectionTxPayload
  | extrinsicFailedToElectAuthors
  | cannotSubmitElectionTx

variable {T : ChainConfig} (W : OffchainConfig T)

structure OffchainWorker where
  storage : W.Storage
  keystore : W.Keystore

structure Transaction (T : ChainConfig) where
  origin : Origin T.AccountId
  call : Extrinsic T

/-- What a routine leaves: the worker, the transaction it submitted, and its result. -/
structure RoutineRun where
  worker : OffchainWorker W
  submitted : Option (Transaction T)
  result : Except (RoutineError T) Unit

/-- The account of the key signs the transaction. -/
def createSignedTransaction (keystore : W.Keystore) (call : Extrinsic T) (signer : T.Public) :
    Option (Transaction T) :=
  if W.signsTransaction keystore signer call then some { origin := .signed (W.accountOf signer), call } else none

/-- With any of the accounts of the keystore: the first one that signs. -/
def sendSignedTransaction (w : OffchainWorker W) (call : Extrinsic T) (refused unsigned : RoutineError T) :
    RoutineRun W :=
  match (W.all w.keystore).findSome? (createSignedTransaction W w.keystore call) with
  | none => { worker := w, submitted := none, result := .error unsigned }
  | some tx =>
    { worker := w
      submitted := some tx
      result := if W.pool tx.origin tx.call then .ok () else .error refused }

namespace DeclareAffidavit

/-- No next key yet: one is generated and stored. -/
def initNextKey (w : OffchainWorker W) : OffchainWorker W × Except (RoutineError T) Unit :=
  let generated := W.generatePair w.keystore
  let inserted := W.insert w.storage (T.intoAccount generated.1)
  match inserted.1 with
  | .error _ => ({ storage := inserted.2, keystore := generated.2 }, .error .setNextAffidavitKeyFailed)
  | .ok _ => ({ storage := inserted.2, keystore := generated.2 }, .error .nextAfdtKeyNotYetFinalized)

def canRun (s : ChainState T) (signer : T.Public) (w : OffchainWorker W) :
    OffchainWorker W × Except (RoutineError T) Unit :=
  let read := W.get w.storage
  let w := { w with storage := read.2 }
  match read.1 with
  | .ok none => initNextKey W w
  | .ok (some (.safe _)) => (w, (canSubmitAffidavit s (T.intoAccount signer)).mapError .chain)
  | .ok (some _) => (w, .error .nextAfdtKeyNotYetFinalized)
  | .error _ => (w, .error .ocwStorageDecisionHalt)

def submit (signer : T.Public) (w : OffchainWorker W) (next : T.AffidavitId) : RoutineRun W :=
  match W.sign w.keystore (.declare signer next) with
  | none => { worker := w, submitted := none, result := .error .cannotSignAffidavitTxPayload }
  | some signature =>
    sendSignedTransaction W w (.declare signer next signature) .failedToDeclareAffidavit .cannotSubmitAffidavitTx

def runService (s : ChainState T) (signer : T.Public) (w : OffchainWorker W) : RoutineRun W :=
  match canRun W s signer w with
  | (w, .error e) => { worker := w, submitted := none, result := .error e }
  | (w, .ok _) =>
    let read := W.get w.storage
    let w := { w with storage := read.2 }
    match read.1 with
    | .ok (some (.safe next)) => submit W signer w next
    | .ok _ => { worker := w, submitted := none, result := .error .expectedToHoldFinalizedNextAffidavitKey }
    | .error _ => { worker := w, submitted := none, result := .error .ocwStorageDecisionHalt }

end DeclareAffidavit

namespace TryElection

def canRun (s : ChainState T) : Except (RoutineError T) Unit := (canProcessElection s).mapError .chain

/-- Whether the author ran the election already. -/
def hasRun (s : ChainState T) (author : T.AccountId) : Bool :=
  match s.electsPreparedBy.get s.nextSession with
  | some (runner, _) => author = runner
  | none => false

def submit (signer : T.Public) (w : OffchainWorker W) : RoutineRun W :=
  match W.sign w.keystore (.elect signer) with
  | none => { worker := w, submitted := none, result := .error .cannotSignElectionTxPayload }
  | some signature =>
    sendSignedTransaction W w (.elect signer signature) .extrinsicFailedToElectAuthors .cannotSubmitElectionTx

def runService (s : ChainState T) (signer : T.Public) (w : OffchainWorker W) : RoutineRun W :=
  match canRun s with
  | .error _ => { worker := w, submitted := none, result := .ok () }
  | .ok _ =>
    match s.affidavitKeys.get (s.nextAffidavitSession, T.intoAccount signer) with
    | none => { worker := w, submitted := none, result := .ok () }
    | some author =>
      if hasRun s author then { worker := w, submitted := none, result := .ok () }
      else submit W signer w

end TryElection

def Transaction.dispatch (s : ChainState T) (tx : Transaction T) : Except (ChainError T.RoleError) (ChainState T) :=
  FrameSuite.dispatch s tx.origin tx.call

variable {W} {s : ChainState T} {signer : T.Public} {w : OffchainWorker W} {tx : Transaction T}

theorem sendSignedTransaction_submitted {call : Extrinsic T} {refused unsigned : RoutineError T}
    (h : (sendSignedTransaction W w call refused unsigned).submitted = some tx) :
    tx.call = call ∧ ∃ account, tx.origin = .signed account := by
  unfold sendSignedTransaction at h
  split at h
  · cases h
  · rename_i sent hsent
    obtain rfl := Option.some.inj h
    obtain ⟨key, -, hkey⟩ := List.exists_of_findSome?_eq_some hsent
    unfold createSignedTransaction at hkey
    split at hkey
    · obtain rfl := Option.some.inj hkey
      exact ⟨rfl, _, rfl⟩
    · cases hkey

theorem DeclareAffidavit.runService_submitted (h : (runService W s signer w).submitted = some tx) :
    canSubmitAffidavit s (T.intoAccount signer) = .ok () ∧ (∃ account, tx.origin = .signed account) ∧
      ∃ next signature keystore, tx.call = .declare signer next signature ∧
        W.sign keystore (.declare signer next) = some signature := by
  unfold runService at h
  split at h
  · cases h
  · rename_i worker u hrun
    have hcan : canSubmitAffidavit s (T.intoAccount signer) = .ok () := by
      unfold canRun at hrun
      dsimp only at hrun
      split at hrun
      · unfold initNextKey at hrun
        dsimp only at hrun
        split at hrun <;> cases hrun
      · exact mapError_eq_ok.mp (Prod.mk.inj hrun).2
      · cases hrun
      · cases hrun
    refine ⟨hcan, ?_⟩
    dsimp only at h
    split at h
    · rename_i next hnext
      unfold submit at h
      split at h
      · cases h
      · rename_i signature hsign
        obtain ⟨hcall, horigin⟩ := sendSignedTransaction_submitted h
        exact ⟨horigin, next, signature, _, hcall, hsign⟩
    · cases h
    · cases h

theorem TryElection.runService_submitted (h : (runService W s signer w).submitted = some tx) :
    canProcessElection s = .ok () ∧ (∃ account, tx.origin = .signed account) ∧
      (∃ author, s.affidavitKeys.get (s.nextAffidavitSession, T.intoAccount signer) = some author) ∧
      ∃ signature keystore, tx.call = .elect signer signature ∧ W.sign keystore (.elect signer) = some signature := by
  unfold runService at h
  split at h
  · cases h
  · rename_i u hrun
    split at h
    · cases h
    · rename_i author hauthor
      split at h
      · cases h
      · unfold submit at h
        split at h
        · cases h
        · rename_i signature hsign
          obtain ⟨hcall, horigin⟩ := sendSignedTransaction_submitted h
          exact ⟨mapError_eq_ok.mp hrun, horigin, ⟨author, hauthor⟩, signature, _, hcall, hsign⟩

theorem declare_signed_refused {account : T.AccountId} {rotate : T.AffidavitId} {signature : T.Signature} :
    dispatch s (.signed account) (.declare signer rotate signature) = .error .badOrigin := rfl

theorem elect_signed_refused {account : T.AccountId} {signature : T.Signature} :
    dispatch s (.signed account) (.elect signer signature) = .error .badOrigin := rfl

/-- Whatever either routine submits is refused by the runtime. -/
theorem submission_refused
    (h : (DeclareAffidavit.runService W s signer w).submitted = some tx ∨
      (TryElection.runService W s signer w).submitted = some tx) :
    ¬∃ t, tx.dispatch s = .ok t := by
  rintro ⟨t, ht⟩
  obtain ⟨origin, call⟩ := tx
  rcases h with h | h
  · obtain ⟨-, ⟨account, rfl⟩, next, signature, -, rfl, -⟩ := DeclareAffidavit.runService_submitted h
    cases declare_signed_refused.symm.trans ht
  · obtain ⟨-, ⟨account, rfl⟩, -, signature, -, rfl, -⟩ := TryElection.runService_submitted h
    cases elect_signed_refused.symm.trans ht

section Unsigned

theorem canProcessElection_eq_ok {u : Unit} (h : canProcessElection s = .ok u) :
    ∃ window, computeAffidavitWindow s = .ok window ∧ s.blockNumber ≤ window.finish := by
  obtain ⟨window, hw, h⟩ := bind_eq_ok.mp h
  obtain ⟨_, -, h⟩ := bind_eq_ok.mp h
  obtain ⟨_, -, h⟩ := bind_eq_ok.mp h
  obtain ⟨election, -, h⟩ := bind_eq_ok.mp h
  obtain ⟨_, -, h⟩ := bind_eq_ok.mp h
  exact ⟨window, hw, ensure_eq_ok.mp h⟩

/-- Without a signature of the transaction the declaration passes, if its author's weight can be told. -/
theorem unsigned_declaration_accepted (h : (DeclareAffidavit.runService W s signer w).submitted = some tx)
    (hsign : ∀ keystore payload signature, W.sign keystore payload = some signature →
      T.verify payload signature = true)
    (hweight : ∀ author, s.affidavitKeys.get (s.nextSession, T.intoAccount signer) = some author →
      (T.weightOf s.roles author).isOk = true) :
    ∃ t, dispatch s .none tx.call = .ok t := by
  obtain ⟨hcan, -, next, signature, keystore, hcall, hs⟩ := DeclareAffidavit.runService_submitted h
  obtain ⟨-, author, window, hkey, -, hw, -, hfinish⟩ := canSubmitAffidavit_eq_ok.mp hcan
  obtain ⟨affidavit, hv⟩ := exists_eq_ok (hweight author hkey)
  have hkeys : s.affidavitKeys.containsKey (s.nextSession, T.intoAccount signer) = true :=
    StorageMap.containsKey_iff.mpr ⟨author, hkey⟩
  have hvalid : validateUnsigned s (.declare signer next signature) = .ok () := by
    simp only [validateUnsigned, hw]
    refine bind_eq_ok.mpr ⟨(), ensure_eq_ok.mpr (hsign _ _ _ hs), ?_⟩
    exact bind_eq_ok.mpr ⟨(), ensure_eq_ok.mpr hfinish, ensure_eq_ok.mpr hkeys⟩
  have howner : affidavitAuthor s s.nextSession (T.intoAccount signer) = .ok author := okOr_eq_ok.mpr hkey
  have hgen : genAffidavit s (T.intoAccount signer) = .ok affidavit :=
    bind_eq_ok.mpr ⟨author, howner, liftRole_eq_ok.mpr hv⟩
  obtain ⟨t, ht⟩ : ∃ t, processAffidavit s (T.intoAccount signer) = .ok t :=
    exists_bind_ok hcan (exists_bind_ok hgen (exists_bind_ok howner ⟨_, rfl⟩))
  have hdeclare : ∃ u, declare s .none signer next = .ok u :=
    exists_bind_ok rfl (exists_bind_ok howner (exists_bind_ok ht ⟨_, rfl⟩))
  rw [hcall]
  exact exists_bind_ok (mapError_eq_ok.mpr hvalid) hdeclare

/-- Without a signature of the transaction the election passes, if the block is its author's. -/
theorem unsigned_election_accepted {author : T.AccountId}
    (h : (TryElection.runService W s signer w).submitted = some tx)
    (hsign : ∀ keystore payload signature, W.sign keystore payload = some signature →
      T.verify payload signature = true)
    (hauthor : s.affidavitKeys.get (s.nextAffidavitSession, T.intoAccount signer) = some author)
    (hblock : s.blockAuthor = some author) (hprepare : (T.prepare s.roles (prepareCandidates s)).isOk = true) :
    ∃ t, dispatch s .none tx.call = .ok t := by
  obtain ⟨hcan, -, -, signature, keystore, hcall, hs⟩ := TryElection.runService_submitted h
  obtain ⟨window, hw, hfinish⟩ := canProcessElection_eq_ok hcan
  obtain ⟨roles, hr⟩ := exists_eq_ok hprepare
  have hkeys : s.affidavitKeys.containsKey (s.nextAffidavitSession, T.intoAccount signer) = true :=
    StorageMap.containsKey_iff.mpr ⟨author, hauthor⟩
  have hvalid : validateUnsigned s (.elect signer signature) = .ok () := by
    simp only [validateUnsigned, hw, ← nextAffidavitSession_eq]
    refine bind_eq_ok.mpr ⟨(), ensure_eq_ok.mpr (hsign _ _ _ hs), ?_⟩
    exact bind_eq_ok.mpr ⟨(), ensure_eq_ok.mpr hfinish, ensure_eq_ok.mpr hkeys⟩
  have hprepared : prepareElection s = .ok { s with roles } :=
    bind_eq_ok.mpr ⟨(), hcan, bind_eq_ok.mpr ⟨roles, liftRole_eq_ok.mpr hr, rfl⟩⟩
  have helect : ∃ u, elect s .none signer = .ok u := by
    refine exists_bind_ok rfl (exists_bind_ok (okOr_eq_ok.mpr hauthor) ?_)
    refine exists_bind_ok (okOr_eq_ok.mpr hblock) (exists_bind_ok (a := ()) (ensure_eq_ok.mpr rfl) ?_)
    exact exists_bind_ok hprepared ⟨_, rfl⟩
  rw [hcall]
  exact exists_bind_ok (mapError_eq_ok.mpr hvalid) helect

end Unsigned

/-- A node with one keystore key whose next affidavit key is final. -/
abbrev offchainConfig : OffchainConfig chainConfig :=
  { Storage := Confidence Nat
    Keystore := Nat
    get := fun storage => (.ok (some storage), storage)
    insert := fun _ key => (.ok (), .notSafe key)
    generatePair := fun keystore => (keystore + 1, keystore + 1)
    sign := fun _ payload => some payload.signer
    all := fun keystore => [keystore]
    signsTransaction := fun keystore signer _ => keystore = signer
    accountOf := id
    pool := fun _ _ => true }

def finalWorker (active next : Nat) : OffchainWorker offchainConfig :=
  { storage := .safe next, keystore := active }

def declaring : ChainState chainConfig := chainRun readyAuthors [9] (validates 1 11 :: blocksBy 1 2)

def electionDue : ChainState chainConfig := chainRun readyAuthors [9] electing

/-- An author whose affidavit is due, and one whose election is. -/
theorem submission_refused_when_due :
    (∃ tx, (DeclareAffidavit.runService offchainConfig declaring (11 : Nat) (finalWorker 11 12)).submitted = some tx ∧
        ¬∃ t, tx.dispatch declaring = .ok t) ∧
      ∃ tx, (TryElection.runService offchainConfig electionDue (12 : Nat) (finalWorker 12 13)).submitted = some tx ∧
        ¬∃ t, tx.dispatch electionDue = .ok t := by
  have hdeclares :
      (DeclareAffidavit.runService offchainConfig declaring (11 : Nat)
        (finalWorker 11 12)).submitted.isSome = true := by
    decide +kernel
  have helects :
      (TryElection.runService offchainConfig electionDue (12 : Nat) (finalWorker 12 13)).submitted.isSome = true := by
    decide +kernel
  obtain ⟨tx, htx⟩ := Option.isSome_iff_exists.mp hdeclares
  obtain ⟨tx', htx'⟩ := Option.isSome_iff_exists.mp helects
  exact ⟨⟨tx, htx, submission_refused (.inl htx)⟩, tx', htx', submission_refused (.inr htx')⟩

/-- The declaration is refused although everything it needs is in place. -/
theorem due_declaration_refused :
    ((DeclareAffidavit.runService offchainConfig declaring (11 : Nat) (finalWorker 11 12)).submitted.map fun tx =>
        ((tx.dispatch declaring).isOk, (dispatch declaring .none tx.call).isOk)) = some (false, true) := by
  decide +kernel

end FrameSuite
