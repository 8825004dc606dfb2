import FrameSuite.ChainRuntime
import FrameSuite.ChainSteps

/-! Affidavit keys are bound by their holders exactly in the runs in which signed validations are of keys
that the signer holds, and declarations rotate in keys that nobody else registered. -/

namespace FrameSuite

variable {T : ChainConfig} {s t : ChainState T} {call : ChainCall T}

/-- The holder of a key binds it to an author: it signs a validation that the author submits, or it is
rotated in by a declaration that the author's current key signs. -/
inductive HolderBinds (s : ChainState T) : ChainCall T → Nat × T.AffidavitId → T.AccountId → Prop
  | validated {author : T.AccountId} {signer : T.Public} {signature : T.Signature}
      (h : T.verify (.validate signer) signature = true) :
      HolderBinds s (.dispatch (.signed author) (.validate signer signature))
        (s.nextSession, T.intoAccount signer) author
  | rotated {author : T.AccountId} {signer : T.Public} {rotate : T.AffidavitId} {signature : T.Signature}
      (h : T.verify (.declare signer rotate) signature = true)
      (ho : s.affidavitKeys.get (s.nextSession, T.intoAccount signer) = some author) :
      HolderBinds s (.dispatch .none (.declare signer rotate signature)) (s.nextAffidavitSession, rotate) author

/-- Every key that the call sets was free, and its holder binds it to the author. -/
def ChainCall.bindsKeys (s : ChainState T) (call : ChainCall T) : Prop :=
  ∀ t, s.apply call = .ok t → ∀ key author, t.affidavitKeys.get key = some author →
    s.affidavitKeys.get key = some author ∨ s.affidavitKeys.get key = none ∧ HolderBinds s call key author

/-- A validation is of the author's own key or of a free key that signed it, and a declaration rotates in a
free key or one of its author's own. -/
def ChainCall.ofHeldKey (s : ChainState T) : ChainCall T → Prop
  | .dispatch (.signed author) (.validate signer signature) =>
    s.affidavitKeys.get (s.nextSession, T.intoAccount signer) = some author ∨
      s.affidavitKeys.get (s.nextSession, T.intoAccount signer) = none ∧
        T.verify (.validate signer) signature = true
  | .dispatch .none (.declare signer rotate _) =>
    ∀ other, s.affidavitKeys.get (s.nextAffidavitSession, rotate) = some other →
      s.affidavitKeys.get (s.nextSession, T.intoAccount signer) = some other
  | _ => True

/-- What a call does to the keys. -/
inductive KeyStep (s t : ChainState T) : ChainCall T → Prop
  | validated {author : T.AccountId} {signer : T.Public} {signature : T.Signature}
      (h : t.affidavitKeys = s.affidavitKeys.insert (s.nextSession, T.intoAccount signer) author) :
      KeyStep s t (.dispatch (.signed author) (.validate signer signature))
  | declared {author : T.AccountId} {signer : T.Public} {rotate : T.AffidavitId} {signature : T.Signature}
      (hv : T.verify (.declare signer rotate) signature = true)
      (ho : s.affidavitKeys.get (s.nextSession, T.intoAccount signer) = some author)
      (h : t.affidavitKeys = s.affidavitKeys.insert (s.nextAffidavitSession, rotate) author) :
      KeyStep s t (.dispatch .none (.declare signer rotate signature))
  | chilled {author : T.AccountId} {session : Nat} {affidavitPub : T.AffidavitId}
      (ho : s.affidavitKeys.get (session, affidavitPub) = some author)
      (h : t.affidavitKeys = s.affidavitKeys.remove (session, affidavitPub)) :
      KeyStep s t (.dispatch (.signed author) (.chill affidavitPub))
  | kept {call : ChainCall T} (hq : call.ofHeldKey s) (h : t.affidavitKeys = s.affidavitKeys) : KeyStep s t call

theorem dispatch_keyStep {origin : Origin T.AccountId} {extrinsic : Extrinsic T}
    (h : dispatch s origin extrinsic = .ok t) : KeyStep s t (.dispatch origin extrinsic) := by
  obtain ⟨hx, hv⟩ := dispatch_eq_ok h
  cases extrinsic with
  | validate signer signature =>
    obtain ⟨author, rfl, -, -, rfl⟩ := validate_eq_ok hx
    exact .validated rfl
  | declare signer rotate signature =>
    obtain ⟨rfl, -, author, weights, ho, rfl⟩ := declare_eq_ok hx
    exact .declared (validateUnsigned_declare (hv rfl)) ho rfl
  | elect signer signature =>
    obtain ⟨rfl, author, roles, -, -, -, -, rfl⟩ := elect_eq_ok hx
    exact .kept trivial rfl
  | chill affidavitPub =>
    obtain ⟨author, session, rfl, -, ho, rfl⟩ := chill_eq_ok hx
    exact .chilled ho rfl

theorem apply_keyStep (h : s.apply call = .ok t) : KeyStep s t call := by
  cases call with
  | dispatch origin extrinsic => exact dispatch_keyStep h
  | forceGenesisConfig field => exact .kept trivial (forceGenesisConfig_eq_ok h).keys
  | rotateSession => exact .kept trivial (rotateSession_eq_ok h).keys
  | enterBlock author =>
    obtain ⟨roles, points, -, rfl⟩ := chainEnterBlock_eq_ok h
    exact .kept trivial rfl
  | callRoles call =>
    obtain ⟨roles, -, rfl⟩ := callRoles_eq_ok h
    exact .kept trivial rfl

theorem KeyStep.bindsKeys (hk : KeyStep s t call) (hq : call.ofHeldKey s) {key : Nat × T.AffidavitId}
    {author : T.AccountId} (h : t.affidavitKeys.get key = some author) :
    s.affidavitKeys.get key = some author ∨ s.affidavitKeys.get key = none ∧ HolderBinds s call key author := by
  cases hk with
  | validated he =>
    rw [he, StorageMap.get_insert] at h
    split at h
    · rename_i hkey
      cases h
      subst hkey
      exact hq.imp id fun hq => ⟨hq.1, .validated hq.2⟩
    · exact .inl h
  | declared hv ho he =>
    rw [he, StorageMap.get_insert] at h
    split at h
    · rename_i hkey
      cases h
      cases hold : s.affidavitKeys.get key with
      | none => exact .inr ⟨rfl, hkey ▸ .rotated hv ho⟩
      | some other =>
        have howner := hq other (hkey ▸ hold)
        rw [ho] at howner
        exact .inl howner.symm
    · exact .inl h
  | chilled ho he =>
    rw [he, StorageMap.get_remove] at h
    split at h
    · cases h
    · exact .inl h
  | kept _ he => exact .inl (he ▸ h)

theorem bindsKeys_iff (h : s.apply call = .ok t) : call.bindsKeys s ↔ call.ofHeldKey s := by
  constructor
  · intro hb
    have hkeys := hb t h
    cases apply_keyStep h with
    | validated he =>
      refine (hkeys _ _ ?_).imp id fun hset => ⟨hset.1, ?_⟩
      · rw [he, StorageMap.get_insert, if_pos rfl]
      · cases hset.2 with
        | validated hv => exact hv
    | declared hv ho he =>
      intro other hother
      rcases hkeys _ _ (by rw [he, StorageMap.get_insert, if_pos rfl]) with hsame | ⟨hnone, -⟩
      · rw [ho, ← hsame, hother]
      · rw [hnone] at hother
        cases hother
    | chilled ho he => trivial
    | kept hq _ => exact hq
  · intro hq u hu key author hkey
    exact (apply_keyStep hu).bindsKeys hq hkey

/-- Along a run the keys are bound by their holders alone, and never taken over by another author, if and
only if every call is of a key that its author holds. -/
theorem affidavit_keys_held_iff {roles : T.Roles} {validators : List T.AccountId} {g : ChainGenesis}
    {calls : List (ChainCall T)} :
    RunMeets ChainState.apply (fun s call => call.bindsKeys s) (ChainState.genesis roles validators g) calls ↔
      RunMeets ChainState.apply (fun s call => call.ofHeldKey s) (ChainState.genesis roles validators g) calls :=
  RunMeets.congr fun _ _ _ h => bindsKeys_iff h

theorem key_stays {key : Nat × T.AffidavitId} {author : T.AccountId} {calls : List (ChainCall T)}
    (hq : RunMeets ChainState.apply (fun s call => call.ofHeldKey s) s calls)
    (hc : .dispatch (.signed author) (.chill key.2) ∉ calls) (h : s.affidavitKeys.get key = some author) :
    (run ChainState.apply s calls).affidavitKeys.get key = some author := by
  have hne : RunMeets ChainState.apply (fun _ call => call ≠ .dispatch (.signed author) (.chill key.2)) s calls :=
    RunMeets.of_forall (fun call hcall => ne_of_mem_of_not_mem hcall hc) s
  refine run_invariant_of_meets (P := fun s => s.affidavitKeys.get key = some author)
    (fun s call t hkey hcall hok => ?_) h (hq.and hne)
  obtain ⟨hq, hne⟩ := hcall
  cases apply_keyStep hok with
  | validated he =>
    rw [he, StorageMap.get_insert]
    split
    · rename_i hsame
      subst hsame
      rcases hq with hown | ⟨hnone, -⟩
      · rw [← hkey, hown]
      · rw [hnone] at hkey
        cases hkey
    · exact hkey
  | declared hv ho he =>
    rw [he, StorageMap.get_insert]
    split
    · rename_i hsame
      subst hsame
      rw [← ho, hq _ hkey]
    · exact hkey
  | chilled ho he =>
    rw [he, StorageMap.get_remove]
    split
    · rename_i hsame
      subst hsame
      obtain rfl := Option.some.inj (hkey.symm.trans ho)
      exact absurd rfl hne
    · exact hkey
  | kept _ he => exact he ▸ hkey

/-- An author that signs a validation of somebody else's key takes the key over. -/
theorem validate_takes_foreign_key :
    ¬RunMeets ChainState.apply (fun s call => ChainCall.bindsKeys s call)
      (ChainState.genesis (T := chainConfig) (authorRun readyAuthors) [9] plainChain)
      [validates 1 11, signs 2 (.validate (T := chainConfig) 11 0)] := by
  intro h
  rcases h.2.1 _ rfl _ rfl ((1 : Nat), (11 : Nat)) (2 : Nat) (by decide +kernel) with hsame | ⟨hnone, -⟩
  · exact absurd hsame (by decide +kernel)
  · exact absurd hnone (by decide +kernel)

end FrameSuite
