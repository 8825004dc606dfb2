import FrameSuite.AuthorSteps
import FrameSuite.FunderRegistry

/-! The storage of the authors pallet as a registry of funders. Every call of the pallet is a step of the
registry, which finds the targets of the backers in the storage of the commitment pallet. -/

namespace FrameSuite

variable {T : AuthorConfig}

def AuthorState.registry (s : AuthorState T) : Registry T.AccountId where
  digestOf a := (s.authorsMap.get a).map AuthorInfo.digest
  authorOf d := s.authorsDigest.get d
  target b := (s.commitment.commitMap.get (b, T.authorFunding)).map CommitInfo.digest
  known d := s.commitment.digestMap.containsKey (T.authorFunding, d)
  entries i := (s.commitment.indexMap.get (T.authorFunding, i)).map fun info => info.entries.list.map EntryInfo.digest
  slots p := (s.commitment.poolMap.get (T.authorFunding, p)).map fun pool => pool.slots.map SlotInfo.digest
  funders k := s.authorFunders.get k

section Frames

variable {s s' : AuthorState T} {who : T.AccountId}

theorem entries_eq_of_same {c c' : State T.toConfig} (h : SameTargets c c') (i : T.AccountId) :
    ((c'.indexMap.get (T.authorFunding, i)).map fun info => info.entries.list.map EntryInfo.digest) =
      (c.indexMap.get (T.authorFunding, i)).map fun info => info.entries.list.map EntryInfo.digest := by
  have hmap := congrArg (Option.map fun e : Entries T.toConfig => e.list.map EntryInfo.digest)
    (h.entries (T.authorFunding, i))
  simpa [Option.map_map, Function.comp_def] using hmap

theorem slots_eq_map_shapes (slots : List (SlotInfo T.toConfig)) :
    slots.map SlotInfo.digest = (slotShapes slots).map Prod.fst := by
  simp [slotShapes, Function.comp_def]

theorem slots_eq_of_same {c c' : State T.toConfig} (h : SameTargets c c') (p : T.AccountId) :
    ((c'.poolMap.get (T.authorFunding, p)).map fun pool => pool.slots.map SlotInfo.digest) =
      (c.poolMap.get (T.authorFunding, p)).map fun pool => pool.slots.map SlotInfo.digest := by
  have hmap := congrArg (Option.map fun l : List (T.AccountId × Nat × T.Position) => l.map Prod.fst)
    (h.slots (T.authorFunding, p))
  simpa [Option.map_map, Function.comp_def, ← slots_eq_map_shapes] using hmap

theorem registry_of_targets {c : State T.toConfig} (h : SameTargets s.commitment c) :
    ({ s with commitment := c } : AuthorState T).registry = { s.registry with
      target := fun b => (c.commitMap.get (b, T.authorFunding)).map CommitInfo.digest } := by
  unfold AuthorState.registry
  dsimp only
  congr 1
  · exact funext fun d => h.digests (T.authorFunding, d)
  · exact funext (entries_eq_of_same h)
  · exact funext (slots_eq_of_same h)

theorem registry_of_moved {c : State T.toConfig} (h : FundsMoved s.commitment c) :
    ({ s with commitment := c } : AuthorState T).registry = s.registry := by
  rw [registry_of_targets h.toSameTargets, h.commits]
  rfl

theorem registry_of_initiated (s : AuthorState T) (reason : T.Reason) (digest : T.AccountId) :
    ({ s with commitment := initiateDigest s.commitment reason digest } : AuthorState T).registry = { s.registry with
      known := if reason = T.authorFunding then Function.update s.registry.known digest true
        else s.registry.known } := by
  have hknown : (fun d => (initiateDigest s.commitment reason digest).digestMap.containsKey (T.authorFunding, d)) =
      if reason = T.authorFunding then Function.update s.registry.known digest true else s.registry.known := by
    funext d
    split
    · rename_i hr
      subst hr
      by_cases hd : d = digest
      · rw [hd, Function.update_self, containsKey_initiateDigest_self]
      · rw [Function.update_of_ne hd, containsKey_initiateDigest_of_ne fun he => hd (Prod.mk.inj he).2]
        rfl
    · exact containsKey_initiateDigest_of_ne fun he => ‹¬_› (Prod.mk.inj he).1.symm
  rw [← hknown]
  unfold AuthorState.registry initiateDigest
  split <;> rfl

theorem registry_of_collateral {c : State T.toConfig} (h : SameTargets s.commitment c)
    (hc : ∀ b, c.commitMap.get (b, T.authorFunding) = s.commitment.commitMap.get (b, T.authorFunding)) :
    ({ s with commitment := c } : AuthorState T).registry = s.registry := by
  rw [registry_of_targets h]
  unfold AuthorState.registry
  dsimp only
  congr 1
  exact funext fun b => by rw [hc b]

theorem collateral_key_ne (who b : T.AccountId) : (b, T.authorFunding) ≠ (who, T.authorCollateral) :=
  fun he => T.reasons_ne (Prod.mk.inj he).2

theorem registry_setInfo {info info' : AuthorInfo T.AccountId} (hi : s.authorsMap.get who = some info)
    (hd : info'.digest = info.digest) : (s.setInfo who info').registry = s.registry := by
  unfold AuthorState.registry AuthorState.setInfo
  dsimp only
  congr 1
  exact funext fun a => map_get_insert hi hd a

theorem registry_of_opened (h : BlockOpened s s') : s'.registry = s.registry := by
  have hmoved := h.moved
  obtain ⟨c, r, p, rfl⟩ := h.state_eq
  exact registry_of_moved (s := s) hmoved

theorem registry_of_resign {duty : Option AuthorActivity} {refund : Nat} (h : resign s who duty = .ok (s', refund)) :
    s'.registry = s.registry := by
  obtain ⟨info, c, hi, -, -, -, hc, rfl⟩ := resign_eq_ok h
  obtain ⟨-, hremoved⟩ := resolveCommit_removed hc
  have hset : (s.setInfo who { info with status := .resigned }).registry = s.registry := registry_setInfo hi rfl
  rw [← hset]
  refine registry_of_collateral (s := s.setInfo who _) hremoved.toSameTargets fun b => ?_
  rw [hremoved.commits, StorageMap.get_remove_of_ne (collateral_key_ne who b)]
  rfl

theorem registry_of_setStatus {status : AuthorStatus} {duty : Option AuthorActivity}
    (h : setStatus s who status duty = .ok s') : s'.registry = s.registry := by
  obtain ⟨current, -, h⟩ := bind_eq_ok.mp h
  split at h
  · rw [← pure_eq_ok.mp h]
  · obtain ⟨info, hi, -, -, rfl⟩ := revokePermanence_eq_ok h
    exact registry_setInfo hi rfl
  · obtain ⟨⟨s1, refund⟩, h1, h⟩ := bind_eq_ok.mp h
    obtain rfl := pure_eq_ok.mp h
    exact registry_of_resign h1
  · rw [← pure_eq_ok.mp h]
  · cases h
  · obtain ⟨info, hi, -, -, -, rfl⟩ := setPermanence_eq_ok h
    exact registry_setInfo hi rfl
  · rw [← pure_eq_ok.mp h]
  · cases h

theorem registry_of_secure (h : securePermanence s who = .ok s') : s'.registry = s.registry := by
  obtain ⟨info, risk, hi, -, -, rfl⟩ := securePermanence_eq_ok h
  exact registry_setInfo hi rfl

theorem registry_of_penalize {factor : Perbill} {block : Nat} (h : penalize s who factor = .ok (s', block)) :
    s'.registry = s.registry := by
  obtain ⟨_, -, h⟩ := bind_eq_ok.mp h
  obtain ⟨s1, h1, h⟩ := bind_eq_ok.mp h
  obtain rfl := schedulePenalty_eq_ok h
  obtain ⟨info, risk, hi, -, -, rfl | ⟨-, -, rfl⟩⟩ := raiseRisk_eq_ok h1
  · have hset : (s.setInfo who { info with riskUntil := risk }).registry = s.registry := registry_setInfo hi rfl
    exact hset
  · have hset : (s.setInfo who
        { info with status := .probation, statusSince := s.blockNumber, riskUntil := risk }).registry = s.registry :=
      registry_setInfo hi rfl
    exact hset

theorem registry_of_forgive {since : Nat} {factor : Perbill} (h : forgive s who since = .ok (s', factor)) :
    s'.registry = s.registry := by
  obtain ⟨_, -, h⟩ := bind_eq_ok.mp h
  obtain ⟨_, -, h⟩ := bind_eq_ok.mp h
  obtain ⟨_, -, h⟩ := bind_eq_ok.mp h
  obtain ⟨_, -, h⟩ := bind_eq_ok.mp h
  obtain ⟨s1, h1, h⟩ := bind_eq_ok.mp h
  simp only [pure_eq_ok, Prod.mk.injEq] at h
  obtain ⟨rfl, -⟩ := h
  exact (registry_of_secure h1).trans rfl

theorem registry_of_reward {value block : Nat} (h : reward s who value = .ok (s', block)) :
    s'.registry = s.registry := by
  obtain ⟨s1, h1, h⟩ := bind_eq_ok.mp h
  obtain ⟨_, -, h⟩ := bind_eq_ok.mp h
  simp only [pure_eq_ok, Prod.mk.injEq] at h
  obtain ⟨rfl, -⟩ := h
  have hreg := registry_of_secure h1
  exact hreg

theorem registry_of_reclaim {since value : Nat} (h : reclaim s who since = .ok (s', value)) :
    s'.registry = s.registry := by
  obtain rfl := reclaim_eq_ok h
  rfl

theorem registry_of_prepareElects (s : AuthorState T) (candidates : Candidates T.AccountId) :
    (prepareElects s candidates).registry = s.registry := by
  obtain ⟨elected, recent, hprepared⟩ := prepareElects_state s candidates
  rw [hprepared]
  rfl

theorem registry_of_refill {collateral actual : Nat} {fortitude : Fortitude}
    (h : addCollateral s who collateral fortitude = .ok (s', actual)) : s'.registry = s.registry := by
  obtain ⟨existing, -, h⟩ := bind_eq_ok.mp h
  obtain ⟨c, hc, rfl⟩ := onCommitment_eq_ok h
  obtain ⟨old, -, hw⟩ := raiseCommit_written hc
  obtain ⟨info, -, hinfo⟩ := hw.commits
  refine registry_of_collateral hw.toSameTargets fun b => ?_
  rw [hinfo, StorageMap.get_insert_of_ne (collateral_key_ne who b)]

theorem registry_of_forceGenesisConfig {field : AuthorForceGenesisConfig} (h : s.forceGenesisConfig field = .ok s') :
    s'.registry = s.registry := by
  rw [forceGenesisConfig_state h]
  rfl

end Frames

section Registering

variable {s s' : AuthorState T} {op : FunderMap T → T.AccountId → FunderMap T} {backer : T.AccountId}
  {written : Option (Funder T.AccountId)}

/-- The records of the backer were rewritten for the authors that meet the condition. -/
structure FundersRewritten (s s' : AuthorState T) (backer : T.AccountId) (written : Option (Funder T.AccountId))
    (p : T.AccountId → Prop) : Prop where
  state_eq : s' = { s with authorFunders := s'.authorFunders }
  reach : ∀ a, p a → s'.authorFunders.get (a, backer) = written
  keep : ∀ a b, (b = backer → ¬p a) → s'.authorFunders.get (a, b) = s.authorFunders.get (a, b)

theorem forAuthors_rewritten
    (hop : ∀ m a k, (op m a).get k = if k = (a, backer) then written else m.get k) {digests : List T.AccountId}
    (h : forAuthors op digests s = .ok s') :
    FundersRewritten s s' backer written fun a => ∃ e ∈ digests, s.authorsDigest.get e = some a := by
  induction digests generalizing s with
  | nil =>
    cases h
    exact ⟨rfl, fun a ⟨e, he, _⟩ => (nomatch he), fun _ _ _ => rfl⟩
  | cons digest digests ih =>
    obtain ⟨author, ha, h⟩ := bind_eq_ok.mp h
    rw [okOr_eq_ok] at ha
    have hrest := ih h
    refine ⟨hrest.state_eq, fun a => ?_, fun a b hb => ?_⟩
    · rintro ⟨e, he, hea⟩
      by_cases hlater : ∃ e ∈ digests, s.authorsDigest.get e = some a
      · exact hrest.reach a hlater
      · rcases List.mem_cons.mp he with rfl | he
        · obtain rfl := Option.some.inj (ha.symm.trans hea)
          rw [hrest.keep author backer fun _ => hlater, hop, if_pos rfl]
        · exact absurd ⟨e, he, hea⟩ hlater
    · have hne : (a, b) ≠ (author, backer) := by
        intro he
        obtain ⟨rfl, rfl⟩ := Prod.mk.inj he
        exact hb rfl ⟨digest, List.mem_cons_self .., ha⟩
      rw [hrest.keep a b fun he ⟨e, hm, hea⟩ => hb he ⟨e, List.mem_cons_of_mem _ hm, hea⟩, hop, if_neg hne]

theorem getEntriesShares_eq_ok {c : State T.toConfig} {reason : T.Reason} {i : T.AccountId}
    {shares : List (T.AccountId × Nat)} (h : getEntriesShares c reason i = .ok shares) :
    (c.indexMap.get (reason, i)).map (fun info => info.entries.list.map EntryInfo.digest) =
      some (shares.map Prod.fst) := by
  obtain ⟨info, hi, h⟩ := bind_eq_ok.mp h
  rw [getIndex, okOr_eq_ok] at hi
  obtain rfl := pure_eq_ok.mp h
  simp [hi, Function.comp_def]

theorem getSlotsShares_eq_ok {c : State T.toConfig} {reason : T.Reason} {p : T.AccountId}
    {shares : List (T.AccountId × Nat)} (h : getSlotsShares c reason p = .ok shares) :
    (c.poolMap.get (reason, p)).map (fun pool => pool.slots.map SlotInfo.digest) = some (shares.map Prod.fst) := by
  obtain ⟨pool, hp, h⟩ := bind_eq_ok.mp h
  rw [getPool, okOr_eq_ok] at hp
  obtain rfl := pure_eq_ok.mp h
  simp [hp, Function.comp_def]

theorem updateFunders_rewritten
    (hop : ∀ m a k, (op m a).get k = if k = (a, backer) then written else m.get k)
    {funder : Funder T.AccountId} {author : T.AccountId} (h : updateFunders op s funder author = .ok s') :
    FundersRewritten s s' backer written (s.registry.Reaches author funder) := by
  cases funder with
  | direct b =>
    cases h
    refine ⟨rfl, fun a ha => ?_, fun a b hb => ?_⟩
    · obtain rfl : a = author := ha
      exact (hop _ _ _).trans (if_pos rfl)
    · refine (hop _ _ _).trans (if_neg fun he => ?_)
      obtain ⟨rfl, rfl⟩ := Prod.mk.inj he
      exact hb rfl rfl
  | index i b =>
    obtain ⟨shares, hshares, h⟩ := bind_eq_ok.mp h
    rw [liftCommit_eq_ok] at hshares
    have hes : s.registry.entries i = some (shares.map Prod.fst) := getEntriesShares_eq_ok hshares
    have hr := forAuthors_rewritten hop h
    refine ⟨hr.state_eq, fun a => ?_, fun a b hb => hr.keep a b fun he ha => hb he ⟨_, hes, ha⟩⟩
    rintro ⟨es, hes', ha⟩
    obtain rfl := Option.some.inj (hes.symm.trans hes')
    exact hr.reach a ha
  | pool p b =>
    obtain ⟨shares, hshares, h⟩ := bind_eq_ok.mp h
    rw [liftCommit_eq_ok] at hshares
    have hes : s.registry.slots p = some (shares.map Prod.fst) := getSlotsShares_eq_ok hshares
    have hr := forAuthors_rewritten hop h
    refine ⟨hr.state_eq, fun a => ?_, fun a b hb => hr.keep a b fun he ha => hb he ⟨_, hes, ha⟩⟩
    rintro ⟨es, hes', ha⟩
    obtain rfl := Option.some.inj (hes.symm.trans hes')
    exact hr.reach a ha

end Registering

section Backing

variable {s s' : AuthorState T} {who author : T.AccountId} {funder : Funder T.AccountId} {actual : Nat}

theorem commitExists_eq_ok {c : State T.toConfig} {reason : T.Reason} {u : Unit} :
    commitExists c who reason = .ok u ↔ ∃ info, c.commitMap.get (who, reason) = some info := by
  unfold commitExists
  rw [ensure_eq_ok, StorageMap.containsKey_iff]

theorem commitExists_eq_error {c : State T.toConfig} {reason : T.Reason} {e : DispatchError}
    (h : commitExists c who reason = .error e) : c.commitMap.get (who, reason) = none := by
  unfold commitExists ensure at h
  split at h
  · cases h
  · rename_i hk
    rwa [Bool.not_eq_true, StorageMap.containsKey_eq_false_iff] at hk

theorem registry_target {d : T.AccountId} :
    s.registry.target who = some d ↔ getCommitDigest s.commitment who T.authorFunding = .ok d := by
  unfold getCommitDigest getCommit AuthorState.registry
  cases hg : s.commitment.commitMap.get (who, T.authorFunding) with
  | none => simp [hg, okOr, bind, Except.bind]
  | some info => simp [hg, okOr, bind, Except.bind, pure, Except.pure]

theorem entryExists_eq_ok {i d : T.AccountId} {u : Unit} :
    entryExists s.commitment T.authorFunding i d = .ok u ↔ ∃ es, s.registry.entries i = some es ∧ d ∈ es := by
  unfold entryExists getIndex AuthorState.registry
  cases hg : s.commitment.indexMap.get (T.authorFunding, i) with
  | none => simp [hg, okOr, bind, Except.bind]
  | some info => simp [hg, okOr, bind, Except.bind]

theorem slotExists_eq_ok {p d : T.AccountId} {u : Unit} :
    slotExists s.commitment T.authorFunding p d = .ok u ↔ ∃ es, s.registry.slots p = some es ∧ d ∈ es := by
  unfold slotExists getPool AuthorState.registry
  cases hg : s.commitment.poolMap.get (T.authorFunding, p) with
  | none => simp [hg, okOr, bind, Except.bind]
  | some pool => simp [hg, okOr, bind, Except.bind]

theorem canFund_spec {value : Nat} {info : AuthorInfo T.AccountId} (hi : s.authorsMap.get author = some info)
    (h : canFund s funder author value = .ok ()) :
    s.registry.Stands author info.digest funder ∧ (s.registry.target funder.backer = none ∨
      s.registry.target funder.backer = some (funder.towards info.digest)) := by
  obtain ⟨_, -, h⟩ := bind_eq_ok.mp h
  obtain ⟨info', hi', h⟩ := bind_eq_ok.mp h
  rw [getMeta_eq_ok] at hi'
  obtain rfl := Option.some.inj (hi.symm.trans hi')
  obtain ⟨_, hvia, h⟩ := bind_eq_ok.mp h
  have hdigest : s.registry.digestOf author = some info.digest := by simp [AuthorState.registry, hi]
  refine ⟨⟨hdigest, ?_⟩, ?_⟩
  · cases funder with
    | direct => trivial
    | index i b =>
      obtain ⟨_, -, hvia⟩ := bind_eq_ok.mp hvia
      obtain ⟨_, -, hvia⟩ := bind_eq_ok.mp hvia
      exact entryExists_eq_ok.mp (liftCommit_eq_ok.mp hvia)
    | pool p b =>
      obtain ⟨_, -, hvia⟩ := bind_eq_ok.mp hvia
      obtain ⟨_, -, hvia⟩ := bind_eq_ok.mp hvia
      exact slotExists_eq_ok.mp (liftCommit_eq_ok.mp hvia)
  · split at h
    · obtain ⟨existing, he, h⟩ := bind_eq_ok.mp h
      rw [liftCommit_eq_ok, ← registry_target] at he
      exact .inr (ensure_eq_ok.mp h ▸ he)
    · rename_i e he
      left
      unfold AuthorState.registry
      dsimp only
      rw [commitExists_eq_error he]
      rfl

theorem placeOrRaise_registry {towards : T.AccountId} {value : Nat} {q : Directive}
    (ht : s.registry.target who = none ∨ s.registry.target who = some towards)
    (h : placeOrRaise s who towards value q = .ok (s', actual)) :
    (∃ c, s' = { s with commitment := c }) ∧ ∃ known, s'.registry = { s.registry with
      target := Function.update s.registry.target who (some towards)
      known } ∧ (known = s.registry.known ∨
        ¬Known s.commitment (T.authorFunding, towards) ∧ known = Function.update s.registry.known towards true) := by
  have hset {c : State T.toConfig} {m : CommitMap T.toConfig} (hm : m = s.commitment.commitMap)
      (hc : ∃ info : CommitInfo T.toConfig, info.digest = towards ∧
        c.commitMap = m.insert (who, T.authorFunding) info) :
      (fun b => (c.commitMap.get (b, T.authorFunding)).map CommitInfo.digest) =
        Function.update s.registry.target who (some towards) := by
    obtain ⟨info, hd, hc⟩ := hc
    funext b
    rw [hc, hm, StorageMap.get_insert]
    by_cases hb : b = who
    · simp [hb, hd]
    · rw [if_neg fun he => hb (Prod.mk.inj he).1, Function.update_of_ne hb]
      rfl
  unfold placeOrRaise at h
  split at h
  · obtain ⟨c, hc, rfl⟩ := onCommitment_eq_ok h
    obtain ⟨old, hold, hw⟩ := raiseCommit_written hc
    have hd : old.digest = towards := by
      have htarget : s.registry.target who = some old.digest := by simp [AuthorState.registry, hold]
      rcases ht with ht | ht
      · rw [ht] at htarget
        cases htarget
      · exact Option.some.inj (htarget.symm.trans ht)
    refine ⟨⟨c, rfl⟩, s.registry.known, ?_, .inl rfl⟩
    rw [registry_of_targets hw.toSameTargets, hset rfl (hd ▸ hw.commits)]
  · obtain ⟨c, hc, rfl⟩ := onCommitment_eq_ok h
    refine ⟨⟨c, rfl⟩, ?_⟩
    obtain ⟨-, hw | ⟨hn, hw⟩⟩ := placeCommit_written hc
    · refine ⟨s.registry.known, ?_, .inl rfl⟩
      rw [registry_of_targets hw.toSameTargets, hset rfl hw.commits]
    · have hkey := (not_known_iff.mp hn).1
      refine ⟨Function.update s.registry.known towards true, ?_, .inr ⟨hn, rfl⟩⟩
      let s₁ : AuthorState T := { s with commitment := initiateDigest s.commitment T.authorFunding towards }
      have hs₁ : s₁.registry = { s.registry with known := Function.update s.registry.known towards true } := by
        rw [registry_of_initiated, if_pos rfl]
      have hreg := registry_of_targets (s := s₁) hw.toSameTargets
      rw [hset initiateDigest_commitMap hw.commits, hs₁] at hreg
      exact hreg

/-- Changing the registry for a funder changes the records of its backer with the authors it reaches. -/
theorem funders_changed {op : FunderMap T → T.AccountId → FunderMap T} {w : Option (Funder T.AccountId)}
    (hop : ∀ m a k, (op m a).get k = if k = (a, funder.backer) then w else m.get k) {c : State T.toConfig}
    {t : T.AccountId → Option T.AccountId} {known : T.AccountId → Bool}
    (hreg : ({ s with commitment := c } : AuthorState T).registry = { s.registry with target := t, known })
    (h : updateFunders op { s with commitment := c } funder author = .ok s') :
    (∀ a, s.registry.Reaches author funder a → s'.registry.funders (a, funder.backer) = w) ∧
      (∀ a b, (b = funder.backer → ¬s.registry.Reaches author funder a) →
        s'.registry.funders (a, b) = s.registry.funders (a, b)) ∧
      s'.registry = { s.registry with target := t, known, funders := s'.registry.funders } := by
  have hr := updateFunders_rewritten hop h
  have hreaches (a : T.AccountId) : ({ s with commitment := c } : AuthorState T).registry.Reaches author funder a ↔
      s.registry.Reaches author funder a := by
    rw [hreg]
    cases funder <;> exact Iff.rfl
  refine ⟨fun a ha => hr.reach a ((hreaches a).mpr ha), fun a b hb => ?_, ?_⟩
  · exact hr.keep a b fun he ha => hb he ((hreaches a).mp ha)
  · have hfinal : s'.registry = { ({ s with commitment := c } : AuthorState T).registry with
        funders := s'.registry.funders } := by
      rw [hr.state_eq]
      rfl
    rw [hfinal, hreg]

theorem fund_step {value : Nat} {q : Directive} (h : fund s author funder value q = .ok (s', actual)) :
    Registry.Step s.registry s'.registry (.back funder.backer) ∧
      ∃ d, s'.registry.Stands author d funder ∧ s'.registry.target funder.backer = some (funder.towards d) := by
  obtain ⟨_, hcan, h⟩ := bind_eq_ok.mp h
  obtain ⟨info, hi, h⟩ := bind_eq_ok.mp h
  rw [getMeta_eq_ok] at hi
  obtain ⟨hst, ht⟩ := canFund_spec hi hcan
  obtain ⟨⟨s1, amount⟩, h1, h⟩ := bind_eq_ok.mp h
  obtain ⟨s2, h2, h⟩ := bind_eq_ok.mp h
  simp only [pure_eq_ok, Prod.mk.injEq] at h
  obtain ⟨rfl, -⟩ := h
  obtain ⟨⟨c, rfl⟩, known, hreg, hknown⟩ := placeOrRaise_registry ht h1
  have hop (m : FunderMap T) (a : T.AccountId) (k : T.AccountId × T.AccountId) :
      (m.insert (a, funder.backer) funder).get k = if k = (a, funder.backer) then some funder else m.get k :=
    StorageMap.get_insert m _ _ _
  obtain ⟨hreach, hkeep, hfinal⟩ := funders_changed hop hreg h2
  have hk : known = s.registry.known ∨ known = Function.update s.registry.known info.digest true := by
    rcases hknown with hk | ⟨hn, hk⟩
    · exact .inl hk
    cases funder with
    | direct => exact .inr hk
    | index i b =>
      obtain ⟨-, es, hes, -⟩ := hst
      obtain ⟨index, hi, -⟩ := Option.map_eq_some_iff.mp hes
      exact absurd (.inr (.inl (StorageMap.containsKey_iff.mpr ⟨index, hi⟩))) hn
    | pool p b =>
      obtain ⟨-, es, hes, -⟩ := hst
      obtain ⟨pool, hp, -⟩ := Option.map_eq_some_iff.mp hes
      exact absurd (.inr (.inr (StorageMap.containsKey_iff.mpr ⟨pool, hp⟩))) hn
  refine ⟨.back rfl hst ht hk hreach hkeep hfinal, info.digest, ?_, ?_⟩
  · exact hst.of_same (by rw [hfinal]) (by rw [hfinal]) (by rw [hfinal])
  · rw [hfinal]
    exact Function.update_self ..

theorem ownsTarget_eq_ok {backer towards : T.AccountId} {u : Unit} :
    (do
      liftCommit (commitExists s.commitment backer T.authorFunding)
      let existing ← liftCommit (getCommitDigest s.commitment backer T.authorFunding)
      ensure (existing = towards) AuthorError.fundedToAnotherDigest) = .ok u ↔
      s.registry.target backer = some towards := by
  simp only [bind_eq_ok, liftCommit_eq_ok, ensure_eq_ok, ← registry_target]
  constructor
  · rintro ⟨_, -, existing, he, rfl⟩
    exact he
  · intro ht
    obtain ⟨info, hc, -⟩ := Option.map_eq_some_iff.mp ht
    exact ⟨(), commitExists_eq_ok.mpr ⟨info, hc⟩, towards, ht, rfl⟩

/-- An author's funds may be withdrawn by the backer whose commit is on the author's part of the target. -/
theorem canDraw_spec {info : AuthorInfo T.AccountId} (hi : s.authorsMap.get author = some info) :
    canDraw s funder author = .ok () ↔ s.registry.Stands author info.digest funder ∧
      s.registry.target funder.backer = some (funder.towards info.digest) := by
  have hdigest : s.registry.digestOf author = some info.digest := by simp [AuthorState.registry, hi]
  have hmeta : getMeta s author = .ok info := getMeta_eq_ok.mpr hi
  unfold canDraw
  rw [hmeta]
  cases funder with
  | direct b =>
    refine Iff.trans ownsTarget_eq_ok ?_
    simp [Registry.Stands, hdigest]
  | index i b =>
    refine Iff.trans (bind_eq_ok (x := liftCommit (entryExists s.commitment T.authorFunding i info.digest))) ?_
    simp only [liftCommit_eq_ok, entryExists_eq_ok, exists_const, ownsTarget_eq_ok, Registry.Stands, hdigest,
      true_and]
  | pool p b =>
    refine Iff.trans (bind_eq_ok (x := liftCommit (slotExists s.commitment T.authorFunding p info.digest))) ?_
    simp only [liftCommit_eq_ok, slotExists_eq_ok, exists_const, ownsTarget_eq_ok, Registry.Stands, hdigest, true_and]

theorem registry_of_removed {c : State T.toConfig} (h : CommitRemoved s.commitment c who T.authorFunding) :
    ({ s with commitment := c } : AuthorState T).registry = { s.registry with
      target := Function.update s.registry.target who none } := by
  have htarget : (fun b => (c.commitMap.get (b, T.authorFunding)).map CommitInfo.digest) =
      Function.update s.registry.target who none := by
    funext b
    rw [h.commits, StorageMap.get_remove]
    by_cases hb : b = who
    · simp [hb]
    · rw [if_neg fun he => hb (Prod.mk.inj he).1, Function.update_of_ne hb]
      rfl
  rw [registry_of_targets h.toSameTargets, htarget]

theorem draw_step (h : draw s author funder = .ok (s', actual)) :
    Registry.Step s.registry s'.registry (.exit funder.backer) := by
  obtain ⟨_, hcan, h⟩ := bind_eq_ok.mp h
  obtain ⟨⟨s1, amount⟩, h1, h⟩ := bind_eq_ok.mp h
  obtain ⟨s2, h2, h⟩ := bind_eq_ok.mp h
  simp only [pure_eq_ok, Prod.mk.injEq] at h
  obtain ⟨rfl, -⟩ := h
  obtain ⟨c, hc, rfl⟩ := onCommitment_eq_ok h1
  obtain ⟨-, hremoved⟩ := resolveCommit_removed hc
  obtain ⟨info, hi, -⟩ := bind_eq_ok.mp hcan
  rw [getMeta_eq_ok] at hi
  obtain ⟨hst, ht⟩ := (canDraw_spec hi).mp hcan
  have hop (m : FunderMap T) (a : T.AccountId) (k : T.AccountId × T.AccountId) :
      (m.remove (a, funder.backer)).get k = if k = (a, funder.backer) then none else m.get k :=
    StorageMap.get_remove m _ _
  obtain ⟨hreach, hkeep, hfinal⟩ := funders_changed hop (registry_of_removed hremoved) h2
  exact .exit rfl hst ht hreach hkeep hfinal

end Backing

section Calls

variable {s s' : AuthorState T} {who : T.AccountId}

/-- What the call does to the registry when it succeeds. -/
def AuthorCall.action (s : AuthorState T) : AuthorCall T → RegistryAction T.AccountId
  | .enlist who _ _ generated => .enlist who (enrollInfo s who generated).digest
  | .back who _ _ _ => .back who
  | .exit who _ => .exit who
  | .createIndex _ generated => .index generated
  | .createPool _ _ _ generated => .pool generated
  | .updateEntryShares index entry shares generated =>
    if findEntry s.commitment T.authorFunding index entry = none ∧ shares = 0 then .other else .index generated
  | .updateSlotShares _ pool slot shares =>
    if findSlot s.commitment T.authorFunding pool slot = none ∧ shares = 0 then .other
    else .slot pool slot (shares ≠ 0)
  | _ => .other

theorem resolveTarget_funder {via : FundingTarget T.AccountId} {author : T.AccountId} {funder : Funder T.AccountId}
    (h : resolveTarget s who via = .ok (author, funder)) : funder.backer = who := by
  cases via with
  | direct a =>
    cases h
    rfl
  | index i =>
    obtain ⟨shares, -, h⟩ := bind_eq_ok.mp h
    obtain ⟨a, -, h⟩ := bind_eq_ok.mp h
    cases pure_eq_ok.mp h
    rfl
  | pool p =>
    obtain ⟨shares, -, h⟩ := bind_eq_ok.mp h
    obtain ⟨a, -, h⟩ := bind_eq_ok.mp h
    cases pure_eq_ok.mp h
    rfl

theorem enlist_registryStep {collateral : Nat} {fortitude : Fortitude} {generated : T.AccountId}
    (h : enlist s who collateral fortitude generated = .ok s') :
    Registry.Step s.registry s'.registry (.enlist who (enrollInfo s who generated).digest) := by
  obtain ⟨_, -, h⟩ := bind_eq_ok.mp h
  obtain ⟨⟨s1, amount⟩, h1, h⟩ := bind_eq_ok.mp h
  obtain rfl := pure_eq_ok.mp h
  obtain ⟨-, c, placed, hc, rfl⟩ := enroll_eq_ok h1
  set info := enrollInfo s who generated with hinfo
  have hother (s₁ : AuthorState T) (hs : s₁.commitment.commitMap = s.commitment.commitMap)
      (hw : CommitWritten s₁.commitment c who T.authorCollateral info.digest) :
      ({ s₁ with commitment := c } : AuthorState T).registry = s₁.registry := by
    obtain ⟨written, -, hm⟩ := hw.commits
    refine registry_of_collateral hw.toSameTargets fun b => ?_
    rw [hm, StorageMap.get_insert_of_ne (collateral_key_ne who b)]
  have hcommit : ({ s with commitment := c } : AuthorState T).registry = s.registry := by
    obtain ⟨-, hw | ⟨-, hw⟩⟩ := placeCommit_written hc
    · exact hother s rfl hw
    · have hreg := hother { s with commitment := initiateDigest s.commitment T.authorCollateral info.digest }
        initiateDigest_commitMap hw
      rw [registry_of_initiated, if_neg fun he => T.reasons_ne he.symm] at hreg
      exact hreg
  have hreg : ({ s with
      commitment := c
      authorsMap := s.authorsMap.insert who info
      authorsDigest := s.authorsDigest.insert info.digest who } : AuthorState T).registry = { s.registry with
        digestOf := Function.update s.registry.digestOf who (some info.digest)
        authorOf := Function.update s.registry.authorOf info.digest (some who) } := by
    rw [← hcommit]
    unfold AuthorState.registry
    dsimp only
    congr 1
    · funext a
      by_cases ha : a = who
      · simp [ha]
      · rw [StorageMap.get_insert_of_ne ha, Function.update_of_ne ha]
    · funext d
      by_cases hd : d = info.digest
      · simp [hd]
      · rw [StorageMap.get_insert_of_ne hd, Function.update_of_ne hd]
  refine .enlist ?_ hreg
  cases hw : s.authorsMap.get who with
  | none => exact .inl (by simp [AuthorState.registry, hw])
  | some old =>
    right
    have hd : info.digest = old.digest := by
      rw [hinfo]
      unfold enrollInfo
      rw [hw]
      rfl
    simp [AuthorState.registry, hw, hd]

theorem setIndex_registryStep {c : State T.toConfig} {index : IndexInfo T.toConfig} {generated : T.AccountId}
    (h : setIndex s.commitment T.authorFunding index generated = .ok c)
    (hk : ∀ e ∈ index.entries.list, s.registry.known e.digest = true) :
    Registry.Step s.registry ({ s with commitment := c } : AuthorState T).registry (.index generated) := by
  obtain ⟨hfree, rfl⟩ := setIndex_spec h
  have hknown : ∀ d ∈ index.entries.list.map EntryInfo.digest, s.registry.known d = true := by
    intro d hd
    obtain ⟨e, he, rfl⟩ := List.mem_map.mp hd
    exact hk e he
  refine .index ?_ (by simpa using index.entries.nonempty) hknown ?_
  · simp [AuthorState.registry, hfree]
  · unfold AuthorState.registry
    dsimp only
    congr 1
    funext i
    by_cases hi : i = generated
    · simp [hi]
    · rw [StorageMap.get_insert_of_ne fun he => hi (Prod.mk.inj he).2, Function.update_of_ne hi]

theorem createIndex_registryStep {entries : List (T.AccountId × Nat)} {generated : T.AccountId}
    (h : createIndex s entries generated = .ok s') :
    Registry.Step s.registry s'.registry (.index generated) := by
  obtain ⟨digests, index, c, -, hprepared, hc, rfl⟩ := createIndex_eq_ok h
  exact setIndex_registryStep hc (prepareIndex_known hprepared)

theorem updateEntryShares_registryStep {index entry generated : T.AccountId} {shares : Nat} (hs : s.registry.Sound)
    (h : updateEntryShares s index entry shares generated = .ok s') :
    Registry.Step s.registry s'.registry
      (AuthorCall.action s (.updateEntryShares index entry shares generated)) := by
  obtain ⟨c, hc, rfl⟩ := updateEntryShares_eq_ok h
  simp only [AuthorCall.action]
  obtain ⟨hf, hz, rfl⟩ | ⟨new, hset, hnew, hparts⟩ := setEntryShares_parts hc
  · rw [if_pos ⟨hf, hz⟩]
    exact .other rfl
  · rw [if_neg (by tauto)]
    refine setIndex_registryStep hnew fun e he => ?_
    rcases hparts e he with ⟨rfl, hk⟩ | ⟨old, hold, hmem⟩
    · exact hk
    · exact (hs.entries index _ (by simp [AuthorState.registry, hold])).2 _ hmem

theorem createPool_registryStep {index generated : T.AccountId} {commission : Commission T.toConfig}
    (hs : s.registry.Sound) (h : createPool s who index commission generated = .ok s') :
    Registry.Step s.registry s'.registry (.pool generated) := by
  obtain ⟨c, hc, rfl⟩ := createPool_eq_ok h
  obtain ⟨info, pool, hfree, hi, -, hslots, rfl⟩ := setPool_spec hc
  have hparts := hs.entries index (info.entries.list.map EntryInfo.digest) (by simp [AuthorState.registry, hi])
  have hdigests : pool.slots.map SlotInfo.digest = info.entries.list.map EntryInfo.digest := by
    rw [hslots, List.map_map]
    rfl
  refine .pool ?_ hparts.1 hparts.2 ?_
  · simp [AuthorState.registry, hfree]
  · unfold AuthorState.registry
    dsimp only
    congr 1
    funext p
    by_cases hp : p = generated
    · simp [hp, hdigests]
    · rw [StorageMap.get_insert_of_ne fun he => hp (Prod.mk.inj he).2, Function.update_of_ne hp]

theorem registry_of_slotsSet {c : State T.toConfig} {pool : T.AccountId}
    {shapes : List (T.AccountId × Nat × T.Position)}
    (h : SlotsSet s.commitment c T.authorFunding pool shapes) :
    ({ s with commitment := c } : AuthorState T).registry = { s.registry with
      slots := Function.update s.registry.slots pool (some (shapes.map Prod.fst)) } := by
  unfold AuthorState.registry
  dsimp only
  congr 1
  · exact funext fun b => by rw [h.commits]
  · exact funext fun d => h.digests (T.authorFunding, d)
  · funext i
    have hmap := congrArg (Option.map fun e : Entries T.toConfig => e.list.map EntryInfo.digest)
      (h.entries (T.authorFunding, i))
    simpa [Option.map_map, Function.comp_def] using hmap
  · funext p
    have hmap := congrArg (Option.map fun l : List (T.AccountId × Nat × T.Position) => l.map Prod.fst)
      (h.slots (T.authorFunding, p))
    by_cases hp : p = pool
    · subst hp
      simpa [Option.map_map, Function.comp_def, ← slots_eq_map_shapes] using hmap
    · rw [if_neg fun he => hp (Prod.mk.inj he).2] at hmap
      rw [Function.update_of_ne hp]
      simpa [Option.map_map, Function.comp_def, ← slots_eq_map_shapes] using hmap

theorem updateSlotShares_registryStep {pool slot : T.AccountId} {shares : Nat} (hs : s.registry.Sound)
    (h : updateSlotShares s who pool slot shares = .ok s') :
    Registry.Step s.registry s'.registry (AuthorCall.action s (.updateSlotShares who pool slot shares)) := by
  obtain ⟨c, hc, rfl⟩ := updateSlotShares_eq_ok h
  simp only [AuthorCall.action]
  have hnonempty {es : List T.AccountId}
      (hes : ({ s with commitment := c } : AuthorState T).registry.slots pool = some es) : es ≠ [] := by
    obtain ⟨info, -, rfl⟩ := Option.map_eq_some_iff.mp hes
    simpa using info.nonempty
  have hstep {old : PoolInfo T.toConfig} (ho : s.commitment.poolMap.get (T.authorFunding, pool) = some old)
      {shapes : List (T.AccountId × Nat × T.Position)} {add : Bool}
      (hset : SlotsSet s.commitment c T.authorFunding pool shapes)
      (hshapes : shapes.map Prod.fst = Registry.withSlot (old.slots.map SlotInfo.digest) slot add)
      (hk : add = true → s.registry.known slot = true) :
      Registry.Step s.registry ({ s with commitment := c } : AuthorState T).registry (.slot pool slot add) := by
    have hreg := registry_of_slotsSet hset
    rw [hshapes] at hreg
    have hold : s.registry.slots pool = some (old.slots.map SlotInfo.digest) := by simp [AuthorState.registry, ho]
    refine .slot hold ?_ hk hreg
    exact hnonempty (by rw [hreg]; exact Function.update_self ..)
  have hfilter (old : PoolInfo T.toConfig) : ((slotShapes old.slots).filter fun t => t.1 ≠ slot).map Prod.fst =
      (old.slots.map SlotInfo.digest).filter fun d => d ≠ slot := by
    rw [slots_eq_map_shapes, List.filter_map]
    rfl
  obtain ⟨hf, hz, rfl⟩ | ⟨old, ho, ⟨hz, hf, hset⟩ | ⟨variant, hf, hz, hset⟩⟩ := setSlotShares_slots hc
  · rw [if_pos ⟨hf, hz⟩]
    exact .other rfl
  · rw [if_neg fun hn => by simp [hn.1] at hf, decide_eq_false (by simpa using hz)]
    refine hstep ho hset ?_ fun hadd => nomatch hadd
    rw [hfilter, Registry.withSlot, if_neg Bool.false_ne_true, List.append_nil]
  · rw [if_neg fun hn => hz hn.2, decide_eq_true hz]
    refine hstep ho hset ?_ fun _ => ?_
    · rw [List.map_append, hfilter, Registry.withSlot, if_pos rfl]
      rfl
    rcases hf with hf | hk
    · have hmem : slot ∈ old.slots.map SlotInfo.digest := by
        obtain ⟨found, hfound⟩ := Option.isSome_iff_exists.mp hf
        obtain ⟨p, hp, hfind⟩ := Option.bind_eq_some_iff.mp hfound
        obtain rfl := Option.some.inj (ho.symm.trans hp)
        have hd : found.digest = slot := by simpa using List.find?_some hfind
        exact hd ▸ List.mem_map_of_mem (List.mem_of_find?_eq_some hfind)
      exact (hs.slots pool _ (by simp [AuthorState.registry, ho])).2 slot hmem
    · exact hk

theorem apply_registryStep {call : AuthorCall T} (hs : s.registry.Sound) (h : s.apply call = .ok s') :
    Registry.Step s.registry s'.registry (call.action s) := by
  cases call with
  | enlist who collateral fortitude generated => exact enlist_registryStep h
  | back who via value q =>
    obtain ⟨author, funder, actual, hr, hf⟩ := back_eq_ok h
    exact resolveTarget_funder hr ▸ (fund_step hf).1
  | refill who collateral fortitude =>
    obtain ⟨⟨s1, n⟩, h1, h⟩ := bind_eq_ok.mp h
    obtain rfl := pure_eq_ok.mp h
    exact .other (registry_of_refill h1)
  | confirm who => exact .other (registry_of_setStatus h)
  | exit who target =>
    obtain ⟨author, funder, actual, hr, hd⟩ := exitTarget_eq_ok h
    exact resolveTarget_funder hr ▸ draw_step hd
  | demit who duty =>
    obtain ⟨⟨s1, refund⟩, h1, h⟩ := bind_eq_ok.mp h
    obtain rfl := pure_eq_ok.mp h
    exact .other (registry_of_resign h1)
  | createIndex entries generated => exact createIndex_registryStep h
  | createPool who index commission generated => exact createPool_registryStep hs h
  | transferPool who pool manager =>
    obtain ⟨c, hc, rfl⟩ := transferPool_eq_ok h
    obtain rfl := setPoolManager_spec hc
    exact .other rfl
  | updateEntryShares index entry shares generated => exact updateEntryShares_registryStep hs h
  | updateSlotShares who pool slot shares => exact updateSlotShares_registryStep hs h
  | setStatus who status duty => exact .other (registry_of_setStatus h)
  | penalize who factor =>
    obtain ⟨⟨s1, block⟩, h1, h⟩ := bind_eq_ok.mp h
    obtain rfl := pure_eq_ok.mp h
    exact .other (registry_of_penalize h1)
  | forgive who since =>
    obtain ⟨⟨s1, factor⟩, h1, h⟩ := bind_eq_ok.mp h
    obtain rfl := pure_eq_ok.mp h
    exact .other (registry_of_forgive h1)
  | reward who value =>
    obtain ⟨⟨s1, block⟩, h1, h⟩ := bind_eq_ok.mp h
    obtain rfl := pure_eq_ok.mp h
    exact .other (registry_of_reward h1)
  | reclaim who since =>
    obtain ⟨⟨s1, value⟩, h1, h⟩ := bind_eq_ok.mp h
    obtain rfl := pure_eq_ok.mp h
    exact .other (registry_of_reclaim h1)
  | prepareElects candidates =>
    obtain rfl := Except.ok.inj h
    exact .other (registry_of_prepareElects s candidates)
  | removeElected who =>
    obtain rfl := Except.ok.inj h
    exact .other rfl
  | forceGenesisConfig field => exact .other (registry_of_forceGenesisConfig h)
  | enterBlock =>
    obtain ⟨-, hopened⟩ := enterBlock_eq_ok h
    have hreg := registry_of_opened hopened
    exact .other hreg
  | external ledger =>
    obtain rfl := Except.ok.inj h
    exact .other rfl

theorem registrySound_genesis (ledger : T.Ledger) (g : AuthorGenesis) :
    (AuthorState.genesis ledger g).registry.Sound := by
  refine ⟨fun _ _ h => ?_, fun _ _ h => ?_, fun _ h => ?_, fun _ _ h => ?_, fun _ _ h => ?_⟩
  all_goals cases h

end Calls

end FrameSuite
