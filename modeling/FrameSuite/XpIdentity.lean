import FrameSuite.XpAggregates

/-! The life cycle of an XP identity: its owner, its record and the list of reaped ones.
Reaping keeps the owner entry, so whoever owned a reaped identity may still act as it. -/

namespace FrameSuite

variable {T : XpConfig}

def XpState.owns (s : XpState T) (owner key : T.AccountId) : Prop :=
  s.xpOwners.containsKey (owner, key) = true

def XpState.present (s : XpState T) (key : T.AccountId) : Prop := s.xpOf.containsKey key = true

def XpState.reaped (s : XpState T) (key : T.AccountId) : Prop := s.reapedXp.containsKey key = true

/-- No entry point that asks for the owner succeeds for the identity. -/
def XpState.closed (s : XpState T) (key : T.AccountId) : Prop :=
  (∀ caller dispatch t, callAs caller key dispatch s ≠ .ok () t) ∧
    ∀ caller newOwner t, handover caller key newOwner s ≠ .ok () t

structure IdentitySafe (s : XpState T) : Prop where
  owner : ∀ key, s.present key → ∃! owner, s.owns owner key
  gone : ∀ key, s.reaped key → ¬s.present key
  closed : ∀ key, s.reaped key → s.closed key
  disposed : ∀ owner key t, dispose owner key s = .ok () t →
    s.locks key = [] ∧ ∀ xp, s.xpOf.get key = some xp → xp.timestamp < s.minTimeStamp

/-- Identities with an owner are present, and none has been reaped. -/
structure Identified (s : XpState T) : Prop where
  owner : ∀ key, s.present key → ∃! owner, s.owns owner key
  present : ∀ owner key, s.owns owner key → s.present key
  unreaped : ∀ key, ¬s.reaped key

theorem isOwner_eq_ok {s : XpState T} {owner key : T.AccountId} :
    isOwner owner key s = .ok () ↔ s.owns owner key := ensure_eq_ok

theorem xpExists_eq_ok {s : XpState T} {key : T.AccountId} :
    xpExists key s = .ok () ↔ s.present key := ensure_eq_ok

theorem canReap_eq_ok {s : XpState T} {key : T.AccountId} {u : Unit} (h : canReap key s = .ok u) :
    ¬s.reaped key ∧ s.present key ∧ s.locks key = [] ∧
      ∀ xp, s.xpOf.get key = some xp → xp.timestamp < s.minTimeStamp := by
  obtain ⟨_, hreaped, h⟩ := bind_eq_ok.mp h
  obtain ⟨_, hexists, h⟩ := bind_eq_ok.mp h
  obtain ⟨_, hmin, hlock⟩ := bind_eq_ok.mp h
  have hfresh : ¬s.reapedXp.containsKey key = true := ensure_isOk_eq_false_iff.mp (ensure_eq_ok.mp hreaped)
  refine ⟨hfresh, xpExists_eq_ok.mp hexists, ?_, fun xp hx => ?_⟩
  · refine locks_of_not_hasLock ?_
    rw [ensure_eq_ok.mp hlock]
    exact Bool.false_ne_true
  · have hn := ensure_eq_ok.mp hmin
    have hget : getXp key s = .ok xp := okOr_eq_ok.mpr hx
    rw [hasMinimumXp, hget] at hn
    exact Nat.lt_of_not_le (ensure_isOk_eq_false_iff.mp hn)

/-- What a successful disposal found: the code checks it on every path. -/
theorem dispose_eq_ok {s t : XpState T} {owner key : T.AccountId} (h : dispose owner key s = .ok () t) :
    canReap key s = .ok () := by
  unfold dispose at h
  rw [reads_bind] at h
  cases hx : xpExists key s with
  | error e => rw [hx] at h; cases h
  | ok _ =>
    rw [hx] at h
    dsimp only at h
    rw [reads_bind] at h
    cases ho : isOwner owner key s with
    | error e => rw [ho] at h; cases h
    | ok _ =>
      rw [ho] at h
      dsimp only at h
      cases hc : canReap key s with
      | ok u => rfl
      | error e =>
        have hreap : tryReap key s = .error e s := by
          unfold tryReap
          rw [reads_bind, hc]
        rw [bind_of_error hreap] at h
        cases h

theorem Identified.safe {s : XpState T} (h : Identified s) : IdentitySafe s where
  owner := h.owner
  gone key hr := (h.unreaped key hr).elim
  closed key hr := (h.unreaped key hr).elim
  disposed owner key t ht := by
    obtain ⟨-, -, hl, hmin⟩ := canReap_eq_ok (dispose_eq_ok ht)
    exact ⟨hl, hmin⟩

/-- The same owners, the same records and the same reaped identities. -/
structure SameIdentities (s t : XpState T) : Prop where
  owners : t.xpOwners = s.xpOwners
  reaped : t.reapedXp = s.reapedXp
  present : ∀ key, t.xpOf.containsKey key = s.xpOf.containsKey key

theorem SameIdentities.identified {s t : XpState T} (h : SameIdentities s t) (hs : Identified s) :
    Identified t := by
  obtain ⟨ho, hr, hp⟩ := h
  constructor
  · intro key hk
    simp only [XpState.present, XpState.owns, hp, ho] at hk ⊢
    exact hs.owner key hk
  · intro owner key hk
    simp only [XpState.present, XpState.owns, hp, ho] at hk ⊢
    exact hs.present owner key hk
  · intro key hk
    simp only [XpState.reaped, hr] at hk
    exact hs.unreaped key hk

theorem containsKey_insert_of_get {m : StorageMap T.AccountId Xp} {key : T.AccountId} {xp xp' : Xp}
    (h : m.get key = some xp) (k : T.AccountId) : (m.insert key xp').containsKey k = m.containsKey k := by
  unfold StorageMap.containsKey
  rw [StorageMap.get_insert]
  split <;> rename_i hk
  · rw [hk, h]
    rfl
  · rfl

theorem SameIdentities.withstands (s₀ : XpState T) : Withstands (SameIdentities s₀) := by
  have hrewritten {s t : XpState T} {key : T.AccountId} (hw : Rewritten key s t)
      (h : SameIdentities s₀ s) : SameIdentities s₀ t := by
    rcases hw with rfl | ⟨xp, xp', hx, rfl, -, -⟩
    · exact h
    · exact ⟨h.owners, h.reaped, fun k => (containsKey_insert_of_get hx k).trans (h.present k)⟩
  refine ⟨⟨fun key points s h => hrewritten (setXp_rewritten s points) h, ?_, ?_, ?_⟩,
    fun key points s h => hrewritten (earnXp_rewritten s points) h⟩
  · intro key reason points s h
    rcases @setReserve_leaves T key reason points s with hs | ⟨xp, new, total, hx, hs, -⟩
    · rwa [hs]
    · rw [hs]
      exact ⟨h.owners, h.reaped, fun k => (containsKey_insert_of_get hx k).trans (h.present k)⟩
  · intro key reason points s h
    rcases @setLock_leaves T key reason points s with hs | ⟨xp, new, total, hx, -, hs, -⟩
    · rwa [hs]
    · rw [hs]
      exact ⟨h.owners, h.reaped, fun k => (containsKey_insert_of_get hx k).trans (h.present k)⟩
  · intro key reason s h
    rcases @burnLock_leaves T key reason s with hs | ⟨es, e, -, -, hs⟩
    · rwa [hs]
    · rw [hs]
      refine ⟨h.owners, h.reaped, fun k => ?_⟩
      cases hx : s.xpOf.get key with
      | none => exact h.present k
      | some xp => exact (containsKey_insert_of_get hx k).trans (h.present k)

section Owners

variable {s : XpState T} {owner key newOwner : T.AccountId}

theorem Identified.newXp (h : Identified s) (ho : ∀ o, s.owns o key → o = owner) :
    Identified (leaves (newXp owner key) s) := by
  have howns (o k : T.AccountId) :
      (leaves (FrameSuite.newXp owner key) s).owns o k ↔ (o = owner ∧ k = key) ∨ s.owns o k := by
    change (s.xpOwners.insert (owner, key) ()).containsKey (o, k) = true ↔ _
    unfold StorageMap.containsKey
    rw [StorageMap.get_insert]
    split <;> rename_i heq
    · simp [(Prod.mk.injEq ..).mp heq]
    · have hne : ¬(o = owner ∧ k = key) := fun hok => heq (Prod.ext hok.1 hok.2)
      simp [hne, XpState.owns, StorageMap.containsKey]
  have hpresent (k : T.AccountId) :
      (leaves (FrameSuite.newXp owner key) s).present k ↔ k = key ∨ s.present k := by
    change (s.xpOf.insert key (Xp.default s)).containsKey k = true ↔ _
    unfold StorageMap.containsKey
    rw [StorageMap.get_insert]
    split <;> rename_i heq <;> simp [heq, XpState.present, StorageMap.containsKey]
  constructor
  · intro k hk
    simp only [howns]
    by_cases heq : k = key
    · subst heq
      refine ⟨owner, Or.inl ⟨rfl, rfl⟩, fun o hor => ?_⟩
      exact hor.elim And.left (ho o)
    · obtain ⟨o, hown, huniq⟩ := h.owner k (((hpresent k).mp hk).resolve_left heq)
      exact ⟨o, Or.inr hown, fun o' hor => huniq o' (hor.resolve_left fun hc => heq hc.2)⟩
  · intro o k hk
    rcases (howns o k).mp hk with ⟨-, heq⟩ | hown
    · exact (hpresent k).mpr (Or.inl heq)
    · exact (hpresent k).mpr (Or.inr (h.present o k hown))
  · exact h.unreaped

theorem Identified.setOwner (h : Identified s) (ho : s.owns owner key) (hne : owner ≠ newOwner) :
    Identified (leaves (setOwner owner key newOwner) s) := by
  have hp := h.present owner key ho
  obtain ⟨o, -, huniq⟩ := h.owner key hp
  have hsole : ∀ o', s.owns o' key → o' = owner := fun o' ho' => (huniq o' ho').trans (huniq owner ho).symm
  have howns (o k : T.AccountId) : (leaves (FrameSuite.setOwner owner key newOwner) s).owns o k ↔
      if k = key then o = newOwner else s.owns o k := by
    change ((s.xpOwners.remove (owner, key)).insert (newOwner, key) ()).containsKey (o, k) = true ↔ _
    unfold StorageMap.containsKey
    rw [StorageMap.get_insert, StorageMap.get_remove]
    by_cases hk : k = key
    · subst hk
      by_cases hn : o = newOwner
      · simp [hn]
      · by_cases hold : o = owner
        · simp [hold, hne]
        · have hnot : ¬s.owns o k := fun hown => hold (hsole o hown)
          have hget : s.xpOwners.get (o, k) = none := by
            simpa [XpState.owns, StorageMap.containsKey] using hnot
          simp [hn, hold, hget]
    · simp [hk, XpState.owns, StorageMap.containsKey]
  constructor
  · intro k hk
    simp only [howns]
    by_cases heq : k = key
    · simp only [heq, if_true]
      exact ⟨newOwner, rfl, fun _ h => h⟩
    · simp only [heq, if_false]
      exact h.owner k hk
  · intro o k hk
    rw [howns] at hk
    by_cases heq : k = key
    · exact heq ▸ hp
    · rw [if_neg heq] at hk
      exact h.present o k hk
  · exact h.unreaped

theorem Identified.transferOwner : Keeps (Identified (T := T)) (transferOwner owner key newOwner) := by
  refine Keeps.reads_bind fun s _ ho h => ?_
  split
  · exact h
  · exact h.setOwner (isOwner_eq_ok.mp ho) ‹_›

theorem Identified.handover : Keeps (Identified (T := T)) (handover owner key newOwner) :=
  (Keeps.reads _).bind fun _ => (Keeps.reads _).bind fun _ =>
    Keeps.ite (fun _ => Keeps.throw _) fun _ => Identified.transferOwner

end Owners

section Reaping

variable {s : XpState T} {owner key : T.AccountId}

theorem tryReap_of_error {e : Fault} (h : canReap key s = .error e) : leaves (tryReap key) s = s := by
  unfold tryReap
  rw [leaves_reads_bind, h]

/-- Reaping drops the record and its reserves; the owner stays registered. -/
theorem tryReap_of_ok (h : canReap key s = .ok ()) : leaves (tryReap key) s =
    { s with
      xpOf := s.xpOf.remove key
      reservedXpOf := s.reservedXpOf.remove key
      reapedXp := s.reapedXp.insert key () } := by
  obtain ⟨-, hp, hl, -⟩ := canReap_eq_ok h
  obtain ⟨xp, hx⟩ := StorageMap.containsKey_iff.mp hp
  have hlock : ¬(hasLock key s).isOk = true := by
    unfold hasLock
    cases hk : s.lockedXpOf.get key with
    | none => simp [fault, Except.isOk, Except.toBool]
    | some locks =>
      simp only [XpState.locks, hk, Option.getD_some] at hl
      simp [ensure_isOk_iff, hl]
  have hget : getUsableXp key s = .ok (saturatingAdd T.maxXp xp.free xp.reserve) := by
    simp [getUsableXp, getXp, hx, okOr, bind, Except.bind, pure, Except.pure]
  unfold tryReap reapXp
  rw [leaves_reads_bind, h]
  dsimp only
  rw [leaves_reads_bind, hget]
  dsimp only
  rw [leaves_get_bind, if_neg hlock]
  rfl

theorem callAs_of_owns (h : s.owns owner key) : callAs owner key (fun _ => pure ()) s = .ok () s := by
  unfold callAs
  rw [reads_bind, isOwner_eq_ok.mpr h]
  rfl

theorem not_closed_of_reaped (h : Identified s) (hc : canReap key s = .ok ()) :
    ¬IdentitySafe (leaves (tryReap key) s) := by
  intro hsafe
  obtain ⟨-, hp, -, -⟩ := canReap_eq_ok hc
  obtain ⟨o, ho, -⟩ := h.owner key hp
  rw [tryReap_of_ok hc] at hsafe
  have hreaped : (s.reapedXp.insert key ()).containsKey key = true := by
    simp [StorageMap.containsKey]
  exact (hsafe.closed key hreaped).1 o _ _ (callAs_of_owns ho)

theorem Identified.beginXp (h : Identified s) (points : Nat) :
    Identified (leaves (beginXp owner key points) s) := by
  unfold FrameSuite.beginXp
  rw [leaves_get_bind]
  split
  · exact h
  · split
    · refine SameIdentities.identified (s := s) ?_ h
      exact (((SameIdentities.withstands s).earnXp key points).bind fun _ => Keeps.pure _) s
        ⟨rfl, rfl, fun _ => rfl⟩
    · rename_i hex
      rw [createXp_leaves]
      refine h.newXp fun o ho => (hex ?_).elim
      exact ensure_isOk_iff.mpr (h.present o key ho)

theorem dispose_of_owns (hp : s.present key) (ho : s.owns owner key) :
    leaves (dispose owner key) s = leaves (tryReap key) s := by
  unfold dispose
  rw [leaves_reads_bind, xpExists_eq_ok.mpr hp]
  dsimp only
  rw [leaves_reads_bind, isOwner_eq_ok.mpr ho]
  dsimp only
  unfold leaves
  cases ht : tryReap key s with
  | ok points t => rw [bind_of_ok ht]; rfl
  | error e t => rw [bind_of_error ht]

theorem dispose_of_not_owns (ho : ¬s.owns owner key) : leaves (dispose owner key) s = s := by
  have herr : isOwner owner key s = .error (.error .invalidXpOwner) := if_neg ho
  unfold dispose
  rw [leaves_reads_bind]
  cases xpExists key s with
  | error e => rfl
  | ok _ =>
    dsimp only
    rw [leaves_reads_bind, herr]

theorem leaves_tryReap_eq_self (h : ¬(canReap key s).isOk = true) : leaves (tryReap key) s = s := by
  cases hc : canReap key s with
  | ok u => rw [hc] at h; exact absurd rfl h
  | error e => exact tryReap_of_error hc

end Reaping

/-- A record is only created for an identity that is not reaped and that nobody else owns,
and none is reaped. -/
def XpOp.keepsIdentity (s : XpState T) : XpOp T → Prop
  | .newXp owner key => ¬s.reaped key ∧ ∀ o, s.owns o key → o = owner
  | .createXp owner key => ¬s.reaped key ∧ ∀ o, s.owns o key → o = owner
  | .tryReap key => ¬(canReap key s).isOk = true
  | .dispose owner key => ¬(s.owns owner key ∧ (canReap key s).isOk = true)
  | _ => True

theorem Identified.perform {s : XpState T} (h : Identified s) {op : XpOp T} (hc : op.keepsIdentity s) :
    Identified (s.perform op) := by
  have hsame (hm : op.movesPoints = true) : Identified (s.perform op) := by
    refine SameIdentities.identified (s := s) ?_ h
    exact (SameIdentities.withstands s).perform ⟨rfl, rfl, fun _ => rfl⟩ hm
  cases op with
  | newXp owner key => exact h.newXp hc.2
  | createXp owner key =>
    change Identified (leaves (createXp owner key) s)
    rw [createXp_leaves]
    exact h.newXp hc.2
  | beginXp owner key points => exact h.beginXp points
  | tryReap key =>
    change Identified (leaves (tryReap key) s)
    rwa [leaves_tryReap_eq_self hc]
  | transferOwner owner key newOwner => exact Identified.transferOwner s h
  | handover caller key newOwner => exact Identified.handover s h
  | forceHandover owner key newOwner => exact Identified.handover s h
  | dispose owner key =>
    change Identified (leaves (dispose owner key) s)
    by_cases ho : s.owns owner key
    · by_cases hr : (canReap key s).isOk = true
      · exact (hc ⟨ho, hr⟩).elim
      · rwa [dispose_of_owns (h.present owner key ho) ho, leaves_tryReap_eq_self hr]
    · rwa [dispose_of_not_owns ho]
  | forceGenesisConfig field =>
    refine SameIdentities.identified (s := s) ?_ h
    unfold XpState.perform leaves forceGenesisConfig
    cases field with
    | minPulse value => exact ⟨rfl, rfl, fun _ => rfl⟩
    | initXp value => exact ⟨rfl, rfl, fun _ => rfl⟩
    | pulseFactor threshold perCount =>
      dsimp only
      cases Stepper.new threshold perCount <;> exact ⟨rfl, rfl, fun _ => rfl⟩
    | minTimeStamp value =>
      dsimp only
      by_cases hb : s.blockNumber < value
      · rw [if_pos hb]
        exact ⟨rfl, rfl, fun _ => rfl⟩
      · rw [if_neg hb]
        exact ⟨rfl, rfl, fun _ => rfl⟩
  | block number => exact ⟨h.owner, h.present, h.unreaped⟩
  | _ => exact hsame rfl

theorem owner_of_newXp {s : XpState T} {owner key : T.AccountId}
    (h : IdentitySafe (leaves (newXp owner key) s)) {o : T.AccountId} (ho : s.owns o key) : o = owner := by
  have hpresent : (s.xpOf.insert key (Xp.default s)).containsKey key = true := by
    simp [StorageMap.containsKey]
  obtain ⟨w, -, huniq⟩ := h.owner key hpresent
  have hnew : (s.xpOwners.insert (owner, key) ()).containsKey (owner, key) = true := by
    simp [StorageMap.containsKey]
  have hold : (s.xpOwners.insert (owner, key) ()).containsKey (o, key) = true := by
    obtain ⟨u, hu⟩ := StorageMap.containsKey_iff.mp ho
    unfold StorageMap.containsKey
    rw [StorageMap.get_insert]
    split
    · rfl
    · rw [hu]
      rfl
  exact (huniq o hold).trans (huniq owner hnew).symm

theorem keepsIdentity_of_safe {s : XpState T} (hs : Identified s) {op : XpOp T}
    (h : IdentitySafe (s.perform op)) : op.keepsIdentity s := by
  have hreap {key : T.AccountId} (hl : IdentitySafe (leaves (tryReap key) s)) :
      ¬(canReap key s).isOk = true := by
    intro hc
    cases hr : canReap key s with
    | ok u => exact not_closed_of_reaped hs hr hl
    | error e => rw [hr] at hc; cases hc
  cases op with
  | newXp owner key => exact ⟨hs.unreaped key, fun o ho => owner_of_newXp h ho⟩
  | createXp owner key =>
    change IdentitySafe (leaves (createXp owner key) s) at h
    rw [createXp_leaves] at h
    exact ⟨hs.unreaped key, fun o ho => owner_of_newXp h ho⟩
  | tryReap key => exact hreap h
  | dispose owner key =>
    rintro ⟨ho, hc⟩
    change IdentitySafe (leaves (dispose owner key) s) at h
    rw [dispose_of_owns (hs.present owner key ho) ho] at h
    exact hreap h hc
  | _ => trivial

theorem identified_build {genesis : XpGenesis T} (hd : (genesis.accounts.map Prod.snd).Nodup) :
    Identified genesis.build := by
  have h : ∀ (accounts : List (T.AccountId × T.AccountId)) (s : XpState T),
      (accounts.map Prod.snd).Nodup → Identified s → (∀ account ∈ accounts, ¬s.present account.2) →
      Identified (s.after (accounts.map fun account => .newXp account.1 account.2)) := by
    intro accounts
    induction accounts with
    | nil => exact fun s _ hs _ => hs
    | cons account accounts ih =>
      intro s hn hs hnew
      obtain ⟨hfirst, hrest⟩ := List.nodup_cons.mp hn
      have hnone : ∀ o, s.owns o account.2 → o = account.1 := fun o ho =>
        (hnew account (List.mem_cons_self ..) (hs.present o _ ho)).elim
      refine ih _ hrest (hs.newXp hnone) fun other hmem hp => ?_
      have hne : other.2 ≠ account.2 := fun heq => hfirst (heq ▸ List.mem_map_of_mem hmem)
      refine hnew other (List.mem_cons_of_mem _ hmem) ?_
      change (s.xpOf.insert account.2 (Xp.default s)).containsKey other.2 = true at hp
      unfold StorageMap.containsKey at hp
      rwa [StorageMap.get_insert_of_ne hne] at hp
  have hempty : Identified genesis.empty :=
    ⟨fun _ hk => (Bool.false_ne_true hk).elim, fun _ _ hk => (Bool.false_ne_true hk).elim,
      fun _ hk => Bool.false_ne_true hk⟩
  exact h genesis.accounts genesis.empty hd hempty fun _ _ hk => Bool.false_ne_true hk

theorem identitySafe_iff_keepsIdentity {genesis : XpGenesis T}
    (hd : (genesis.accounts.map Prod.snd).Nodup) (ops : List (XpOp T)) :
    (∀ pre, pre <+: ops → IdentitySafe (genesis.build.after pre)) ↔
      RunMeets XpState.apply (fun s op => op.keepsIdentity s) genesis.build ops := by
  refine forall_prefix_iff (fun s (h : Identified s) => h.safe) (fun s op t h hq ht => ?_)
    (fun s op t h ht hp => ?_) (identified_build hd) ops
  · obtain rfl := Except.ok.inj ht
    exact h.perform hq
  · obtain rfl := Except.ok.inj ht
    exact keepsIdentity_of_safe h hp

/-- Two identities of one owner, the first handed over. -/
def twoIdentities : XpGenesis mockXp where
  minPulse := 1
  initXp := 10
  pulseFactor := ⟨50, 10⟩
  accounts := [((1 : Nat), (7 : Nat)), ((1 : Nat), (8 : Nat))]

theorem identitySafe_handover :
    IdentitySafe (twoIdentities.build.after [.handover (1 : Nat) (7 : Nat) (2 : Nat)]) := by
  have hd : (twoIdentities.accounts.map Prod.snd).Nodup := by decide
  refine (identitySafe_iff_keepsIdentity hd [.handover (1 : Nat) (7 : Nat) (2 : Nat)]).mpr ?_ _
    (List.prefix_refl _)
  exact ⟨fun _ _ => trivial, trivial⟩

/-- The first identity is disposed of in block five, once the minimum is there. -/
def disposed : List (XpOp mockXp) :=
  [.block 5, .forceGenesisConfig (.minTimeStamp 5), .dispose (1 : Nat) (7 : Nat)]

theorem reaped_identity_still_calls :
    ¬∀ (genesis : XpGenesis mockXp), (genesis.accounts.map Prod.snd).Nodup →
      ∀ ops pre : List (XpOp mockXp), pre <+: ops → IdentitySafe (genesis.build.after pre) := by
  intro h
  have hsafe := h twoIdentities (by decide) disposed disposed (List.prefix_refl _)
  have hown : (twoIdentities.build.after disposed).owns (1 : Nat) (7 : Nat) := by
    unfold XpState.owns
    decide
  have hreaped : (twoIdentities.build.after disposed).reaped (7 : Nat) := by
    unfold XpState.reaped
    decide
  exact (hsafe.closed (7 : Nat) hreaped).1 (1 : Nat) _ _ (callAs_of_owns hown)

end FrameSuite
