import FrameSuite.XpWrites

/-! The totals in an XP record and the entries they stand for. Every operation moves both
together, except that a new record forgets the entries its identity already had. -/

namespace FrameSuite

variable {T : XpConfig}

/-- The totals of a record are those of its entries, which have distinct reasons. -/
structure Aggregates (xp : Xp) (reserves : List (IdXp T.ReserveReason))
    (locks : List (IdXp T.LockReason)) : Prop where
  reserve : xp.reserve = totalPoints reserves
  lock : xp.lock = totalPoints locks
  reserveIds : (reserves.map IdXp.id).Nodup
  lockIds : (locks.map IdXp.id).Nodup
  locked : ∀ l ∈ locks, l.points ≠ 0

def Aggregated (s : XpState T) : Prop :=
  ∀ key xp, s.xpOf.get key = some xp → Aggregates xp (s.reserves key) (s.locks key)

/-- Identities without a record have no entries either. -/
structure Tallied (s : XpState T) : Prop where
  aggregated : Aggregated s
  blank : ∀ key, s.xpOf.get key = none → s.reserves key = [] ∧ s.locks key = []

theorem Aggregates.congr {xp xp' : Xp} {reserves : List (IdXp T.ReserveReason)}
    {locks : List (IdXp T.LockReason)} (h : Aggregates xp reserves locks)
    (hr : xp'.reserve = xp.reserve) (hl : xp'.lock = xp.lock) : Aggregates xp' reserves locks where
  reserve := hr.trans h.reserve
  lock := hl.trans h.lock
  reserveIds := h.reserveIds
  lockIds := h.lockIds
  locked := h.locked

theorem Tallied.write {s t : XpState T} (h : Tallied s) {key : T.AccountId} {xp : Xp}
    (hframe : ∀ k, k ≠ key →
      t.xpOf.get k = s.xpOf.get k ∧ t.reserves k = s.reserves k ∧ t.locks k = s.locks k)
    (hx : t.xpOf.get key = some xp) (ha : Aggregates xp (t.reserves key) (t.locks key)) : Tallied t := by
  constructor
  · intro k xp' hk
    by_cases heq : k = key
    · subst heq
      obtain rfl := Option.some.inj (hx.symm.trans hk)
      exact ha
    · obtain ⟨hxk, hrk, hlk⟩ := hframe k heq
      rw [hrk, hlk]
      exact h.aggregated k xp' (hxk ▸ hk)
  · intro k hk
    by_cases heq : k = key
    · subst heq
      rw [hx] at hk
      cases hk
    · obtain ⟨hxk, hrk, hlk⟩ := hframe k heq
      rw [hrk, hlk]
      exact h.blank k (hxk ▸ hk)

theorem Rewritten.tallied {s t : XpState T} {key : T.AccountId} (hw : Rewritten key s t)
    (h : Tallied s) : Tallied t := by
  rcases hw with rfl | ⟨xp, xp', hx, rfl, hr, hl⟩
  · exact h
  · refine h.write (fun k hk => ⟨StorageMap.get_insert_of_ne hk, rfl, rfl⟩)
      (StorageMap.get_insert_self ..) ?_
    exact (h.aggregated key xp hx).congr hr hl

theorem keeps_setReserve (key : T.AccountId) (reason : T.ReserveReason) (points : Nat) :
    Keeps Tallied (setReserve key reason points) := by
  intro s h
  rcases @setReserve_leaves T key reason points s with hs | hs
  · rwa [hs]
  · obtain ⟨xp, new, total, hx, hs, hb⟩ := hs
    rw [hs]
    have hold := h.aggregated key xp hx
    refine h.write (fun k hk => ⟨StorageMap.get_insert_of_ne hk, ?_, rfl⟩)
      (StorageMap.get_insert_self ..) ?_
    · simp only [XpState.reserves, StorageMap.get_insert_of_ne hk]
    · simp only [XpState.reserves, StorageMap.get_insert_self, Option.getD_some]
      have htotal := hb.total
      have hsum := hold.reserve
      exact ⟨by dsimp only; omega, hold.lock, hb.ids hold.reserveIds, hold.lockIds, hold.locked⟩

theorem keeps_setLock (key : T.AccountId) (reason : T.LockReason) (points : Nat) :
    Keeps Tallied (setLock key reason points) := by
  intro s h
  rcases @setLock_leaves T key reason points s with hs | hs
  · rwa [hs]
  · obtain ⟨xp, new, total, hx, hpos, hs, hb⟩ := hs
    rw [hs]
    have hold := h.aggregated key xp hx
    refine h.write (fun k hk => ⟨StorageMap.get_insert_of_ne hk, rfl, ?_⟩)
      (StorageMap.get_insert_self ..) ?_
    · simp only [XpState.locks, StorageMap.get_insert_of_ne hk]
    · simp only [XpState.locks, StorageMap.get_insert_self, Option.getD_some]
      have htotal := hb.total
      have hsum := hold.lock
      refine ⟨hold.reserve, by dsimp only; omega, hold.reserveIds, hb.ids hold.lockIds, fun l hl => ?_⟩
      rcases hb.points l hl with heq | hmem
      · exact heq ▸ hpos
      · exact hold.locked l hmem

theorem keeps_burnLock (key : T.AccountId) (reason : T.LockReason) :
    Keeps Tallied (burnLock key reason) := by
  intro s h
  rcases @burnLock_leaves T key reason s with hs | ⟨es, e, hes, he, hs⟩
  · rwa [hs]
  · have hlocks : s.locks key = es := by simp only [XpState.locks, hes, Option.getD_some]
    rw [hs]
    cases hx : s.xpOf.get key with
    | none =>
      have hnil := (h.blank key hx).2
      rw [hlocks] at hnil
      subst hnil
      cases he
    | some xp =>
      have hold := h.aggregated key xp hx
      rw [hlocks] at hold
      refine h.write (fun k hk => ⟨StorageMap.get_insert_of_ne hk, rfl, ?_⟩)
        (StorageMap.get_insert_self ..) ?_
      · simp only [XpState.locks, StorageMap.get_insert_of_ne hk]
      · simp only [XpState.locks, StorageMap.get_insert_self, Option.getD_some]
        have hdrop := totalPoints_filter hold.lockIds he
        have hsum := hold.lock
        have hsub : List.Sublist ((es.filter fun lock => lock.id ≠ reason).map IdXp.id) (es.map IdXp.id) :=
          List.filter_sublist.map _
        refine ⟨hold.reserve, ?_, hold.reserveIds, hold.lockIds.sublist hsub, fun l hl => ?_⟩
        · dsimp only
          omega
        · exact hold.locked l (List.mem_of_mem_filter hl)

theorem Tallied.withstands : Withstands (Tallied (T := T)) where
  setXp _ points s h := (setXp_rewritten s points).tallied h
  earnXp _ points s h := (earnXp_rewritten s points).tallied h
  setReserve := keeps_setReserve
  setLock := keeps_setLock
  burnLock := keeps_burnLock

section Lifecycle

variable {owner key : T.AccountId}

theorem Tallied.congr {s t : XpState T} (h : Tallied s) (hx : t.xpOf = s.xpOf)
    (hr : t.reservedXpOf = s.reservedXpOf) (hl : t.lockedXpOf = s.lockedXpOf) : Tallied t := by
  cases t
  dsimp only at hx hr hl
  subst hx hr hl
  exact ⟨h.aggregated, h.blank⟩

theorem Tallied.entries {s : XpState T} (h : Tallied s) (key : T.AccountId) :
    ((s.reserves key).map IdXp.id).Nodup ∧ ((s.locks key).map IdXp.id).Nodup ∧
      ∀ l ∈ s.locks key, l.points ≠ 0 := by
  cases hx : s.xpOf.get key with
  | none =>
    obtain ⟨hr, hl⟩ := h.blank key hx
    rw [hr, hl]
    exact ⟨List.nodup_nil, List.nodup_nil, fun l hmem => (List.not_mem_nil hmem).elim⟩
  | some xp =>
    have hkey := h.aggregated key xp hx
    exact ⟨hkey.reserveIds, hkey.lockIds, hkey.locked⟩

/-- No points of the identity are set aside. -/
def XpState.noneAside (s : XpState T) (key : T.AccountId) : Prop :=
  totalPoints (s.reserves key) = 0 ∧ totalPoints (s.locks key) = 0

theorem Tallied.newXp {s : XpState T} (h : Tallied s) (hz : s.noneAside key) :
    Tallied (leaves (newXp owner key) s) := by
  obtain ⟨hr, hl, hlocked⟩ := h.entries key
  refine h.write (fun k hk => ⟨StorageMap.get_insert_of_ne hk, rfl, rfl⟩)
    (StorageMap.get_insert_self ..) ?_
  exact ⟨hz.1.symm, hz.2.symm, hr, hl, hlocked⟩

theorem noneAside_of_newXp {s : XpState T} (h : Aggregated (leaves (newXp owner key) s)) :
    s.noneAside key := by
  have hkey := h key (Xp.default s) (StorageMap.get_insert_self ..)
  exact ⟨hkey.reserve.symm, hkey.lock.symm⟩

theorem createXp_leaves (s : XpState T) :
    leaves (createXp owner key) s = leaves (newXp owner key) s := by
  have hnew : (leaves (newXp owner key) s).xpOf.get key = some (Xp.default s) :=
    StorageMap.get_insert_self ..
  change leaves (setXp key s.initXp) (leaves (newXp owner key) s) = _
  unfold setXp
  rw [leaves_mutateXp, hnew]
  simp only [leaves_modify]
  exact congrArg (fun m => { leaves (newXp owner key) s with xpOf := m }) (StorageMap.insert_of_get hnew)

theorem Tallied.beginXp {s : XpState T} (h : Tallied s) (points : Nat) :
    Tallied (leaves (beginXp owner key points) s) := by
  unfold FrameSuite.beginXp
  rw [leaves_get_bind]
  split
  · exact h
  · split
    · exact ((Tallied.withstands.earnXp key points).bind fun _ => Keeps.pure _) s h
    · rename_i hex
      rw [createXp_leaves]
      have hnone : s.xpOf.get key = none := by
        cases hx : s.xpOf.get key with
        | none => rfl
        | some xp =>
          refine absurd ?_ hex
          simp [xpExists, ensure, StorageMap.containsKey, hx, Except.isOk, Except.toBool]
      obtain ⟨hr, hl⟩ := h.blank key hnone
      refine h.newXp ⟨?_, ?_⟩
      · rw [hr, totalPoints_nil]
      · rw [hl, totalPoints_nil]

theorem locks_of_not_hasLock {s : XpState T} (h : ¬(hasLock key s).isOk = true) : s.locks key = [] := by
  unfold hasLock at h
  unfold XpState.locks
  cases hl : s.lockedXpOf.get key with
  | none => rfl
  | some locks =>
    cases locks with
    | nil => rfl
    | cons l ls =>
      refine absurd ?_ h
      simp [hl, ensure, Except.isOk, Except.toBool]

theorem keeps_reapXp : Keeps Tallied (reapXp key) := by
  refine (Keeps.reads _).bind fun reapable s h => ?_
  rw [leaves_get_bind]
  split
  · exact h
  · rename_i hlock
    have hnil := locks_of_not_hasLock hlock
    change Tallied { s with
      xpOf := s.xpOf.remove key
      reservedXpOf := s.reservedXpOf.remove key
      reapedXp := s.reapedXp.insert key () }
    constructor
    · intro k xp hk
      have hne : k ≠ key := fun heq => by
        dsimp only at hk
        rw [heq, StorageMap.get_remove_self] at hk
        cases hk
      rw [StorageMap.get_remove_of_ne hne] at hk
      have hkey := h.aggregated k xp hk
      unfold XpState.reserves XpState.locks at hkey ⊢
      rwa [StorageMap.get_remove_of_ne hne]
    · intro k hk
      by_cases hne : k = key
      · subst hne
        refine ⟨?_, hnil⟩
        simp only [XpState.reserves, StorageMap.get_remove_self, Option.getD_none]
      · rw [StorageMap.get_remove_of_ne hne] at hk
        have hblank := h.blank k hk
        unfold XpState.reserves XpState.locks at hblank ⊢
        rwa [StorageMap.get_remove_of_ne hne]

theorem keeps_tryReap : Keeps Tallied (tryReap key) := (Keeps.reads _).bind fun _ => keeps_reapXp

theorem keeps_transferOwner (newOwner : T.AccountId) : Keeps Tallied (transferOwner owner key newOwner) := by
  refine (Keeps.reads _).bind fun _ => Keeps.ite (fun _ => Keeps.pure _) fun _ s h => ?_
  exact h.congr rfl rfl rfl

theorem keeps_handover (newOwner : T.AccountId) : Keeps Tallied (handover owner key newOwner) :=
  (Keeps.reads _).bind fun _ => (Keeps.reads _).bind fun _ =>
    Keeps.ite (fun _ => Keeps.throw _) fun _ => keeps_transferOwner newOwner

theorem keeps_dispose : Keeps Tallied (dispose owner key) :=
  (Keeps.reads _).bind fun _ => (Keeps.reads _).bind fun _ => keeps_tryReap.bind fun _ => Keeps.pure _

theorem keeps_forceGenesisConfig (field : ForceGenesisConfig) :
    Keeps (Tallied (T := T)) (forceGenesisConfig field) := by
  intro s h
  unfold leaves forceGenesisConfig
  cases field with
  | minPulse value => exact h.congr rfl rfl rfl
  | initXp value => exact h.congr rfl rfl rfl
  | pulseFactor threshold perCount =>
    dsimp only
    cases Stepper.new threshold perCount <;> exact h.congr rfl rfl rfl
  | minTimeStamp value =>
    dsimp only
    by_cases hb : s.blockNumber < value
    · rw [if_pos hb]
      exact h
    · rw [if_neg hb]
      exact h.congr rfl rfl rfl

end Lifecycle

/-- A new record is only created for an identity with no points set aside. -/
def XpOp.startsClear (s : XpState T) : XpOp T → Prop
  | .newXp _ key => s.noneAside key
  | .createXp _ key => s.noneAside key
  | _ => True

theorem Tallied.perform {s : XpState T} (h : Tallied s) {op : XpOp T} (hc : op.startsClear s) :
    Tallied (s.perform op) := by
  cases op with
  | newXp owner key => exact h.newXp hc
  | createXp owner key =>
    change Tallied (leaves (createXp owner key) s)
    rw [createXp_leaves]
    exact h.newXp hc
  | beginXp owner key points => exact h.beginXp points
  | tryReap key => exact keeps_tryReap s h
  | transferOwner owner key newOwner => exact keeps_transferOwner newOwner s h
  | handover caller key newOwner => exact keeps_handover newOwner s h
  | forceHandover owner key newOwner => exact keeps_handover newOwner s h
  | dispose owner key => exact keeps_dispose s h
  | forceGenesisConfig field => exact keeps_forceGenesisConfig field s h
  | block number => exact h.congr rfl rfl rfl
  | _ => exact Tallied.withstands.perform h rfl

theorem startsClear_of_aggregated {s : XpState T} {op : XpOp T} (h : Aggregated (s.perform op)) :
    op.startsClear s := by
  cases op with
  | newXp owner key => exact noneAside_of_newXp h
  | createXp owner key =>
    change Aggregated (leaves (createXp owner key) s) at h
    rw [createXp_leaves] at h
    exact noneAside_of_newXp h
  | _ => trivial

theorem tallied_empty (genesis : XpGenesis T) : Tallied genesis.empty :=
  ⟨fun _ _ h => (Option.some_ne_none _ h.symm).elim, fun _ _ => ⟨rfl, rfl⟩⟩

/-- Genesis may list an identity twice: it has no points set aside yet. -/
theorem tallied_build (genesis : XpGenesis T) : Tallied genesis.build := by
  have h : ∀ (accounts : List (T.AccountId × T.AccountId)) (s : XpState T), Tallied s →
      (∀ key, s.reserves key = [] ∧ s.locks key = []) →
      Tallied (s.after (accounts.map fun account => .newXp account.1 account.2)) := by
    intro accounts
    induction accounts with
    | nil => exact fun s h _ => h
    | cons account accounts ih =>
      intro s h hnone
      refine ih _ (h.newXp ⟨?_, ?_⟩) fun key => hnone key
      · rw [(hnone account.2).1, totalPoints_nil]
      · rw [(hnone account.2).2, totalPoints_nil]
  exact h genesis.accounts genesis.empty (tallied_empty genesis) fun _ => ⟨rfl, rfl⟩

theorem aggregated_iff_startsClear (genesis : XpGenesis T) (ops : List (XpOp T)) :
    (∀ pre, pre <+: ops → Aggregated (genesis.build.after pre)) ↔
      RunMeets XpState.apply (fun s op => op.startsClear s) genesis.build ops := by
  refine forall_prefix_iff (fun s (h : Tallied s) => h.aggregated) (fun s op t h hq ht => ?_)
    (fun s op t h ht hp => ?_) (tallied_build genesis) ops
  · obtain rfl := Except.ok.inj ht
    exact h.perform hq
  · obtain rfl := Except.ok.inj ht
    exact startsClear_of_aggregated hp

inductive Reason
  | staking
  | treasury
  | governance
deriving DecidableEq

/-- The mock configuration of the pallet, with 64-bit points and a 32-bit pulse. -/
def mockXp : XpConfig where
  AccountId := Nat
  ReserveReason := Reason
  LockReason := Reason
  decEqAccountId := inferInstance
  decEqReserveReason := inferInstance
  decEqLockReason := inferInstance
  maximumReserves := 3
  maximumLocks := 3
  maxXp := 2 ^ 64 - 1
  maxPulse := 2 ^ 32 - 1

def mockGenesis : XpGenesis mockXp where
  minPulse := 1
  initXp := 10
  pulseFactor := ⟨50, 10⟩
  accounts := []

def relocked : List (XpOp mockXp) :=
  [.createXp (1 : Nat) (7 : Nat), .lockXp (7 : Nat) Reason.staking 5, .createXp (1 : Nat) (7 : Nat)]

/-- Creating the identity again leaves a lock of five points under a total of zero. -/
theorem recreated_record_forgets_lock :
    ¬∀ (genesis : XpGenesis mockXp) (ops pre : List (XpOp mockXp)), pre <+: ops →
      Aggregated (genesis.build.after pre) := by
  intro h
  have hkey := h mockGenesis relocked relocked (List.prefix_refl _) (7 : Nat)
    ⟨10, 0, 0, Accumulator.default, 0⟩ rfl
  exact absurd hkey.lock (by decide)

end FrameSuite
