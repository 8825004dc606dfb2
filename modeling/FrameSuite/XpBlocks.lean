import FrameSuite.XpIdentity
import FrameSuite.XpPreview
import FrameSuite.XpPulse

/-! The calls of one block. A pulse that counts grows once in a block at most, since the first call leaves
the number of the block with the record. A pulse that warms up has no such guard: each call counts. -/

namespace FrameSuite

variable {T : XpConfig}

/-- The points of the earning call that an operation makes for the identity. -/
def XpState.earnPoints (s : XpState T) (key : T.AccountId) : XpOp T → Option Nat
  | .earnXp k points => if k = key then some points else none
  | .beginXp _ k points =>
    if k = key ∧ (isReaped k s).isOk = false ∧ (xpExists k s).isOk = true then some points else none
  | _ => none

/-- The operation is an earning call that counts a beat of the pulse. -/
def XpState.stepsPulse (s : XpState T) (key : T.AccountId) (op : XpOp T) : Bool :=
  match s.xpOf.get key, s.earnPoints key op with
  | some xp, some points => decide (s.beats key xp points)
  | _, _ => false

/-- The operation is an earning call that finds the pulse below the minimum. -/
def XpState.warmsAt (s : XpState T) (key : T.AccountId) (op : XpOp T) : Bool :=
  match s.xpOf.get key, s.earnPoints key op with
  | some xp, some _ => decide (xp.pulse.value < s.minPulse)
  | _, _ => false

/-- The operation is an earning call that credits more than the raw points. -/
def XpState.boosts (s : XpState T) (key : T.AccountId) (op : XpOp T) : Bool :=
  match s.earnPoints key op with
  | none => false
  | some points =>
    match earnXp key points s with
    | .ok actual _ => decide (points < actual)
    | .error _ _ => false

/-- The operation warms the pulse up again, where `stepped` says whether an earlier one of the block
stepped it. -/
def XpState.warmsAgain (s : XpState T) (key : T.AccountId) (stepped : Bool) (op : XpOp T) : Nat :=
  if stepped = true ∧ s.warmsAt key op = true then 1 else 0

def warmUpsAgain (key : T.AccountId) : Bool → XpState T → List (XpOp T) → Nat
  | _, _, [] => 0
  | stepped, s, op :: ops =>
    s.warmsAgain key stepped op + warmUpsAgain key (stepped || s.stepsPulse key op) (s.perform op) ops

def boostedCalls (key : T.AccountId) : XpState T → List (XpOp T) → Nat
  | _, [] => 0
  | s, op :: ops => (if s.boosts key op then 1 else 0) + boostedCalls key (s.perform op) ops

/-- The potential of the pulse of an identity, where there is one. -/
def XpState.pulsePotential (s : XpState T) (key : T.AccountId) : Nat :=
  match s.xpOf.get key with
  | none => 0
  | some xp => xp.pulse.potential s.pulseFactor.threshold

/-- The block and the factor of the pulse stay as they are. -/
def XpOp.staysInBlock : XpOp T → Bool
  | .block _ => false
  | .forceGenesisConfig (.pulseFactor ..) => false
  | _ => true

/-- Within a block the pulse grows by one count and one call credits more than its points, at most. -/
structure OncePerBlock (s : XpState T) (key : T.AccountId) (ops : List (XpOp T)) : Prop where
  pulse : (s.after ops).pulsePotential key ≤ s.pulsePotential key + s.pulseFactor.perCount
  credit : boostedCalls key s ops ≤ 1

/-- Within a block the pulse grows by one count, and by one more for each call that warms it up again; one
call credits more than its points, at most. -/
structure StepsInBlock (s : XpState T) (key : T.AccountId) (ops : List (XpOp T)) : Prop where
  pulse : (s.after ops).pulsePotential key ≤
    s.pulsePotential key + s.pulseFactor.perCount * (1 + warmUpsAgain key false s ops)
  credit : boostedCalls key s ops ≤ 1

/-- What the record of an identity has to meet while the block and the factor stay as they are. -/
structure PulseMeets (key : T.AccountId) (stepper : Stepper) (number : Nat) (R : Accumulator → Nat → Prop)
    (s : XpState T) : Prop where
  stepper : s.pulseFactor = stepper
  number : s.blockNumber = number
  record : ∀ xp, s.xpOf.get key = some xp → R xp.pulse xp.timestamp

section Frame

variable {key : T.AccountId} {stepper : Stepper} {number : Nat} {R : Accumulator → Nat → Prop} {s t : XpState T}

theorem PulseMeets.write (h : PulseMeets key stepper number R s) {k : T.AccountId} {xp xp' : Xp}
    (hx : s.xpOf.get k = some xp) (ht : t.xpOf = s.xpOf.insert k xp')
    (hp : xp'.pulse = xp.pulse ∧ xp'.timestamp = xp.timestamp) (hsame : t.pulseFactor = s.pulseFactor ∧ t.blockNumber = s.blockNumber) :
    PulseMeets key stepper number R t where
  stepper := hsame.1.trans h.stepper
  number := hsame.2.trans h.number
  record xp'' hget := by
    rw [ht, StorageMap.get_insert] at hget
    split at hget <;> rename_i hk
    · obtain rfl := Option.some.inj hget
      rw [hp.1, hp.2]
      exact h.record xp (hk ▸ hx)
    · exact h.record xp'' hget

theorem PulseMeets.congr (h : PulseMeets key stepper number R s) (hx : t.xpOf = s.xpOf)
    (hsame : t.pulseFactor = s.pulseFactor ∧ t.blockNumber = s.blockNumber) :
    PulseMeets key stepper number R t where
  stepper := hsame.1.trans h.stepper
  number := hsame.2.trans h.number
  record xp hget := h.record xp (hx ▸ hget)

theorem PulseMeets.withstandsMoves : WithstandsMoves (PulseMeets (T := T) key stepper number R) where
  setXp k points s h := by
    unfold setXp
    rw [leaves_mutateXp]
    cases hx : s.xpOf.get k with
    | none => exact h
    | some xp => exact h.write hx rfl ⟨rfl, rfl⟩ ⟨rfl, rfl⟩
  setReserve k reason points s h := by
    rcases @setReserve_leaves T k reason points s with hs | ⟨xp, new, total, hx, hs, -⟩
    · rwa [hs]
    · rw [hs]
      exact h.write hx rfl ⟨rfl, rfl⟩ ⟨rfl, rfl⟩
  setLock k reason points s h := by
    rcases @setLock_leaves T k reason points s with hs | ⟨xp, new, total, hx, -, hs, -⟩
    · rwa [hs]
    · rw [hs]
      exact h.write hx rfl ⟨rfl, rfl⟩ ⟨rfl, rfl⟩
  burnLock k reason s h := by
    rcases @burnLock_leaves T k reason s with hs | ⟨es, e, -, -, hs⟩
    · rwa [hs]
    · rw [hs]
      cases hx : s.xpOf.get k with
      | none => exact h.congr rfl ⟨rfl, rfl⟩
      | some xp => exact h.write hx rfl ⟨rfl, rfl⟩ ⟨rfl, rfl⟩

theorem PulseMeets.earnXp_of_ne {k : T.AccountId} (hk : k ≠ key) (points : Nat) :
    Keeps (PulseMeets (T := T) key stepper number R) (earnXp k points) := by
  intro s h
  unfold earnXp
  rw [leaves_get_bind, leaves_mutateXp]
  cases hx : s.xpOf.get k with
  | none => exact h
  | some xp =>
    refine ⟨h.stepper, h.number, fun xp' hget => h.record xp' ?_⟩
    rwa [StorageMap.get_insert_of_ne hk.symm] at hget

section Lifecycle

variable {owner k : T.AccountId} (hnew : R Accumulator.default number)
include hnew

theorem PulseMeets.newXp : Keeps (PulseMeets (T := T) key stepper number R) (newXp owner k) := by
  intro s h
  refine ⟨h.stepper, h.number, fun xp hget => ?_⟩
  change (s.xpOf.insert k (Xp.default s)).get key = some xp at hget
  rw [StorageMap.get_insert] at hget
  split at hget
  · obtain rfl := Option.some.inj hget
    change R Accumulator.default s.blockNumber
    rwa [h.number]
  · exact h.record xp hget

theorem PulseMeets.createXp : Keeps (PulseMeets (T := T) key stepper number R) (createXp owner k) := by
  intro s h
  rw [createXp_leaves]
  exact PulseMeets.newXp hnew s h

theorem PulseMeets.beginXp {points : Nat} (h : PulseMeets key stepper number R s)
    (hcall : s.earnPoints key (.beginXp owner k points) = none) :
    PulseMeets key stepper number R (leaves (beginXp owner k points) s) := by
  unfold FrameSuite.beginXp
  rw [leaves_get_bind]
  split
  · exact h
  · rename_i hreaped
    split
    · rename_i hex
      have hk : k ≠ key := fun hk => by
        unfold XpState.earnPoints at hcall
        simp [hk, hk ▸ hreaped, hk ▸ hex] at hcall
      exact ((PulseMeets.earnXp_of_ne hk points).bind fun _ => Keeps.pure _) s h
    · exact PulseMeets.createXp hnew s h

omit hnew

theorem PulseMeets.tryReap : Keeps (PulseMeets (T := T) key stepper number R) (tryReap k) := by
  intro s h
  cases hc : canReap k s with
  | error e => rwa [tryReap_of_error hc]
  | ok u =>
    rw [tryReap_of_ok hc]
    refine ⟨h.stepper, h.number, fun xp hget => ?_⟩
    dsimp only at hget
    rw [StorageMap.get_remove] at hget
    split at hget
    · cases hget
    · exact h.record xp hget

theorem PulseMeets.transferOwner (newOwner : T.AccountId) :
    Keeps (PulseMeets (T := T) key stepper number R) (transferOwner owner k newOwner) :=
  (Keeps.reads _).bind fun _ => Keeps.ite (fun _ => Keeps.pure _) fun _ _ h => h.congr rfl ⟨rfl, rfl⟩

theorem PulseMeets.handover (newOwner : T.AccountId) :
    Keeps (PulseMeets (T := T) key stepper number R) (handover owner k newOwner) :=
  (Keeps.reads _).bind fun _ => (Keeps.reads _).bind fun _ =>
    Keeps.ite (fun _ => Keeps.throw _) fun _ => PulseMeets.transferOwner newOwner

theorem PulseMeets.dispose : Keeps (PulseMeets (T := T) key stepper number R) (dispose owner k) :=
  (Keeps.reads _).bind fun _ => (Keeps.reads _).bind fun _ => PulseMeets.tryReap.bind fun _ => Keeps.pure _

theorem PulseMeets.forceGenesisConfig {field : ForceGenesisConfig} (h : PulseMeets key stepper number R s)
    (hstays : (XpOp.forceGenesisConfig (T := T) field).staysInBlock = true) :
    PulseMeets key stepper number R (leaves (forceGenesisConfig field) s) := by
  unfold leaves FrameSuite.forceGenesisConfig
  cases field with
  | minPulse value => exact h.congr rfl ⟨rfl, rfl⟩
  | initXp value => exact h.congr rfl ⟨rfl, rfl⟩
  | pulseFactor threshold perCount => cases hstays
  | minTimeStamp value =>
    dsimp only
    by_cases hb : s.blockNumber < value
    · rw [if_pos hb]
      exact h
    · rw [if_neg hb]
      exact h.congr rfl ⟨rfl, rfl⟩

end Lifecycle

/-- What a new record meets withstands every operation within the block that is no earning call for the
identity. -/
theorem PulseMeets.perform (h : PulseMeets key stepper number R s) (hnew : R Accumulator.default number)
    {op : XpOp T} (hcall : s.earnPoints key op = none) (hstays : op.staysInBlock = true) :
    PulseMeets key stepper number R (s.perform op) := by
  cases op with
  | newXp owner k => exact PulseMeets.newXp hnew s h
  | createXp owner k => exact PulseMeets.createXp hnew s h
  | beginXp owner k points => exact PulseMeets.beginXp hnew h hcall
  | tryReap k => exact PulseMeets.tryReap s h
  | transferOwner owner k newOwner => exact PulseMeets.transferOwner newOwner s h
  | handover caller k newOwner => exact PulseMeets.handover newOwner s h
  | forceHandover owner k newOwner => exact PulseMeets.handover newOwner s h
  | dispose owner k => exact PulseMeets.dispose s h
  | forceGenesisConfig field => exact PulseMeets.forceGenesisConfig h hstays
  | block number => cases hstays
  | earnXp k points =>
    have hk : k ≠ key := fun hk => by simp [XpState.earnPoints, hk] at hcall
    exact PulseMeets.earnXp_of_ne hk points s h
  | _ => exact PulseMeets.withstandsMoves.perform h rfl fun _ _ heq => by cases heq

end Frame

section Calls

variable {key : T.AccountId} {stepper : Stepper} {number limit points : Nat} {R R' : Accumulator → Nat → Prop}
  {s : XpState T} {op : XpOp T}

theorem perform_of_earnPoints (hcall : s.earnPoints key op = some points) :
    s.perform op = leaves (earnXp key points) s := by
  cases op with
  | earnXp k raw =>
    change (if k = key then some raw else none) = some points at hcall
    split at hcall <;> rename_i hk
    · cases hcall
      rw [← hk]
      rfl
    · cases hcall
  | beginXp owner k raw =>
    change (if k = key ∧ (isReaped k s).isOk = false ∧ (xpExists k s).isOk = true then some raw else none) =
      some points at hcall
    split at hcall <;> rename_i hk
    · obtain ⟨rfl, hreaped, hex⟩ := hk
      cases hcall
      change leaves (beginXp owner k points) s = _
      unfold beginXp
      rw [leaves_get_bind, if_neg (Bool.not_eq_true _ ▸ hreaped), if_pos hex]
      exact leaves_bind_pure _ (fun _ => ()) s
    · cases hcall
  | _ => cases hcall

theorem PulseMeets.earnCall (h : PulseMeets key stepper number R s) (hcall : s.earnPoints key op = some points)
    (hR : ∀ xp, s.xpOf.get key = some xp → R xp.pulse xp.timestamp →
      R' (leaves (earn s key points) xp).pulse (leaves (earn s key points) xp).timestamp) :
    PulseMeets key stepper number R' (s.perform op) := by
  rw [perform_of_earnPoints hcall]
  cases hx : s.xpOf.get key with
  | none =>
    have hsame : leaves (earnXp key points) s = s := by
      unfold earnXp
      rw [leaves_get_bind, leaves_mutateXp, hx]
    rw [hsame]
    exact ⟨h.stepper, h.number, fun xp hget => by rw [hx] at hget; cases hget⟩
  | some xp =>
    rw [leaves_earnXp hx]
    refine ⟨h.stepper, h.number, fun xp' hget => ?_⟩
    obtain rfl := Option.some.inj ((StorageMap.get_insert_self ..).symm.trans hget)
    exact hR xp hx (h.record xp hx)

/-- The pulse grew by no more than a count, and if it did the record carries the block. -/
def Grown (stepper : Stepper) (number limit : Nat) (stepped : Bool) (pulse : Accumulator) (timestamp : Nat) : Prop :=
  pulse.potential stepper.threshold ≤ limit + (if stepped = true then stepper.perCount else 0) ∧
    (stepped = true → number ≤ timestamp)

theorem grown_default (stepped : Bool) : Grown stepper number limit stepped Accumulator.default number := by
  refine ⟨?_, fun _ => le_rfl⟩
  unfold Accumulator.potential Accumulator.default
  rw [Nat.zero_mul]
  exact Nat.zero_le _

theorem Grown.mono {limit' : Nat} {stepped : Bool} {pulse : Accumulator} {timestamp : Nat} (hle : limit ≤ limit')
    (h : Grown stepper number limit stepped pulse timestamp) : Grown stepper number limit' stepped pulse timestamp :=
  ⟨h.1.trans (Nat.add_le_add_right hle _), h.2⟩

/-- An earning call that counts a beat is the first one of the block to do so, or warms up. -/
theorem Grown.call {stepped : Bool} {xp : Xp} (hsame : s.pulseFactor = stepper) (hnow : s.blockNumber = number)
    (hcall : s.earnPoints key op = some points) (hx : s.xpOf.get key = some xp)
    (h : Grown stepper number limit stepped xp.pulse xp.timestamp) :
    Grown stepper number (limit + stepper.perCount * s.warmsAgain key stepped op) (stepped || s.stepsPulse key op)
      (leaves (earn s key points) xp).pulse (leaves (earn s key points) xp).timestamp := by
  obtain ⟨hbefore, hstamped⟩ := h
  have hsteps : s.stepsPulse key op = decide (s.beats key xp points) := by
    unfold XpState.stepsPulse
    rw [hx, hcall]
  have hwarms : s.warmsAt key op = decide (xp.pulse.value < s.minPulse) := by
    unfold XpState.warmsAt
    rw [hx, hcall]
  have hpulse := @earn_pulse_cases T s key xp points
  have htime := @earn_timestamp_cases T s key xp points
  rw [hsteps]
  by_cases hbeats : s.beats key xp points
  · rw [decide_eq_true hbeats, Bool.or_true]
    refine ⟨?_, fun _ => by rcases htime with hnew | ⟨⟨hold, -⟩, hkept⟩ <;> omega⟩
    have hgain : (leaves (earn s key points) xp).pulse.potential stepper.threshold ≤
        xp.pulse.potential stepper.threshold + stepper.perCount := by
      rcases hpulse with hkept | ⟨-, hone⟩
      · rw [hkept]
        exact Nat.le_add_right _ _
      · rw [← hsame]
        exact increment_potential_le hone
    rw [if_pos rfl]
    cases stepped with
    | false =>
      rw [if_neg Bool.false_ne_true] at hbefore
      omega
    | true =>
      -- the stamp of the earlier call leaves only the warm-up to count this one
      have hlow : xp.pulse.value < s.minPulse := by
        rcases hbeats with hlow | ⟨⟨hlater, -⟩, -⟩
        · exact hlow
        · have hlast := hstamped rfl
          omega
      rw [if_pos rfl] at hbefore
      unfold XpState.warmsAgain
      rw [if_pos ⟨rfl, hwarms.trans (decide_eq_true hlow)⟩]
      omega
  · rw [decide_eq_false hbeats, Bool.or_false, hpulse.resolve_right fun hc => hbeats hc.1]
    refine ⟨hbefore.trans ?_, fun hstepped => ?_⟩
    · omega
    · rcases htime with hnew | ⟨-, hkept⟩
      · omega
      · rw [hkept]
        exact hstamped hstepped

theorem Grown.step {stepped : Bool} (h : PulseMeets key stepper number (Grown stepper number limit stepped) s)
    (hstays : op.staysInBlock = true) :
    PulseMeets key stepper number
      (Grown stepper number (limit + stepper.perCount * s.warmsAgain key stepped op) (stepped || s.stepsPulse key op))
      (s.perform op) := by
  cases hcall : s.earnPoints key op with
  | none =>
    have hno : s.stepsPulse key op = false := by
      unfold XpState.stepsPulse
      rw [hcall]
      cases s.xpOf.get key <;> rfl
    rw [hno, Bool.or_false]
    have hkept := h.perform (grown_default stepped) hcall hstays
    exact ⟨hkept.stepper, hkept.number, fun xp hx => (hkept.record xp hx).mono (Nat.le_add_right _ _)⟩
  | some points => exact h.earnCall hcall fun xp hx hgrown => Grown.call h.stepper h.number hcall hx hgrown

theorem Grown.run {stepped : Bool} {ops : List (XpOp T)}
    (h : PulseMeets key stepper number (Grown stepper number limit stepped) s)
    (hstays : ∀ op ∈ ops, op.staysInBlock = true) :
    (s.after ops).pulsePotential key ≤ limit + stepper.perCount * (1 + warmUpsAgain key stepped s ops) := by
  induction ops generalizing s stepped limit with
  | nil =>
    change s.pulsePotential key ≤ limit + stepper.perCount * (1 + 0)
    unfold XpState.pulsePotential
    cases hx : s.xpOf.get key with
    | none => exact Nat.zero_le _
    | some xp =>
      have hgrown := (h.record xp hx).1
      rw [h.stepper]
      dsimp only
      split at hgrown <;> omega
  | cons op ops ih =>
    have hnext := ih (Grown.step h (hstays op (List.mem_cons_self ..)))
      fun o ho => hstays o (List.mem_cons_of_mem _ ho)
    refine hnext.trans (le_of_eq ?_)
    rw [warmUpsAgain]
    ring

theorem scales_of_boosts (h : s.boosts key op = true) :
    ∃ points xp, s.earnPoints key op = some points ∧ s.xpOf.get key = some xp ∧ s.scales xp := by
  unfold XpState.boosts at h
  cases hcall : s.earnPoints key op with
  | none =>
    rw [hcall] at h
    cases h
  | some points =>
    rw [hcall] at h
    dsimp only at h
    cases hx : s.xpOf.get key with
    | none =>
      unfold earnXp at h
      rw [get_bind] at h
      unfold mutateXp at h
      simp [hx] at h
    | some xp =>
      refine ⟨points, xp, rfl, rfl, ?_⟩
      cases hearn : earn s key points xp with
      | ok actual xp' =>
        rw [earnXp_of_ok hx hearn] at h
        exact scales_of_earn_ok hearn (of_decide_eq_true h)
      | error e xp' =>
        rw [earnXp_of_error hx hearn] at h
        cases h

theorem boostedCalls_of_stamped {ops : List (XpOp T)}
    (h : PulseMeets key stepper number (fun _ timestamp => number ≤ timestamp) s)
    (hstays : ∀ op ∈ ops, op.staysInBlock = true) : boostedCalls key s ops = 0 := by
  induction ops generalizing s with
  | nil => rfl
  | cons op ops ih =>
    have hhead := hstays op (List.mem_cons_self ..)
    have hno : ¬s.boosts key op = true := fun hboost => by
      obtain ⟨points, xp, -, hx, hlater, -⟩ := scales_of_boosts hboost
      have hstamped := h.record xp hx
      have hblock := h.number
      omega
    have hnext : PulseMeets key stepper number (fun _ timestamp => number ≤ timestamp) (s.perform op) := by
      cases hcall : s.earnPoints key op with
      | none => exact h.perform le_rfl hcall hhead
      | some points =>
        refine h.earnCall hcall fun xp hx hstamped => ?_
        have hblock := h.number
        rcases @earn_timestamp_cases T s key xp points with hnow | ⟨-, hsame⟩ <;> omega
    unfold boostedCalls
    rw [if_neg hno, Nat.zero_add]
    exact ih hnext fun o ho => hstays o (List.mem_cons_of_mem _ ho)

theorem boostedCalls_le_one {ops : List (XpOp T)} (hstays : ∀ op ∈ ops, op.staysInBlock = true) :
    boostedCalls key s ops ≤ 1 := by
  induction ops generalizing s with
  | nil => exact Nat.zero_le _
  | cons op ops ih =>
    have htail := fun o ho => hstays o (List.mem_cons_of_mem _ ho)
    unfold boostedCalls
    by_cases hboost : s.boosts key op = true
    · obtain ⟨points, -, hcall, -, -⟩ := scales_of_boosts hboost
      have hany : PulseMeets key s.pulseFactor s.blockNumber (fun _ _ => True) s := ⟨rfl, rfl, fun _ _ => trivial⟩
      have hstamped : PulseMeets key s.pulseFactor s.blockNumber (fun _ timestamp => s.blockNumber ≤ timestamp)
          (s.perform op) := by
        refine hany.earnCall hcall fun xp hx _ => ?_
        rcases @earn_timestamp_cases T s key xp points with hnow | ⟨⟨hold, -⟩, hsame⟩ <;> omega
      rw [if_pos hboost, boostedCalls_of_stamped hstamped htail]
    · rw [if_neg hboost, Nat.zero_add]
      exact ih htail

/-- In every stretch of operations within a block only the calls that warm the pulse up again add to its
one step. -/
theorem pulse_steps_once {within : List (XpOp T)} (hstays : ∀ op ∈ within, op.staysInBlock = true) :
    StepsInBlock s key within := by
  refine ⟨Grown.run ⟨rfl, rfl, fun xp hx => ⟨?_, fun hno => by cases hno⟩⟩ hstays, boostedCalls_le_one hstays⟩
  unfold XpState.pulsePotential
  rw [hx]
  exact le_rfl

end Calls

/-- Six calls in one block: four of them warm the pulse up again, and the last one finds it warm. -/
theorem warmed_up_once :
    StepsInBlock (mockGenesis.build.after [.createXp (1 : Nat) (7 : Nat), .block 1]) (7 : Nat)
        (List.replicate 6 (.earnXp (7 : Nat) 5)) ∧
      warmUpsAgain (7 : Nat) false (mockGenesis.build.after [.createXp (1 : Nat) (7 : Nat), .block 1])
        (List.replicate 6 (.earnXp (7 : Nat) 5)) = 4 :=
  ⟨@pulse_steps_once mockXp (7 : Nat) (mockGenesis.build.after [.createXp (1 : Nat) (7 : Nat), .block 1])
    (List.replicate 6 (.earnXp (7 : Nat) 5)) (by decide), by decide +kernel⟩

/-- Five calls in one block complete a warm-up of fifty steps. -/
theorem warm_up_within_a_block :
    ¬∀ (genesis : XpGenesis mockXp) (key : Nat) (before within : List (XpOp mockXp)),
      (∀ op ∈ within, op.staysInBlock = true) → OncePerBlock (genesis.build.after before) key within := by
  intro h
  have honce := h mockGenesis (7 : Nat) [.createXp (1 : Nat) (7 : Nat), .block 1]
    (List.replicate 5 (.earnXp (7 : Nat) 5)) (by decide)
  exact absurd honce.pulse (by decide +kernel)

end FrameSuite
