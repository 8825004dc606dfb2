import FrameSuite.FunderMirror
import FrameSuite.ObligationSteps

/-! Every obligation takes effect exactly once in the runs whose buffers are positive and whose blocks are
entered with holds that bear what is due. -/

namespace FrameSuite

variable {T : AuthorConfig}

/-- The obligation is booked for a later block, which the queries of its author show. -/
structure AuthorState.Shows (s : AuthorState T) (who : T.AccountId) (block : Nat) (o : Obligation) : Prop where
  found : s.hasDue who o.kind = .ok ()
  listed : ∃ dues, s.getDuesOf who o.kind = .ok dues ∧ (block, o) ∈ dues

/-- From one state to the next the obligations of a block are settled for the author: both components of
the hold are those that are due, and together they make up the hold that is due. -/
structure TakesEffect (s s' : AuthorState T) (who : T.AccountId) (block : Nat) (o : Obligation) : Prop where
  due : o ∈ s.dueOf block who
  parts : ∃ parts, holdParts s who = .ok parts ∧
    holdParts s' who = .ok ((s.dueOf block who).foldl (fun parts o => o.settle parts) parts)
  hold : ∃ hold, getHold s who = .ok hold ∧
    getHold s' who = .ok ((s.dueOf block who).foldl (fun hold o => o.due hold) hold)

/-- What is promised of an obligation booked in the state for the block, along later calls. -/
structure Honoured (s : AuthorState T) (who : T.AccountId) (block : Nat) (o : Obligation)
    (later : List (AuthorCall T)) : Prop where
  ahead : s.blockNumber < block
  shown : ∀ pre, pre <+: later → (run AuthorState.apply s pre).blockNumber < block →
    (run AuthorState.apply s pre).Shows who block o
  settled : ∀ pre, pre ++ [.enterBlock] <+: later → (run AuthorState.apply s pre).blockNumber + 1 = block →
    TakesEffect (run AuthorState.apply s pre) (run AuthorState.apply s (pre ++ [.enterBlock])) who block o
  once : ∀ pre, pre <+: later → block ≤ (run AuthorState.apply s pre).blockNumber →
    (run AuthorState.apply s pre).booked o.kind block who = none

/-- The buffer is not zero, and a block before the last of the type is free. -/
def AuthorState.hasRoom (s : AuthorState T) (kind : DueKind) (who : T.AccountId) : Prop :=
  s.buffer kind ≠ 0 ∧ ∃ b, T.blockAdd s.blockNumber (s.buffer kind) ≤ b ∧ b < T.maxBlock ∧
    s.booked kind b who = none

/-- Bookings have room, and a block is entered with holds that bear its obligations. -/
def AuthorCall.settles (s : AuthorState T) : AuthorCall T → Prop
  | .reward who _ => s.hasRoom .reward who
  | .penalize who _ => s.hasRoom .penalty who
  | .enterBlock => s.holdSheet.BearsAll T.share (s.dueObligations (s.blockNumber + 1))
  | _ => True

structure ObligationsSound (s : AuthorState T) : Prop where
  ahead : ∀ k b w o, s.booked k b w = some o →
    s.blockNumber < b ∧ b ≤ s.horizon k ∧ s.authorsMap.containsKey w = true
  bounded : ∀ k, s.horizon k = 0 ∨ s.horizon k < T.maxBlock
  sound : s.registry.Sound
  apart : s.registry.Apart

variable {s s' : AuthorState T} {who : T.AccountId} {block : Nat} {kind : DueKind} {o : Obligation}
  {call : AuthorCall T} {later : List (AuthorCall T)}

theorem AuthorState.FirstFree.room (h : s.FirstFree kind who block) (hroom : s.hasRoom kind who) :
    s.blockNumber < block ∧ block < T.maxBlock := by
  obtain ⟨hbuffer, b, hb, hlt, hnone⟩ := hroom
  have hle := h.first b hb hlt hnone
  have hstart := h.start_le
  unfold AuthorConfig.blockAdd saturatingAdd at hb hstart
  omega

theorem settles_call (h : (o.call who).settles s) : s.hasRoom o.kind who := by
  cases o <;> exact h

theorem apply_registered (h : s.apply call = .ok s') (hwho : s.authorsMap.containsKey who = true) :
    s'.authorsMap.containsKey who = true := by
  have hset {m : AuthorState T} {w : T.AccountId} {info : AuthorInfo T.AccountId}
      (hm : m.authorsMap = s.authorsMap.insert w info) (hk : RolesKept m s') :
      s'.authorsMap.containsKey who = true := by
    rw [hk.infos, hm]
    exact containsKey_insert.mpr (.inr hwho)
  cases apply_roleStep h with
  | kept hk => exact hk.infos ▸ hwho
  | entered hb hk => exact hk.infos ▸ hwho
  | eased hi hstatus hrisk hk => exact hset rfl hk
  | lifted hc hi hstatus hperiod hrisk hk => exact hset rfl hk
  | revoked hi hstatus hrisk hk => exact hset rfl hk
  | penalized hi hstatus hdigest hrisk hinfo hk => exact hset rfl hk
  | enlisted hi hk => exact hset rfl hk
  | resigned hc hi hstatus hclear hk => exact hset rfl hk

theorem ObligationsSound.genesis (ledger : T.Ledger) (g : AuthorGenesis) :
    ObligationsSound (AuthorState.genesis ledger g) := by
  have hm := mirrored_genesis ledger g
  refine ⟨fun k b w o h => ?_, fun k => ?_, hm.sound, hm.apart⟩
  · cases k <;> cases h
  · cases k <;> exact .inl rfl

theorem ObligationsSound.apply (hs : ObligationsSound s) (hf : call.freshDigest s) (hq : call.settles s)
    (h : s.apply call = .ok s') : ObligationsSound s' := by
  have hreg := apply_registryStep hs.sound h
  have hsound := hreg.sound hs.sound
  have hapart := hreg.apart hs.sound hs.apart hf
  have hknown (w : T.AccountId) (hw : s.authorsMap.containsKey w = true) : s'.authorsMap.containsKey w = true :=
    apply_registered h hw
  cases apply_dueStep h with
  | kept hk =>
    refine ⟨fun k b w o hb => ?_, fun k => ?_, hsound, hapart⟩
    · rw [hk.booked] at hb
      obtain ⟨hlt, hle, hw⟩ := hs.ahead k b w o hb
      rw [hk.block, hk.horizon]
      exact ⟨hlt, hle, hknown w hw⟩
    · rw [hk.horizon]
      exact hs.bounded k
  | booked hfree hwho hbooked =>
    obtain ⟨hnow, hmax⟩ := hfree.room (settles_call hq)
    refine ⟨fun k b w o hb => ?_, fun k => ?_, hsound, hapart⟩
    · rw [hbooked.booked] at hb
      rw [hbooked.now, hbooked.horizon]
      split_ifs at hb with hnew
      · obtain ⟨rfl, rfl, rfl⟩ := hnew
        rw [if_pos rfl]
        exact ⟨hnow, Nat.le_max_right _ _, hknown _ hwho⟩
      · obtain ⟨hlt, hle, hw⟩ := hs.ahead k b w o hb
        refine ⟨hlt, ?_, hknown w hw⟩
        split_ifs
        · exact Nat.le_trans hle (Nat.le_max_left _ _)
        · exact hle
    · have hbound := hs.bounded k
      rw [hbooked.horizon]
      split_ifs
      · omega
      · exact hbound
  | recalled hrecalled =>
    refine ⟨fun k b w o hb => ?_, fun k => ?_, hsound, hapart⟩
    · rw [hrecalled.booked] at hb
      split_ifs at hb
      obtain ⟨hlt, hle, hw⟩ := hs.ahead k b w o hb
      rw [hrecalled.now, hrecalled.horizon]
      exact ⟨hlt, hle, hknown w hw⟩
    · rw [hrecalled.horizon]
      exact hs.bounded k
  | entered hblock hhorizon hdue =>
    refine ⟨fun k b w o hb => ?_, fun k => ?_, hsound, hapart⟩
    · rw [hdue] at hb
      split_ifs at hb with hne
      obtain ⟨hlt, hle, hw⟩ := hs.ahead k b w o hb
      rw [hblock, hhorizon]
      exact ⟨by omega, hle, hknown w hw⟩
    · rw [hhorizon]
      exact hs.bounded k

theorem booked_stays (h : s.apply call = .ok s') (ho : s.booked kind block who = some o)
    (hcall : call ≠ kind.recall who block) (hlt : s'.blockNumber < block) : s'.booked kind block who = some o := by
  cases apply_dueStep h with
  | kept hk => rw [hk.booked, ho]
  | booked hfree hwho hbooked =>
    rw [hbooked.booked, if_neg, ho]
    rintro ⟨rfl, rfl, rfl⟩
    cases ho.symm.trans hfree.free
  | recalled hrecalled =>
    rw [hrecalled.booked, if_neg, ho]
    rintro ⟨rfl, rfl, rfl⟩
    exact hcall rfl
  | entered hblock hhorizon hdue => rw [hdue, if_neg (by omega), ho]

theorem findBlock_isSome {p : Nat → Bool} {start last b : Nat} (hstart : start ≤ b) (hlast : b ≤ last)
    (hb : p b = true) : ∃ found, findBlock T p start last = .ok found ∧ found ≠ none := by
  unfold findBlock
  cases hfind : (List.range' start (last + 1 - start)).find? p with
  | some found => exact ⟨some found, rfl, by simp⟩
  | none =>
    rw [List.find?_eq_none] at hfind
    exact absurd hb (hfind b (List.mem_range'_1.mpr ⟨hstart, by omega⟩))

theorem mem_collectBlocks {V : Type} {m : StorageMap (Nat × T.AccountId) V} {start last b : Nat} {v : V}
    (hstart : start ≤ b) (hlast : b ≤ last) (hmax : last < T.maxBlock) (hv : m.get (b, who) = some v) :
    ∃ entries, collectBlocks T m who start last = .ok entries ∧ (b, v) ∈ entries := by
  unfold collectBlocks
  rw [if_pos hmax]
  refine ⟨_, rfl, List.mem_filterMap.mpr ⟨b, List.mem_range'_1.mpr ⟨hstart, by omega⟩, ?_⟩⟩
  rw [hv]
  rfl

theorem ObligationsSound.shows (hs : ObligationsSound s) (h : s.booked o.kind block who = some o) :
    s.Shows who block o := by
  obtain ⟨hlt, hle, hwho⟩ := hs.ahead _ _ _ _ h
  have hmax : s.horizon o.kind < T.maxBlock := by
    have hbound := hs.bounded o.kind
    omega
  have hstart : s.nextBlock ≤ block := by
    unfold AuthorState.nextBlock AuthorConfig.blockAdd saturatingAdd
    omega
  have hrole : roleExists s who = .ok () := ensure_eq_ok.mpr hwho
  cases o with
  | reward value =>
    obtain ⟨v, hv, he⟩ := Option.map_eq_some_iff.mp h
    cases he
    refine ⟨?_, ?_⟩
    · obtain ⟨found, hfound, hne⟩ := findBlock_isSome (T := T)
        (p := fun b => s.authorRewards.containsKey (b, who)) hstart hle (StorageMap.containsKey_iff.mpr ⟨_, hv⟩)
      exact bind_eq_ok.mpr ⟨(), hrole, bind_eq_ok.mpr ⟨found, hfound, ensure_eq_ok.mpr hne⟩⟩
    · obtain ⟨entries, hentries, hmem⟩ := mem_collectBlocks hstart hle hmax hv
      refine ⟨_, map_eq_ok.mpr ⟨entries, bind_eq_ok.mpr ⟨(), hrole, hentries⟩, rfl⟩, ?_⟩
      exact List.mem_map.mpr ⟨_, hmem, rfl⟩
  | penalty factor =>
    obtain ⟨v, hv, he⟩ := Option.map_eq_some_iff.mp h
    cases he
    refine ⟨?_, ?_⟩
    · obtain ⟨found, hfound, hne⟩ := findBlock_isSome (T := T)
        (p := fun b => s.authorPenalties.containsKey (b, who)) hstart hle (StorageMap.containsKey_iff.mpr ⟨_, hv⟩)
      exact bind_eq_ok.mpr ⟨(), hrole, bind_eq_ok.mpr ⟨found, hfound, ensure_eq_ok.mpr hne⟩⟩
    · obtain ⟨entries, hentries, hmem⟩ := mem_collectBlocks hstart hle hmax hv
      refine ⟨_, map_eq_ok.mpr ⟨entries, bind_eq_ok.mpr ⟨(), hrole, hentries⟩, rfl⟩, ?_⟩
      exact List.mem_map.mpr ⟨_, hmem, rfl⟩

theorem mem_dueOf (h : s.booked o.kind block who = some o) : o ∈ s.dueOf block who := by
  unfold AuthorState.dueOf
  cases o with
  | reward value => exact List.mem_append_left _ (Option.mem_toList.mpr h)
  | penalty factor => exact List.mem_append_right _ (Option.mem_toList.mpr h)

theorem ObligationsSound.digestsApart (hs : ObligationsSound s) : s.DigestsApart := by
  intro a b info info' ha hb hd
  have hauthor {w : T.AccountId} {i : AuthorInfo T.AccountId} (hw : s.authorsMap.get w = some i) :
      s.registry.authorOf i.digest = some w :=
    hs.apart.digests w i.digest (by simp [AuthorState.registry, hw])
  have hfirst := hauthor ha
  rw [hd, hauthor hb] at hfirst
  exact (Option.some.inj hfirst).symm

theorem ObligationsSound.takesEffect (hs : ObligationsSound s)
    (hq : AuthorCall.settles s .enterBlock) (ho : s.booked o.kind block who = some o)
    (hb : s.blockNumber + 1 = block) (h : enterBlock s = .ok s') : TakesEffect s s' who block o := by
  obtain ⟨_, -, h⟩ := bind_eq_ok.mp h
  obtain rfl := pure_eq_ok.mp h
  have hdue := mem_dueOf ho
  subst hb
  obtain ⟨parts, hbefore, hafter⟩ := onInitialize_parts
    (s := { s with blockNumber := s.blockNumber + 1 }) (hs.digestsApart.of_infos rfl) hq hdue
  have hheld : holdParts s who = .ok parts := hbefore
  refine ⟨hdue, ⟨parts, hheld, hafter⟩, parts.1 + parts.2, getHold_eq_ok hheld, ?_⟩
  rw [getHold_eq_ok hafter, Obligation.foldl_settle_sum]
  rfl

theorem booked_until
    (hmeets : RunMeets AuthorState.apply (fun s call => call.freshDigest s ∧ call.settles s) s later)
    (hkept : RunMeets AuthorState.apply (fun _ call => call ≠ o.kind.recall who block) s later)
    (hs : ObligationsSound s) (ho : s.booked o.kind block who = some o) :
    ObligationsSound (run AuthorState.apply s later) ∧
      ((run AuthorState.apply s later).blockNumber < block →
        (run AuthorState.apply s later).booked o.kind block who = some o) := by
  refine run_invariant_of_meets (P := fun s => ObligationsSound s ∧
    (s.blockNumber < block → s.booked o.kind block who = some o)) (fun s call s' hi hq h => ?_) ⟨hs, fun _ => ho⟩
    (hmeets.and hkept)
  obtain ⟨⟨hfresh, hsettles⟩, hcall⟩ := hq
  refine ⟨hi.1.apply hfresh hsettles h, fun hlt => booked_stays h (hi.2 ?_) hcall hlt⟩
  exact Nat.lt_of_le_of_lt (apply_block_le h) hlt

/-- An obligation that is booked is shown until its block, changes the hold there by exactly what is due and
is gone after that, in every run whose bookings have room and whose blocks are entered with holds that bear
what is due. -/
theorem obligation_takes_effect {ledger : T.Ledger} {g : AuthorGenesis} {calls later : List (AuthorCall T)}
    {who : T.AccountId} {o : Obligation} {block : Nat} {s' : AuthorState T}
    (hbook : (AuthorState.after ledger g calls).book who o = .ok (s', block))
    (hmeets : RunMeets AuthorState.apply (fun s call => call.freshDigest s ∧ call.settles s)
      (AuthorState.genesis ledger g) (calls ++ o.call who :: later))
    (hkept : RunMeets AuthorState.apply (fun _ call => call ≠ o.kind.recall who block) s' later) :
    Honoured s' who block o later := by
  obtain ⟨hcalls, hcall, hlater⟩ := RunMeets.of_append hmeets
  have happly : (AuthorState.after ledger g calls).apply (o.call who) = .ok s' := by
    rw [apply_call, hbook]
    rfl
  have hbefore : ObligationsSound (AuthorState.after ledger g calls) :=
    run_invariant_of_meets (fun s call s' hs hq h => hs.apply hq.1 hq.2 h) (.genesis ledger g) hcalls
  obtain ⟨hfresh, hsettles⟩ := hcall s' happly
  have hs : ObligationsSound s' := hbefore.apply hfresh hsettles happly
  obtain ⟨hfree, -, hbooked⟩ := book_eq_ok hbook
  obtain ⟨hnow, hmax⟩ := hfree.room (settles_call hsettles)
  have ho : s'.booked o.kind block who = some o := by
    rw [hbooked.booked, if_pos ⟨rfl, rfl, rfl⟩]
  have hrest : RunMeets AuthorState.apply (fun s call => call.freshDigest s ∧ call.settles s) s' later := by
    rw [← attempt_of_ok happly]
    exact hlater
  have hpre {pre : List (AuthorCall T)} (h : pre <+: later) : ObligationsSound (run AuthorState.apply s' pre) ∧
      ((run AuthorState.apply s' pre).blockNumber < block →
        (run AuthorState.apply s' pre).booked o.kind block who = some o) := by
    obtain ⟨post, rfl⟩ := h
    obtain ⟨hmet, -⟩ := RunMeets.of_append hrest
    obtain ⟨hspared, -⟩ := RunMeets.of_append hkept
    exact booked_until hmet hspared hs ho
  refine ⟨by rw [hbooked.now]; exact hnow, fun pre h hlt => ?_, fun pre h hb => ?_, fun pre h hle => ?_⟩
  · exact (hpre h).1.shows ((hpre h).2 hlt)
  · obtain ⟨hsound, hstill⟩ := hpre ((List.prefix_append pre _).trans h)
    obtain ⟨post, rfl⟩ := h
    rw [List.append_assoc] at hrest
    obtain ⟨-, henter, -⟩ := RunMeets.of_append hrest
    obtain ⟨t, ht⟩ : ∃ t, enterBlock (run AuthorState.apply s' pre) = .ok t :=
      ⟨_, bind_eq_ok.mpr ⟨(), ensure_eq_ok.mpr (by omega), rfl⟩⟩
    rw [run_append, run_cons, run_nil, attempt_of_ok ht]
    exact hsound.takesEffect (henter t ht).2 (hstill (by omega)) hb ht
  · cases hb : (run AuthorState.apply s' pre).booked o.kind block who with
    | none => rfl
    | some o' =>
      have hlt := ((hpre h).1.ahead _ _ _ _ hb).1
      omega

/-- Obligations are booked for the next block. -/
def buffered : List (AuthorCall authorConfig) :=
  [.forceGenesisConfig (T := authorConfig) (.rewardsBuffer 1),
    .forceGenesisConfig (T := authorConfig) (.penaltiesBuffer 1), enrolls 1 51]

def rewards (s : AuthorState authorConfig) : AuthorState authorConfig :=
  attempt AuthorState.apply s (.reward (T := authorConfig) 1 (10 : Nat))

def buffers : List (AuthorCall authorConfig) := buffered ++ [backs 3 (.direct 1) 100]

def unbuffered : List (AuthorCall authorConfig) := [enrolls 1 51, backs 3 (.direct 1) 100]

/-- A reward of an author with collateral and a backer is shared by both. -/
theorem obligation_takes_effect_once :
    Honoured (rewards (authorRun buffers)) 1 1 (.reward 10) [.enterBlock] := by
  have hbears : AuthorCall.settles (rewards (authorRun buffers)) .enterBlock := by
    have hdue : (rewards (authorRun buffers)).dueObligations 1 = [(1, .reward 10)] := by decide +kernel
    change (rewards (authorRun buffers)).holdSheet.BearsAll _ ((rewards (authorRun buffers)).dueObligations 1)
    rw [hdue]
    refine ⟨⟨(100, 100), rfl, ?_, ?_, ⟨⟨100, 100⟩, rfl, ?_, ?_, ?_⟩, ⟨⟨100, 100⟩, rfl, ?_, ?_, ?_⟩⟩, trivial⟩
    all_goals decide +kernel
  have hroom : (authorRun buffers).hasRoom .reward 1 :=
    ⟨by decide +kernel, 1, by decide +kernel, by decide +kernel, rfl⟩
  have hmeets : RunMeets AuthorState.apply (fun s call => AuthorCall.freshDigest s call ∧ AuthorCall.settles s call)
      (AuthorState.genesis (T := authorConfig) fundedLedger plainGenesis)
      (buffers ++ Obligation.call (T := authorConfig) (1 : Nat) (.reward 10) :: [.enterBlock]) :=
    ⟨fun _ _ => ⟨trivial, trivial⟩, fun _ _ => ⟨trivial, trivial⟩,
      fun _ _ => ⟨fun _ => ⟨rfl, rfl, rfl, rfl⟩, trivial⟩, fun _ _ => ⟨trivial, trivial⟩,
      fun _ _ => ⟨trivial, hroom⟩, fun _ _ => ⟨trivial, hbears⟩, trivial⟩
  have hbook : (AuthorState.after (T := authorConfig) fundedLedger plainGenesis buffers).book (1 : Nat) (.reward 10) =
      .ok (rewards (authorRun buffers), 1) := rfl
  exact obligation_takes_effect hbook hmeets ⟨fun _ _ h => (by cases h), trivial⟩

/-- Without a buffer a reward is booked for the present block, whose hook has run, and is never paid. Of an
author without a backer the hold is not found, and the reward is dropped in its block. -/
theorem obligations_lost :
    ((authorRun unbuffered).book (1 : Nat) (.reward 10) = .ok (rewards (authorRun unbuffered), 0) ∧
      getHold (run AuthorState.apply (rewards (authorRun unbuffered)) [.enterBlock, .enterBlock]) (1 : Nat) =
          .ok 200 ∧
        ¬Honoured (rewards (authorRun unbuffered)) (1 : Nat) 0 (.reward 10) [.enterBlock, .enterBlock]) ∧
      (authorRun buffered).book (1 : Nat) (.reward 10) = .ok (rewards (authorRun buffered), 1) ∧
        (run AuthorState.apply (rewards (authorRun buffered)) [.enterBlock]).booked .reward 1 (1 : Nat) = none ∧
          ¬Honoured (rewards (authorRun buffered)) (1 : Nat) 1 (.reward 10) [.enterBlock] := by
  refine ⟨⟨rfl, rfl, fun h => ?_⟩, rfl, rfl, fun h => ?_⟩
  · exact Nat.lt_irrefl 0 h.ahead
  · obtain ⟨-, ⟨parts, hparts, -⟩, -⟩ := h.settled [] List.prefix_rfl rfl
    have herror : holdParts (rewards (authorRun buffered)) (1 : Nat) =
        .error (.commitment .digestNotFound) := rfl
    cases herror.symm.trans hparts

end FrameSuite
