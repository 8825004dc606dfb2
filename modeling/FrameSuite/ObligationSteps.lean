import FrameSuite.AuthorElections
import FrameSuite.HoldSettlement

/-! What a call does to the obligations that are booked. A booking takes a free block and moves its
horizon there, a recall frees the block again, and the hook of a block frees all of its entries. -/

namespace FrameSuite

variable {T : AuthorConfig} {s s' : AuthorState T} {who : T.AccountId} {block : Nat} {kind : DueKind}
  {o : Obligation}

namespace AuthorState

def horizon (s : AuthorState T) : DueKind → Nat
  | .reward => s.rewardsUntil
  | .penalty => s.penaltiesUntil

def buffer (s : AuthorState T) : DueKind → Nat
  | .reward => s.rewardsBuffer
  | .penalty => s.penaltiesBuffer

def book (s : AuthorState T) (who : T.AccountId) : Obligation → Except AuthorError (AuthorState T × Nat)
  | .reward value => reward s who value
  | .penalty factor => penalize s who factor

def hasDue (s : AuthorState T) (who : T.AccountId) : DueKind → Except AuthorError Unit
  | .reward => hasReward s who
  | .penalty => hasPenalty s who

def getDuesOf (s : AuthorState T) (who : T.AccountId) : DueKind → Except AuthorError (List (Nat × Obligation))
  | .reward => (getRewardsOf s who).map (List.map fun due => (due.1, .reward due.2))
  | .penalty => (getPenaltiesOf s who).map (List.map fun due => (due.1, .penalty due.2))

/-- The first block without an entry of the author, from the buffer on. -/
structure FirstFree (s : AuthorState T) (kind : DueKind) (who : T.AccountId) (block : Nat) : Prop where
  free : s.booked kind block who = none
  start_le : T.blockAdd s.blockNumber (s.buffer kind) ≤ block
  first : ∀ b, T.blockAdd s.blockNumber (s.buffer kind) ≤ b → b < T.maxBlock → s.booked kind b who = none →
    block ≤ b

end AuthorState

def Obligation.call (who : T.AccountId) : Obligation → AuthorCall T
  | .reward value => .reward who value
  | .penalty factor => .penalize who factor

/-- The call that takes the obligation back. -/
def DueKind.recall (who : T.AccountId) (block : Nat) : DueKind → AuthorCall T
  | .reward => .reclaim who block
  | .penalty => .forgive who block

theorem DuesKept.booked (h : DuesKept s s') : s'.booked = s.booked := by
  funext kind block who
  cases kind
  · simp only [AuthorState.booked, h.rewards]
  · simp only [AuthorState.booked, h.penalties]

theorem DuesKept.horizon (h : DuesKept s s') : s'.horizon = s.horizon := by
  funext kind
  cases kind
  · exact h.rewardsUntil
  · exact h.penaltiesUntil

/-- The entry of the author in a block is the obligation, and all others are those of before. -/
structure DueBooked (s s' : AuthorState T) (who : T.AccountId) (o : Obligation) (block : Nat) : Prop where
  booked : ∀ k b w, s'.booked k b w = if k = o.kind ∧ b = block ∧ w = who then some o else s.booked k b w
  horizon : ∀ k, s'.horizon k = if k = o.kind then max (s.horizon k) block else s.horizon k
  now : s'.blockNumber = s.blockNumber

structure DueRecalled (s s' : AuthorState T) (kind : DueKind) (who : T.AccountId) (block : Nat) : Prop where
  booked : ∀ k b w, s'.booked k b w = if k = kind ∧ b = block ∧ w = who then none else s.booked k b w
  horizon : s'.horizon = s.horizon
  now : s'.blockNumber = s.blockNumber

inductive DueStep (s s' : AuthorState T) : AuthorCall T → Prop
  | kept {call : AuthorCall T} (h : DuesKept s s') : DueStep s s' call
  | booked {who : T.AccountId} {o : Obligation} {block : Nat} (hfree : s.FirstFree o.kind who block)
      (hwho : s.authorsMap.containsKey who = true) (h : DueBooked s s' who o block) : DueStep s s' (o.call who)
  | recalled {kind : DueKind} {who : T.AccountId} {block : Nat} (h : DueRecalled s s' kind who block) :
      DueStep s s' (kind.recall who block)
  | entered (hb : s'.blockNumber = s.blockNumber + 1) (hhorizon : s'.horizon = s.horizon)
      (hdue : ∀ k b w, s'.booked k b w = if b = s.blockNumber + 1 then none else s.booked k b w) :
      DueStep s s' .enterBlock

theorem freeBlock_eq_ok {V : Type} {m : StorageMap (Nat × T.AccountId) V} {start : Nat}
    (h : freeBlock T m who start = .ok block) :
    m.get (block, who) = none ∧ start ≤ block ∧
      ∀ b, start ≤ b → b < T.maxBlock → m.get (b, who) = none → block ≤ b := by
  rw [freeBlock, okOr_eq_ok] at h
  have hfree := List.find?_some h
  have hmem := List.mem_of_find?_eq_some h
  rw [Bool.not_eq_true', StorageMap.containsKey_eq_false_iff] at hfree
  obtain ⟨hstart, -⟩ := List.mem_range'_1.mp hmem
  refine ⟨hfree, hstart, fun b hb hlt hget => ?_⟩
  by_contra hne
  obtain ⟨-, pre, post, hlist, hpre⟩ := List.find?_eq_some_iff_append.mp h
  have hsorted : (pre ++ block :: post).Pairwise (· < ·) := by
    rw [← hlist]
    exact List.pairwise_lt_range' _
  have hmem' : b ∈ pre ++ block :: post := by
    rw [← hlist]
    exact List.mem_range'_1.mpr ⟨hb, by omega⟩
  rcases List.mem_append.mp hmem' with hin | hin
  · have hcon := hpre b hin
    simp [StorageMap.containsKey, hget] at hcon
  · rcases List.mem_cons.mp hin with rfl | hin
    · omega
    · have hlt' := (List.pairwise_append.mp hsorted).2.1
      have := (List.pairwise_cons.mp hlt').1 b hin
      omega

theorem AuthorState.FirstFree.of_freeBlock {V : Type} {m : StorageMap (Nat × T.AccountId) V} {f : V → Obligation}
    (hm : ∀ b, s.booked kind b who = (m.get (b, who)).map f)
    (h : freeBlock T m who (T.blockAdd s.blockNumber (s.buffer kind)) = .ok block) : s.FirstFree kind who block := by
  obtain ⟨hfree, hstart, hfirst⟩ := freeBlock_eq_ok h
  refine ⟨by rw [hm, hfree]; rfl, hstart, fun b hb hlt hnone => hfirst b hb hlt ?_⟩
  rw [hm] at hnone
  exact Option.map_eq_none_iff.mp hnone

theorem map_entry_insert {V W : Type} (m : StorageMap (Nat × T.AccountId) V) (block : Nat) (who : T.AccountId)
    (v : V) (f : V → W) (b : Nat) (w : T.AccountId) : ((m.insert (block, who) v).get (b, w)).map f =
      if b = block ∧ w = who then some (f v) else (m.get (b, w)).map f := by
  rw [StorageMap.get_insert]
  simp only [Prod.mk.injEq]
  split_ifs <;> rfl

theorem map_entry_remove {V W : Type} (m : StorageMap (Nat × T.AccountId) V) (f : V → W) (b : Nat)
    (w : T.AccountId) : ((m.remove (block, who)).get (b, w)).map f =
      if b = block ∧ w = who then none else (m.get (b, w)).map f := by
  rw [StorageMap.get_remove]
  simp only [Prod.mk.injEq]
  split_ifs <;> rfl

theorem scheduleReward_booked {value : Nat} (h : scheduleReward s who value = .ok (s', block)) :
    s.FirstFree .reward who block ∧ DueBooked s s' who (.reward value) block := by
  obtain rfl := scheduleReward_eq_ok h
  obtain ⟨b, hb, h⟩ := bind_eq_ok.mp h
  simp only [pure_eq_ok, Prod.mk.injEq] at h
  obtain ⟨-, rfl⟩ := h
  refine ⟨.of_freeBlock (fun _ => rfl) hb, ⟨fun k b' w => ?_, fun k => ?_, rfl⟩⟩
  · cases k
    · have hentry := map_entry_insert s.authorRewards b who value Obligation.reward b' w
      simpa [AuthorState.booked, Obligation.kind] using hentry
    · simp [AuthorState.booked, Obligation.kind]
  · cases k <;> simp [AuthorState.horizon, Obligation.kind]

theorem schedulePenalty_booked {factor : Perbill} (h : schedulePenalty s who factor = .ok (s', block)) :
    s.FirstFree .penalty who block ∧ DueBooked s s' who (.penalty factor) block := by
  obtain rfl := schedulePenalty_eq_ok h
  obtain ⟨b, hb, h⟩ := bind_eq_ok.mp h
  simp only [pure_eq_ok, Prod.mk.injEq] at h
  obtain ⟨-, rfl⟩ := h
  refine ⟨.of_freeBlock (fun _ => rfl) hb, ⟨fun k b' w => ?_, fun k => ?_, rfl⟩⟩
  · cases k
    · simp [AuthorState.booked, Obligation.kind]
    · have hentry := map_entry_insert s.authorPenalties b who factor Obligation.penalty b' w
      simpa [AuthorState.booked, Obligation.kind] using hentry
  · cases k <;> simp [AuthorState.horizon, Obligation.kind]

theorem securePermanence_info (h : securePermanence s who = .ok s') :
    s.authorsMap.containsKey who = true ∧ ∃ m, s' = { s with authorsMap := m } := by
  obtain ⟨info, risk, hi, -, -, rfl⟩ := securePermanence_eq_ok h
  exact ⟨StorageMap.containsKey_iff.mpr ⟨info, hi⟩, _, rfl⟩

theorem raiseRisk_info (h : raiseRisk s who = .ok s') :
    s.authorsMap.containsKey who = true ∧ ∃ m, s' = { s with authorsMap := m } := by
  obtain ⟨info, risk, hi, -, -, rfl | ⟨-, -, rfl⟩⟩ := raiseRisk_eq_ok h
  · exact ⟨StorageMap.containsKey_iff.mpr ⟨info, hi⟩, _, rfl⟩
  · exact ⟨StorageMap.containsKey_iff.mpr ⟨info, hi⟩, _, rfl⟩

theorem book_eq_ok (h : s.book who o = .ok (s', block)) :
    s.FirstFree o.kind who block ∧ s.authorsMap.containsKey who = true ∧ DueBooked s s' who o block := by
  cases o with
  | reward value =>
    obtain ⟨s1, h1, h⟩ := bind_eq_ok.mp h
    obtain ⟨hknown, m, rfl⟩ := securePermanence_info h1
    obtain ⟨⟨hfree, hstart, hfirst⟩, hbooked, hhorizon, hnow⟩ := scheduleReward_booked h
    exact ⟨⟨hfree, hstart, hfirst⟩, hknown, ⟨hbooked, hhorizon, hnow⟩⟩
  | penalty factor =>
    obtain ⟨_, -, h⟩ := bind_eq_ok.mp h
    obtain ⟨s1, h1, h⟩ := bind_eq_ok.mp h
    obtain ⟨hknown, m, rfl⟩ := raiseRisk_info h1
    obtain ⟨⟨hfree, hstart, hfirst⟩, hbooked, hhorizon, hnow⟩ := schedulePenalty_booked h
    exact ⟨⟨hfree, hstart, hfirst⟩, hknown, ⟨hbooked, hhorizon, hnow⟩⟩

theorem apply_call (s : AuthorState T) (who : T.AccountId) (o : Obligation) :
    s.apply (o.call who) = (s.book who o).map Prod.fst := by
  cases o with
  | reward value =>
    simp only [AuthorState.apply, Obligation.call, AuthorState.book]
    cases reward s who value <;> rfl
  | penalty factor =>
    simp only [AuthorState.apply, Obligation.call, AuthorState.book]
    cases penalize s who factor <;> rfl

theorem apply_recall (h : s.apply (kind.recall who block) = .ok s') : DueRecalled s s' kind who block := by
  cases kind with
  | reward =>
    obtain ⟨⟨s1, value⟩, h1, h⟩ := bind_eq_ok.mp h
    obtain rfl := pure_eq_ok.mp h
    obtain rfl := reclaim_eq_ok h1
    refine ⟨fun k b w => ?_, rfl, rfl⟩
    cases k
    · simpa [AuthorState.booked] using map_entry_remove s.authorRewards Obligation.reward b w
    · simp [AuthorState.booked]
  | penalty =>
    obtain ⟨⟨s1, factor⟩, h1, h⟩ := bind_eq_ok.mp h
    obtain rfl := pure_eq_ok.mp h
    obtain ⟨status, -, h1⟩ := bind_eq_ok.mp h1
    obtain ⟨_, -, h1⟩ := bind_eq_ok.mp h1
    obtain ⟨_, -, h1⟩ := bind_eq_ok.mp h1
    obtain ⟨found, -, h1⟩ := bind_eq_ok.mp h1
    obtain ⟨s2, h2, h1⟩ := bind_eq_ok.mp h1
    simp only [pure_eq_ok, Prod.mk.injEq] at h1
    obtain ⟨rfl, -⟩ := h1
    obtain ⟨-, m, rfl⟩ := securePermanence_info h2
    refine ⟨fun k b w => ?_, rfl, rfl⟩
    cases k
    · simp [AuthorState.booked]
    · simpa [AuthorState.booked] using map_entry_remove s.authorPenalties Obligation.penalty b w

theorem enterBlock_due (h : enterBlock s = .ok s') : s'.blockNumber = s.blockNumber + 1 ∧
    s'.horizon = s.horizon ∧
      ∀ k b w, s'.booked k b w = if b = s.blockNumber + 1 then none else s.booked k b w := by
  obtain ⟨_, -, h⟩ := bind_eq_ok.mp h
  obtain rfl := pure_eq_ok.mp h
  obtain ⟨c, hc⟩ := onInitialize_eq { s with blockNumber := s.blockNumber + 1 } (s.blockNumber + 1)
  rw [hc]
  refine ⟨rfl, rfl, fun k b w => ?_⟩
  cases k
  · simp only [AuthorState.booked, get_clearBlock_iterPrefix]
    split_ifs <;> rfl
  · simp only [AuthorState.booked, get_clearBlock_iterPrefix]
    split_ifs <;> rfl

theorem apply_dueStep {call : AuthorCall T} (h : s.apply call = .ok s') : DueStep s s' call := by
  cases call with
  | penalize who factor =>
    rw [show AuthorCall.penalize who factor = (Obligation.penalty factor).call who from rfl, apply_call] at h
    obtain ⟨⟨s1, block⟩, hb, rfl⟩ := map_eq_ok.mp h
    obtain ⟨hfree, hknown, hbooked⟩ := book_eq_ok hb
    exact .booked (o := .penalty factor) hfree hknown hbooked
  | reward who value =>
    rw [show AuthorCall.reward who value = (Obligation.reward value).call who from rfl, apply_call] at h
    obtain ⟨⟨s1, block⟩, hb, rfl⟩ := map_eq_ok.mp h
    obtain ⟨hfree, hknown, hbooked⟩ := book_eq_ok hb
    exact .booked (o := .reward value) hfree hknown hbooked
  | forgive who since =>
    have hrecalled : DueRecalled s s' .penalty who since := apply_recall h
    exact .recalled hrecalled
  | reclaim who since =>
    have hrecalled : DueRecalled s s' .reward who since := apply_recall h
    exact .recalled hrecalled
  | enterBlock =>
    obtain ⟨hb, hhorizon, hdue⟩ := enterBlock_due h
    exact .entered hb hhorizon hdue
  | prepareElects candidates =>
    obtain rfl := Except.ok.inj h
    unfold prepareElects
    split
    · rename_i stored hstored
      obtain ⟨_, -, hstored⟩ := bind_eq_ok.mp hstored
      obtain rfl := pure_eq_ok.mp hstored
      exact .kept ⟨rfl, rfl, rfl, rfl, rfl⟩
    · exact .kept ⟨rfl, rfl, rfl, rfl, rfl⟩
  | removeElected who =>
    obtain rfl := Except.ok.inj h
    exact .kept ⟨rfl, rfl, rfl, rfl, rfl⟩
  | _ => exact .kept (apply_schedule rfl h).toDuesKept

end FrameSuite
