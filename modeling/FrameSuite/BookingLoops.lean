import FrameSuite.ObligationSteps
import FrameSuite.OutcomeHooks

/-! Rewards and penalties of many authors are booked by a loop that goes on after a failure. An entry only
concerns the rows of its own author, so that every author comes out as if its entry were the only one. -/

namespace FrameSuite

section Keyed

variable {σ α K : Type} {step : σ → α → σ} {key : α → K} {same : K → σ → σ → Prop} {outcome : α → σ → σ → Prop}

/-- A step is about the key of its entry, and what it does about that key depends on nothing else. -/
structure KeyedSteps (step : σ → α → σ) (key : α → K) (same : K → σ → σ → Prop) (outcome : α → σ → σ → Prop) :
    Prop where
  refl : ∀ k s, same k s s
  trans : ∀ {k s t u}, same k s t → same k t u → same k s u
  other : ∀ s a {k}, k ≠ key a → same k s (step s a)
  own : ∀ s a, outcome a s (step s a)
  before : ∀ {a s t u}, same (key a) s t → outcome a t u → outcome a s u
  after : ∀ {a s t u}, outcome a s t → same (key a) t u → outcome a s u

theorem KeyedSteps.foldl_same (h : KeyedSteps step key same outcome) {entries : List α} {k : K}
    (hk : k ∉ entries.map key) (s : σ) : same k s (entries.foldl step s) := by
  induction entries generalizing s with
  | nil => exact h.refl k s
  | cons a entries ih =>
    obtain ⟨hne, hrest⟩ := List.ne_and_not_mem_of_not_mem_cons hk
    exact h.trans (h.other s a hne) (ih hrest _)

theorem KeyedSteps.foldl_outcome (h : KeyedSteps step key same outcome) {entries : List α}
    (hnodup : (entries.map key).Nodup) {a : α} (ha : a ∈ entries) (s : σ) : outcome a s (entries.foldl step s) := by
  induction entries generalizing s with
  | nil => cases ha
  | cons b entries ih =>
    obtain ⟨hb, hrest⟩ := List.nodup_cons.mp hnodup
    rcases List.mem_cons.mp ha with rfl | ha
    · exact h.after (h.own s a) (h.foldl_same hb _)
    · have hne : key a ≠ key b := fun he => hb (he ▸ List.mem_map_of_mem ha)
      exact h.before (h.other s b hne) (ih hrest ha _)

end Keyed

variable {T : AuthorConfig} {s t u : AuthorState T} {who w : T.AccountId} {o : Obligation} {block : Nat}

/-- All that a booking for the author reads or writes is the same, besides the horizons. -/
structure SameRow (who : T.AccountId) (s t : AuthorState T) : Prop where
  info : t.authorsMap.get who = s.authorsMap.get who
  booked : ∀ kind block, t.booked kind block who = s.booked kind block who
  now : t.blockNumber = s.blockNumber
  buffer : ∀ kind, t.buffer kind = s.buffer kind

theorem SameRow.refl (who : T.AccountId) (s : AuthorState T) : SameRow who s s :=
  ⟨rfl, fun _ _ => rfl, rfl, fun _ => rfl⟩

theorem SameRow.trans (h : SameRow who s t) (h' : SameRow who t u) : SameRow who s u :=
  ⟨h'.info.trans h.info, fun k b => (h'.booked k b).trans (h.booked k b), h'.now.trans h.now,
    fun k => (h'.buffer k).trans (h.buffer k)⟩

/-- The account is an author that has not resigned. -/
def AuthorState.inService (s : AuthorState T) (who : T.AccountId) : Prop :=
  ∃ info, s.authorsMap.get who = some info ∧ info.status ≠ .resigned

def Obligation.IsZeroPenalty : Obligation → Prop
  | .reward _ => False
  | .penalty factor => factor.parts = 0

/-- No block from the buffer on is free for the author. -/
def AuthorState.bookedOut (s : AuthorState T) (kind : DueKind) (who : T.AccountId) : Prop :=
  ∀ b, T.blockAdd s.blockNumber (s.buffer kind) ≤ b → b ≤ T.maxBlock → s.booked kind b who ≠ none

/-- What becomes of an entry of the loop: it is booked in the first free block of its author, or nothing is
booked for the author, and why. -/
inductive BookOutcome (who : T.AccountId) (o : Obligation) (s t : AuthorState T) : Prop
  | booked {block : Nat} (hservice : s.inService who) (hfree : s.FirstFree o.kind who block)
      (hrow : ∀ k b, t.booked k b who = if k = o.kind ∧ b = block then some o else s.booked k b who)
  | refused (hwhy : o.IsZeroPenalty ∨ ¬s.inService who ∨ s.bookedOut o.kind who)
      (hrow : ∀ k b, t.booked k b who = s.booked k b who)

theorem SameRow.inService_iff (h : SameRow who s t) : t.inService who ↔ s.inService who := by
  unfold AuthorState.inService
  rw [h.info]

theorem SameRow.firstFree {kind : DueKind} (h : SameRow who s t) (hf : t.FirstFree kind who block) :
    s.FirstFree kind who block := by
  obtain ⟨hfree, hstart, hfirst⟩ := hf
  rw [h.booked] at hfree
  rw [h.now, h.buffer] at hstart hfirst
  exact ⟨hfree, hstart, fun b hb hlt hnone => hfirst b hb hlt (by rwa [h.booked])⟩

theorem SameRow.bookedOut {kind : DueKind} (h : SameRow who s t) (ho : t.bookedOut kind who) :
    s.bookedOut kind who := by
  intro b hb hmax
  rw [← h.booked]
  exact ho b (by rwa [h.now, h.buffer]) hmax

theorem BookOutcome.before (h : SameRow who s t) (ho : BookOutcome who o t u) : BookOutcome who o s u := by
  cases ho with
  | booked hservice hfree hrow =>
    exact .booked (h.inService_iff.mp hservice) (h.firstFree hfree) fun k b => by rw [hrow, h.booked]
  | refused hwhy hrow =>
    refine .refused ?_ fun k b => by rw [hrow, h.booked]
    exact hwhy.imp id (Or.imp (mt h.inService_iff.mpr) h.bookedOut)

theorem BookOutcome.after (ho : BookOutcome who o s t) (h : SameRow who t u) : BookOutcome who o s u := by
  cases ho with
  | booked hservice hfree hrow => exact .booked hservice hfree fun k b => by rw [h.booked, hrow]
  | refused hwhy hrow => exact .refused hwhy fun k b => by rw [h.booked, hrow]

section Entry

/-- A booking outside of any transaction. -/
def AuthorState.bookKept (s : AuthorState T) (who : T.AccountId) : Obligation → AuthorState T
  | .reward value => rewardKept s who value
  | .penalty factor => penalizeKept s who factor

/-- What has changed when a booking has failed is the record of the author. -/
def OnlyInfo (who : T.AccountId) (s t : AuthorState T) : Prop :=
  ∃ info, t = s.setInfo who info ∨ t = s

theorem OnlyInfo.booked (h : OnlyInfo who s t) : t.booked = s.booked := by
  obtain ⟨info, rfl | rfl⟩ := h
  · rfl
  · rfl

theorem OnlyInfo.sameRow (h : OnlyInfo who s t) (hw : w ≠ who) : SameRow w s t := by
  obtain ⟨info, rfl | rfl⟩ := h
  · exact ⟨StorageMap.get_insert_of_ne hw, fun _ _ => rfl, rfl, fun k => by cases k <;> rfl⟩
  · exact .refl w _

theorem OnlyInfo.bookedOut {kind : DueKind} (h : OnlyInfo who s t) (ho : t.bookedOut kind w) :
    s.bookedOut kind w := by
  obtain ⟨info, rfl | rfl⟩ := h
  · cases kind <;> exact ho
  · exact ho

theorem isOk_securePermanence (h : s.inService who) : ∃ t, securePermanence s who = .ok t := by
  obtain ⟨info, hi, hstatus⟩ := h
  have hmeta := getMeta_eq_ok.mpr hi
  by_cases hrisk : s.blockNumber < info.riskUntil
  · refine ⟨s.setInfo who { info with riskUntil := info.riskUntil - s.reduceProbationBy },
      bind_eq_ok.mpr ⟨info, hmeta, bind_eq_ok.mpr ⟨(), ensure_eq_ok.mpr hstatus, ?_⟩⟩⟩
    rw [if_pos hrisk]
    rfl
  · refine ⟨s, bind_eq_ok.mpr ⟨info, hmeta, bind_eq_ok.mpr ⟨(), ensure_eq_ok.mpr hstatus, ?_⟩⟩⟩
    rw [if_neg hrisk]
    rfl

theorem isOk_riskStatus {info : AuthorInfo T.AccountId} (hi : s.authorsMap.get who = some info) :
    ∃ t, riskStatus s who info.status = .ok t :=
  ⟨_, bind_eq_ok.mpr ⟨info, getMeta_eq_ok.mpr hi, bind_eq_ok.mpr ⟨(), ensure_eq_ok.mpr rfl, rfl⟩⟩⟩

theorem isOk_raiseRisk (h : s.inService who) : ∃ t, raiseRisk s who = .ok t := by
  obtain ⟨info, hi, hstatus⟩ := h
  have hget : getStatus s who = .ok info.status := bind_eq_ok.mpr ⟨info, getMeta_eq_ok.mpr hi, rfl⟩
  obtain ⟨t, ht⟩ := isOk_riskStatus hi
  cases hs : info.status with
  | active =>
    rw [hs] at hget ht
    cases hcan : canRevokePermanence t who with
    | ok u =>
      obtain ⟨info', hi', -⟩ := bind_eq_ok.mp hcan
      have hrevoke : ∃ v, revokePermanence t who = .ok v :=
        ⟨_, bind_eq_ok.mpr ⟨u, hcan, bind_eq_ok.mpr ⟨info', hi', rfl⟩⟩⟩
      obtain ⟨v, hv⟩ := hrevoke
      refine ⟨v, bind_eq_ok.mpr ⟨_, hget, bind_eq_ok.mpr ⟨t, ht, ?_⟩⟩⟩
      rw [hcan]
      exact hv
    | error e =>
      refine ⟨t, bind_eq_ok.mpr ⟨_, hget, bind_eq_ok.mpr ⟨t, ht, ?_⟩⟩⟩
      rw [hcan]
      rfl
  | probation =>
    rw [hs] at hget ht
    exact ⟨t, bind_eq_ok.mpr ⟨_, hget, ht⟩⟩
  | resigned => exact absurd hs hstatus

theorem securePermanence_onlyInfo (h : securePermanence s who = .ok t) : s.inService who ∧ OnlyInfo who s t := by
  obtain ⟨info, risk, hi, hstatus, -, rfl⟩ := securePermanence_eq_ok h
  exact ⟨⟨info, hi, hstatus⟩, _, .inl rfl⟩

theorem raiseRisk_onlyInfo (h : raiseRisk s who = .ok t) : s.inService who ∧ OnlyInfo who s t := by
  obtain ⟨info, risk, hi, hstatus, -, rfl | ⟨-, -, rfl⟩⟩ := raiseRisk_eq_ok h
  · exact ⟨⟨info, hi, hstatus⟩, _, .inl rfl⟩
  · exact ⟨⟨info, hi, hstatus⟩, _, .inl rfl⟩

theorem bookedOut_of_freeBlock {V : Type} {m : StorageMap (Nat × T.AccountId) V} {f : V → Obligation}
    {kind : DueKind} {e : AuthorError} (hm : ∀ b, s.booked kind b who = (m.get (b, who)).map f)
    (h : freeBlock T m who (T.blockAdd s.blockNumber (s.buffer kind)) = .error e) : s.bookedOut kind who := by
  intro b hb hmax hnone
  rw [hm] at hnone
  unfold freeBlock okOr at h
  split at h
  · cases h
  · rename_i hfull
    have hin := List.mem_range'_1.mpr ⟨hb, (by omega : b < T.blockAdd s.blockNumber (s.buffer kind) +
      (T.maxBlock + 1 - T.blockAdd s.blockNumber (s.buffer kind)))⟩
    have hkey := List.find?_eq_none.mp hfull b hin
    simp [StorageMap.containsKey, Option.map_eq_none_iff.mp hnone] at hkey

theorem scheduleReward_error {value : Nat} {e : AuthorError} (h : scheduleReward s who value = .error e) :
    s.bookedOut .reward who := by
  cases hf : freeBlock T s.authorRewards who (T.blockAdd s.blockNumber s.rewardsBuffer) with
  | ok block =>
    unfold scheduleReward at h
    rw [hf] at h
    cases h
  | error e => exact bookedOut_of_freeBlock (fun _ => rfl) hf

theorem schedulePenalty_error {factor : Perbill} {e : AuthorError} (h : schedulePenalty s who factor = .error e) :
    s.bookedOut .penalty who := by
  cases hf : freeBlock T s.authorPenalties who (T.blockAdd s.blockNumber s.penaltiesBuffer) with
  | ok block =>
    unfold schedulePenalty at h
    rw [hf] at h
    cases h
  | error e => exact bookedOut_of_freeBlock (fun _ => rfl) hf

/-- A booking is made as a call makes it, or changes the record of the author at most. -/
theorem bookKept_cases (s : AuthorState T) (who : T.AccountId) (o : Obligation) :
    (∃ block, s.book who o = .ok (s.bookKept who o, block) ∧ s.inService who) ∨
      OnlyInfo who s (s.bookKept who o) ∧
        (o.IsZeroPenalty ∨ ¬s.inService who ∨ s.bookedOut o.kind who) := by
  have hsame : OnlyInfo who s s := ⟨AuthorInfo.new who 0, .inr rfl⟩
  cases o with
  | reward value =>
    cases hs : securePermanence s who with
    | error e =>
      have hno : ¬s.inService who := fun h => by
        obtain ⟨t, ht⟩ := isOk_securePermanence h
        rw [hs] at ht
        cases ht
      simp only [AuthorState.bookKept, rewardKept, hs]
      exact .inr ⟨hsame, .inr (.inl hno)⟩
    | ok t =>
      obtain ⟨hservice, hinfo⟩ := securePermanence_onlyInfo hs
      cases hb : scheduleReward t who value with
      | error e =>
        simp only [AuthorState.bookKept, rewardKept, hs, hb]
        exact .inr ⟨hinfo, .inr (.inr (hinfo.bookedOut (scheduleReward_error hb)))⟩
      | ok r =>
        simp only [AuthorState.bookKept, rewardKept, hs, hb]
        exact .inl ⟨r.2, bind_eq_ok.mpr ⟨t, hs, hb⟩, hservice⟩
  | penalty factor =>
    by_cases hzero : factor.parts = 0
    · simp only [AuthorState.bookKept, penalizeKept, hzero, if_true]
      exact .inr ⟨hsame, .inl hzero⟩
    · cases hs : raiseRisk s who with
      | error e =>
        have hno : ¬s.inService who := fun h => by
          obtain ⟨t, ht⟩ := isOk_raiseRisk h
          rw [hs] at ht
          cases ht
        simp only [AuthorState.bookKept, penalizeKept, hzero, if_false, hs]
        exact .inr ⟨hsame, .inr (.inl hno)⟩
      | ok t =>
        obtain ⟨hservice, hinfo⟩ := raiseRisk_onlyInfo hs
        cases hb : schedulePenalty t who factor with
        | error e =>
          simp only [AuthorState.bookKept, penalizeKept, hzero, if_false, hs, hb]
          exact .inr ⟨hinfo, .inr (.inr (hinfo.bookedOut (schedulePenalty_error hb)))⟩
        | ok r =>
          simp only [AuthorState.bookKept, penalizeKept, hzero, if_false, hs, hb]
          exact .inl ⟨r.2, bind_eq_ok.mpr ⟨(), ensure_eq_ok.mpr hzero, bind_eq_ok.mpr ⟨t, hs, hb⟩⟩, hservice⟩

theorem book_infos (h : s.book who o = .ok (t, block)) :
    (∀ w, w ≠ who → t.authorsMap.get w = s.authorsMap.get w) ∧ t.buffer = s.buffer := by
  cases o with
  | reward value =>
    obtain ⟨u, hu, h⟩ := bind_eq_ok.mp h
    obtain ⟨-, hinfo⟩ := securePermanence_onlyInfo hu
    obtain rfl := scheduleReward_eq_ok h
    exact ⟨fun w hw => (hinfo.sameRow hw).info, funext fun k => by
      obtain ⟨info, rfl | rfl⟩ := hinfo <;> cases k <;> rfl⟩
  | penalty factor =>
    obtain ⟨_, -, h⟩ := bind_eq_ok.mp h
    obtain ⟨u, hu, h⟩ := bind_eq_ok.mp h
    obtain ⟨-, hinfo⟩ := raiseRisk_onlyInfo hu
    obtain rfl := schedulePenalty_eq_ok h
    exact ⟨fun w hw => (hinfo.sameRow hw).info, funext fun k => by
      obtain ⟨info, rfl | rfl⟩ := hinfo <;> cases k <;> rfl⟩

theorem bookKept_outcome (s : AuthorState T) (who : T.AccountId) (o : Obligation) :
    BookOutcome who o s (s.bookKept who o) := by
  rcases bookKept_cases s who o with ⟨block, hbook, hservice⟩ | ⟨hinfo, hwhy⟩
  · obtain ⟨hfree, -, hbooked⟩ := book_eq_ok hbook
    refine .booked hservice hfree fun k b => ?_
    rw [hbooked.booked]
    simp
  · exact .refused hwhy fun k b => by rw [hinfo.booked]

theorem bookKept_other (s : AuthorState T) (o : Obligation) (hw : w ≠ who) : SameRow w s (s.bookKept who o) := by
  rcases bookKept_cases s who o with ⟨block, hbook, -⟩ | ⟨hinfo, -⟩
  · obtain ⟨-, -, hbooked⟩ := book_eq_ok hbook
    obtain ⟨hinfo, hbuffer⟩ := book_infos hbook
    refine ⟨hinfo w hw, fun k b => ?_, hbooked.now, fun k => congrFun hbuffer k⟩
    rw [hbooked.booked, if_neg fun h => hw h.2.2]
  · exact hinfo.sameRow hw

end Entry

/-- The loop over authors and their obligations, which are rewards or penalties. -/
theorem keyedBookings {β : Type} (mk : β → Obligation) : KeyedSteps
    (fun (s : AuthorState T) (entry : T.AccountId × β) => s.bookKept entry.1 (mk entry.2)) Prod.fst SameRow
    (fun entry s t => BookOutcome entry.1 (mk entry.2) s t) where
  refl := SameRow.refl
  trans := SameRow.trans
  other s entry _ hk := bookKept_other s (mk entry.2) hk
  own s entry := bookKept_outcome s entry.1 (mk entry.2)
  before := BookOutcome.before
  after := BookOutcome.after

end FrameSuite
