import FrameSuite.AuthorCalls
import FrameSuite.BookingLoops
import FrameSuite.LiveRoles
import FrameSuite.RunHistory

/-! Reports of offences, which become penalties by a model that bounds them. No penalty is scheduled that was
not asked for, none twice, and those that reports ask for stay within the bounds of the model. -/

namespace FrameSuite

section Models

variable {Id : Type}

/-- The models of penalties leave out entries without one, and change each other entry by itself. -/
def adjustPenalties (adjust : Perbill → Perbill) (penalties : List (Id × Perbill)) : List (Id × Perbill) :=
  penalties.filterMap fun e => if e.2.parts = 0 then none else some (e.1, adjust e.2)

def toThreshold (threshold penalty : Perbill) : Perbill :=
  if threshold.parts < penalty.parts then threshold else penalty

def toCapped (floor cap penalty : Perbill) : Perbill :=
  if cap.parts < penalty.parts then cap
  else if penalty.parts < floor.parts then floor
  else penalty

def thresholdPenalty (threshold : Perbill) : List (Id × Perbill) → List (Id × Perbill) :=
  adjustPenalties (toThreshold threshold)

def cappedPenalty (floor cap : Perbill) : List (Id × Perbill) → List (Id × Perbill) :=
  adjustPenalties (toCapped floor cap)

inductive PenaltyModel
  | threshold (limit : Perbill)
  | capped (floor cap : Perbill)

namespace PenaltyModel

def transformPenalty : PenaltyModel → List (Id × Perbill) → List (Id × Perbill)
  | .threshold limit => thresholdPenalty limit
  | .capped floor cap => cappedPenalty floor cap

def adjust : PenaltyModel → Perbill → Perbill
  | .threshold limit => toThreshold limit
  | .capped floor cap => toCapped floor cap

/-- The bounds of what comes out. Nothing makes the floor of a capped penalty less than its cap. -/
def least : PenaltyModel → Nat
  | .threshold limit => min limit.parts 1
  | .capped floor cap => min floor.parts cap.parts

def most : PenaltyModel → Nat
  | .threshold limit => limit.parts
  | .capped floor cap => max floor.parts cap.parts

theorem transformPenalty_eq (model : PenaltyModel) :
    model.transformPenalty = (adjustPenalties model.adjust : List (Id × Perbill) → List (Id × Perbill)) := by
  cases model <;> rfl

theorem adjust_within (model : PenaltyModel) {penalty : Perbill} (h : penalty.parts ≠ 0) :
    model.least ≤ (model.adjust penalty).parts ∧ (model.adjust penalty).parts ≤ model.most := by
  cases model with
  | threshold limit =>
    simp only [least, most, adjust, toThreshold]
    split <;> omega
  | capped floor cap =>
    simp only [least, most, adjust, toCapped]
    split
    · omega
    · split <;> omega

end PenaltyModel

/-- Every offender with the fraction in its place; the source fails where the fractions end earlier. -/
def offendersList (offenders : List Id) (slashFractions : List Perbill) : Option (List (Id × Perbill)) :=
  offenders.zipIdx.mapM fun o => (slashFractions[o.2]?).map (Prod.mk o.1)

theorem mem_adjustPenalties {adjust : Perbill → Perbill} {penalties : List (Id × Perbill)} {who : Id}
    {factor : Perbill} : (who, factor) ∈ adjustPenalties adjust penalties ↔
      ∃ penalty, (who, penalty) ∈ penalties ∧ penalty.parts ≠ 0 ∧ factor = adjust penalty := by
  unfold adjustPenalties
  rw [List.mem_filterMap]
  constructor
  · rintro ⟨⟨w, penalty⟩, hp, he⟩
    split_ifs at he with hzero
    obtain ⟨rfl, rfl⟩ := Prod.mk.inj (Option.some.inj he)
    exact ⟨penalty, hp, hzero, rfl⟩
  · rintro ⟨penalty, hp, hzero, rfl⟩
    exact ⟨(who, penalty), hp, if_neg hzero⟩

theorem nodup_adjustPenalties {adjust : Perbill → Perbill} {penalties : List (Id × Perbill)}
    (h : (penalties.map Prod.fst).Nodup) : ((adjustPenalties adjust penalties).map Prod.fst).Nodup := by
  have hsub : ((adjustPenalties adjust penalties).map Prod.fst).Sublist (penalties.map Prod.fst) := by
    unfold adjustPenalties
    clear h
    induction penalties with
    | nil => exact List.Sublist.refl []
    | cons e penalties ih =>
      by_cases hzero : e.2.parts = 0
      · simpa [hzero] using ih.cons e.1
      · simpa [hzero] using ih.cons_cons e.1
  exact h.sublist hsub

theorem mapM_zipIdx_eq_some {fractions : List Perbill} {offenders : List Id} {k : Nat} {pairs : List (Id × Perbill)}
    (h : (offenders.zipIdx k).mapM (fun o => (fractions[o.2]?).map (Prod.mk o.1)) = some pairs) :
    pairs = offenders.zip (fractions.drop k) ∧ pairs.length = offenders.length := by
  induction offenders generalizing k pairs with
  | nil =>
    obtain rfl : pairs = [] := by simpa using h.symm
    exact ⟨rfl, rfl⟩
  | cons who offenders ih =>
    simp only [List.zipIdx_cons, List.mapM_cons, Option.bind_eq_bind, Option.bind_eq_some_iff, Option.map_eq_some_iff,
      Option.pure_def, Option.some.injEq] at h
    obtain ⟨pair, ⟨fraction, hf, rfl⟩, rest, hrest, rfl⟩ := h
    obtain ⟨hzip, hlength⟩ := ih hrest
    obtain ⟨hk, rfl⟩ := List.getElem?_eq_some_iff.mp hf
    rw [List.drop_eq_getElem_cons hk, List.zip_cons_cons, ← hzip]
    exact ⟨rfl, congrArg Nat.succ hlength⟩

theorem offendersList_eq_some {offenders : List Id} {fractions : List Perbill} {pairs : List (Id × Perbill)}
    (h : offendersList offenders fractions = some pairs) :
    pairs = offenders.zip fractions ∧ pairs.map Prod.fst = offenders := by
  obtain ⟨hzip, hlength⟩ := mapM_zipIdx_eq_some h
  rw [List.drop_zero] at hzip
  refine ⟨hzip, ?_⟩
  rw [hzip, List.length_zip] at hlength
  rw [hzip]
  exact List.map_fst_zip (by omega)

end Models

section Handler

variable {A : AuthorConfig} {P : ChainParameters A}

/-- The handler of the offences pallet: what is reported is adjusted, and each penalty is attempted. -/
def onOffence (model : PenaltyModel) (s : AuthorState A) (offenders : List A.AccountId)
    (slashFractions : List Perbill) :
    Option (AuthorState A × List (OutcomeEvent A.AccountId Perbill AuthorError)) :=
  (offendersList offenders slashFractions).map fun towards =>
    penalizeAuthorsBy penalizeAttempt model.transformPenalty towards s

/-- What happens to the chain, with reports of offences. -/
inductive OffenceCall (P : ChainParameters A)
  | chain (call : ChainCall P.chain)
  | report (offenders : List A.AccountId) (slashFractions : List Perbill)

/-- The steps of the chain; there is no error for a report with a fraction missing. -/
def ChainState.applyOffence (model : PenaltyModel) (s : ChainState P.chain) :
    OffenceCall P → Except (Option (ChainError AuthorError)) (ChainState P.chain)
  | .chain call => (s.apply call).mapError some
  | .report offenders slashFractions =>
    match onOffence model s.authors offenders slashFractions with
    | some (roles, _) => .ok { s with roles }
    | none => .error none

/-- Reports name the penalties that come out of the model, and other pallets may penalize an author directly. -/
def OffenceCall.asks (model : PenaltyModel) : OffenceCall P → List (A.AccountId × Perbill)
  | .chain (.callRoles ⟨.penalize who factor, _⟩) => [(who, factor)]
  | .chain _ => []
  | .report offenders slashFractions => model.transformPenalty (offenders.zip slashFractions)

end Handler

section Reports

variable {A : AuthorConfig} {s t : AuthorState A}

/-- Each offender with a fraction other than zero gets the penalty booked that the model makes of it, unless it
is no author or has no block free. Nothing else is booked. -/
structure PenaltiesBooked (model : PenaltyModel) (s t : AuthorState A) (reported : List (A.AccountId × Perbill)) :
    Prop where
  outcomes : ∀ who fraction, (who, fraction) ∈ reported → fraction.parts ≠ 0 →
    BookOutcome who (.penalty (model.adjust fraction)) s t
  others : ∀ who, (∀ fraction, (who, fraction) ∈ reported → fraction.parts = 0) →
    ∀ kind block, t.booked kind block who = s.booked kind block who

theorem onOffence_eq {model : PenaltyModel} {offenders : List A.AccountId} {fractions : List Perbill}
    {events : List (OutcomeEvent A.AccountId Perbill AuthorError)}
    (h : onOffence model s offenders fractions = some (t, events)) :
    (offenders.zip fractions).map Prod.fst = offenders ∧
      t = (model.transformPenalty (offenders.zip fractions)).foldl
        (fun s e => s.bookKept e.1 (.penalty e.2)) s := by
  obtain ⟨pairs, hpairs, he⟩ := Option.map_eq_some_iff.mp h
  obtain ⟨rfl, hfst⟩ := offendersList_eq_some hpairs
  have ht : t = (reportEach penalizeAttempt (model.transformPenalty (offenders.zip fractions)) s).1 :=
    (congrArg Prod.fst he).symm
  rw [ht, reportEach_fst]
  exact ⟨hfst, rfl⟩

/-- A report of different offenders leads to the penalties of each of them, whatever happens to the others. -/
theorem offences_booked {model : PenaltyModel} {offenders : List A.AccountId} {fractions : List Perbill}
    {events : List (OutcomeEvent A.AccountId Perbill AuthorError)} (hnodup : offenders.Nodup)
    (h : onOffence model s offenders fractions = some (t, events)) :
    PenaltiesBooked model s t (offenders.zip fractions) := by
  obtain ⟨hfst, rfl⟩ := onOffence_eq h
  have hkeyed := keyedBookings (T := A) Obligation.penalty
  have hkeys : ((adjustPenalties model.adjust (offenders.zip fractions)).map Prod.fst).Nodup :=
    nodup_adjustPenalties (by rwa [hfst])
  rw [PenaltyModel.transformPenalty_eq]
  refine ⟨fun who fraction hin hzero => ?_, fun who hspared => ?_⟩
  · exact hkeyed.foldl_outcome hkeys (mem_adjustPenalties.mpr ⟨fraction, hin, hzero, rfl⟩) s
  · refine (hkeyed.foldl_same (fun hw => ?_) s).booked
    obtain ⟨⟨w, factor⟩, he, rfl⟩ := List.mem_map.mp hw
    obtain ⟨fraction, hin, hzero, -⟩ := mem_adjustPenalties.mp he
    exact hzero (hspared fraction hin)

/-- A tenth is booked for the first author, nothing for the second, and nothing for an account that is none. -/
theorem offences_booked_tenth : ∃ t events,
    onOffence (.threshold ⟨7 * 10 ^ 8, by decide⟩) (authorRun pooledAuthors) [1, 2, 7]
        [⟨10 ^ 8, by decide⟩, .zero, ⟨10 ^ 8, by decide⟩] = some (t, events) ∧
      PenaltiesBooked (.threshold ⟨7 * 10 ^ 8, by decide⟩) (authorRun pooledAuthors) t
        [((1 : Nat), ⟨10 ^ 8, by decide⟩), ((2 : Nat), .zero), ((7 : Nat), ⟨10 ^ 8, by decide⟩)] := by
  have hsome : (onOffence (A := authorConfig) (.threshold ⟨7 * 10 ^ 8, by decide⟩) (authorRun pooledAuthors)
      [(1 : Nat), (2 : Nat), (7 : Nat)] [⟨10 ^ 8, by decide⟩, .zero, ⟨10 ^ 8, by decide⟩]).isSome = true := rfl
  obtain ⟨⟨t, events⟩, h⟩ := Option.isSome_iff_exists.mp hsome
  exact ⟨t, events, h, offences_booked (A := authorConfig) (by decide) h⟩

end Reports

section Growth

theorem StorageMap.sum_le_of_get {K V : Type} {m m' : StorageMap K V}
    (h : ∀ k v, m'.get k = some v → m.get k = some v) (f : K → V → Nat) : m'.sum f ≤ m.sum f := by
  have hsub : m'.keys ⊆ m.keys := fun k hk => by
    rw [m'.mem_keys] at hk
    obtain ⟨v, hv⟩ := Option.ne_none_iff_exists'.mp hk
    rw [m.mem_keys, h k v hv]
    exact Option.some_ne_none v
  rw [sum_eq_of_subset hsub]
  refine Finset.sum_le_sum fun k _ => ?_
  cases hk : m'.get k with
  | none => exact Nat.zero_le _
  | some v => rw [h k v hk]

variable {A : AuthorConfig} {s t u : AuthorState A} {who : A.AccountId} {factor : Perbill} {o : Obligation}
  {asks asks' : List (A.AccountId × Perbill)}

/-- The scheduled penalties of the account that are the factor. -/
def AuthorState.pending (s : AuthorState A) (who : A.AccountId) (factor : Perbill) : Nat :=
  s.authorPenalties.sum fun k f => if (k.2, f) = (who, factor) then 1 else 0

/-- Each new penalty is one of those asked for, no zero one, and not due before the buffer ends. -/
structure PenaltiesGrow (s t : AuthorState A) (asks : List (A.AccountId × Perbill)) : Prop where
  counted : ∀ who factor, t.pending who factor ≤ s.pending who factor + asks.count (who, factor)
  entries : ∀ block who factor, t.authorPenalties.get (block, who) = some factor →
    s.authorPenalties.get (block, who) = some factor ∨
      (who, factor) ∈ asks ∧ factor.parts ≠ 0 ∧ A.blockAdd s.blockNumber s.penaltiesBuffer ≤ block

theorem PenaltiesGrow.of_kept (h : ∀ k f, t.authorPenalties.get k = some f → s.authorPenalties.get k = some f)
    (asks : List (A.AccountId × Perbill)) : PenaltiesGrow s t asks :=
  ⟨fun _ _ => (StorageMap.sum_le_of_get h _).trans (Nat.le_add_right _ _), fun _ _ _ hget => .inl (h _ _ hget)⟩

theorem PenaltiesGrow.of_none (h : PenaltiesGrow s t []) (asks : List (A.AccountId × Perbill)) :
    PenaltiesGrow s t asks := by
  refine ⟨fun who factor => (h.counted who factor).trans (Nat.le_add_right _ _), fun block who factor hget => ?_⟩
  exact .inl ((h.entries block who factor hget).resolve_right fun hnew => List.not_mem_nil hnew.1)

theorem PenaltiesGrow.trans (h : PenaltiesGrow s t asks) (hnow : t.blockNumber = s.blockNumber)
    (hbuffer : t.penaltiesBuffer = s.penaltiesBuffer) (h' : PenaltiesGrow t u asks') :
    PenaltiesGrow s u (asks ++ asks') := by
  refine ⟨fun who factor => ?_, fun block who factor hget => ?_⟩
  · have := h.counted who factor
    have := h'.counted who factor
    rw [List.count_append]
    omega
  · rcases h'.entries block who factor hget with hold | ⟨hask, hzero, hblock⟩
    · exact (h.entries block who factor hold).imp_right (And.imp_left (List.mem_append_left _))
    · rw [hnow, hbuffer] at hblock
      exact .inr ⟨List.mem_append_right _ hask, hzero, hblock⟩

theorem penalty_booked_iff {block : Nat} : s.authorPenalties.get (block, who) = some factor ↔
    s.booked .penalty block who = some (.penalty factor) := by
  simp [AuthorState.booked]

theorem DueBooked.grows {block : Nat} (h : DueBooked s t who (.penalty factor) block)
    (hfree : s.FirstFree .penalty who block) (hzero : factor.parts ≠ 0) :
    PenaltiesGrow s t [(who, factor)] := by
  have hentry (b : Nat) (w : A.AccountId) (f : Perbill) (hget : t.authorPenalties.get (b, w) = some f) :
      (b = block ∧ w = who ∧ f = factor) ∨ s.authorPenalties.get (b, w) = some f := by
    rw [penalty_booked_iff, h.booked] at hget
    split_ifs at hget with hk
    · obtain ⟨-, rfl, rfl⟩ := hk
      exact .inl ⟨rfl, rfl, by cases hget; rfl⟩
    · exact .inr (penalty_booked_iff.mpr hget)
  refine ⟨fun w f => ?_, fun b w f hget => ?_⟩
  · have hle : t.pending w f ≤ (s.authorPenalties.insert (block, who) factor).sum
        (fun k f' => if (k.2, f') = (w, f) then 1 else 0) := by
      refine StorageMap.sum_le_of_get (fun k f' hget => ?_) _
      obtain ⟨b, w'⟩ := k
      rw [StorageMap.get_insert]
      rcases hentry b w' f' hget with ⟨rfl, rfl, rfl⟩ | hold
      · rw [if_pos rfl]
      · rw [if_neg, hold]
        intro he
        obtain ⟨rfl, rfl⟩ := Prod.mk.inj he
        rw [penalty_booked_iff, hfree.free] at hold
        cases hold
    have hsum := StorageMap.sum_insert (fun k f' => if (k.2, f') = (w, f) then 1 else 0) s.authorPenalties
      (block, who) factor
    rw [List.count_singleton]
    unfold AuthorState.pending at hle ⊢
    simp only [beq_iff_eq] at hsum ⊢
    omega
  · rcases hentry b w f hget with ⟨rfl, rfl, rfl⟩ | hold
    · exact .inr ⟨List.mem_singleton_self _, hzero, hfree.start_le⟩
    · exact .inl hold

/-- The penalty that an obligation is. -/
def Obligation.asked (who : A.AccountId) : Obligation → List (A.AccountId × Perbill)
  | .reward _ => []
  | .penalty factor => [(who, factor)]

theorem book_grows {block : Nat} (h : s.book who o = .ok (t, block)) : PenaltiesGrow s t (o.asked who) := by
  obtain ⟨hfree, -, hbooked⟩ := book_eq_ok h
  cases o with
  | reward value =>
    refine .of_kept (fun k f hget => ?_) _
    obtain ⟨b, w⟩ := k
    rw [penalty_booked_iff, hbooked.booked, if_neg (fun hk => by cases hk.1)] at hget
    exact penalty_booked_iff.mpr hget
  | penalty factor =>
    obtain ⟨_, hzero, -⟩ := bind_eq_ok.mp h
    exact hbooked.grows hfree (ensure_eq_ok.mp hzero)

theorem bookKept_grows (s : AuthorState A) (who : A.AccountId) (o : Obligation) :
    PenaltiesGrow s (s.bookKept who o) (o.asked who) ∧ (s.bookKept who o).blockNumber = s.blockNumber ∧
      (s.bookKept who o).penaltiesBuffer = s.penaltiesBuffer := by
  rcases bookKept_cases s who o with ⟨block, hbook, -⟩ | ⟨⟨info, he⟩, -⟩
  · obtain ⟨-, -, hbooked⟩ := book_eq_ok hbook
    exact ⟨book_grows hbook, hbooked.now, congrFun (book_infos hbook).2 .penalty⟩
  · have hkept : (s.bookKept who o).authorPenalties = s.authorPenalties ∧
        (s.bookKept who o).blockNumber = s.blockNumber ∧
          (s.bookKept who o).penaltiesBuffer = s.penaltiesBuffer := by
      rcases he with he | he
      · rw [he]
        exact ⟨rfl, rfl, rfl⟩
      · rw [he]
        exact ⟨rfl, rfl, rfl⟩
    exact ⟨.of_kept (fun k f hget => by rwa [hkept.1] at hget) _, hkept.2⟩

theorem bookings_grow {β : Type} (mk : β → Obligation) (entries : List (A.AccountId × β)) (s : AuthorState A) :
    PenaltiesGrow s (entries.foldl (fun s e => s.bookKept e.1 (mk e.2)) s)
      (entries.flatMap fun e => (mk e.2).asked e.1) := by
  induction entries generalizing s with
  | nil => exact .of_kept (fun _ _ => id) _
  | cons e entries ih =>
    obtain ⟨hgrow, hnow, hbuffer⟩ := bookKept_grows s e.1 (mk e.2)
    exact hgrow.trans hnow hbuffer (ih _)

theorem onOffence_grows {model : PenaltyModel} {offenders : List A.AccountId} {fractions : List Perbill}
    {events : List (OutcomeEvent A.AccountId Perbill AuthorError)}
    (h : onOffence model s offenders fractions = some (t, events)) :
    PenaltiesGrow s t (model.transformPenalty (offenders.zip fractions)) := by
  obtain ⟨-, rfl⟩ := onOffence_eq h
  have hgrow := bookings_grow Obligation.penalty (model.transformPenalty (offenders.zip fractions)) s
  have hasks : ((model.transformPenalty (offenders.zip fractions)).flatMap
      fun e => (Obligation.penalty e.2).asked e.1) = model.transformPenalty (offenders.zip fractions) := by
    simp [Obligation.asked]
  rwa [hasks] at hgrow

theorem DueStep.grows {call : AuthorCall A} (h : s.apply call = .ok t)
    (hp : ∀ who factor, call ≠ .penalize who factor) : PenaltiesGrow s t [] := by
  refine .of_kept (fun k f hget => ?_) _
  obtain ⟨b, w⟩ := k
  rw [penalty_booked_iff] at hget ⊢
  cases apply_dueStep h with
  | kept hk => rwa [hk.booked] at hget
  | @booked who o block hfree hwho hb =>
    cases o with
    | reward value => rwa [hb.booked, if_neg (fun hk => by cases hk.1)] at hget
    | penalty factor => exact absurd rfl (hp who factor)
  | recalled hr =>
    rw [hr.booked] at hget
    split_ifs at hget
    exact hget
  | entered hb hhorizon hdue =>
    rw [hdue] at hget
    split_ifs at hget
    exact hget

end Growth

section Runs

variable {A : AuthorConfig} {P : ChainParameters A} {model : PenaltyModel} {s t : ChainState P.chain}

theorem asks_of_penalize {call : ChainCall P.chain} {who : A.AccountId} {factor : Perbill}
    (hc : call.authorCall s = some (.penalize who factor)) :
    OffenceCall.asks model (.chain call) = [(who, factor)] := by
  cases call with
  | dispatch origin extrinsic => cases extrinsic <;> cases hc
  | enterBlock author => cases hc
  | callRoles c =>
    obtain ⟨c, hothers⟩ := c
    obtain rfl := withDuty_penalize.mp (Option.some.inj hc)
    rfl
  | forceGenesisConfig field => cases hc
  | rotateSession => cases hc

theorem rewardAuthors_grow (s : ChainState P.chain) (asks : List (A.AccountId × Perbill)) :
    PenaltiesGrow s.authors (rewardAuthors s).authors asks := by
  unfold rewardAuthors
  dsimp only
  split
  · exact .of_kept (fun _ _ => id) _
  · have hgrow := bookings_grow Obligation.reward (P.payees (P.payout s.authors) (payoutFor s)) s.authors
    have hnone : ((P.payees (P.payout s.authors) (payoutFor s)).flatMap
        fun e => (Obligation.reward e.2).asked e.1) = [] := List.flatMap_eq_nil_iff.mpr fun _ _ => rfl
    rw [hnone] at hgrow
    exact hgrow.of_none asks

theorem apply_asks_grow {call : ChainCall P.chain} (h : s.apply call = .ok t) :
    PenaltiesGrow s.authors t.authors (OffenceCall.asks model (.chain call)) := by
  cases apply_authors h with
  | @called c hc h =>
    cases c with
    | penalize who factor =>
      rw [asks_of_penalize hc]
      obtain ⟨r, hbook, hr⟩ := map_eq_ok.mp ((apply_call s.authors who (.penalty factor)).symm.trans h)
      exact hr ▸ book_grows hbook
    | _ => exact (DueStep.grows h fun who factor he => by cases he).of_none _
  | rewarded hc h =>
    rw [h]
    exact rewardAuthors_grow s _
  | kept hc h =>
    rw [h]
    exact .of_kept (fun _ _ => id) _

theorem applyOffence_grows {call : OffenceCall P} (h : s.applyOffence model call = .ok t) :
    PenaltiesGrow s.authors t.authors (call.asks model) := by
  cases call with
  | chain call =>
    refine apply_asks_grow ?_
    have h : (s.apply call).mapError some = .ok t := h
    cases hc : s.apply call with
    | ok u =>
      rw [hc] at h
      exact congrArg Except.ok (Except.ok.inj h)
    | error e =>
      rw [hc] at h
      cases h
  | report offenders fractions =>
    simp only [ChainState.applyOffence] at h
    split at h
    · rename_i roles events hreport
      obtain rfl := Except.ok.inj h
      exact onOffence_grows hreport
    · cases h

/-- The penalties of a factor that an account was asked to pay. -/
def asked (model : PenaltyModel) (past : List (ChainState P.chain × OffenceCall P)) (who : A.AccountId)
    (factor : Perbill) : Nat :=
  (past.map fun e => (e.2.asks model).count (who, factor)).sum

/-- All scheduled penalties were asked for, each another one, and wait out the buffer of that time. -/
structure PenaltiesAsked (model : PenaltyModel) (past : List (ChainState P.chain × OffenceCall P))
    (s : ChainState P.chain) : Prop where
  counted : ∀ who factor, s.authors.pending who factor ≤ asked model past who factor
  entries : ∀ block who factor, s.authors.authorPenalties.get (block, who) = some factor →
    factor.parts ≠ 0 ∧ ∃ e ∈ past, (who, factor) ∈ e.2.asks model ∧
      A.blockAdd e.1.blockNumber e.1.authors.penaltiesBuffer ≤ block

theorem PenaltiesAsked.apply {past : List (ChainState P.chain × OffenceCall P)} {call : OffenceCall P}
    (hs : PenaltiesAsked model past s) (h : s.applyOffence model call = .ok t) :
    PenaltiesAsked model (past ++ [(s, call)]) t := by
  have hgrow := applyOffence_grows h
  refine ⟨fun who factor => ?_, fun block who factor hget => ?_⟩
  · have hpending := hs.counted who factor
    have hnew := hgrow.counted who factor
    simp only [asked, List.map_append, List.map_singleton, List.sum_append, List.sum_singleton] at hpending ⊢
    omega
  · rcases hgrow.entries block who factor hget with hold | ⟨hask, hzero, hblock⟩
    · obtain ⟨hzero, e, he, hrest⟩ := hs.entries block who factor hold
      exact ⟨hzero, e, List.mem_append_left _ he, hrest⟩
    · exact ⟨hzero, _, List.mem_append_right _ (List.mem_singleton_self _), hask, hblock⟩

/-- Another pallet penalizes the account directly. -/
def OffenceCall.penalizes (who : A.AccountId) (factor : Perbill) : OffenceCall P → Prop
  | .chain (.callRoles call) => call.1 = .penalize who factor
  | _ => False

/-- The report has an entry for the account that is not zero, which the model turns into the factor. -/
def OffenceCall.reports (model : PenaltyModel) (who : A.AccountId) (factor : Perbill) : OffenceCall P → Prop
  | .report offenders slashFractions =>
    ∃ fraction, (who, fraction) ∈ offenders.zip slashFractions ∧ fraction.parts ≠ 0 ∧ factor = model.adjust fraction
  | _ => False

/-- What the scheduled penalties are: no more for an account and a factor than were asked for, each from a call
or a report at a time whose buffer it waits out, and those from reports within the bounds of the model. -/
structure PenaltiesAccounted (model : PenaltyModel) (past : List (ChainState P.chain × OffenceCall P))
    (s : ChainState P.chain) : Prop where
  counted : ∀ who factor, s.authors.pending who factor ≤ asked model past who factor
  sources : ∀ block who factor, s.authors.authorPenalties.get (block, who) = some factor →
    factor.parts ≠ 0 ∧ ∃ e ∈ past, A.blockAdd e.1.blockNumber e.1.authors.penaltiesBuffer ≤ block ∧
      (e.2.penalizes who factor ∨
        e.2.reports model who factor ∧ model.least ≤ factor.parts ∧ factor.parts ≤ model.most)

theorem penalizes_or_reports {call : OffenceCall P} {who : A.AccountId} {factor : Perbill}
    (h : (who, factor) ∈ call.asks model) : call.penalizes who factor ∨
      call.reports model who factor ∧ model.least ≤ factor.parts ∧ factor.parts ≤ model.most := by
  cases call with
  | chain call =>
    cases call with
    | callRoles c =>
      obtain ⟨c, hc⟩ := c
      cases c with
      | penalize w f =>
        obtain ⟨rfl, rfl⟩ := Prod.mk.inj (List.mem_singleton.mp h)
        exact .inl rfl
      | _ => cases h
    | _ => cases h
  | report offenders fractions =>
    have h : (who, factor) ∈ model.transformPenalty (offenders.zip fractions) := h
    rw [PenaltyModel.transformPenalty_eq, mem_adjustPenalties] at h
    obtain ⟨fraction, hin, hzero, rfl⟩ := h
    exact .inr ⟨⟨fraction, hin, hzero, rfl⟩, model.adjust_within hzero⟩

/-- In every run with reports of offences the scheduled penalties are accounted for. -/
theorem penalties_accounted (model : PenaltyModel) (ledger : A.Ledger) (g : AuthorGenesis)
    (initial : List A.AccountId) (c : ChainGenesis) (calls : List (OffenceCall P)) :
    PenaltiesAccounted model
      (history (ChainState.applyOffence model)
        (ChainState.genesis (T := P.chain) (AuthorState.genesis ledger g) initial c) calls)
      (run (ChainState.applyOffence model)
        (ChainState.genesis (T := P.chain) (AuthorState.genesis ledger g) initial c) calls) := by
  have hfirst : PenaltiesAsked (P := P) model []
      (ChainState.genesis (T := P.chain) (AuthorState.genesis ledger g) initial c) :=
    ⟨fun _ _ => Nat.le_refl _, fun _ _ _ hget => by cases hget⟩
  have hasked := run_history_invariant (P := fun past s => PenaltiesAsked (P := P) model past s)
    (fun _ _ _ _ hs h => hs.apply h) hfirst calls
  rw [List.nil_append] at hasked
  refine ⟨hasked.counted, fun block who factor hget => ?_⟩
  obtain ⟨hzero, e, he, hask, hblock⟩ := hasked.entries block who factor hget
  exact ⟨hzero, e, he, hblock, penalizes_or_reports hask⟩

end Runs

end FrameSuite
