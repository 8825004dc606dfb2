import FrameSuite.AffidavitKeys
import FrameSuite.DutyWindows
import FrameSuite.LiveRoles

/-! Giving up an affidavit key. Keys are stored by session and key, and not by author: an author that owns
another one for the coming sessions is not chilled by giving up one of them, and a candidate that gives up its
rotated key in the last block of the window stays one. -/

namespace FrameSuite

section Keys

variable {K A : Type} [DecidableEq K] {m : StorageMap (Nat × K) A} {session : Nat} {key : K} {author : A}

/-- Nobody owns two keys of one session. -/
def OneKey (m : StorageMap (Nat × K) A) : Prop :=
  ∀ author session key key', m.get (session, key) = some author → m.get (session, key') = some author → key = key'

theorem OneKey.insert_iff (h : OneKey m) :
    OneKey (m.insert (session, key) author) ↔ ∀ key', m.get (session, key') = some author → key' = key := by
  constructor
  · intro hone key' hkey'
    by_contra hne
    refine hne (hone author session key' key ?_ (StorageMap.get_insert_self ..))
    rwa [StorageMap.get_insert_of_ne (by simp [hne])]
  · intro hkeys b n k k' hk hk'
    rw [StorageMap.get_insert] at hk hk'
    split_ifs at hk hk' with heq heq' heq'
    · exact (Prod.mk.inj (heq.trans heq'.symm)).2
    · obtain ⟨rfl, rfl⟩ := Prod.mk.inj heq
      cases hk
      exact (hkeys k' hk').symm
    · obtain ⟨rfl, rfl⟩ := Prod.mk.inj heq'
      cases hk'
      exact hkeys k hk
    · exact h b n k k' hk hk'

theorem OneKey.remove (h : OneKey m) (p : Nat × K) : OneKey (m.remove p) := by
  intro b n k k' hk hk'
  rw [StorageMap.get_remove] at hk hk'
  split_ifs at hk hk'
  exact h b n k k' hk hk'

end Keys

variable {A : AuthorConfig} {P : ChainParameters A} {s t : ChainState P.chain} {author : A.AccountId}
  {call : ChainCall P.chain} {calls : List (ChainCall P.chain)}

/-- The first key of the author for the session after next, and else for the next session. -/
def getRuntimeAfdtKey (order : HashOrder P.AffidavitId) (s : ChainState P.chain) (author : A.AccountId) :
    Option (Nat × P.AffidavitId) :=
  match (s.affidavitKeys.iterPrefix order s.nextAffidavitSession).find? (fun entry => entry.2 = author) with
  | some entry => some (s.nextAffidavitSession, entry.1)
  | none =>
    match (s.affidavitKeys.iterPrefix order s.nextSession).find? (fun entry => entry.2 = author) with
    | some entry => some (s.nextSession, entry.1)
    | none => none

def isChilling (order : HashOrder P.AffidavitId) (s : ChainState P.chain) (author : A.AccountId) : Bool :=
  (getRuntimeAfdtKey order s author).isNone

def ChainState.OwnsAhead (s : ChainState P.chain) (author : A.AccountId) (key : Nat × P.AffidavitId) : Prop :=
  s.affidavitKeys.get key = some author ∧ (key.1 = s.nextSession ∨ key.1 = s.nextAffidavitSession)

theorem find_owner (order : HashOrder P.AffidavitId) {session : Nat} :
    (s.affidavitKeys.iterPrefix order session).find? (fun entry => entry.2 = author) = none ↔
      ∀ key, s.affidavitKeys.get (session, key) ≠ some author := by
  rw [List.find?_eq_none]
  constructor
  · intro h key hkey
    exact h (key, author) (StorageMap.mem_iterPrefix.mpr hkey) (by simp)
  · rintro h ⟨key, owner⟩ hmem howner
    obtain rfl : owner = author := by simpa using howner
    exact h key (StorageMap.mem_iterPrefix.mp hmem)

theorem isChilling_iff {order : HashOrder P.AffidavitId} :
    isChilling order s author = true ↔ ∀ key, ¬s.OwnsAhead author key := by
  have hsessions : (∀ key, ¬s.OwnsAhead author key) ↔
      (∀ key, s.affidavitKeys.get (s.nextAffidavitSession, key) ≠ some author) ∧
        ∀ key, s.affidavitKeys.get (s.nextSession, key) ≠ some author := by
    constructor
    · exact fun h => ⟨fun key hkey => h (_, key) ⟨hkey, .inr rfl⟩, fun key hkey => h (_, key) ⟨hkey, .inl rfl⟩⟩
    · rintro ⟨hnext, hcurrent⟩ ⟨session, key⟩ ⟨hkey, rfl | rfl⟩
      · exact hcurrent key hkey
      · exact hnext key hkey
  rw [hsessions, ← find_owner order, ← find_owner order]
  unfold isChilling getRuntimeAfdtKey
  split
  · rename_i hfound
    simp [hfound]
  · rename_i hnone
    split <;> rename_i hfound <;> simp [hnone, hfound]

section Sessions

/-- What a call does to the session and its affidavits: a rotation enters the next session, and any other call
stays in this one, where only the parameters move the window and only declarations add affidavits. -/
inductive SessionStep (s t : ChainState P.chain) (call : ChainCall P.chain) : Prop
  | rotated (hs : s.nextSession < t.nextSession) (ha : t.authorAffidavits = s.authorAffidavits)
  | within (hs : t.currentSession = s.currentSession) (hb : s.blockNumber ≤ t.blockNumber)
      (hw : t.affidavitWindow = s.affidavitWindow ∨ ∃ field, call = .forceGenesisConfig field)
      (ha : t.authorAffidavits = s.authorAffidavits ∨ ∃ author record key,
        s.affidavitKeys.get (s.nextSession, key) = some author ∧
        t.authorAffidavits = s.authorAffidavits.insert (s.nextSession, author) record)

theorem nextSession_congr (h : t.currentSession = s.currentSession) :
    t.nextSession = s.nextSession ∧ t.nextAffidavitSession = s.nextAffidavitSession := by
  unfold ChainState.nextAffidavitSession ChainState.nextSession
  rw [h]
  exact ⟨rfl, rfl⟩

theorem dispatch_sessionStep {origin : Origin A.AccountId} {extrinsic : Extrinsic P.chain}
    (h : dispatch s origin extrinsic = .ok t) : SessionStep s t (.dispatch origin extrinsic) := by
  obtain ⟨hx, -⟩ := dispatch_eq_ok h
  cases extrinsic with
  | validate signer signature =>
    obtain ⟨author, -, -, -, rfl⟩ := validate_eq_ok hx
    exact .within rfl le_rfl (.inl rfl) (.inl rfl)
  | declare signer rotate signature =>
    obtain ⟨-, -, author, weights, hkey, rfl⟩ := declare_eq_ok hx
    exact .within rfl le_rfl (.inl rfl) (.inr ⟨author, _, _, hkey, rfl⟩)
  | elect signer signature =>
    obtain ⟨-, author, roles, -, -, -, hprepare, rfl⟩ := elect_eq_ok hx
    have hr : s.authors.apply (.prepareElects (prepareCandidates s)) = .ok roles := hprepare
    exact .within rfl (apply_block_le hr) (.inl rfl) (.inl rfl)
  | chill affidavitPub =>
    obtain ⟨author, session, -, -, -, rfl⟩ := chill_eq_ok hx
    exact .within rfl le_rfl (.inl rfl) (.inl rfl)

theorem apply_sessionStep (h : s.apply call = .ok t) : SessionStep s t call := by
  cases call with
  | dispatch origin extrinsic => exact dispatch_sessionStep h
  | forceGenesisConfig field =>
    have hc := forceGenesisConfig_eq_ok h
    have hb : t.blockNumber = s.blockNumber := congrArg P.chain.blockNumber hc.roles
    exact .within hc.session hb.ge (.inr ⟨field, rfl⟩) (.inl hc.affidavits)
  | rotateSession =>
    have hr := rotateSession_eq_ok h
    have hbound := hr.bound
    have hsession := hr.session
    refine .rotated ?_ hr.affidavits
    unfold ChainState.nextSession saturatingAdd
    omega
  | enterBlock author =>
    obtain ⟨roles, points, hr, rfl⟩ := chainEnterBlock_eq_ok h
    have hr : s.authors.apply .enterBlock = .ok roles := hr
    exact .within rfl (apply_block_le hr) (.inl rfl) (.inl rfl)
  | callRoles call =>
    obtain ⟨roles, hr, rfl⟩ := callRoles_eq_ok h
    have hr : s.authors.apply (call.1.withDuty (isIdle s)) = .ok roles := hr
    exact .within rfl (apply_block_le hr) (.inl rfl) (.inl rfl)

end Sessions

section Silence

/-- The keys and affidavits are for no session later than the two and the one that come. -/
structure ChainState.Scoped (s : ChainState P.chain) : Prop where
  keys : ∀ key author, s.affidavitKeys.get key = some author → key.1 ≤ s.nextAffidavitSession
  affidavits : ∀ key, s.authorAffidavits.containsKey key = true → key.1 ≤ s.nextSession

theorem nextSession_le_nextAffidavitSession (s : ChainState P.chain) : s.nextSession ≤ s.nextAffidavitSession := by
  have hbound : s.nextSession ≤ P.maxSession := Nat.min_le_right _ _
  exact Nat.le_min.mpr ⟨Nat.le_succ _, hbound⟩

theorem SessionStep.nextSession_mono (h : SessionStep s t call) :
    s.nextSession ≤ t.nextSession ∧ s.nextAffidavitSession ≤ t.nextAffidavitSession := by
  have hmono : s.nextSession ≤ t.nextSession → s.nextAffidavitSession ≤ t.nextAffidavitSession := by
    unfold ChainState.nextAffidavitSession saturatingAdd
    omega
  have hnext : s.nextSession ≤ t.nextSession := by
    cases h with
    | rotated hs ha => exact hs.le
    | within hs hb hw ha => exact (nextSession_congr hs).1.ge
  exact ⟨hnext, hmono hnext⟩

theorem ChainState.Scoped.apply (hs : s.Scoped) (h : s.apply call = .ok t) : t.Scoped := by
  have hstep := apply_sessionStep h
  obtain ⟨hnext, hahead⟩ := hstep.nextSession_mono
  have hbetween := nextSession_le_nextAffidavitSession s
  constructor
  · intro key author hkey
    refine le_trans ?_ hahead
    cases apply_keyStep h with
    | validated he =>
      rw [he, StorageMap.get_insert] at hkey
      split at hkey
      · rename_i hsame
        exact hsame ▸ hbetween
      · exact hs.keys key author hkey
    | declared _ _ he =>
      rw [he, StorageMap.get_insert] at hkey
      split at hkey
      · rename_i hsame
        exact hsame ▸ le_rfl
      · exact hs.keys key author hkey
    | chilled _ he =>
      rw [he, StorageMap.get_remove] at hkey
      split at hkey
      · cases hkey
      · exact hs.keys key author hkey
    | kept _ he => exact hs.keys key author (he ▸ hkey)
  · intro key hkey
    refine le_trans ?_ hnext
    cases hstep with
    | rotated _ ha => exact hs.affidavits key (ha ▸ hkey)
    | within _ _ _ ha =>
      rcases ha with ha | ⟨author, record, pub, -, ha⟩
      · exact hs.affidavits key (ha ▸ hkey)
      · rw [ha] at hkey
        rcases containsKey_insert.mp hkey with rfl | hold
        · exact le_rfl
        · exact hs.affidavits key hold

/-- The author owns no key for a coming session. -/
def ChainState.Silent (s : ChainState P.chain) (author : A.AccountId) : Prop :=
  ∀ key, s.affidavitKeys.get key = some author → key.1 < s.nextSession

def ChainCall.validatesFor (author : A.AccountId) : ChainCall P.chain → Prop
  | .dispatch (.signed who) (.validate _ _) => who = author
  | _ => False

/-- Without a key an author gets none by declarations, but only by a validation of its own. -/
theorem ChainState.Silent.apply (hs : s.Silent author) (hc : ¬call.validatesFor author)
    (h : s.apply call = .ok t) : t.Silent author := by
  obtain ⟨hnext, -⟩ := (apply_sessionStep h).nextSession_mono
  intro key hkey
  refine lt_of_lt_of_le ?_ hnext
  cases apply_keyStep h with
  | validated he =>
    rw [he, StorageMap.get_insert] at hkey
    split at hkey
    · exact absurd (Option.some.inj hkey) hc
    · exact hs key hkey
  | declared _ ho he =>
    rw [he, StorageMap.get_insert] at hkey
    split at hkey
    · cases hkey
      exact absurd (hs _ ho) (lt_irrefl _)
    · exact hs key hkey
  | chilled _ he =>
    rw [he, StorageMap.get_remove] at hkey
    split at hkey
    · cases hkey
    · exact hs key hkey
  | kept _ he => exact hs key (he ▸ hkey)

theorem isChilling_silent {order : HashOrder P.AffidavitId} (hs : s.Scoped)
    (h : isChilling order s author = true) : s.Silent author := by
  intro key hkey
  have hbound := hs.keys key author hkey
  have hneither := isChilling_iff.mp h key
  have hnext : s.nextAffidavitSession ≤ s.nextSession + 1 := Nat.min_le_left _ _
  by_contra hlate
  refine hneither ⟨hkey, ?_⟩
  omega

/-- The author has no affidavit that an election can still come for. -/
def ChainState.Unused (s : ChainState P.chain) (author : A.AccountId) : Prop :=
  s.authorAffidavits.containsKey (s.nextSession, author) = true → s.affidavitWindow.finish < s.blockNumber

theorem ChainState.Unused.apply (hs : s.Unused author) (hsilent : s.Silent author) (hscoped : s.Scoped)
    (hc : ∀ field, call ≠ .forceGenesisConfig field) (h : s.apply call = .ok t) : t.Unused author := by
  intro hkey
  cases apply_sessionStep h with
  | rotated hnext ha =>
    rw [ha] at hkey
    exact absurd (hscoped.affidavits _ hkey) (Nat.not_le.mpr hnext)
  | within hsame hb hw ha =>
    have hw : t.affidavitWindow = s.affidavitWindow := hw.resolve_right fun ⟨field, hfield⟩ => hc field hfield
    rw [(nextSession_congr hsame).1] at hkey
    rw [hw]
    refine lt_of_lt_of_le (hs ?_) hb
    rcases ha with ha | ⟨owner, record, pub, howner, ha⟩
    · exact ha ▸ hkey
    · rw [ha] at hkey
      rcases containsKey_insert.mp hkey with heq | hold
      · obtain ⟨-, rfl⟩ := Prod.mk.inj heq
        exact absurd (hsilent _ howner) (lt_irrefl _)
      · exact hold

end Silence

/-- After a chill the author owns no key ahead, and until it validates one again, no declaration is made in its
name and no election takes it for a candidate, unless the window is moved. -/
structure ChillEffective (order : HashOrder P.AffidavitId) (t : ChainState P.chain) (author : A.AccountId) :
    Prop where
  chilling : isChilling order t author = true
  silent : ∀ calls, (∀ call ∈ calls, ¬ChainCall.validatesFor author call) →
    ∀ origin signer rotate signature u,
      dispatch (run ChainState.apply t calls) origin (.declare signer rotate signature) = .ok u →
      (run ChainState.apply t calls).affidavitKeys.get
        ((run ChainState.apply t calls).nextSession, P.intoAccount signer) ≠ some author
  unused : ∀ calls,
    (∀ call ∈ calls, ¬ChainCall.validatesFor author call ∧ ∀ field, call ≠ .forceGenesisConfig field) →
    canProcessElection (run ChainState.apply t calls) = .ok () →
    author ∉ (prepareCandidates (run ChainState.apply t calls)).map Prod.fst

theorem chillEffective_of_chilling {order : HashOrder P.AffidavitId} (hs : s.Scoped)
    (hchilling : isChilling order s author = true) (hunused : s.Unused author) : ChillEffective order s author := by
  have hsilent := isChilling_silent hs hchilling
  refine ⟨hchilling, fun calls hcalls origin signer rotate signature u _ howner => ?_,
    fun calls hcalls hprocess hmem => ?_⟩
  · have hrest : (run ChainState.apply s calls).Silent author :=
      run_invariant_of_meets (P := fun s => s.Silent author) (fun s call t hs hc h => hs.apply hc h) hsilent
        (RunMeets.of_forall hcalls s)
    exact absurd (hrest _ howner) (lt_irrefl _)
  · have hrest : (run ChainState.apply s calls).Scoped ∧ (run ChainState.apply s calls).Silent author ∧
        (run ChainState.apply s calls).Unused author :=
      run_invariant_of_meets (P := fun s => s.Scoped ∧ s.Silent author ∧ s.Unused author)
        (fun s call t ⟨hscoped, hsilent, hunused⟩ hc h =>
          ⟨hscoped.apply h, hsilent.apply hc.1 h, hunused.apply hsilent hscoped hc.2 h⟩)
        ⟨hs, hsilent, hunused⟩ (RunMeets.of_forall hcalls s)
    obtain ⟨-, -, -, hfinish⟩ := canProcessElectionAt_eq_ok.mp hprocess
    exact absurd (hrest.2.2 (mem_prepareCandidates hmem)) (Nat.not_lt.mpr hfinish)

/-- Nobody owns two keys of one session, and a chill takes effect. -/
def ChainCall.settlesKeys (order : HashOrder P.AffidavitId) (s : ChainState P.chain) (call : ChainCall P.chain) :
    Prop :=
  ∀ t, s.apply call = .ok t → OneKey t.affidavitKeys ∧
    ∀ author affidavitPub, call = .dispatch (.signed author) (.chill affidavitPub) → ChillEffective order t author

/-- Who validates or rotates in a key owns no other one of its session, and who chills a key owns no other one
ahead and is no candidate of an election that can still come. -/
def ChainCall.ofOneKey (s : ChainState P.chain) : ChainCall P.chain → Prop
  | .dispatch (.signed author) (.validate signer _) =>
    ∀ key, s.affidavitKeys.get (s.nextSession, key) = some author → key = P.intoAccount signer
  | .dispatch .none (.declare signer rotate _) =>
    ∀ author, s.affidavitKeys.get (s.nextSession, P.intoAccount signer) = some author →
      ∀ key, s.affidavitKeys.get (s.nextAffidavitSession, key) = some author → key = rotate
  | .dispatch (.signed author) (.chill _) =>
    (∀ key key', s.OwnsAhead author key → s.OwnsAhead author key' → key = key') ∧ s.Unused author
  | _ => True

section Steps

variable {order : HashOrder P.AffidavitId} {affidavitPub : P.AffidavitId}

theorem settlesKeys_at (h : s.apply call = .ok t) : call.settlesKeys order s ↔ OneKey t.affidavitKeys ∧
    ∀ author affidavitPub, call = .dispatch (.signed author) (.chill affidavitPub) →
      ChillEffective order t author := by
  constructor
  · exact fun hsettles => hsettles t h
  · intro hsettles u hu
    obtain rfl := Except.ok.inj (h.symm.trans hu)
    exact hsettles

theorem settlesKeys_of_kept (hone : OneKey s.affidavitKeys) (h : s.apply call = .ok t)
    (hk : t.affidavitKeys = s.affidavitKeys)
    (hc : ∀ author affidavitPub, call ≠ .dispatch (.signed author) (.chill affidavitPub)) :
    call.settlesKeys order s :=
  (settlesKeys_at h).mpr ⟨hk ▸ hone, fun author affidavitPub hcall => absurd hcall (hc author affidavitPub)⟩

theorem chill_ahead {origin : Origin A.AccountId} (h : chill s origin affidavitPub = .ok t) :
    ∃ author key, origin = .signed author ∧ canChill s author affidavitPub = .ok () ∧ s.OwnsAhead author key ∧
      t = { s with affidavitKeys := s.affidavitKeys.remove key } := by
  cases origin with
  | none => cases h
  | signed author =>
    obtain ⟨_, hc, h⟩ := bind_eq_ok.mp h
    obtain ⟨-, -, -, -, ⟨hkey, -, -⟩ | ⟨hnone, hkey, -⟩⟩ := canChill_iff.mp hc
    · rw [if_pos (StorageMap.containsKey_iff.mpr ⟨author, hkey⟩)] at h
      exact ⟨author, _, rfl, hc, ⟨hkey, .inr rfl⟩, (pure_eq_ok.mp h).symm⟩
    · rw [if_neg (by simp [StorageMap.containsKey, hnone])] at h
      exact ⟨author, _, rfl, hc, ⟨hkey, .inl rfl⟩, (pure_eq_ok.mp h).symm⟩

theorem ownsAhead_remove {key key' : Nat × P.AffidavitId} :
    ChainState.OwnsAhead { s with affidavitKeys := s.affidavitKeys.remove key } author key' ↔
      s.OwnsAhead author key' ∧ key' ≠ key := by
  unfold ChainState.OwnsAhead
  dsimp only
  rw [StorageMap.get_remove]
  by_cases hsame : key' = key
  · simp [hsame]
  · simp only [hsame, if_false, ne_eq, not_false_eq_true, and_true]
    rfl

theorem candidate_of_affidavit (h : s.authorAffidavits.containsKey (s.nextSession, author) = true) :
    author ∈ (prepareCandidates s).map Prod.fst := by
  obtain ⟨record, hrecord⟩ := StorageMap.containsKey_iff.mp h
  refine List.mem_map.mpr ⟨(author, record.2), List.mem_map.mpr ⟨(author, record), ?_, rfl⟩, rfl⟩
  exact StorageMap.mem_iterPrefix.mpr hrecord

/-- A chilled candidate is one of an election in the same block, unless the window is over. -/
theorem unused_of_chill (hc : canChill s author affidavitPub = .ok ())
    (h : canProcessElection s = .ok () → author ∉ (prepareCandidates s).map Prod.fst) : s.Unused author := by
  intro hkey
  obtain ⟨-, -, ho, hopen, ⟨-, hfinish, -⟩ | ⟨-, -, hnone⟩⟩ := canChill_iff.mp hc
  · by_contra hlate
    have hlast : s.blockNumber = s.affidavitWindow.finish := le_antisymm (Nat.not_lt.mp hlate) hfinish
    refine h ?_ (candidate_of_affidavit hkey)
    rw [canProcessElection_eq, hlast]
    exact canProcessElectionAt_finish ho hopen
  · rw [hkey] at hnone
    cases hnone

theorem chill_effective_iff (order : HashOrder P.AffidavitId) {key : Nat × P.AffidavitId} (hs : s.Scoped)
    (hc : canChill s author affidavitPub = .ok ()) (hkey : s.OwnsAhead author key) :
    ChillEffective order { s with affidavitKeys := s.affidavitKeys.remove key } author ↔
      (∀ key key', s.OwnsAhead author key → s.OwnsAhead author key' → key = key') ∧ s.Unused author := by
  have honly : isChilling order { s with affidavitKeys := s.affidavitKeys.remove key } author = true ↔
      ∀ key', s.OwnsAhead author key' → key' = key := by
    refine isChilling_iff.trans (forall_congr' fun key' => ?_)
    rw [ownsAhead_remove, not_and, not_not]
  have hscoped : ChainState.Scoped { s with affidavitKeys := s.affidavitKeys.remove key } :=
    ⟨fun key' owner hk => by
      rw [StorageMap.get_remove] at hk
      split at hk
      · cases hk
      · exact hs.keys key' owner hk, hs.affidavits⟩
  constructor
  · intro h
    have hall := honly.mp h.chilling
    refine ⟨fun key' key'' hk' hk'' => (hall key' hk').trans (hall key'' hk'').symm, unused_of_chill hc ?_⟩
    exact h.unused [] (fun call hcall => absurd hcall List.not_mem_nil)
  · rintro ⟨hall, hunused⟩
    exact chillEffective_of_chilling hscoped (honly.mpr fun key' hk' => hall key' key hk' hkey) hunused

theorem settlesKeys_iff (hone : OneKey s.affidavitKeys) (hs : s.Scoped) (h : s.apply call = .ok t) :
    call.settlesKeys order s ↔ call.ofOneKey s := by
  cases call with
  | dispatch origin extrinsic =>
    have hx := (dispatch_eq_ok h).1
    cases extrinsic with
    | validate signer signature =>
      obtain ⟨author, rfl, -, -, rfl⟩ := validate_eq_ok hx
      exact (settlesKeys_at h).trans ((and_iff_left nofun).trans hone.insert_iff)
    | declare signer rotate signature =>
      obtain ⟨rfl, -, author, weights, howner, rfl⟩ := declare_eq_ok hx
      refine (settlesKeys_at h).trans ((and_iff_left nofun).trans (hone.insert_iff.trans ?_))
      constructor
      · intro hkeys other hother
        obtain rfl := Option.some.inj (howner.symm.trans hother)
        exact hkeys
      · exact fun hkeys => hkeys author howner
    | elect signer signature =>
      obtain ⟨rfl, author, roles, -, -, -, -, rfl⟩ := elect_eq_ok hx
      exact iff_of_true (settlesKeys_of_kept hone h rfl nofun) trivial
    | chill affidavitPub =>
      obtain ⟨author, key, rfl, hc, hkey, rfl⟩ := chill_ahead hx
      refine (settlesKeys_at h).trans ((and_iff_right (hone.remove key)).trans ?_)
      refine Iff.trans ?_ (chill_effective_iff order hs hc hkey)
      constructor
      · exact fun heffective => heffective author affidavitPub rfl
      · intro heffective other pub hcall
        cases hcall
        exact heffective
  | forceGenesisConfig field =>
    exact iff_of_true (settlesKeys_of_kept hone h (forceGenesisConfig_eq_ok h).keys nofun) trivial
  | rotateSession => exact iff_of_true (settlesKeys_of_kept hone h (rotateSession_eq_ok h).keys nofun) trivial
  | enterBlock author =>
    obtain ⟨roles, points, -, rfl⟩ := chainEnterBlock_eq_ok h
    exact iff_of_true (settlesKeys_of_kept hone h rfl nofun) trivial
  | callRoles call =>
    obtain ⟨roles, -, rfl⟩ := callRoles_eq_ok h
    exact iff_of_true (settlesKeys_of_kept hone h rfl nofun) trivial

end Steps

/-- Along a run the authors own one key of a session each, and chills take effect, if and only if every call is
of an author's only key. -/
theorem keys_settled_iff (order : HashOrder P.AffidavitId) {roles : AuthorState A} {validators : List A.AccountId}
    {g : ChainGenesis} {calls : List (ChainCall P.chain)} :
    RunMeets ChainState.apply (fun s call => ChainCall.settlesKeys order s call)
        (ChainState.genesis (T := P.chain) roles validators g) calls ↔
      RunMeets ChainState.apply (fun s call => ChainCall.ofOneKey s call)
        (ChainState.genesis (T := P.chain) roles validators g) calls := by
  refine RunMeets.iff_of_invariant (P := fun s => OneKey s.affidavitKeys ∧ s.Scoped) (F := fun _ _ => True)
    (fun s call t hs _ h => settlesKeys_iff hs.1 hs.2 h)
    (fun s call t hs _ hq h => ⟨(hq t h).1, hs.2.apply h⟩) ⟨?_, ?_⟩ (RunMeets.of_forall (fun _ _ => trivial) _)
  · intro author session key key' hkey
    cases hkey
  · exact ⟨fun key author hkey => (nomatch hkey), fun key hkey => (nomatch hkey)⟩

/-- A validation and a declaration, to the first block after the election, which does not take place. -/
def declaredOnce : List (ChainCall chainConfig) :=
  [validates 1 11] ++ blocksBy 1 6 ++ [declares 11 12] ++ blocksBy 1 3

/-- Its author chills the key that the declaration rotated in, and is not chilled: it owns the declared one. -/
theorem chilled_author_owns_key :
    let s := chainRun readyAuthors [9] declaredOnce
    let t := run ChainState.apply s [signs 1 (.chill (T := chainConfig) 12)]
    getRuntimeAfdtKey HashOrder.natural t (1 : Nat) = some (1, 11) ∧
      ¬RunMeets ChainState.apply (fun s call => ChainCall.settlesKeys (P := chainParameters) HashOrder.natural s call)
        (ChainState.genesis (T := chainConfig) (authorRun readyAuthors) [9] plainChain)
        (declaredOnce ++ [signs 1 (.chill (T := chainConfig) 12)]) := by
  have hkey : getRuntimeAfdtKey HashOrder.natural (run ChainState.apply (chainRun readyAuthors [9] declaredOnce)
      [signs 1 (.chill (T := chainConfig) 12)]) (1 : Nat) = some (1, 11) := by decide +kernel
  refine ⟨hkey, fun h => ?_⟩
  have hchills : ((chainRun readyAuthors [9] declaredOnce).apply
      (signs 1 (.chill (T := chainConfig) 12))).isOk = true := by decide +kernel
  obtain ⟨t, ht⟩ := exists_eq_ok hchills
  have hchilling := ((h.of_append.2.1 t ht t ht).2 (1 : Nat) (12 : Nat) rfl).chilling
  rw [run_cons, run_nil, attempt_of_ok ht] at hkey
  rw [isChilling, hkey] at hchilling
  cases hchilling

end FrameSuite
