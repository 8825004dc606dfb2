import FrameSuite.ElectionRunner
import FrameSuite.RunHistory
import FrameSuite.StorageIter

/-! The points of a session are the blocks of its authors: an author has as many of them as blocks it has
produced in the session, and nobody else has any. -/

namespace FrameSuite

section Counts

variable {α K : Type} [DecidableEq K]

def countKey (key : α → Option K) (k : K) (events : List α) : Nat :=
  events.countP fun e => key e = some k

/-- Every event with a key counts for one key of the list. -/
theorem sum_countKey {key : α → Option K} {keys : List K} {events : List α} (hnodup : keys.Nodup)
    (hall : ∀ e ∈ events, ∀ k, key e = some k → k ∈ keys) :
    (keys.map fun k => countKey key k events).sum = events.countP fun e => (key e).isSome := by
  induction events with
  | nil => simp [countKey]
  | cons e events ih =>
    have hrest := ih fun f hf => hall f (List.mem_cons_of_mem e hf)
    have hsplit : ∀ k, countKey key k (e :: events) = countKey key k events + if key e = some k then 1 else 0 := by
      intro k
      simp [countKey, List.countP_cons]
    simp only [hsplit, List.sum_map_add, hrest, List.countP_cons]
    congr 1
    cases hk : key e with
    | none => simp
    | some k =>
      have hin : k ∈ keys := hall e (List.mem_cons_self ..) k hk
      have hone : (keys.map fun j => if k = j then 1 else 0).sum = 1 := by
        rw [← List.sum_toFinset _ hnodup, Finset.sum_ite_eq, if_pos (List.mem_toFinset.mpr hin)]
      simpa using hone

end Counts

variable {T : ChainConfig} {s t : ChainState T} {call : ChainCall T} {past : List (ChainState T × ChainCall T)}

def ChainCall.producer : ChainCall T → Option T.AccountId
  | .enterBlock author => author
  | _ => none

/-- Who has produced a block of the session, if the step was one. -/
def producerIn (session : Nat) (e : ChainState T × ChainCall T) : Option T.AccountId :=
  if e.1.currentSession = session then e.2.producer else none

def blocksOf (past : List (ChainState T × ChainCall T)) (session : Nat) (author : T.AccountId) : Nat :=
  countKey (producerIn session) author past

def blocksIn (past : List (ChainState T × ChainCall T)) (session : Nat) : Nat :=
  past.countP fun e => (producerIn session e).isSome

/-- The points that many blocks are worth: none are stored for none. -/
def pointsFor (T : ChainConfig) (blocks : Nat) : Option Nat :=
  if blocks = 0 then none else some (min blocks T.maxPoints)

/-- The invariant: no runner is recorded for the next rotation, and points count blocks. -/
structure ChainState.Counted (past : List (ChainState T × ChainCall T)) (s : ChainState T) : Prop where
  runners : s.RunnersAhead
  points : ∀ session author, s.blockPointsStore.get (session, author) = pointsFor T (blocksOf past session author)

theorem blocksOf_append (past : List (ChainState T × ChainCall T)) (e : ChainState T × ChainCall T) (session : Nat)
    (author : T.AccountId) : blocksOf (past ++ [e]) session author =
      blocksOf past session author + if producerIn session e = some author then 1 else 0 := by
  simp [blocksOf, countKey, List.countP_append, List.countP_singleton]

theorem pointsFor_succ (blocks : Nat) :
    pointsFor T (blocks + 1) = some (saturatingAdd T.maxPoints ((pointsFor T blocks).getD 0) 1) := by
  unfold pointsFor saturatingAdd
  by_cases hb : blocks = 0
  · simp [hb]
  · simp only [hb, if_false, Nat.succ_ne_zero, Option.getD_some, Option.some.injEq]
    omega

theorem enterBlock_points {author : Option T.AccountId} (h : s.enterBlock author = .ok t) :
    t.electsPreparedBy = s.electsPreparedBy ∧ t.currentSession = s.currentSession ∧
      t.blockPointsStore = match author with
        | some author => s.blockPointsStore.insert (s.currentSession, author)
            (saturatingAdd T.maxPoints ((s.pointsOf author).getD 0) 1)
        | none => s.blockPointsStore := by
  obtain ⟨roles, -, h⟩ := bind_eq_ok.mp h
  cases author with
  | none => obtain rfl := pure_eq_ok.mp h; exact ⟨rfl, rfl, rfl⟩
  | some author => obtain rfl := pure_eq_ok.mp h; exact ⟨rfl, rfl, rfl⟩

/-- Only a block changes points: no rotation finds a runner to credit. -/
theorem ChainState.RunnersAhead.points_kept (hs : s.RunnersAhead) (hp : call.producer = none)
    (h : s.apply call = .ok t) : t.blockPointsStore = s.blockPointsStore := by
  cases call with
  | dispatch origin extrinsic =>
    have hx := (dispatch_eq_ok h).1
    cases extrinsic with
    | validate signer signature =>
      obtain ⟨author, -, -, -, rfl⟩ := validate_eq_ok hx
      rfl
    | declare signer rotate signature =>
      obtain ⟨-, -, author, weights, -, rfl⟩ := declare_eq_ok hx
      rfl
    | elect signer signature =>
      obtain ⟨-, author, roles, -, -, -, -, rfl⟩ := elect_eq_ok hx
      rfl
    | chill affidavitPub =>
      obtain ⟨author, session, -, -, -, rfl⟩ := chill_eq_ok hx
      rfl
  | forceGenesisConfig field => exact (forceGenesisConfig_eq_ok h).points
  | rotateSession =>
    refine (rotateSession_eq_ok h).points ?_
    have hget : s.electsPreparedBy.get (s.currentSession + 2) = none := by
      by_contra hne
      have hle := hs _ (Option.isSome_iff_ne_none.mpr hne)
      omega
    simp [creditedRunner, hget]
  | enterBlock author =>
    obtain rfl : author = none := hp
    have h : s.enterBlock none = .ok t := h
    exact (enterBlock_points h).2.2
  | callRoles call =>
    obtain ⟨roles, -, rfl⟩ := callRoles_eq_ok h
    rfl

theorem ChainState.Counted.apply (hs : s.Counted past) (h : s.apply call = .ok t) :
    t.Counted (past ++ [(s, call)]) := by
  refine ⟨hs.runners.apply h, fun session author => ?_⟩
  rw [blocksOf_append]
  cases hp : call.producer with
  | none =>
    rw [hs.runners.points_kept hp h, hs.points]
    simp [producerIn, hp]
  | some producer =>
    cases call with
    | enterBlock author' =>
      obtain rfl : author' = some producer := hp
      have h : s.enterBlock (some producer) = .ok t := h
      obtain ⟨-, -, hstore⟩ := enterBlock_points h
      rw [hstore, StorageMap.get_insert]
      by_cases hkey : (session, author) = (s.currentSession, producer)
      · obtain ⟨rfl, rfl⟩ := Prod.mk.inj hkey
        have hproducer : producerIn s.currentSession (s, .enterBlock (some author)) = some author := by
          simp [producerIn, ChainCall.producer]
        rw [if_pos rfl, if_pos hproducer, pointsFor_succ, ← hs.points]
        rfl
      · have hother : producerIn session (s, .enterBlock (some producer)) ≠ some author := by
          intro hin
          unfold producerIn at hin
          split_ifs at hin with hsession
          exact hkey (by rw [← hsession, ← Option.some.inj hin])
        rw [if_neg hkey, if_neg hother, hs.points, Nat.add_zero]
    | _ => cases hp

theorem counted_genesis (roles : T.Roles) (validators : List T.AccountId) (g : ChainGenesis) :
    (ChainState.genesis roles validators g).Counted [] :=
  ⟨runnersAhead_genesis roles validators g, fun _ _ => rfl⟩

theorem counted_after (roles : T.Roles) (validators : List T.AccountId) (g : ChainGenesis)
    (calls : List (ChainCall T)) : (ChainState.after roles validators g calls).Counted
      (history ChainState.apply (ChainState.genesis roles validators g) calls) := by
  have hcounted := run_history_invariant (P := fun past s => ChainState.Counted past s)
    (fun _ _ _ _ hs h => hs.apply h) (counted_genesis roles validators g) calls
  rwa [List.nil_append] at hcounted

/-- What the payout of a session is divided by: each author with blocks in it once, with their number. -/
structure PaidByBlocks (past : List (ChainState T × ChainCall T)) (session : Nat)
    (payoutFor : List (T.AccountId × Nat)) : Prop where
  distinct : (payoutFor.map Prod.fst).Nodup
  blocks : ∀ author points, (author, points) ∈ payoutFor ↔
    0 < blocksOf past session author ∧ points = min (blocksOf past session author) T.maxPoints

theorem ChainState.Counted.paidByBlocks (hs : s.Counted past) :
    PaidByBlocks past s.currentSession (payoutFor s) := by
  refine ⟨StorageMap.nodup_iterPrefix, fun author points => ?_⟩
  unfold payoutFor
  rw [StorageMap.mem_iterPrefix, hs.points, pointsFor]
  by_cases hzero : blocksOf past s.currentSession author = 0
  · simp [hzero]
  · simp [hzero, Nat.pos_of_ne_zero hzero, eq_comm]

/-- In every state of a run the points of the session are the blocks of its authors, up to the largest number
of points, with every author that has produced some of them listed once. -/
theorem points_are_blocks (roles : T.Roles) (validators : List T.AccountId) (g : ChainGenesis)
    (calls : List (ChainCall T)) :
    PaidByBlocks (history ChainState.apply (ChainState.genesis roles validators g) calls)
      (ChainState.after roles validators g calls).currentSession
      (payoutFor (ChainState.after roles validators g calls)) :=
  (counted_after roles validators g calls).paidByBlocks

theorem blocksOf_le (past : List (ChainState T × ChainCall T)) (session : Nat) (author : T.AccountId) :
    blocksOf past session author ≤ blocksIn past session :=
  List.countP_mono_left fun f _ hf => by
    have hf : producerIn session f = some author := by simpa using hf
    simp [hf]

/-- While no author has more blocks than points fit, the points are all the blocks that have an author. -/
theorem PaidByBlocks.sum_points {session : Nat} {entries : List (T.AccountId × Nat)}
    (h : PaidByBlocks past session entries) (hfit : blocksIn past session ≤ T.maxPoints) :
    (entries.map Prod.snd).sum = blocksIn past session := by
  have hpoints : entries.map Prod.snd =
      (entries.map Prod.fst).map fun author => countKey (producerIn session) author past := by
    rw [List.map_map]
    refine List.map_congr_left fun e he => ?_
    obtain ⟨-, hp⟩ := (h.blocks e.1 e.2).mp he
    rw [hp, Nat.min_eq_left (Nat.le_trans (blocksOf_le past session e.1) hfit)]
    rfl
  rw [hpoints, sum_countKey h.distinct, blocksIn]
  intro f hf author hauthor
  have hpos : 0 < blocksOf past session author :=
    List.countP_pos_iff.mpr ⟨f, hf, by simp [hauthor]⟩
  exact List.mem_map.mpr ⟨_, (h.blocks author _).mpr ⟨hpos, rfl⟩, rfl⟩

end FrameSuite
