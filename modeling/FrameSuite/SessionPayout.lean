import FrameSuite.AuthorCalls
import FrameSuite.BlockPoints
import FrameSuite.BookingLoops
import FrameSuite.LiveRoles

/-! The payout of a session as the runtime configures it: a constant amount for all blocks of the session,
divided by shares. Every rotation divides it exactly among the authors of these blocks. -/

namespace FrameSuite

section Models

variable {A : AuthorConfig}

/-- The payout of this model depends on nothing. -/
def constantPayout (payout : Nat) (_via : Nat) : Nat := payout

/-- What a payout is computed from where that is not the supply: all backing and all collateral. -/
def payoutVia (s : AuthorState A) : Nat :=
  saturatingAdd A.share.maxAsset (totalBacking s) (totalCollateral s)

/-- A constant payout, divided by the shares that 64-bit points are. -/
abbrev ChainParameters.paying (P : ChainParameters A) (payout : Nat) : ChainParameters A :=
  { P with
    payout := fun s => constantPayout payout (payoutVia s)
    payees := sharesPayments runtimePayTypes
    maxPoints := 2 ^ 64 - 1 }

end Models

section Division

open SharesPay

variable {Id : Type} {payout : Nat} {entries : List (Id × Nat)}

/-- The payees are those with shares in their order, the payout is divided without loss, and everyone gets the
exact quota cut off, or one more. -/
structure Divided (payout : Nat) (entries payees : List (Id × Nat)) : Prop where
  ids : payees.map Prod.fst = entries.map Prod.fst
  total : (payees.map Prod.snd).sum = payout
  fair : ∀ (i : Nat) (e paid : Id × Nat), entries[i]? = some e → payees[i]? = some paid →
    paid.2 = payout * e.2 / (entries.map Prod.snd).sum ∨ paid.2 = payout * e.2 / (entries.map Prod.snd).sum + 1

theorem amount_clamp {t : IntType} {n : Nat} (h : (n : Int) ≤ t.max) :
    (IntValue.clamp n : IntValue t).value = n :=
  IntValue.clamp_of_mem (t.min_nonpos.trans (Int.natCast_nonneg n)) h

theorem points_clamp {T : PayTypes} {e : Id × Nat} (h : (e.2 : Int) ≤ T.share.max) :
    points ((e.1, IntValue.clamp e.2) : Id × IntValue T.share) = e.2 := by
  rw [points, amount_clamp h, Int.toNat_natCast]

theorem sumPoints_clamp {T : PayTypes} (h : ∀ e ∈ entries, (e.2 : Int) ≤ T.share.max) :
    sumPoints (entries.map fun e => ((e.1, IntValue.clamp e.2) : Id × IntValue T.share)) =
      (entries.map Prod.snd).sum := by
  rw [sumPoints, List.map_map]
  exact congrArg List.sum (List.map_congr_left fun e he => points_clamp (h e he))

/-- As long as the payout for each payee is within the accuracy of the fixed-point type, ratios are fine. -/
theorem ratiosFine_of_le {T : PayTypes} {n P S : Nat} {s : Nat → Nat} (hS : 0 < S) (h : n * P ≤ accuracy T) :
    RatiosFine T n P S s := by
  intro i _
  have hexcess : excess T S (s i) < S := Nat.mod_lt _ hS
  have hacc : 0 < accuracy T := accuracy_pos
  calc n * (P * excess T S (s i)) = n * P * excess T S (s i) := (Nat.mul_assoc ..).symm
    _ ≤ accuracy T * excess T S (s i) := Nat.mul_le_mul_right _ h
    _ < accuracy T * S := Nat.mul_lt_mul_of_pos_left hexcess hacc

theorem sharesPayments_divided (hpos : 0 < (entries.map Prod.snd).sum)
    (hsum : (entries.map Prod.snd).sum ≤ 10 ^ 18) (hpay : payout ≤ 10 ^ 18)
    (hfine : entries.length * payout ≤ 10 ^ 18) :
    Divided payout entries (sharesPayments runtimePayTypes payout entries) := by
  have hacc : accuracy runtimePayTypes = 10 ^ 18 := rfl
  have hmaxPay : runtimePayTypes.payout.max = 2 ^ 128 - 1 := rfl
  have hmaxShare : runtimePayTypes.share.max = 2 ^ 64 - 1 := rfl
  have hinner : runtimePayTypes.payout.fixedPoint.repr.maxInner = 2 ^ 128 - 1 := rfl
  have hle : ∀ e ∈ entries, e.2 ≤ (entries.map Prod.snd).sum := fun e he =>
    List.le_sum_of_mem (List.mem_map_of_mem he)
  have hshare : ∀ e ∈ entries, ((e.2 : Nat) : Int) ≤ runtimePayTypes.share.max := by
    intro e he
    have := hle e he
    rw [hmaxShare]
    omega
  have hpayout : (IntValue.clamp payout : IntValue runtimePayTypes.payout).value = payout := by
    refine amount_clamp ?_
    rw [hmaxPay]
    omega
  have hamount : amount (IntValue.clamp payout : IntValue runtimePayTypes.payout) = payout := by
    rw [amount, hpayout, Int.toNat_natCast]
  have hpoints := sumPoints_clamp (T := runtimePayTypes) hshare
  have hsplits : Splits (IntValue.clamp payout : IntValue runtimePayTypes.payout)
      (entries.map fun e => (e.1, IntValue.clamp e.2)) := by
    refine ⟨hpoints ▸ hpos, ?_, ?_⟩
    · rw [hpoints, hmaxShare]
      omega
    · unfold SharesPay.Fits
      rw [hpoints, hamount, hacc, hinner]
      constructor <;> omega
  have hexact := exact_of_ratiosFine hsplits (by
    rw [hamount, hpoints, List.length_map]
    exact ratiosFine_of_le hpos (hacc ▸ hfine))
  constructor
  case ids =>
    unfold sharesPayments
    rw [List.map_map]
    exact hexact.ids.trans (by rw [List.map_map]; rfl)
  case total =>
    have htotal := hexact.sum
    rw [hpayout] at htotal
    have hcast : (((sharesPayments runtimePayTypes payout entries).map Prod.snd).sum : Int) = payout := by
      rw [← htotal, Nat.cast_list_sum, sharesPayments, List.map_map, List.map_map]
      exact congrArg List.sum (List.map_congr_left fun paid _ => (payout_value paid.2).symm)
    exact_mod_cast hcast
  case fair =>
    intro i e paid he hpaid
    unfold sharesPayments at hpaid
    rw [List.getElem?_map] at hpaid
    obtain ⟨v, hv, rfl⟩ := Option.map_eq_some_iff.mp hpaid
    have hfair := hexact.fair (i := i) (e := (e.1, IntValue.clamp e.2)) (by rw [List.getElem?_map, he]; rfl) hv
    rw [hpoints, hpayout, payout_value, amount_clamp (hshare e (List.mem_of_getElem? he))] at hfair
    exact_mod_cast hfair

end Division

section Blocks

variable {A : AuthorConfig} {P : ChainParameters A} {s t : ChainState P.chain} {call : ChainCall P.chain}
  {past : List (ChainState P.chain × ChainCall P.chain)}

def ChainCall.isBlock {T : ChainConfig} : ChainCall T → Bool
  | .enterBlock _ => true
  | _ => false

/-- The number of the block counts the blocks, and is one of the type. -/
structure ChainState.Clocked (past : List (ChainState P.chain × ChainCall P.chain)) (s : ChainState P.chain) :
    Prop where
  blocks : s.authors.blockNumber = past.countP fun e => e.2.isBlock
  bound : s.authors.blockNumber ≤ A.maxBlock

theorem DueStep.block {a a' : AuthorState A} {c : AuthorCall A} (h : DueStep a a' c) (hc : c ≠ .enterBlock) :
    a'.blockNumber = a.blockNumber := by
  cases h with
  | kept h => exact h.block
  | booked _ _ h => exact h.now
  | recalled h => exact h.now
  | entered => exact absurd rfl hc

theorem authorCall_ne_enterBlock {c : AuthorCall A} (hc : call.authorCall s = some c) (hb : call.isBlock = false) :
    c ≠ .enterBlock := by
  cases call with
  | dispatch origin extrinsic =>
    cases extrinsic with
    | elect signer signature =>
      obtain rfl := Option.some.inj hc
      exact fun he => by cases he
    | _ => cases hc
  | enterBlock author => cases hb
  | callRoles call =>
    obtain rfl := Option.some.inj hc
    exact withDuty_ne_enterBlock call.2
  | forceGenesisConfig field => cases hc
  | rotateSession => cases hc

theorem apply_blockNumber (h : s.apply call = .ok t) (hb : call.isBlock = false) :
    t.authors.blockNumber = s.authors.blockNumber := by
  cases apply_authors h with
  | called hc h => exact (apply_dueStep h).block (authorCall_ne_enterBlock hc hb)
  | rewarded hc h =>
    rw [h]
    exact (rewardAuthors_duties s).block
  | kept hc h => rw [h]

theorem ChainState.Clocked.apply (hs : s.Clocked past) (h : s.apply call = .ok t) :
    t.Clocked (past ++ [(s, call)]) := by
  have hblocks := hs.blocks
  have hbound := hs.bound
  cases hc : call.isBlock with
  | false =>
    have hsame := apply_blockNumber h hc
    exact ⟨by simp [List.countP_append, hc, hsame, hblocks], hsame ▸ hbound⟩
  | true =>
    cases call with
    | enterBlock author =>
      obtain ⟨roles, points, hr, rfl⟩ := chainEnterBlock_eq_ok h
      have hr : s.authors.apply .enterBlock = .ok roles := hr
      have hnext : roles.blockNumber = s.authors.blockNumber + 1 := (enterBlock_due hr).1
      obtain ⟨_, hlt, -⟩ := bind_eq_ok.mp hr
      have hlt := ensure_eq_ok.mp hlt
      refine ⟨?_, ?_⟩
      · change roles.blockNumber = _
        simp [List.countP_append, ChainCall.isBlock, hnext, hblocks]
      · change roles.blockNumber ≤ _
        omega
    | _ => cases hc

theorem clocked_after (ledger : A.Ledger) (g : AuthorGenesis) (initial : List A.AccountId) (c : ChainGenesis)
    (calls : List (ChainCall P.chain)) :
    (ChainState.after (T := P.chain) (AuthorState.genesis ledger g) initial c calls).Clocked
      (history ChainState.apply (ChainState.genesis (T := P.chain) (AuthorState.genesis ledger g) initial c)
        calls) := by
  have hfirst : ChainState.Clocked (P := P) []
      (ChainState.genesis (T := P.chain) (AuthorState.genesis ledger g) initial c) := ⟨rfl, Nat.zero_le _⟩
  have hclocked := run_history_invariant (P := fun past s => ChainState.Clocked (P := P) past s)
    (fun _ _ _ _ hs h => hs.apply h) hfirst calls
  rwa [List.nil_append] at hclocked

theorem ChainState.Clocked.blocksIn_le (hs : s.Clocked past) (session : Nat) :
    blocksIn past session ≤ A.maxBlock := by
  refine Nat.le_trans (List.countP_mono_left fun e _ he => ?_) (hs.blocks ▸ hs.bound)
  obtain ⟨u, c⟩ := e
  cases c with
  | enterBlock author => rfl
  | _ => simp [producerIn, ChainCall.producer] at he

end Blocks

section Rotation

variable {A : AuthorConfig} {P : ChainParameters A} {s t : ChainState P.chain}

/-- The payout of a session: everyone that has produced a block of it is paid once, all together the payout, and
each by the number of its blocks. -/
structure SessionSplit {T : ChainConfig} (payout : Nat) (past : List (ChainState T × ChainCall T)) (session : Nat)
    (payees : List (T.AccountId × Nat)) : Prop where
  distinct : (payees.map Prod.fst).Nodup
  producers : ∀ who, who ∈ payees.map Prod.fst ↔ 0 < blocksOf past session who
  total : (payees.map Prod.snd).sum = if blocksIn past session = 0 then 0 else payout
  fair : ∀ who value, (who, value) ∈ payees →
    value = payout * blocksOf past session who / blocksIn past session ∨
      value = payout * blocksOf past session who / blocksIn past session + 1

/-- The rewards are booked, or refused for a reason, and nothing else is booked. -/
structure RewardsBooked (s t : AuthorState A) (payees : List (A.AccountId × Nat)) : Prop where
  outcomes : ∀ who value, (who, value) ∈ payees → BookOutcome who (.reward value) s t
  others : ∀ who, who ∉ payees.map Prod.fst → ∀ kind block, t.booked kind block who = s.booked kind block who

theorem rewards_booked {payees : List (A.AccountId × Nat)} (hnodup : (payees.map Prod.fst).Nodup)
    (s : AuthorState A) :
    RewardsBooked s (payees.foldl (fun roles p => rewardKept roles p.1 p.2) s) payees := by
  have hkeyed := keyedBookings (T := A) Obligation.reward
  exact ⟨fun who value hp => hkeyed.foldl_outcome hnodup hp s, fun who hw => (hkeyed.foldl_same hw s).booked⟩

theorem PaidByBlocks.split {T : ChainConfig} {past : List (ChainState T × ChainCall T)} {session payout : Nat}
    {entries payees : List (T.AccountId × Nat)} (h : PaidByBlocks past session entries)
    (hfit : blocksIn past session ≤ T.maxPoints) (hpos : 0 < blocksIn past session)
    (hd : Divided payout entries payees) : SessionSplit payout past session payees := by
  have hsum := h.sum_points hfit
  refine ⟨hd.ids ▸ h.distinct, fun who => ?_, ?_, fun who value hp => ?_⟩
  · rw [hd.ids]
    constructor
    · intro hw
      obtain ⟨e, he, rfl⟩ := List.mem_map.mp hw
      exact ((h.blocks e.1 e.2).mp he).1
    · exact fun hb => List.mem_map.mpr ⟨(who, _), (h.blocks who _).mpr ⟨hb, rfl⟩, rfl⟩
  · rw [hd.total, if_neg hpos.ne']
  · obtain ⟨i, hi⟩ := List.mem_iff_getElem?.mp hp
    have hid : (entries.map Prod.fst)[i]? = some who := by
      rw [← hd.ids, List.getElem?_map, hi]
      rfl
    rw [List.getElem?_map] at hid
    obtain ⟨e, he, rfl⟩ := Option.map_eq_some_iff.mp hid
    have hpoints := ((h.blocks e.1 e.2).mp (List.mem_of_getElem? he)).2
    have hle : blocksOf past session e.1 ≤ T.maxPoints := (blocksOf_le past session e.1).trans hfit
    have hfair := hd.fair i e (e.1, value) he hi
    rwa [hsum, hpoints, Nat.min_eq_left hle] at hfair

theorem PaidByBlocks.paying {payout : Nat} {past : List (ChainState P.chain × ChainCall P.chain)} {session : Nat}
    {entries : List (A.AccountId × Nat)} (h : PaidByBlocks past session entries) (hmax : P.maxPoints = 2 ^ 64 - 1)
    (hpos : 0 < payout) (hblocks : payout * blocksIn past session ≤ 10 ^ 18) :
    SessionSplit payout past session (sharesPayments runtimePayTypes payout entries) := by
  have hle : blocksIn past session ≤ payout * blocksIn past session := Nat.le_mul_of_pos_left _ hpos
  have hfit : blocksIn past session ≤ P.chain.maxPoints := by
    change _ ≤ P.maxPoints
    omega
  have hsum := h.sum_points hfit
  rcases Nat.eq_zero_or_pos (blocksIn past session) with hzero | hsome
  · have hnone (who : A.AccountId) : blocksOf past session who = 0 := by
      have := blocksOf_le past session who
      omega
    have hempty : entries = [] := List.eq_nil_iff_forall_not_mem.mpr fun e he => by
      have := ((h.blocks e.1 e.2).mp he).1
      have := hnone e.1
      omega
    subst hempty
    exact ⟨List.nodup_nil, fun who => by simp [hnone, sharesPayments, SharesPay.compute],
      by simp [hzero, sharesPayments, SharesPay.compute], fun who value hp => by cases hp⟩
  · have hlength : entries.length ≤ blocksIn past session := by
      rw [← hsum, ← List.length_map (f := Prod.snd)]
      refine List.length_le_sum_of_one_le _ fun points hp => ?_
      obtain ⟨e, he, rfl⟩ := List.mem_map.mp hp
      obtain ⟨hb, hp⟩ := (h.blocks e.1 e.2).mp he
      have hmaxpos : P.chain.maxPoints = 2 ^ 64 - 1 := hmax
      omega
    have hpay : payout ≤ payout * blocksIn past session := Nat.le_mul_of_pos_right _ hsome
    have hfine : entries.length * payout ≤ payout * blocksIn past session := by
      rw [Nat.mul_comm]
      exact Nat.mul_le_mul_left _ hlength
    exact h.split hfit hsome (sharesPayments_divided (hsum ▸ hsome) (by omega) (by omega) (by omega))

theorem rotateSession_books (h : s.apply .rotateSession = .ok t)
    (hnodup : ((P.payees (P.payout s.authors) (payoutFor s)).map Prod.fst).Nodup) (hpay : P.payout s.authors ≠ 0) :
    RewardsBooked s.authors t.authors (P.payees (P.payout s.authors) (payoutFor s)) := by
  have hroles : t.authors = (rewardAuthors s).authors := (rotateSession_eq_ok h).roles
  have hrewards : (rewardAuthors s).authors = (P.payees (P.payout s.authors) (payoutFor s)).foldl
      (fun roles p => rewardKept roles p.1 p.2) s.authors := by
    unfold rewardAuthors ChainState.authors
    have hpay : P.payout s.roles ≠ 0 := hpay
    dsimp only
    rw [if_neg hpay]
  rw [hroles, hrewards]
  exact rewards_booked hnodup _

/-- Every rotation in a run divides the payout exactly among the authors that have produced the blocks of its
session, by their numbers, and books each of them the part, if it is still an author and has a block free. -/
theorem rotation_pays_out {payout : Nat} {ledger : A.Ledger} {g : AuthorGenesis} {initial : List A.AccountId}
    {c : ChainGenesis} {calls : List (ChainCall (P.paying payout).chain)} {t : ChainState (P.paying payout).chain}
    (hpos : 0 < payout) (hfine : payout * A.maxBlock ≤ 10 ^ 18)
    (h : (ChainState.after (T := (P.paying payout).chain) (AuthorState.genesis ledger g) initial c calls).apply
      .rotateSession = .ok t) :
    ∃ payees, SessionSplit payout
        (history ChainState.apply
          (ChainState.genesis (T := (P.paying payout).chain) (AuthorState.genesis ledger g) initial c) calls)
        (ChainState.after (T := (P.paying payout).chain) (AuthorState.genesis ledger g) initial c calls).currentSession
        payees ∧
      RewardsBooked
        (ChainState.after (T := (P.paying payout).chain) (AuthorState.genesis ledger g) initial c calls).authors
        t.authors payees := by
  have hpoints := points_are_blocks (T := (P.paying payout).chain) (AuthorState.genesis ledger g) initial c calls
  have hclocked := clocked_after (P := P.paying payout) ledger g initial c calls
  generalize hs :
    ChainState.after (T := (P.paying payout).chain) (AuthorState.genesis ledger g) initial c calls = s at *
  generalize history ChainState.apply
    (ChainState.genesis (T := (P.paying payout).chain) (AuthorState.genesis ledger g) initial c) calls = past at *
  have hblocks := Nat.mul_le_mul_left payout (hclocked.blocksIn_le s.currentSession)
  have hsplit := hpoints.paying (P := P.paying payout) rfl hpos (hblocks.trans hfine)
  exact ⟨_, hsplit, rotateSession_books h hsplit.distinct hpos.ne'⟩

def enlists (who digest : Nat) : ChainCall (chainParameters.paying 100).chain :=
  .callRoles ⟨enrolls who digest, rfl⟩

/-- Two authors have enlisted and produced three blocks. -/
def threeBlocks : List (ChainCall (chainParameters.paying 100).chain) :=
  [enlists 1 51, enlists 2 52, .enterBlock (some (1 : Nat)), .enterBlock (some (2 : Nat)),
    .enterBlock (some (1 : Nat))]

def payingRun (calls : List (ChainCall (chainParameters.paying 100).chain)) :
    ChainState (chainParameters.paying 100).chain :=
  ChainState.after (T := (chainParameters.paying 100).chain)
    (AuthorState.genesis (T := authorConfig) fundedLedger plainGenesis) [9] plainChain calls

theorem rotation_pays_out_threeBlocks : ∃ t payees,
    (payingRun threeBlocks).apply .rotateSession = .ok t ∧
      SessionSplit 100 (history ChainState.apply (payingRun []) threeBlocks) 0 payees ∧
        RewardsBooked (ChainState.authors (P := chainParameters.paying 100) (payingRun threeBlocks))
          (ChainState.authors (P := chainParameters.paying 100) t) payees := by
  have hok : ((payingRun threeBlocks).apply .rotateSession).isOk = true := by decide +kernel
  obtain ⟨t, ht⟩ := exists_eq_ok hok
  have hrotate : (ChainState.after (T := (chainParameters.paying 100).chain)
      (AuthorState.genesis (T := authorConfig) fundedLedger plainGenesis) [9] plainChain threeBlocks).apply
        .rotateSession = .ok t := ht
  obtain ⟨payees, hsplit, hbooked⟩ := rotation_pays_out (P := chainParameters) (by decide) (by decide) hrotate
  have hsession : (payingRun threeBlocks).currentSession = 0 := by decide +kernel
  change SessionSplit 100 _ (payingRun threeBlocks).currentSession payees at hsplit
  rw [hsession] at hsplit
  exact ⟨t, payees, ht, hsplit, hbooked⟩

example : ((payingRun (threeBlocks ++ [.rotateSession])).roles.authorRewards.get (3, (1 : Nat))) = some 67 := by
  decide +kernel

end Rotation

end FrameSuite
