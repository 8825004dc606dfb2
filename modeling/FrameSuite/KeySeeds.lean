import FrameSuite.CommitQueries
import FrameSuite.PrefixCodes
import FrameSuite.RuntimeConfig

/-! How digests are generated: an item, an account and its nonce are encoded one after the other and hashed.
The same digest comes from the same account with the same nonce, unless the hash has a collision there. -/

namespace FrameSuite

section Seeds

structure KeySeed (Id Item Salt : Type) where
  target : Id
  item : Item
  salt : Salt

/-- A hash function and how identifiers are read from its output, all of which they take. -/
structure KeyHash (Id : Type) where
  hash : List UInt8 → List UInt8
  decode : List UInt8 → Option Id
  whole : ∀ text text' id, decode (hash text) = some id → decode (hash text') = some id → hash text = hash text'

/-- Two texts of which the hash is the same. -/
def KeyHash.Collision {Id : Type} (k : KeyHash Id) (text text' : List UInt8) : Prop :=
  text ≠ text' ∧ k.hash text = k.hash text'

variable {Id Item Item' Salt : Type}

def KeySeed.encoded (item : PrefixCode UInt8 Item) (id : PrefixCode UInt8 Id) (salt : PrefixCode UInt8 Salt)
    (seed : KeySeed Id Item Salt) : List UInt8 :=
  item.encode seed.item ++ id.encode seed.target ++ salt.encode seed.salt

def KeySeed.keyGen (k : KeyHash Id) (item : PrefixCode UInt8 Item) (id : PrefixCode UInt8 Id)
    (salt : PrefixCode UInt8 Salt) (seed : KeySeed Id Item Salt) : Option Id :=
  k.decode (k.hash (seed.encoded item id salt))

def genKey (k : KeyHash Id) (item : PrefixCode UInt8 Item) (id : PrefixCode UInt8 Id) (salt : PrefixCode UInt8 Salt)
    (target : Id) (value : Item) (nonce : Salt) : Option Id :=
  KeySeed.keyGen k item id salt ⟨target, value, nonce⟩

end Seeds

variable {T : Config}

/-- How the values of the commitment pallet are encoded. All accounts take the same number of bytes, and so do all
nonces. -/
structure KeyFormat (T : Config) where
  key : KeyHash T.AccountId
  account : PrefixCode UInt8 T.AccountId
  reason : PrefixCode UInt8 T.Reason
  position : PrefixCode UInt8 T.Position
  asset : PrefixCode UInt8 Nat
  shares : PrefixCode UInt8 Nat
  length : PrefixCode UInt8 Nat
  commission : PrefixCode UInt8 (Commission T)
  balance : PrefixCode UInt8 (LazyBalance T)
  commit : PrefixCode UInt8 (CommitInstance T)
  nonce : PrefixCode UInt8 Nat
  account_fixed : account.Fixed
  nonce_fixed : nonce.Fixed

namespace KeyFormat

variable (F : KeyFormat T)

def entry : PrefixCode UInt8 (EntryInfo T) :=
  (F.account.pair (F.shares.pair F.position)).comap (fun e => (e.digest, e.shares, e.variant)) fun a b h => by
    cases a
    cases b
    simpa using h

def index : PrefixCode UInt8 (IndexInfo T) :=
  (F.asset.pair (F.shares.pair (PrefixCode.list F.length F.entry))).comap
    (fun i => (i.principal, i.capital, i.entries.list)) fun a b h => by
      obtain ⟨_, _, ⟨_, _, _⟩, _⟩ := a
      obtain ⟨_, _, ⟨_, _, _⟩, _⟩ := b
      simpa using h

def slot : PrefixCode UInt8 (SlotInfo T) :=
  (F.account.pair (F.shares.pair (F.commit.pair F.position))).comap
    (fun s => (s.digest, s.shares, s.commit, s.variant)) fun a b h => by
      cases a
      cases b
      simpa using h

def pool : PrefixCode UInt8 (PoolInfo T) :=
  (F.balance.pair (F.shares.pair (F.commission.pair (PrefixCode.list F.length F.slot)))).comap
    (fun p => (p.balance, p.capital, p.commission, p.slots)) fun a b h => by
      cases a
      cases b
      simpa using h

def indexOfReason : PrefixCode UInt8 (T.Reason × IndexInfo T) := F.reason.pair F.index

def poolOfReason : PrefixCode UInt8 (T.Reason × PoolInfo T) := F.reason.pair F.pool

end KeyFormat

section Digests

inductive KeyError
  | commitment (e : DispatchError)
  | cannotGenerateDigest
deriving DecidableEq

variable (F : KeyFormat T) (accountNonce : T.AccountId → Nat)

def KeyFormat.genDigest (source : T.AccountId) : Except KeyError T.AccountId :=
  okOr (genKey F.key (.only () []) F.account F.nonce source () (accountNonce source)) .cannotGenerateDigest

def KeyFormat.genIndexDigest (who : T.AccountId) (reason : T.Reason) (index : IndexInfo T) :
    Except KeyError T.AccountId :=
  okOr (genKey F.key F.indexOfReason F.account F.nonce who (reason, index) (accountNonce who)) .cannotGenerateDigest

def KeyFormat.genPoolDigest (s : State T) (who : T.AccountId) (reason : T.Reason) (indexOf : T.AccountId)
    (commission : Commission T) : Except KeyError T.AccountId := do
  let poolIndex ← (getIndex s reason indexOf).mapError .commitment
  let actualPool ← (PoolInfo.new poolIndex.entries commission).mapError .commitment
  okOr (genKey F.key F.poolOfReason F.account F.nonce who (reason, actualPool) (accountNonce who))
    .cannotGenerateDigest

/-- The digest that the other calls are given is this one. -/
theorem genPoolDigest_of_key {s : State T} {who digest indexOf : T.AccountId} {reason : T.Reason}
    {commission : Commission T} (h : F.genPoolDigest accountNonce s who reason indexOf commission = .ok digest) :
    genPoolDigest s reason indexOf commission digest = .ok digest := by
  obtain ⟨index, hindex, h⟩ := bind_eq_ok.mp h
  obtain ⟨actualPool, hpool, -⟩ := bind_eq_ok.mp h
  exact bind_eq_ok.mpr ⟨index, mapError_eq_ok.mp hindex, bind_eq_ok.mpr ⟨actualPool, mapError_eq_ok.mp hpool, rfl⟩⟩

end Digests

section Requests

/-- What a digest is asked for: a source, an index, or a pool of an index. -/
inductive KeyRequest (T : Config)
  | digest (source : T.AccountId)
  | index (who : T.AccountId) (reason : T.Reason) (info : IndexInfo T)
  | pool (who : T.AccountId) (reason : T.Reason) (indexOf : T.AccountId) (commission : Commission T)

/-- What is encoded beside the account and its nonce. -/
inductive KeyItem (T : Config)
  | source
  | index (reason : T.Reason) (info : IndexInfo T)
  | pool (reason : T.Reason) (info : PoolInfo T)

namespace KeyItem

def kind : KeyItem T → Nat
  | source => 0
  | index _ _ => 1
  | pool _ _ => 2

def text (F : KeyFormat T) : KeyItem T → List UInt8
  | source => []
  | index reason info => F.indexOfReason.encode (reason, info)
  | pool reason info => F.poolOfReason.encode (reason, info)

/-- The numbers of the item are of their types. -/
def InDomain (F : KeyFormat T) : KeyItem T → Prop
  | source => True
  | index reason info => F.indexOfReason.domain (reason, info)
  | pool reason info => F.poolOfReason.domain (reason, info)

theorem text_injective {F : KeyFormat T} {item item' : KeyItem T} (hkind : item.kind = item'.kind)
    (h : item.InDomain F) (h' : item'.InDomain F) (htext : item.text F = item'.text F) : item = item' := by
  cases item <;> cases item' <;> cases hkind
  · rfl
  · obtain ⟨rfl, rfl⟩ := Prod.mk.inj (F.indexOfReason.injective h h' htext)
    rfl
  · obtain ⟨rfl, rfl⟩ := Prod.mk.inj (F.poolOfReason.injective h h' htext)
    rfl

end KeyItem

namespace KeyRequest

def account : KeyRequest T → T.AccountId
  | digest source => source
  | index who _ _ => who
  | pool who _ _ _ => who

def generate (F : KeyFormat T) (accountNonce : T.AccountId → Nat) (s : State T) :
    KeyRequest T → Except KeyError T.AccountId
  | digest source => F.genDigest accountNonce source
  | index who reason info => F.genIndexDigest accountNonce who reason info
  | pool who reason indexOf commission => F.genPoolDigest accountNonce s who reason indexOf commission

/-- A pool is encoded as it is made from its index, without any balance. -/
def Encodes (s : State T) : KeyRequest T → KeyItem T → Prop
  | digest _, item => item = .source
  | index _ reason info, item => item = .index reason info
  | pool _ reason indexOf commission, item => ∃ index actualPool, getIndex s reason indexOf = .ok index ∧
      PoolInfo.new index.entries commission = .ok actualPool ∧ item = .pool reason actualPool

/-- The text that is hashed. -/
def preimage (F : KeyFormat T) (accountNonce : T.AccountId → Nat) (r : KeyRequest T) (item : KeyItem T) :
    List UInt8 :=
  item.text F ++ F.account.encode r.account ++ F.nonce.encode (accountNonce r.account)

/-- All that is encoded has its encoding. -/
structure InDomain (F : KeyFormat T) (accountNonce : T.AccountId → Nat) (s : State T) (r : KeyRequest T) : Prop where
  account : F.account.domain r.account
  nonce : F.nonce.domain (accountNonce r.account)
  item : ∀ item, r.Encodes s item → item.InDomain F

variable {F : KeyFormat T} {accountNonce accountNonce' : T.AccountId → Nat} {s s' : State T} {r r' : KeyRequest T}
  {item item' : KeyItem T} {digest : T.AccountId}

theorem generate_eq_ok (h : r.generate F accountNonce s = .ok digest) : ∃ item, r.Encodes s item ∧
    F.key.decode (F.key.hash (r.preimage F accountNonce item)) = some digest := by
  cases r with
  | digest source => exact ⟨_, rfl, okOr_eq_ok.mp h⟩
  | index who reason info => exact ⟨_, rfl, okOr_eq_ok.mp h⟩
  | pool who reason indexOf commission =>
    obtain ⟨index, hindex, h⟩ := bind_eq_ok.mp h
    obtain ⟨actualPool, hpool, h⟩ := bind_eq_ok.mp h
    exact ⟨_, ⟨index, actualPool, mapError_eq_ok.mp hindex, mapError_eq_ok.mp hpool, rfl⟩, okOr_eq_ok.mp h⟩

/-- The account and the nonce are read off the end, whatever the items are. -/
theorem preimage_injective (hr : r.InDomain F accountNonce s) (hr' : r'.InDomain F accountNonce' s')
    (h : r.preimage F accountNonce item = r'.preimage F accountNonce' item') :
    r.account = r'.account ∧ accountNonce r.account = accountNonce' r'.account ∧ item.text F = item'.text F := by
  obtain ⟨h, hnonce⟩ := F.nonce_fixed.unique_last hr.nonce hr'.nonce h
  obtain ⟨htext, haccount⟩ := F.account_fixed.unique_last hr.account hr'.account h
  exact ⟨haccount, hnonce, htext⟩

/-- When the same digest is generated twice, whatever for, it is by the same account with the same nonce, and two
digests of one kind are for the same index or pool of the same reason: or else the hash of what was encoded is a
collision. -/
theorem generated_digests_separate (hr : r.InDomain F accountNonce s) (hr' : r'.InDomain F accountNonce' s')
    (h : r.generate F accountNonce s = .ok digest) (h' : r'.generate F accountNonce' s' = .ok digest) :
    ∃ item item', r.Encodes s item ∧ r'.Encodes s' item' ∧
      (F.key.Collision (r.preimage F accountNonce item) (r'.preimage F accountNonce' item') ∨
        r.account = r'.account ∧ accountNonce r.account = accountNonce' r'.account ∧
          (item.kind = item'.kind → item = item')) := by
  obtain ⟨item, hitem, hdecode⟩ := generate_eq_ok h
  obtain ⟨item', hitem', hdecode'⟩ := generate_eq_ok h'
  have hhash := F.key.whole _ _ _ hdecode hdecode'
  refine ⟨item, item', hitem, hitem', ?_⟩
  by_cases htext : r.preimage F accountNonce item = r'.preimage F accountNonce' item'
  · obtain ⟨haccount, hnonce, hsame⟩ := preimage_injective hr hr' htext
    exact .inr ⟨haccount, hnonce, fun hkind =>
      KeyItem.text_injective hkind (hr.item item hitem) (hr'.item item' hitem') hsame⟩
  · exact .inl ⟨htext, hhash⟩

end KeyRequest

end Requests

section Checksums

def checksum (text : List UInt8) : Nat := text.foldl (fun n byte => 31 * n + byte.toNat) 7 % 256 ^ 4

def checksumKey : KeyHash Nat where
  hash text := littleEndian 4 (checksum text)
  decode text := some (readBytes text)
  whole text text' id h h' := by
    have hlt : ∀ t, checksum t < 256 ^ 4 := fun t => Nat.mod_lt _ (by decide)
    have hsame := Option.some.inj (h.trans h'.symm)
    rw [readBytes_littleEndian (hlt text), readBytes_littleEndian (hlt text')] at hsame
    rw [hsame]

theorem disposition_index_injective : Function.Injective Disposition.index := by
  intro a b h
  cases a <;> cases b <;> first | rfl | cases h

/-- The lengths of short lists, with the two bits that mark them as such. -/
def shortLength : PrefixCode UInt8 Nat :=
  (PrefixCode.bytes 1).comap (4 * ·) fun _ _ h => Nat.eq_of_mul_eq_mul_left (Nat.succ_pos 3) h

def checksumFormat : KeyFormat runtimeConfig where
  key := checksumKey
  account := .bytes 4
  reason := .bytes 1
  position := (PrefixCode.bytes 1).comap Disposition.index disposition_index_injective
  asset := .bytes 16
  shares := .bytes 8
  length := shortLength
  commission := (PrefixCode.bytes 4).comap Commission.parts fun a b h => by
    cases a
    cases b
    simpa using h
  balance := .only none [0]
  commit := .only none [0]
  nonce := .bytes 4
  account_fixed := PrefixCode.fixed_bytes 4
  nonce_fixed := PrefixCode.fixed_bytes 4

def soloEntry : EntryInfo runtimeConfig := ⟨(1 : Nat), 7, Disposition.affirmative, Nat.succ_ne_zero 6⟩

def soloEntries : Entries runtimeConfig := ⟨[soloEntry], List.cons_ne_nil _ _, List.nodup_singleton _⟩

def soloIndex : IndexInfo runtimeConfig := ⟨0, 7, soloEntries, rfl⟩

def soloRequest : KeyRequest runtimeConfig := .index (9 : Nat) (0 : Nat) soloIndex

theorem soloRequest_inDomain : soloRequest.InDomain checksumFormat (fun _ => 3) (State.genesis fundedLedger) := by
  refine ⟨(by decide : 9 < 256 ^ 4), (by decide : 3 < 256 ^ 4), ?_⟩
  rintro item rfl
  refine ⟨(by decide : 0 < 256 ^ 1), (by decide : 0 < 256 ^ 16), (by decide : 7 < 256 ^ 8),
    (by decide : 4 * 1 < 256 ^ 1), fun entry hentry => ?_⟩
  obtain rfl := List.mem_singleton.mp hentry
  exact ⟨(by decide : 1 < 256 ^ 4), (by decide : 7 < 256 ^ 8), (by decide : 0 < 256 ^ 1)⟩

/-- The index that account 9 asks for with its nonce 3. -/
theorem generated_digests_separate_solo : ∃ digest,
    soloRequest.generate checksumFormat (fun _ => 3) (State.genesis fundedLedger) = .ok digest ∧
      ∃ item item', soloRequest.Encodes (State.genesis fundedLedger) item ∧
        soloRequest.Encodes (State.genesis fundedLedger) item' ∧
        (checksumKey.Collision (soloRequest.preimage checksumFormat (fun _ => 3) item)
          (soloRequest.preimage checksumFormat (fun _ => 3) item') ∨
          (9 : Nat) = 9 ∧ 3 = 3 ∧ (item.kind = item'.kind → item = item')) :=
  ⟨_, rfl, KeyRequest.generated_digests_separate soloRequest_inDomain soloRequest_inDomain rfl rfl⟩

end Checksums

end FrameSuite
