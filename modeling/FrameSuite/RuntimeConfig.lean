import FrameSuite.PoolSlots
import Mathlib.Data.Finsupp.Single

/-! The limits and fixed-point types of the runtime over a token ledger with free, held and frozen balances and an
existential deposit, as in the tests that take `pallet_balances` for the asset. The ledger moves exactly what it is
asked to move, and a freeze of nothing thaws. The runtime's own asset is `pallet_xp`, whose ledger is modelled
apart. -/

namespace FrameSuite

inductive Disposition
  | affirmative
  | contrary
  | awaiting
deriving DecidableEq

namespace Disposition

def index : Disposition → Nat
  | affirmative => 0
  | contrary => 1
  | awaiting => 2

def positionOf : Nat → Option Disposition
  | 0 => some affirmative
  | 1 => some contrary
  | 2 => some awaiting
  | _ => none

end Disposition

structure TokenLedger where
  free : StorageMap Nat Nat
  held : StorageMap Nat Nat
  frozen : StorageMap (Nat × Nat) Nat

namespace TokenLedger

def existentialDeposit : Nat := 1

def maxBalance : Nat := 2 ^ 128 - 1

def freeOf (l : TokenLedger) (who : Nat) : Nat := (l.free.get who).getD 0

def heldOf (l : TokenLedger) (who : Nat) : Nat := (l.held.get who).getD 0

/-- Frozen funds may be used, but the account stays alive. -/
def reducible (l : TokenLedger) (who : Nat) : Nat := l.freeOf who - existentialDeposit

def setFree (l : TokenLedger) (who v : Nat) : TokenLedger := { l with free := l.free.insert who v }

def increase (l : TokenLedger) (who v : Nat) : Except DispatchError TokenLedger :=
  if maxBalance < l.freeOf who + v ∨ l.freeOf who + v < existentialDeposit then .error .asset
  else .ok (l.setFree who (l.freeOf who + v))

def decrease (l : TokenLedger) (who v : Nat) : Except DispatchError TokenLedger :=
  if v ≤ l.reducible who then .ok (l.setFree who (l.freeOf who - v)) else .error .asset

def burn (l : TokenLedger) (who v : Nat) : Except DispatchError TokenLedger :=
  if v ≤ l.freeOf who then .ok (l.setFree who (l.freeOf who - v)) else .error .asset

def decreaseHeld (l : TokenLedger) (who v : Nat) : Except DispatchError TokenLedger :=
  if v ≤ l.heldOf who then .ok { l with held := l.held.insert who (l.heldOf who - v) }
  else .error .asset

def freeze (l : TokenLedger) (reason who v : Nat) : TokenLedger :=
  { l with frozen := l.frozen.insert (reason, who) v }

def frozenOf (l : TokenLedger) (reason who : Nat) : Nat := (l.frozen.get (reason, who)).getD 0

def fungible : Fungible Nat Nat TokenLedger :=
  { balanceOnHold := heldOf
    totalBalanceOnHold := heldOf
    reducibleBalance := reducible
    totalBalance := fun l who => l.freeOf who + l.heldOf who
    increaseBalance := increase
    decreaseBalance := decrease
    decreaseBalanceOnHold := decreaseHeld
    mintInto := increase
    burnFrom := burn
    setFreeze := fun l reason who v => .ok (l.freeze reason who v)
    increaseFrozen := fun l reason who v => .ok (l.freeze reason who (l.frozenOf reason who + v))
    thaw := fun l reason who => .ok { l with frozen := l.frozen.remove (reason, who) } }

/-- Accounts with the given free balances and nothing held or frozen. -/
def ofFree (balances : List (Nat × Nat)) : TokenLedger :=
  { free := balances.foldr (fun p m => m.insert p.1 p.2) .empty
    held := .empty
    frozen := .empty }

end TokenLedger

/-- The runtime's parameters with a fungible like that of `pallet_balances` for the asset. -/
abbrev runtimeConfig : Config :=
  { AccountId := Nat
    Reason := Nat
    Position := Disposition
    Ledger := TokenLedger
    decEqAccountId := inferInstance
    decEqReason := inferInstance
    decEqPosition := inferInstance
    positionIndex := Disposition.index
    positionOf := Disposition.positionOf
    positionDefault := .affirmative
    variantCount := 3
    share := runtimeShareConfig
    asset := TokenLedger.fungible
    maxShares := 2 ^ 64 - 1
    maxCommits := 30
    maxIndexEntries := 200
    accuracy := 10 ^ 9 }

namespace StorageMap

variable {K : Type} [DecidableEq K]

/-- The amounts of a map as a finitely supported function. -/
noncomputable def amounts (m : StorageMap K Nat) : K →₀ Nat :=
  Finsupp.onFinset m.keys (fun k => (m.get k).getD 0) fun k hk => by
    rw [m.mem_keys]
    intro hn
    simp [hn] at hk

theorem amounts_insert_add (m : StorageMap K Nat) (k : K) {a b v : Nat}
    (h : a = b + v) (hb : b = (m.get k).getD 0) :
    (m.insert k a).amounts = m.amounts + Finsupp.single k v := by
  ext j
  simp only [amounts, Finsupp.onFinset_apply, Finsupp.add_apply, Finsupp.single_apply, get_insert]
  by_cases hj : j = k
  · subst hj
    simp [h, hb]
  · simp [hj, Ne.symm hj]

theorem amounts_of_insert_sub (m : StorageMap K Nat) (k : K) {a b v : Nat}
    (h : b = a + v) (hb : b = (m.get k).getD 0) :
    m.amounts = (m.insert k a).amounts + Finsupp.single k v := by
  ext j
  simp only [amounts, Finsupp.onFinset_apply, Finsupp.add_apply, Finsupp.single_apply, get_insert]
  by_cases hj : j = k
  · subst hj
    simp [← hb, h]
  · simp [hj, Ne.symm hj]

end StorageMap

namespace TokenLedger

theorem increase_exact {l l' : TokenLedger} {who v : Nat} (h : l.increase who v = .ok l') :
    l'.free.amounts = l.free.amounts + Finsupp.single who v ∧ l'.held.amounts = l.held.amounts := by
  unfold increase at h
  split at h
  · cases h
  · cases h
    exact ⟨StorageMap.amounts_insert_add _ _ rfl rfl, rfl⟩

theorem decrease_exact {l l' : TokenLedger} {who v : Nat} (h : l.decrease who v = .ok l') :
    l.free.amounts = l'.free.amounts + Finsupp.single who v ∧ l'.held.amounts = l.held.amounts := by
  unfold decrease at h
  split at h
  · rename_i hle
    cases h
    unfold reducible at hle
    exact ⟨StorageMap.amounts_of_insert_sub (b := l.freeOf who) _ _ (by omega) rfl, rfl⟩
  · cases h

theorem burn_exact {l l' : TokenLedger} {who v : Nat} (h : l.burn who v = .ok l') :
    l.free.amounts = l'.free.amounts + Finsupp.single who v ∧ l'.held.amounts = l.held.amounts := by
  unfold burn at h
  split at h
  · cases h
    exact ⟨StorageMap.amounts_of_insert_sub (b := l.freeOf who) _ _ (by omega) rfl, rfl⟩
  · cases h

theorem decreaseHeld_exact {l l' : TokenLedger} {who v : Nat} (h : l.decreaseHeld who v = .ok l') :
    l'.free.amounts = l.free.amounts ∧ l.held.amounts = l'.held.amounts + Finsupp.single who v := by
  unfold decreaseHeld at h
  split at h
  · cases h
    exact ⟨rfl, StorageMap.amounts_of_insert_sub (b := l.heldOf who) _ _ (by omega) rfl⟩
  · cases h

end TokenLedger

noncomputable def tokenMoves : ExactMoves runtimeConfig where
  free l := TokenLedger.free l |>.amounts
  held l := TokenLedger.held l |>.amounts
  increaseBalance h := TokenLedger.increase_exact h
  decreaseBalance h := TokenLedger.decrease_exact h
  decreaseBalanceOnHold h := TokenLedger.decreaseHeld_exact h
  mintInto h := TokenLedger.increase_exact h
  burnFrom h := TokenLedger.burn_exact h
  setFreeze h := by
    cases h
    exact ⟨rfl, rfl⟩
  increaseFrozen h := by
    cases h
    exact ⟨rfl, rfl⟩
  thaw h := by
    cases h
    exact ⟨rfl, rfl⟩

/-- An entry with one share in the affirmative variant. -/
def unitEntry (digest : Nat) : EntryInfo runtimeConfig :=
  { digest, shares := 1, variant := Disposition.affirmative, shares_ne := Nat.one_ne_zero }

/-- An index of three equal entries. -/
def thirdsIndex : IndexInfo runtimeConfig :=
  { principal := 0
    capital := 3
    entries :=
      { list := [unitEntry 11, unitEntry 12, unitEntry 13]
        nonempty := List.cons_ne_nil _ _
        nodup := by decide }
    capital_eq := rfl }

def exactForce : Directive := { precision := .exact, fortitude := .force }

def place (who digest value : Nat) : Call runtimeConfig :=
  .placeCommit (T := runtimeConfig) who 0 digest value .affirmative exactForce

/-- Three direct commits, and a pool over their digests in equal slots. -/
def thirdsPool : List (Call runtimeConfig) :=
  [place 1 11 5, place 2 12 5, place 3 13 5,
    .setIndex (T := runtimeConfig) 0 thirdsIndex 20,
    .setPool (T := runtimeConfig) 9 0 30 20 { parts := 0, parts_le := Nat.zero_le _ }]

theorem zero_le_accuracy : 0 ≤ runtimeConfig.accuracy := Nat.zero_le _

def fundedLedger : TokenLedger :=
  .ofFree [(1, 1000), (2, 1000), (3, 1000), (4, 1000), (5, 1000), (9, 1000)]

end FrameSuite
