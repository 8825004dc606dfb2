import Mathlib.Algebra.BigOperators.Group.Finset.Basic
import Mathlib.Algebra.Order.BigOperators.Group.Finset
import Mathlib.Algebra.Ring.Nat

/-! Finite maps with a known set of keys, and sums of a weight over their entries.
Writing or removing one entry changes such a sum by that entry alone. -/

namespace FrameSuite

structure StorageMap (K V : Type) where
  get : K → Option V
  keys : Finset K
  mem_keys : ∀ k, k ∈ keys ↔ get k ≠ none

namespace StorageMap

variable {K V : Type}

theorem ext {m n : StorageMap K V} (h : ∀ k, m.get k = n.get k) : m = n := by
  obtain ⟨get, keys, hm⟩ := m
  obtain ⟨get', keys', hn⟩ := n
  obtain rfl : get = get' := funext h
  have hk : keys = keys' := by
    ext k
    rw [hm, hn]
  subst hk
  rfl

def empty : StorageMap K V := ⟨fun _ => none, ∅, fun _ => by simp⟩

def containsKey (m : StorageMap K V) (k : K) : Bool := (m.get k).isSome

@[simp] theorem get_empty (k : K) : (empty : StorageMap K V).get k = none := rfl

theorem containsKey_iff {m : StorageMap K V} {k : K} : m.containsKey k = true ↔ ∃ v, m.get k = some v := by
  simp [containsKey, Option.isSome_iff_exists]

theorem forall_containsKey {m : StorageMap K V} {Q : K → Prop} (h : ∀ k ∈ m.keys, Q k) {k : K}
    (hk : m.containsKey k = true) : Q k := by
  obtain ⟨v, hv⟩ := containsKey_iff.mp hk
  refine h k ((m.mem_keys k).mpr ?_)
  rw [hv]
  nofun

theorem containsKey_eq_false_iff {m : StorageMap K V} {k : K} :
    m.containsKey k = false ↔ m.get k = none := by
  simp [containsKey]

/-- The sum of a weight over the entries. -/
def sum (f : K → V → Nat) (m : StorageMap K V) : Nat :=
  ∑ k ∈ m.keys, (m.get k).elim 0 (f k)

@[simp] theorem sum_empty (f : K → V → Nat) : (empty : StorageMap K V).sum f = 0 := rfl

theorem sum_eq_of_subset {f : K → V → Nat} {m : StorageMap K V} {s : Finset K}
    (h : m.keys ⊆ s) : m.sum f = ∑ k ∈ s, (m.get k).elim 0 (f k) := by
  refine Finset.sum_subset h fun k _ hk => ?_
  rw [m.mem_keys, not_not] at hk
  simp [hk]

theorem sum_congr {f g : K → V → Nat} {m : StorageMap K V}
    (h : ∀ k v, m.get k = some v → f k v = g k v) : m.sum f = m.sum g := by
  refine Finset.sum_congr rfl fun k _ => ?_
  cases hk : m.get k with
  | none => rfl
  | some v => exact h k v hk

theorem sum_le_sum {f g : K → V → Nat} {m : StorageMap K V}
    (h : ∀ k v, m.get k = some v → f k v ≤ g k v) : m.sum f ≤ m.sum g := by
  refine Finset.sum_le_sum fun k _ => ?_
  cases hk : m.get k with
  | none => exact le_refl _
  | some v => exact h k v hk

theorem sum_add (f g : K → V → Nat) (m : StorageMap K V) :
    m.sum (fun k v => f k v + g k v) = m.sum f + m.sum g := by
  rw [sum, sum, sum, ← Finset.sum_add_distrib]
  refine Finset.sum_congr rfl fun k _ => ?_
  cases m.get k <;> rfl

variable [DecidableEq K]

def insert (m : StorageMap K V) (k : K) (v : V) : StorageMap K V where
  get k' := if k' = k then some v else m.get k'
  keys := Insert.insert k m.keys
  mem_keys k' := by
    by_cases h : k' = k <;> simp [h, m.mem_keys]

def remove (m : StorageMap K V) (k : K) : StorageMap K V where
  get k' := if k' = k then none else m.get k'
  keys := m.keys.erase k
  mem_keys k' := by
    by_cases h : k' = k <;> simp [h, m.mem_keys]

theorem get_insert (m : StorageMap K V) (k k' : K) (v : V) :
    (m.insert k v).get k' = if k' = k then some v else m.get k' := rfl

@[simp] theorem get_insert_self (m : StorageMap K V) (k : K) (v : V) :
    (m.insert k v).get k = some v := by
  simp [get_insert]

theorem get_insert_of_ne {m : StorageMap K V} {k k' : K} {v : V} (h : k' ≠ k) :
    (m.insert k v).get k' = m.get k' := by
  simp [get_insert, h]

theorem insert_of_get {m : StorageMap K V} {k : K} {v : V} (h : m.get k = some v) :
    m.insert k v = m :=
  ext fun j => by
    by_cases hj : j = k
    · rw [hj, get_insert_self, h]
    · exact get_insert_of_ne hj

theorem insert_insert (m : StorageMap K V) (k : K) (v w : V) :
    (m.insert k v).insert k w = m.insert k w :=
  ext fun j => by
    by_cases hj : j = k
    · rw [hj, get_insert_self, get_insert_self]
    · rw [get_insert_of_ne hj, get_insert_of_ne hj, get_insert_of_ne hj]

theorem get_remove (m : StorageMap K V) (k k' : K) :
    (m.remove k).get k' = if k' = k then none else m.get k' := rfl

@[simp] theorem get_remove_self (m : StorageMap K V) (k : K) : (m.remove k).get k = none := by
  simp [get_remove]

theorem get_remove_of_ne {m : StorageMap K V} {k k' : K} (h : k' ≠ k) :
    (m.remove k).get k' = m.get k' := by
  simp [get_remove, h]

theorem sum_insert (f : K → V → Nat) (m : StorageMap K V) (k : K) (v : V) :
    (m.insert k v).sum f + (m.get k).elim 0 (f k) = m.sum f + f k v := by
  have hk : k ∈ Insert.insert k m.keys := Finset.mem_insert_self k _
  have hm : (m.get k).elim 0 (f k) + ∑ j ∈ m.keys.erase k, (m.get j).elim 0 (f j) = m.sum f := by
    rw [sum_eq_of_subset (Finset.subset_insert k m.keys), ← Finset.add_sum_erase _ _ hk,
      Finset.erase_insert_eq_erase]
  have hi : f k v + ∑ j ∈ m.keys.erase k, (m.get j).elim 0 (f j) = (m.insert k v).sum f := by
    rw [sum_eq_of_subset (s := Insert.insert k m.keys) (Finset.Subset.refl _),
      ← Finset.add_sum_erase _ _ hk, Finset.erase_insert_eq_erase, get_insert_self,
      Option.elim_some]
    congr 1
    refine Finset.sum_congr rfl fun j hj => ?_
    rw [get_insert_of_ne (Finset.ne_of_mem_erase hj)]
  omega

theorem sum_remove (f : K → V → Nat) (m : StorageMap K V) (k : K) :
    (m.remove k).sum f + (m.get k).elim 0 (f k) = m.sum f := by
  have hi := sum_insert f (m.remove k)
  cases h : m.get k with
  | none =>
    have he : m.remove k = m := ext fun j => by
      by_cases hj : j = k
      · rw [hj, get_remove_self, h]
      · exact get_remove_of_ne hj
    rw [he]
    rfl
  | some v =>
    have he : (m.remove k).insert k v = m := ext fun j => by
      by_cases hj : j = k
      · rw [hj, get_insert_self, h]
      · rw [get_insert_of_ne hj, get_remove_of_ne hj]
    have := hi k v
    rw [he, get_remove_self] at this
    simp only [Option.elim_none, Option.elim_some] at this ⊢
    omega

theorem sum_insert_eq (f : K → V → Nat) (m : StorageMap K V) (k : K) (v : V) :
    (m.insert k v).sum f = (m.remove k).sum f + f k v := by
  have hi := sum_insert f m k v
  have hr := sum_remove f m k
  omega

theorem sum_eq_sum_list {f : K → V → Nat} {m : StorageMap K V} {ks : List K} (hnd : ks.Nodup)
    (h : ∀ k v, m.get k = some v → f k v ≠ 0 → k ∈ ks) : m.sum f = (ks.map fun k => (m.get k).elim 0 (f k)).sum := by
  have hsub : m.keys ⊆ m.keys ∪ ks.toFinset := Finset.subset_union_left
  rw [sum_eq_of_subset hsub, ← List.sum_toFinset _ hnd]
  refine (Finset.sum_subset Finset.subset_union_right fun k _ hk => ?_).symm
  cases hg : m.get k with
  | none => rfl
  | some v =>
    by_contra hne
    exact hk (List.mem_toFinset.mpr (h k v hg hne))

theorem le_sum {f : K → V → Nat} {m : StorageMap K V} {k : K} {v : V} (h : m.get k = some v) :
    f k v ≤ m.sum f := by
  have hr := sum_remove f m k
  rw [h, Option.elim_some] at hr
  omega

theorem sum_keys_le {ι : Type} (f : K → V → Nat) (m : StorageMap K V) (s : Finset ι) {key : ι → K}
    (hkey : Function.Injective key) : ∑ i ∈ s, (m.get (key i)).elim 0 (f (key i)) ≤ m.sum f := by
  have hmap := Finset.sum_map s ⟨key, hkey⟩ fun k => (m.get k).elim 0 (f k)
  have hkeys : m.keys ⊆ m.keys ∪ s.map ⟨key, hkey⟩ := Finset.subset_union_left
  rw [sum_eq_of_subset hkeys]
  calc ∑ i ∈ s, (m.get (key i)).elim 0 (f (key i))
      = ∑ k ∈ s.map ⟨key, hkey⟩, (m.get k).elim 0 (f k) := hmap.symm
    _ ≤ ∑ k ∈ m.keys ∪ s.map ⟨key, hkey⟩, (m.get k).elim 0 (f k) :=
      Finset.sum_le_sum_of_subset Finset.subset_union_right

end StorageMap

section Keys

variable {K V : Type} [DecidableEq K]

theorem containsKey_remove {m : StorageMap K V} {key k : K}
    (h : (m.remove key).containsKey k = true) : m.containsKey k = true := by
  rw [StorageMap.containsKey, StorageMap.get_remove] at h
  split at h
  · cases h
  · exact h

theorem containsKey_remove_of_ne {m : StorageMap K V} {key k : K} (hne : k ≠ key) :
    (m.remove key).containsKey k = m.containsKey k := by
  rw [StorageMap.containsKey, StorageMap.get_remove_of_ne hne, StorageMap.containsKey]

theorem containsKey_insert {m : StorageMap K V} {key k : K} {v : V} :
    (m.insert key v).containsKey k = true ↔ k = key ∨ m.containsKey k = true := by
  rw [StorageMap.containsKey, StorageMap.get_insert]
  split
  · simp [*]
  · simp [*, StorageMap.containsKey]

theorem containsKey_insert_of_ne {m : StorageMap K V} {key k : K} {v : V}
    (hne : k ≠ key) : (m.insert key v).containsKey k = m.containsKey k := by
  rw [StorageMap.containsKey, StorageMap.get_insert_of_ne hne, StorageMap.containsKey]

theorem get_of_remove {m : StorageMap K V} {key k : K} {v : V}
    (h : (m.remove key).get k = some v) : m.get k = some v := by
  rw [StorageMap.get_remove] at h
  split at h
  · cases h
  · exact h

end Keys

end FrameSuite
