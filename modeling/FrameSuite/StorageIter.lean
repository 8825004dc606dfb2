import FrameSuite.StorageMap
import Mathlib.Data.List.Sort

/-! The order in which a map over pairs lists the entries under one first key: that of the
hashes of the second keys. -/

namespace FrameSuite

/-- The places of the keys in the storage, which no two keys share. -/
structure HashOrder (K : Type) where
  rank : K → Nat
  injective : Function.Injective rank

namespace HashOrder

variable {K : Type} (o : HashOrder K)

def le (a b : K) : Prop := o.rank a ≤ o.rank b

instance : DecidableRel o.le := fun _ _ => inferInstanceAs (Decidable (_ ≤ _))

instance : IsTrans K o.le := ⟨fun _ _ _ => Nat.le_trans⟩

instance : Std.Antisymm o.le := ⟨fun _ _ h h' => o.injective (Nat.le_antisymm h h')⟩

instance : Std.Total o.le := ⟨fun _ _ => Nat.le_total _ _⟩

/-- A set of keys as the list in their order. -/
def sorted (s : Finset K) : List K :=
  Quot.liftOn s.val (List.insertionSort o.le) fun a b h =>
    (((List.perm_insertionSort o.le a).trans h).trans (List.perm_insertionSort o.le b).symm).eq_of_pairwise'
      (List.pairwise_insertionSort o.le a) (List.pairwise_insertionSort o.le b)

theorem coe_sorted (s : Finset K) : (o.sorted s : Multiset K) = s.val := by
  obtain ⟨s, -⟩ := s
  induction s using Quot.inductionOn with
  | h l => exact Quot.sound (List.perm_insertionSort o.le l)

@[simp] theorem mem_sorted {s : Finset K} {k : K} : k ∈ o.sorted s ↔ k ∈ s := by
  rw [← Multiset.mem_coe, coe_sorted]
  rfl

theorem nodup_sorted (s : Finset K) : (o.sorted s).Nodup := by
  rw [← Multiset.coe_nodup, coe_sorted]
  exact s.nodup

def natural : HashOrder Nat := ⟨id, Function.injective_id⟩

end HashOrder

namespace StorageMap

variable {P K V : Type} [DecidableEq P] [DecidableEq K]

/-- The second keys of the entries under a first key. -/
def keysUnder (m : StorageMap (P × K) V) (p : P) : Finset K :=
  (m.keys.filter fun k => k.1 = p).image Prod.snd

def iterPrefix (o : HashOrder K) (m : StorageMap (P × K) V) (p : P) : List (K × V) :=
  (o.sorted (m.keysUnder p)).filterMap fun k => (m.get (p, k)).map (Prod.mk k)

theorem mem_keysUnder {m : StorageMap (P × K) V} {p : P} {k : K} :
    k ∈ m.keysUnder p ↔ m.get (p, k) ≠ none := by
  simp [keysUnder, m.mem_keys]

theorem mem_iterPrefix {o : HashOrder K} {m : StorageMap (P × K) V} {p : P} {k : K} {v : V} :
    (k, v) ∈ m.iterPrefix o p ↔ m.get (p, k) = some v := by
  constructor
  · intro h
    obtain ⟨k', -, hk'⟩ := List.mem_filterMap.mp h
    obtain ⟨v', hv', he⟩ := Option.map_eq_some_iff.mp hk'
    cases he
    exact hv'
  · intro h
    refine List.mem_filterMap.mpr ⟨k, ?_, by simp [h]⟩
    rw [HashOrder.mem_sorted, mem_keysUnder]
    simp [h]

theorem nodup_iterPrefix {o : HashOrder K} {m : StorageMap (P × K) V} {p : P} :
    ((m.iterPrefix o p).map Prod.fst).Nodup := by
  have hsub : ∀ keys : List K,
      ((keys.filterMap fun k => (m.get (p, k)).map (Prod.mk k)).map Prod.fst).Sublist keys := by
    intro keys
    induction keys with
    | nil => exact List.Sublist.refl []
    | cons k keys ih =>
      cases hk : m.get (p, k) with
      | none => simpa [hk] using ih.cons k
      | some v => simpa [hk] using ih.cons_cons k
  exact (o.nodup_sorted _).sublist (hsub _)

theorem filter_entries {keys : List K} (h : keys.Nodup) (f : K → Option V) (k : K) :
    ((keys.filterMap fun k => (f k).map (Prod.mk k)).filter fun e => e.1 = k) =
      if k ∈ keys then ((f k).map (Prod.mk k)).toList else [] := by
  induction keys with
  | nil => simp
  | cons j keys ih =>
    obtain ⟨hj, hkeys⟩ := List.nodup_cons.mp h
    have hrest := ih hkeys
    cases hf : f j with
    | none =>
      by_cases hk : k = j
      · subst hk
        simp [hf, hrest, hj]
      · simp [hf, hrest, hk]
    | some v =>
      by_cases hk : k = j
      · subst hk
        simp [hf, hrest, hj]
      · simp [hf, hrest, hk, Ne.symm hk]

theorem iterPrefix_filter {o : HashOrder K} {m : StorageMap (P × K) V} {p : P} {k : K} :
    ((m.iterPrefix o p).filter fun e => e.1 = k) = ((m.get (p, k)).map (Prod.mk k)).toList := by
  rw [iterPrefix, filter_entries (o.nodup_sorted _)]
  by_cases hk : m.get (p, k) = none
  · simp [hk]
  · rw [if_pos (o.mem_sorted.mpr (mem_keysUnder.mpr hk))]

end StorageMap

end FrameSuite
