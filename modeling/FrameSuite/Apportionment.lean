import Mathlib.Algebra.Order.BigOperators.Group.List
import Mathlib.Algebra.BigOperators.Group.List.Basic
import Mathlib.Algebra.Group.Action.Defs
import Mathlib.Data.List.Sort
import Mathlib.Tactic.Linarith
import Mathlib.Tactic.Ring

/-! Units that go to the largest remainders. The entries are named by their positions and listed in an order
in which no remainder is followed by a larger one; the first ones of that order get one unit each. -/

namespace FrameSuite

variable {n units : Nat} {R : Nat → Nat} {order : List Nat}

/-- An order of the positions below `n` by remainders. -/
structure RemainderOrder (n : Nat) (R : Nat → Nat) (order : List Nat) : Prop where
  perm : order.Perm (List.range n)
  descending : order.Pairwise fun a b => R b ≤ R a

namespace RemainderOrder

theorem nodup (h : RemainderOrder n R order) : order.Nodup := h.perm.nodup_iff.mpr List.nodup_range

theorem mem_iff (h : RemainderOrder n R order) {i : Nat} : i ∈ order ↔ i < n :=
  h.perm.mem_iff.trans List.mem_range

theorem length_eq (h : RemainderOrder n R order) : order.length = n :=
  h.perm.length_eq.trans List.length_range

theorem sum_eq (h : RemainderOrder n R order) (f : Nat → Nat) :
    ((List.range n).map f).sum = ((order.take units).map f).sum + ((order.drop units).map f).sum := by
  rw [← List.sum_append, ← List.map_append, List.take_append_drop]
  exact (h.perm.symm.map f).sum_eq

theorem drop_le_take (h : RemainderOrder n R order) {a b : Nat} (ha : a ∈ order.take units)
    (hb : b ∈ order.drop units) : R b ≤ R a := by
  have hd := h.descending
  rw [← List.take_append_drop units order, List.pairwise_append] at hd
  exact hd.2.2 a ha b hb

theorem mem_drop_of_not_mem_take (h : RemainderOrder n R order) {i : Nat} (hi : i < n)
    (hnot : i ∉ order.take units) : i ∈ order.drop units := by
  have hmem := h.mem_iff.mpr hi
  rw [← List.take_append_drop units order, List.mem_append] at hmem
  exact hmem.resolve_left hnot

theorem not_mem_take_of_mem_drop (h : RemainderOrder n R order) {i : Nat} (hi : i ∈ order.drop units) :
    i ∉ order.take units := by
  have hd := h.nodup
  rw [← List.take_append_drop units order, List.nodup_append] at hd
  exact fun ht => hd.2.2 i ht i hi rfl

theorem sum_units (h : RemainderOrder n R order) :
    ((List.range n).map fun i => if i ∈ order.take units then 1 else 0).sum = min units n := by
  have htake : ((order.take units).map fun i => if i ∈ order.take units then 1 else 0) =
      (order.take units).map fun _ => 1 := List.map_congr_left fun i hi => if_pos hi
  have hdrop : ((order.drop units).map fun i => if i ∈ order.take units then 1 else 0) =
      (order.drop units).map fun _ => 0 :=
    List.map_congr_left fun i hi => if_neg (h.not_mem_take_of_mem_drop hi)
  rw [h.sum_eq, htake, hdrop]
  simp [h.length_eq]

/-- An entry without a unit has at least as many larger remainders before it as there are units. -/
theorem mul_le_sum (h : RemainderOrder n R order) {i : Nat} (hi : i < n) (hnot : i ∉ order.take units) :
    units < n ∧ (units + 1) * R i ≤ ((List.range n).map R).sum := by
  have hdrop := h.mem_drop_of_not_mem_take hi hnot
  have hlt : units < n := by
    have hpos := List.length_pos_of_mem hdrop
    rw [List.length_drop, h.length_eq] at hpos
    omega
  have hlen : (order.take units).length = units := by
    rw [List.length_take, h.length_eq]
    omega
  have htake : units * R i ≤ ((order.take units).map R).sum := by
    have hcard := List.card_nsmul_le_sum ((order.take units).map R) (R i) fun r hr => by
      obtain ⟨a, ha, rfl⟩ := List.mem_map.mp hr
      exact h.drop_le_take ha hdrop
    rwa [List.length_map, hlen, smul_eq_mul] at hcard
  have hself : R i ≤ ((order.drop units).map R).sum :=
    List.le_sum_of_mem (List.mem_map_of_mem hdrop)
  rw [h.sum_eq, Nat.add_mul, Nat.one_mul]
  exact ⟨hlt, Nat.add_le_add htake hself⟩

/-- If an entry without a remainder gets a unit, then all remainders are among the units before it. -/
theorem sum_le_of_mem_take (h : RemainderOrder n R order) {i bound : Nat} (hi : i ∈ order.take units)
    (hzero : R i = 0) (hbound : ∀ j < n, R j ≤ bound) :
    ((List.range n).map R).sum + bound ≤ units * bound := by
  have hdrop : ((order.drop units).map R).sum = 0 := by
    refine List.sum_eq_zero fun r hr => ?_
    obtain ⟨b, hb, rfl⟩ := List.mem_map.mp hr
    have hle := h.drop_le_take hi hb
    omega
  obtain ⟨s, t, hst⟩ := List.append_of_mem hi
  have hle (l : List Nat) (hl : ∀ j ∈ l, j ∈ order.take units) : (l.map R).sum ≤ l.length * bound := by
    have hcard := List.sum_le_card_nsmul (l.map R) bound fun r hr => by
      obtain ⟨j, hj, rfl⟩ := List.mem_map.mp hr
      exact hbound j (h.mem_iff.mp (List.mem_of_mem_take (hl j hj)))
    rwa [List.length_map, smul_eq_mul] at hcard
  have hs := hle s fun j hj => hst ▸ List.mem_append_left _ hj
  have ht := hle t fun j hj => hst ▸ List.mem_append_right _ (List.mem_cons_of_mem _ hj)
  have hlen : s.length + t.length + 1 ≤ units := by
    have htake := List.length_take_le units order
    rw [hst, List.length_append, List.length_cons] at htake
    omega
  have htake : ((order.take units).map R).sum = (s.map R).sum + (t.map R).sum := by
    rw [hst, List.map_append, List.map_cons, List.sum_append, List.sum_cons, hzero, Nat.zero_add]
  calc ((List.range n).map R).sum + bound = (s.map R).sum + (t.map R).sum + bound := by
        rw [h.sum_eq, hdrop, htake, Nat.add_zero]
    _ ≤ s.length * bound + t.length * bound + bound := by omega
    _ = (s.length + t.length + 1) * bound := by ring
    _ ≤ units * bound := Nat.mul_le_mul_right _ hlen

theorem map_units (h : RemainderOrder n R order) :
    order.map (fun i => (R i, decide (i ∈ order.take units))) =
      ((order.map R).take units).map (fun r => (r, true)) ++
        ((order.map R).drop units).map fun r => (r, false) := by
  conv_lhs => rw [← List.take_append_drop units order, List.map_append]
  rw [← List.map_take, ← List.map_drop, List.map_map, List.map_map, List.take_append_drop]
  refine congrArg₂ _ (List.map_congr_left fun i hi => ?_) (List.map_congr_left fun i hi => ?_)
  · simp [hi]
  · simp [h.not_mem_take_of_mem_drop hi]

theorem units_perm {R' : Nat → Nat} {order' : List Nat} (h : RemainderOrder n R order)
    (h' : RemainderOrder n R' order') (hR : ((List.range n).map R).Perm ((List.range n).map R')) :
    ((List.range n).map fun i => (R i, decide (i ∈ order.take units))).Perm
      ((List.range n).map fun i => (R' i, decide (i ∈ order'.take units))) := by
  have hsame : order.map R = order'.map R' := by
    refine List.Perm.eq_of_pairwise (fun (a b : Nat) _ _ (hab : b ≤ a) (hba : a ≤ b) => le_antisymm hba hab)
      (List.pairwise_map.mpr h.descending) (List.pairwise_map.mpr h'.descending) ?_
    exact (h.perm.map R).trans (hR.trans (h'.perm.symm.map R'))
  refine (h.perm.symm.map _).trans (List.Perm.trans (List.Perm.of_eq ?_) (h'.perm.map _))
  rw [h.map_units, h'.map_units, hsame]

end RemainderOrder

end FrameSuite
