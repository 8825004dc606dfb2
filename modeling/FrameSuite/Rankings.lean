import Mathlib.Data.List.Sort
import Mathlib.Data.List.TakeWhile

/-! A list by a score, the largest first and equal ones in the order given. What is selected from it beforehand
is ranked alike, and what reaches a threshold comes first. -/

namespace FrameSuite

variable {α V : Type} [LinearOrder V] {score : α → V} {l : List α} {a b : α}

def ranked (score : α → V) (l : List α) : List α := l.insertionSort fun a b => score b ≤ score a

section Order

theorem ranked_perm (score : α → V) (l : List α) : (ranked score l).Perm l := List.perm_insertionSort _ _

theorem ranked_pairwise (score : α → V) (l : List α) : (ranked score l).Pairwise fun a b => score b ≤ score a := by
  have : Std.Total fun a b : α => score b ≤ score a := ⟨fun a b => le_total (score b) (score a)⟩
  have : IsTrans α fun a b => score b ≤ score a := ⟨fun a b c hab hbc => hbc.trans hab⟩
  exact List.pairwise_insertionSort _ _

/-- Whoever is cut off scores no more than whoever is kept. -/
theorem ranked_take_best (k : Nat) (ha : a ∈ (ranked score l).take k) (hb : b ∈ l)
    (hcut : b ∉ (ranked score l).take k) : score b ≤ score a := by
  have hsplit := ranked_pairwise score l
  rw [← List.take_append_drop k (ranked score l)] at hsplit
  refine (List.pairwise_append.mp hsplit).2.2 a ha b ?_
  have hmem := (ranked_perm score l).mem_iff.mpr hb
  rw [← List.take_append_drop k (ranked score l)] at hmem
  exact (List.mem_append.mp hmem).resolve_left hcut

end Order

section Selections

variable {keep : α → Bool}

theorem filter_orderedInsert (hl : l.Pairwise fun a b => score b ≤ score a) :
    (l.orderedInsert (fun a b => score b ≤ score a) a).filter keep =
      if keep a then (l.filter keep).orderedInsert (fun a b => score b ≤ score a) a else l.filter keep := by
  induction l with
  | nil => by_cases h : keep a <;> simp [h]
  | cons b l ih =>
    obtain ⟨hb, hl⟩ := List.pairwise_cons.mp hl
    by_cases hab : score b ≤ score a
    · rw [List.orderedInsert_cons_of_le (r := fun a b => score b ≤ score a) l hab, List.filter_cons]
      split_ifs with h
      · cases hk : (b :: l).filter keep with
        | nil => rfl
        | cons c rest =>
          have hc : c ∈ b :: l := List.mem_of_mem_filter (hk ▸ List.mem_cons_self)
          have hca : score c ≤ score a := by
            rcases List.mem_cons.mp hc with rfl | hc
            · exact hab
            · exact (hb c hc).trans hab
          exact (List.orderedInsert_cons_of_le (r := fun a b => score b ≤ score a) rest hca).symm
      · rfl
    · have hbehind : ∀ m : List α, (b :: m).orderedInsert (fun a b => score b ≤ score a) a =
          b :: m.orderedInsert (fun a b => score b ≤ score a) a := fun m =>
        List.orderedInsert_of_not_le (r := fun a b => score b ≤ score a) m hab
      rw [hbehind, List.filter_cons, ih hl, List.filter_cons]
      by_cases hkb : keep b <;> by_cases hka : keep a
      · rw [if_pos hkb, if_pos hka, if_pos hka, if_pos hkb, hbehind]
      · rw [if_pos hkb, if_neg hka, if_neg hka, if_pos hkb]
      · rw [if_neg hkb, if_pos hka, if_pos hka, if_neg hkb]
      · rw [if_neg hkb, if_neg hka, if_neg hka, if_neg hkb]

theorem ranked_filter (score : α → V) (keep : α → Bool) (l : List α) :
    ranked score (l.filter keep) = (ranked score l).filter keep := by
  induction l with
  | nil => rfl
  | cons a l ih =>
    have hstep : ((ranked score l).orderedInsert (fun a b => score b ≤ score a) a).filter keep = _ :=
      filter_orderedInsert (ranked_pairwise score l)
    change _ = ((ranked score l).orderedInsert _ a).filter keep
    rw [hstep, ← ih, List.filter_cons]
    split_ifs <;> rfl

theorem filter_prefix {threshold : V} (hl : l.Pairwise fun a b => score b ≤ score a) :
    l.filter (fun a => threshold ≤ score a) <+: l := by
  induction l with
  | nil => exact List.prefix_refl _
  | cons a l ih =>
    obtain ⟨ha, hl⟩ := List.pairwise_cons.mp hl
    by_cases h : threshold ≤ score a
    · rw [List.filter_cons_of_pos (by simpa using h)]
      exact (List.prefix_cons_inj a).mpr (ih hl)
    · have hnone : ∀ b ∈ a :: l, ¬decide (threshold ≤ score b) = true := by
        intro b hb
        rcases List.mem_cons.mp hb with rfl | hb
        · simpa using h
        · simpa using lt_of_le_of_lt (ha b hb) (not_le.mp h)
      rw [List.filter_eq_nil_iff.mpr hnone]
      exact List.nil_prefix

theorem ranked_threshold (score : α → V) (threshold : V) (l : List α) :
    ranked score (l.filter fun a => threshold ≤ score a) <+: ranked score l := by
  rw [ranked_filter]
  exact filter_prefix (ranked_pairwise score l)

end Selections

end FrameSuite
