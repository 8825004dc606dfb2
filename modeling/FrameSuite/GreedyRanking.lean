import Mathlib.Data.List.Perm.Basic
import Mathlib.Order.Lattice

/-! Rankings that take the first item of least cost again and again, where every item taken changes
the costs of those that remain. -/

namespace FrameSuite

variable {σ τ ι κ : Type}

/-- One item is ranked somewhere before another. -/
def Precedes (ranking : List ι) (a b : ι) : Prop := [a, b].Sublist ranking

instance [DecidableEq ι] (ranking : List ι) (a b : ι) : Decidable (Precedes ranking a b) :=
  inferInstanceAs (Decidable ([a, b].Sublist ranking))

namespace Precedes

variable {ranking first rest : List ι} {a b : ι}

theorem of_append (ha : a ∈ first) (hb : b ∈ rest) : Precedes (first ++ rest) a b :=
  (List.singleton_sublist.mpr ha).append (List.singleton_sublist.mpr hb)

theorem left (h : Precedes ranking a b) : a ∈ ranking := h.subset (List.mem_cons_self ..)

theorem right (h : Precedes ranking a b) : b ∈ ranking :=
  h.subset (List.mem_cons_of_mem _ (List.mem_singleton.mpr rfl))

theorem total (ha : a ∈ ranking) (hb : b ∈ ranking) (hne : a ≠ b) :
    Precedes ranking a b ∨ Precedes ranking b a := by
  obtain ⟨first, rest, rfl⟩ := List.append_of_mem ha
  rcases List.mem_append.mp hb with hb | hb
  · exact .inr (of_append hb (List.mem_cons_self ..))
  · have hb := (List.mem_cons.mp hb).resolve_left (Ne.symm hne)
    exact .inl (((List.singleton_sublist.mpr hb).cons_cons a).trans (List.sublist_append_right ..))

theorem asymm (hd : ranking.Nodup) (h : Precedes ranking a b) : ¬Precedes ranking b a := by
  intro h'
  induction ranking with
  | nil => cases h.left
  | cons c ranking ih =>
    obtain ⟨hnot, hd⟩ := List.nodup_cons.mp hd
    cases h with
    | cons _ h =>
      cases h' with
      | cons _ h' => exact ih hd h h'
      | cons_cons _ h' => exact hnot (right h)
    | cons_cons _ h =>
      cases h' with
      | cons _ h' => exact hnot (right h')
      | cons_cons _ h' => exact hnot (List.singleton_sublist.mp h)

theorem mem_of_append (hd : (first ++ b :: rest).Nodup) (h : Precedes (first ++ b :: rest) a b) : a ∈ first := by
  rcases List.mem_append.mp h.left with ha | ha
  · exact ha
  · rcases List.mem_cons.mp ha with rfl | ha
    · exact absurd h (h.asymm hd)
    · have hba : Precedes (first ++ b :: rest) b a := by
        rw [List.append_cons]
        exact of_append (by simp) ha
      exact absurd hba (h.asymm hd)

end Precedes

variable [LinearOrder κ]

/-- The items before the best one cost more, those after it no less. -/
structure FirstLeast (cost : ι → κ) (before : List ι) (best : ι) (after : List ι) : Prop where
  before : ∀ item ∈ before, cost best < cost item
  after : ∀ item ∈ after, cost best ≤ cost item

namespace FirstLeast

variable {cost : ι → κ} {before after : List ι} {best item : ι}

theorem le (h : FirstLeast cost before best after) (hi : item ∈ before ++ best :: after) :
    cost best ≤ cost item := by
  rcases List.mem_append.mp hi with hi | hi
  · exact le_of_lt (h.before item hi)
  · rcases List.mem_cons.mp hi with rfl | hi
    · exact le_refl _
    · exact h.after item hi

theorem keep (h : FirstLeast cost before best after) (hi : cost best ≤ cost item) :
    FirstLeast cost before best (after ++ [item]) := by
  refine ⟨h.before, fun other ho => ?_⟩
  rcases List.mem_append.mp ho with ho | ho
  · exact h.after other ho
  · obtain rfl := List.mem_singleton.mp ho
    exact hi

theorem replace (h : FirstLeast cost before best after) (hi : cost item < cost best) :
    FirstLeast cost (before ++ best :: after) item [] :=
  ⟨fun _ ho => lt_of_lt_of_le hi (h.le ho), fun _ ho => by cases ho⟩

theorem unique {before' after' : List ι} {best' : ι} (h : FirstLeast cost before best after)
    (h' : FirstLeast cost before' best' after') (he : before ++ best :: after = before' ++ best' :: after') :
    before = before' ∧ best = best' ∧ after = after' := by
  induction before generalizing before' with
  | nil =>
    cases before' with
    | nil => exact ⟨rfl, List.cons.inj he⟩
    | cons item before' =>
      obtain ⟨rfl, htail⟩ := List.cons.inj he
      have hbest : best' ∈ after := htail ▸ List.mem_append_right _ (List.mem_cons_self ..)
      exact absurd (h'.before best (List.mem_cons_self ..)) (h.after best' hbest).not_gt
  | cons item before ih =>
    cases before' with
    | nil =>
      obtain ⟨rfl, htail⟩ := List.cons.inj he
      have hbest : best ∈ after' := htail ▸ List.mem_append_right _ (List.mem_cons_self ..)
      exact absurd (h.before item (List.mem_cons_self ..)) (h'.after best hbest).not_gt
    | cons item' before' =>
      obtain ⟨rfl, htail⟩ := List.cons.inj he
      have hshort : FirstLeast cost before best after :=
        ⟨fun other ho => h.before other (List.mem_cons_of_mem _ ho), h.after⟩
      have hshort' : FirstLeast cost before' best' after' :=
        ⟨fun other ho => h'.before other (List.mem_cons_of_mem _ ho), h'.after⟩
      obtain ⟨rfl, hbest, hafter⟩ := ih hshort hshort' htail
      exact ⟨rfl, hbest, hafter⟩

theorem congr {κ' : Type} [LinearOrder κ'] {cost' : ι → κ'}
    (hcost : ∀ i ∈ before ++ best :: after, ∀ j ∈ before ++ best :: after,
      cost i ≤ cost j ↔ cost' i ≤ cost' j)
    (h : FirstLeast cost before best after) : FirstLeast cost' before best after := by
  have hbest : best ∈ before ++ best :: after := List.mem_append_right _ (List.mem_cons_self ..)
  refine ⟨fun item hi => ?_, fun item hi => ?_⟩
  · have hmem := List.mem_append_left (best :: after) hi
    exact not_le.mp (mt (hcost item hmem best hbest).mpr (h.before item hi).not_ge)
  · have hmem := List.mem_append_right before (List.mem_cons_of_mem best hi)
    exact (hcost best hbest item hmem).mp (h.after item hi)

end FirstLeast

/-- The ranking of the items from a state, which `advance` changes with every item taken. -/
inductive Greedy (cost : σ → ι → κ) (advance : σ → ι → σ) : σ → List ι → List ι → Prop
  | nil {s : σ} : Greedy cost advance s [] []
  | cons {s : σ} {before after ranking : List ι} {best : ι} (h : FirstLeast (cost s) before best after)
      (rest : Greedy cost advance (advance s best) (before ++ after) ranking) :
      Greedy cost advance s (before ++ best :: after) (best :: ranking)

namespace Greedy

variable {cost : σ → ι → κ} {advance : σ → ι → σ} {s : σ} {items ranking ranking' : List ι}

theorem head {best : ι} (h : ∀ item ∈ items, cost s best ≤ cost s item)
    (rest : Greedy cost advance (advance s best) items ranking) :
    Greedy cost advance s (best :: items) (best :: ranking) :=
  cons (show FirstLeast (cost s) [] best items from ⟨List.forall_mem_nil _, h⟩) rest

theorem perm (h : Greedy cost advance s items ranking) : ranking.Perm items := by
  induction h with
  | nil => exact .refl _
  | cons h rest ih => exact (ih.cons _).trans List.perm_middle.symm

theorem of_firstLeast {before after : List ι} {best : ι} (h : Greedy cost advance s items ranking)
    (hf : FirstLeast (cost s) before best after) (he : items = before ++ best :: after) :
    ∃ rest, ranking = best :: rest ∧ Greedy cost advance (advance s best) (before ++ after) rest := by
  cases h with
  | nil => simp at he
  | cons h rest =>
    obtain ⟨rfl, rfl, rfl⟩ := h.unique hf he
    exact ⟨_, rfl, rest⟩

theorem unique (h : Greedy cost advance s items ranking) (h' : Greedy cost advance s items ranking') :
    ranking = ranking' := by
  induction h generalizing ranking' with
  | nil =>
    generalize hitems : ([] : List ι) = items at h'
    cases h' with
    | nil => rfl
    | cons => simp at hitems
  | cons h rest ih =>
    obtain ⟨rest', rfl, hrest⟩ := h'.of_firstLeast h rfl
    rw [ih hrest]

theorem simulate {κ' : Type} [LinearOrder κ'] {cost' : τ → ι → κ'} {advance' : τ → ι → τ}
    {R : σ → τ → Prop} {Q : ι → Prop}
    (hcost : ∀ s t, R s t → ∀ i, Q i → ∀ j, Q j → (cost s i ≤ cost s j ↔ cost' t i ≤ cost' t j))
    (hadvance : ∀ s t, R s t → ∀ i, Q i → R (advance s i) (advance' t i))
    (h : Greedy cost advance s items ranking) {t : τ} (hr : R s t) (hq : ∀ i ∈ items, Q i) :
    Greedy cost' advance' t items ranking := by
  induction h generalizing t with
  | nil => exact .nil
  | @cons s before after ranking best h rest ih =>
    have hbest : best ∈ before ++ best :: after := List.mem_append_right _ (List.mem_cons_self ..)
    refine .cons (h.congr fun i hi j hj => hcost s t hr i (hq i hi) j (hq j hj)) ?_
    refine ih (hadvance s t hr best (hq best hbest)) fun i hi => hq i ?_
    exact List.perm_middle.symm.subset (List.mem_cons_of_mem _ hi)

end Greedy

theorem FirstLeast.dearer {cost : ι → κ} {e e' best : ι} {before after pre post : List ι}
    (hcost : cost e ≤ cost e') (h : FirstLeast cost pre best post) (hne : best ≠ e)
    (hitems : pre ++ best :: post = before ++ e :: after) :
    ∃ pre' post' before' after',
      before ++ e' :: after = pre' ++ best :: post' ∧ FirstLeast cost pre' best post' ∧
        pre' ++ post' = before' ++ e' :: after' ∧ pre ++ post = before' ++ e :: after' ∧
        before' ++ after' ⊆ before ++ after := by
  rcases List.append_eq_append_iff.mp hitems with ⟨mid, rfl, hmid⟩ | ⟨mid, rfl, hmid⟩
  · cases mid with
    | nil =>
      obtain ⟨rfl, -⟩ := List.cons.inj hmid
      exact absurd rfl hne
    | cons x mid =>
      obtain ⟨rfl, rfl⟩ := List.cons.inj hmid
      refine ⟨pre, mid ++ e' :: after, pre ++ mid, after, by simp, ⟨h.before, fun i hi => ?_⟩, by simp, by simp,
        by grind⟩
      rcases List.mem_append.mp hi with hi | hi
      · exact h.after i (List.mem_append_left _ hi)
      · rcases List.mem_cons.mp hi with rfl | hi
        · exact le_trans (h.after e (by simp)) hcost
        · exact h.after i (by simp [hi])
  · cases mid with
    | nil =>
      obtain ⟨rfl, -⟩ := List.cons.inj hmid
      exact absurd rfl hne
    | cons x mid =>
      obtain ⟨rfl, rfl⟩ := List.cons.inj hmid
      refine ⟨before ++ e' :: mid, post, before, mid ++ post, by simp, ⟨fun i hi => ?_, h.after⟩, by simp,
        by simp, by grind⟩
      rcases List.mem_append.mp hi with hi | hi
      · exact h.before i (List.mem_append_left _ hi)
      · rcases List.mem_cons.mp hi with rfl | hi
        · exact lt_of_lt_of_le (h.before e (by simp)) hcost
        · exact h.before i (by simp [hi])

namespace Greedy

variable {cost : σ → ι → κ} {advance : σ → ι → σ} {s : σ} {items ranking ranking' : List ι}

theorem precedes {a b : ι} (h : Greedy cost advance s items ranking) (hcost : ∀ s, cost s a < cost s b)
    (ha : a ∈ items) (hb : b ∈ items) : Precedes ranking a b := by
  induction h with
  | nil => cases ha
  | @cons s before after ranking best h rest ih =>
    have hne : a ≠ b := fun he => lt_irrefl _ (he ▸ hcost s)
    have hbest : best ≠ b := by
      rintro rfl
      exact absurd (h.le ha) (not_le.mpr (hcost s))
    have hmiddle {i : ι} (hi : i ∈ before ++ best :: after) (hn : i ≠ best) : i ∈ before ++ after :=
      (List.mem_cons.mp (List.perm_middle.subset hi)).resolve_left hn
    have hb' := hmiddle hb (Ne.symm hbest)
    by_cases hfirst : a = best
    · subst hfirst
      exact .of_append (List.mem_singleton.mpr rfl) (rest.perm.symm.subset hb')
    · exact (ih (hmiddle ha hfirst) hb').cons best

/-- An item that costs more than before is still preceded by the items that preceded it. -/
theorem dearer {e e' : ι} {before after : List ι}
    (h : Greedy cost advance s (before ++ e :: after) ranking)
    (h' : Greedy cost advance s (before ++ e' :: after) ranking') (hcost : ∀ s, cost s e ≤ cost s e')
    (he : e ∉ before ++ after) (he' : e' ∉ before ++ after) :
    ∃ first rest rest', ranking = first ++ e :: rest ∧ ranking' = first ++ rest' ∧ e' ∉ first := by
  generalize hitems : before ++ e :: after = items at h
  induction h generalizing before after ranking' with
  | nil => simp at hitems
  | @cons s pre post ranking best h rest ih =>
    by_cases hbest : best = e
    · subst hbest
      exact ⟨[], ranking, ranking', rfl, rfl, List.not_mem_nil⟩
    · obtain ⟨pre', post', before', after', hsplit, hf, hleft, hright, hsub⟩ :=
        h.dearer (hcost s) hbest hitems.symm
      obtain ⟨rest', rfl, hrest'⟩ := h'.of_firstLeast hf hsplit
      rw [hleft] at hrest'
      obtain ⟨first, tail, tail', rfl, rfl, hfirst⟩ :=
        ih hrest' (fun hm => he (hsub hm)) (fun hm => he' (hsub hm)) hright.symm
      refine ⟨best :: first, tail, tail', rfl, rfl, fun hm => ?_⟩
      rcases List.mem_cons.mp hm with hb | hm
      · have hmem : best ∈ before ++ e :: after := hitems ▸ List.mem_append_right pre (List.mem_cons_self ..)
        have hother : best ∈ before ∨ best = e ∨ best ∈ after := by simpa using hmem
        refine he' (hb ▸ List.mem_append.mpr ?_)
        exact hother.imp_right fun ho => ho.resolve_left hbest
      · exact hfirst hm

end Greedy

end FrameSuite
