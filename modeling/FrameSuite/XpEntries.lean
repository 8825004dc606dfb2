import Mathlib.Algebra.BigOperators.Group.List.Basic
import FrameSuite.XpSystem

/-! Lists of points with one entry per reason, and the total kept beside such a list.
Adding, overwriting or dropping an entry moves the points of the list as it moves the total. -/

namespace FrameSuite

variable {Id : Type}

def totalPoints (entries : List (IdXp Id)) : Nat := (entries.map IdXp.points).sum

@[simp] theorem totalPoints_nil : totalPoints ([] : List (IdXp Id)) = 0 := rfl

@[simp] theorem totalPoints_cons (e : IdXp Id) (es : List (IdXp Id)) :
    totalPoints (e :: es) = e.points + totalPoints es := by
  simp [totalPoints]

@[simp] theorem totalPoints_append (xs ys : List (IdXp Id)) :
    totalPoints (xs ++ ys) = totalPoints xs + totalPoints ys := by
  simp [totalPoints]

variable {reason : Id} {points : Nat}

/-- An entry under the reason was added or overwritten, and the total followed. -/
structure Booked (reason : Id) (points : Nat) (old new : List (IdXp Id)) (total total' : Nat) :
    Prop where
  ids : (old.map IdXp.id).Nodup → (new.map IdXp.id).Nodup
  total : totalPoints new + total = totalPoints old + total'
  points : ∀ e ∈ new, e.points = points ∨ e ∈ old

theorem Booked.push {old : List (IdXp Id)} {total : Nat} (h : reason ∉ old.map IdXp.id) :
    Booked reason points old (old ++ [⟨reason, points⟩]) total (total + points) where
  ids hn := by
    rw [List.map_append]
    refine List.Nodup.append hn (List.nodup_singleton _) ?_
    simpa using h
  total := by simp; omega
  points e he := by
    rcases List.mem_append.mp he with ho | hs
    · exact Or.inr ho
    · exact Or.inl (by rw [List.mem_singleton.mp hs])

variable [DecidableEq Id]

theorem setPoints_ids (reason : Id) (points : Nat) (entries : List (IdXp Id)) :
    (setPoints reason points entries).map IdXp.id = entries.map IdXp.id := by
  induction entries with
  | nil => rfl
  | cons e es ih =>
    unfold setPoints
    split
    · rfl
    · simp only [List.map_cons, ih]

theorem totalPoints_setPoints {entries : List (IdXp Id)} {e : IdXp Id}
    (h : entries.find? (fun e => e.id = reason) = some e) :
    totalPoints (setPoints reason points entries) + e.points = totalPoints entries + points := by
  induction entries with
  | nil => cases h
  | cons x es ih =>
    unfold setPoints
    by_cases hx : x.id = reason
    · obtain rfl : x = e := by simpa [List.find?_cons, hx] using h
      simp only [hx, if_true, totalPoints_cons]
      omega
    · have hes := ih (by simpa [List.find?_cons, hx] using h)
      simp only [hx, if_false, totalPoints_cons]
      omega

theorem mem_setPoints {entries : List (IdXp Id)} {e : IdXp Id}
    (h : e ∈ setPoints reason points entries) : e.points = points ∨ e ∈ entries := by
  induction entries with
  | nil => cases h
  | cons x es ih =>
    unfold setPoints at h
    split at h
    · rcases List.mem_cons.mp h with rfl | hes
      · exact Or.inl rfl
      · exact Or.inr (List.mem_cons_of_mem _ hes)
    · rcases List.mem_cons.mp h with rfl | hes
      · exact Or.inr (List.mem_cons_self ..)
      · exact (ih hes).imp_right (List.mem_cons_of_mem _)

theorem totalPoints_filter {entries : List (IdXp Id)} {e : IdXp Id} (hn : (entries.map IdXp.id).Nodup)
    (h : entries.find? (fun e => e.id = reason) = some e) :
    totalPoints (entries.filter fun e => e.id ≠ reason) + e.points = totalPoints entries := by
  induction entries with
  | nil => cases h
  | cons x es ih =>
    obtain ⟨hx, hes⟩ := List.nodup_cons.mp hn
    by_cases heq : x.id = reason
    · obtain rfl : x = e := by simpa [List.find?_cons, heq] using h
      have hkeep : es.filter (fun e => e.id ≠ reason) = es := by
        refine List.filter_eq_self.mpr fun y hy => ?_
        have hne : y.id ≠ reason := fun hr => hx (heq ▸ hr ▸ List.mem_map_of_mem hy)
        simpa using hne
      simp only [List.filter_cons, heq, ne_eq, not_true_eq_false, decide_false, Bool.false_eq_true,
        if_false, totalPoints_cons]
      rw [hkeep]
      omega
    · have htail := ih hes (by simpa [List.find?_cons, heq] using h)
      simp only [ne_eq] at htail
      simp only [List.filter_cons, heq, ne_eq, not_false_eq_true, decide_true, if_true,
        totalPoints_cons]
      omega

theorem findPoints_eq_some {entries : Option (List (IdXp Id))} :
    findPoints entries reason = some points ↔
      ∃ es e, entries = some es ∧ es.find? (fun e => e.id = reason) = some e ∧ e.points = points := by
  cases entries with
  | none => simp [findPoints]
  | some es => simp [findPoints]

/-- The total can follow: it covers what an entry loses. -/
theorem retotal_of_canRetotal {maxXp total current : Nat} {overflow underflow : XpError}
    (h : canRetotal maxXp total current points overflow underflow = .ok ()) :
    retotal maxXp total current points + current = total + points := by
  unfold canRetotal at h
  unfold retotal
  split at h
  · rename_i hlt
    have hroom := (ensure_eq_ok.mp h)
    rw [Option.isSome_iff_exists] at hroom
    obtain ⟨sum, hsum⟩ := hroom
    obtain ⟨-, hle⟩ := checkedAdd_eq_some.mp hsum
    rw [if_neg (by omega), if_pos hlt, saturatingAdd_of_le hle]
    omega
  · split at h
    · rename_i hlt
      have hroom := (ensure_eq_ok.mp h)
      rw [Option.isSome_iff_exists] at hroom
      obtain ⟨rest, hrest⟩ := hroom
      obtain ⟨hle, -⟩ := checkedSub_eq_some.mp hrest
      rw [if_pos hlt]
      omega
    · rw [if_neg ‹_›, if_neg ‹_›]
      omega

theorem Booked.overwrite {old : List (IdXp Id)} {e : IdXp Id} {total total' : Nat}
    (h : old.find? (fun e => e.id = reason) = some e) (ht : total' + e.points = total + points) :
    Booked reason points old (setPoints reason points old) total total' where
  ids hn := by rwa [setPoints_ids]
  total := by
    have : totalPoints (setPoints reason points old) + e.points = totalPoints old + points :=
      totalPoints_setPoints h
    omega
  points _ := mem_setPoints

section Lookups

variable {other : Id} {entries : List (IdXp Id)}

theorem findPoints_cons (e : IdXp Id) (entries : List (IdXp Id)) (reason : Id) :
    findPoints (some (e :: entries)) reason =
      if e.id = reason then some e.points else findPoints (some entries) reason := by
  by_cases h : e.id = reason <;> simp [findPoints, h]

theorem findPoints_setPoints {old : Nat} (h : findPoints (some entries) reason = some old) :
    findPoints (some (setPoints reason points entries)) reason = some points := by
  induction entries with
  | nil => simp [findPoints] at h
  | cons e es ih =>
    by_cases he : e.id = reason
    · simp [setPoints, he, findPoints_cons]
    · simp only [findPoints_cons, he, if_false] at h
      simp [setPoints, he, findPoints_cons, ih h]

theorem findPoints_setPoints_of_ne (h : other ≠ reason) :
    findPoints (some (setPoints reason points entries)) other = findPoints (some entries) other := by
  induction entries with
  | nil => rfl
  | cons e es ih =>
    by_cases he : e.id = reason
    · have hne : reason ≠ other := h.symm
      simp [setPoints, he, findPoints_cons, hne]
    · simp [setPoints, he, findPoints_cons, ih]

theorem findPoints_push (h : findPoints (some entries) reason = none) :
    findPoints (some (entries ++ [⟨reason, points⟩])) reason = some points := by
  induction entries with
  | nil => simp [findPoints_cons]
  | cons e es ih =>
    by_cases he : e.id = reason
    · simp [findPoints_cons, he] at h
    · simp only [findPoints_cons, he, if_false] at h
      simp [findPoints_cons, he, ih h]

theorem findPoints_push_of_ne (h : other ≠ reason) :
    findPoints (some (entries ++ [⟨reason, points⟩])) other = findPoints (some entries) other := by
  induction entries with
  | nil => simp [findPoints_cons, h.symm]
  | cons e es ih => simp [findPoints_cons, ih]

theorem findPoints_drop : findPoints (some (entries.filter fun e => e.id ≠ reason)) reason = none := by
  induction entries with
  | nil => rfl
  | cons e es ih =>
    by_cases he : e.id = reason
    · simpa [List.filter_cons, he] using ih
    · simpa [List.filter_cons, he, findPoints_cons] using ih

theorem findPoints_drop_of_ne (h : other ≠ reason) :
    findPoints (some (entries.filter fun e => e.id ≠ reason)) other = findPoints (some entries) other := by
  induction entries with
  | nil => rfl
  | cons e es ih =>
    by_cases he : e.id = reason
    · have hne : ¬reason = other := h.symm
      simpa [List.filter_cons, he, findPoints_cons, hne] using ih
    · simp only [ne_eq, decide_not] at ih
      simp [he, findPoints_cons, ih]

theorem findPoints_le_totalPoints {old : Nat} (h : findPoints (some entries) reason = some old) :
    old ≤ totalPoints entries := by
  obtain ⟨es, e, hes, he, rfl⟩ := findPoints_eq_some.mp h
  cases hes
  have : totalPoints (setPoints reason 0 entries) + e.points = totalPoints entries + 0 := totalPoints_setPoints he
  omega

theorem findPoints_isSome_iff :
    (∃ old, findPoints (some entries) reason = some old) ↔ reason ∈ entries.map IdXp.id := by
  induction entries with
  | nil => simp [findPoints]
  | cons e es ih =>
    by_cases he : e.id = reason
    · simp [findPoints_cons, he]
    · simp only [findPoints_cons, he, if_false, ih, List.map_cons, List.mem_cons]
      exact ⟨Or.inr, fun h => h.resolve_left (Ne.symm he)⟩

end Lookups

end FrameSuite
