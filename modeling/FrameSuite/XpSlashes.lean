import FrameSuite.XpMoves

/-! Slashing of the free balance and of the pockets. A slash takes what there is, except that a
lock cannot be set to nothing, and a slash of all it holds tries just that. -/

namespace FrameSuite

variable {T : XpConfig}

def Pocket.slash (key : T.AccountId) (points : Nat) : Pocket T → XpCall T Nat
  | .reserve reason => slashReserve key reason points
  | .lock reason => slashLock key reason points

/-- What is left in a pocket that held so many points: a lock that is used up is gone. -/
def Pocket.afterSlash (held points : Nat) : Pocket T → Option Nat
  | .reserve _ => some (held - points)
  | .lock _ => if held ≤ points then none else some (held - points)

/-- Every slash takes the smaller of what is asked and what there is, from the balance and its
total, and changes nothing else. -/
structure SlashesExactly (s : XpState T) (key : T.AccountId) (xp : Xp) (points : Nat) : Prop where
  free : slashXp key points s =
    .ok (min points xp.free) (s.withFree key xp (xp.free - min points xp.free))
  pockets : ∀ pocket : Pocket T, 0 < s.held key pocket →
    ∃ t, pocket.slash key points s = .ok (min points (s.held key pocket)) t ∧
      Rebooked s t key xp pocket (pocket.afterSlash (s.held key pocket) points)
        (pocket.total xp - min points (s.held key pocket))

section Slash

variable {s t : XpState T} {key : T.AccountId} {xp : Xp} {points old total : Nat}

theorem slashXp_eq (hx : s.xpOf.get key = some xp) :
    slashXp key points s = .ok (min points xp.free) (s.withFree key xp (xp.free - min points xp.free)) := by
  unfold slashXp
  rw [reads_bind_of_ok (xpExists_of_get hx), reads_bind_of_ok (getLiquidXp_of_get hx)]
  by_cases hle : points ≤ xp.free
  · rw [if_pos hle, bind_of_ok (setXp_eq_ok hx), Nat.min_eq_left hle]
    rfl
  · have hmin : min points xp.free = xp.free := Nat.min_eq_right (Nat.le_of_not_le hle)
    rw [if_neg hle, hmin, Nat.sub_self]
    unfold resetXp
    rw [reads_bind_of_ok (xpExists_of_get hx), reads_bind_of_ok (getLiquidXp_of_get hx),
      bind_of_ok (setXp_eq_ok hx)]
    rfl

theorem inPocket_of_held {pocket : Pocket T} (h : 0 < s.held key pocket) :
    s.inPocket key pocket = some (s.held key pocket) := by
  unfold XpState.held at *
  cases hin : s.inPocket key pocket with
  | none => simp [hin] at h
  | some old => rfl

theorem Rebooked.slashed {pocket : Pocket T} {new : Option Nat} (h : Rebooked s t key xp pocket new total)
    (hnew : new = pocket.afterSlash (s.held key pocket) points) :
    Rebooked s t key xp pocket (pocket.afterSlash (s.held key pocket) points)
      (pocket.total xp - min points (s.held key pocket)) := by
  have hleft : (pocket.afterSlash (s.held key pocket) points).getD 0 = s.held key pocket - points := by
    cases pocket with
    | reserve reason => rfl
    | lock reason =>
      simp only [Pocket.afterSlash]
      by_cases hle : s.held key (.lock reason) ≤ points
      · simp only [hle, if_true, Option.getD_none]
        omega
      · simp only [hle, if_false, Option.getD_some]
  subst hnew
  have hmoved := h.moved
  rw [hleft] at hmoved
  have htotal : total = pocket.total xp - min points (s.held key pocket) := by omega
  rw [← htotal]
  exact h

theorem slashReserve_eq {reason : T.ReserveReason} (hx : s.xpOf.get key = some xp)
    (hin : s.inPocket key (.reserve reason) = some old) :
    slashReserve key reason points s =
      (setReserve key reason (old - points) >>= fun _ => pure (min points old)) s := by
  have hread : getReserveXp key reason s = .ok old := okOr_eq_ok.mpr hin
  unfold slashReserve
  rw [reads_bind_of_ok (xpExists_of_get hx), reads_bind_of_ok hread]
  by_cases hlt : old < points
  · rw [if_pos hlt, Nat.sub_eq_zero_of_le hlt.le, Nat.min_eq_right hlt.le]
    unfold resetReserve
    rw [reads_bind_of_ok (xpExists_of_get hx), reads_bind_of_ok hread]
  · rw [if_neg hlt, Nat.min_eq_left (Nat.not_lt.mp hlt)]

theorem slashLock_eq {reason : T.LockReason} (hx : s.xpOf.get key = some xp)
    (hin : s.inPocket key (.lock reason) = some old) :
    slashLock key reason points s =
      if old < points then (burnLock key reason >>= fun _ => pure (min points old)) s
      else (setLock key reason (old - points) >>= fun _ => pure (min points old)) s := by
  have hread : getLockXp key reason s = .ok old := okOr_eq_ok.mpr hin
  unfold slashLock
  rw [reads_bind_of_ok (xpExists_of_get hx), reads_bind_of_ok hread]
  by_cases hlt : old < points
  · rw [if_pos hlt, if_pos hlt, Nat.min_eq_right hlt.le]
  · rw [if_neg hlt, if_neg hlt, Nat.min_eq_left (Nat.not_lt.mp hlt)]

theorem slashReserve_slashes {reason : T.ReserveReason} (hx : s.xpOf.get key = some xp)
    (ha : Aggregates xp (s.reserves key) (s.locks key)) (hpos : 0 < s.held key (.reserve reason)) :
    ∃ t, slashReserve key reason points s = .ok (min points (s.held key (.reserve reason))) t ∧
      Rebooked s t key xp (.reserve reason)
        ((Pocket.reserve reason).afterSlash (s.held key (.reserve reason)) points)
        (xp.reserve - min points (s.held key (.reserve reason))) := by
  have hin := inPocket_of_held hpos
  have htakes := @takes_less T s key xp points _ reason hin (reserve_covers ha hin)
  obtain ⟨t, total, ht, hb⟩ := (setReserve_spec hx).1 htakes
  refine ⟨t, ?_, hb.slashed rfl⟩
  rw [slashReserve_eq hx hin, bind_of_ok ht]
  rfl

/-- A slash of a lock works unless it asks for all the lock holds. -/
theorem slashLock_slashes_iff {reason : T.LockReason} (hx : s.xpOf.get key = some xp)
    (ha : Aggregates xp (s.reserves key) (s.locks key)) (hpos : 0 < s.held key (.lock reason)) :
    (∃ t, slashLock key reason points s = .ok (min points (s.held key (.lock reason))) t ∧
      Rebooked s t key xp (.lock reason) ((Pocket.lock reason).afterSlash (s.held key (.lock reason)) points)
        (xp.lock - min points (s.held key (.lock reason)))) ↔ s.held key (.lock reason) ≠ points := by
  have hin := inPocket_of_held hpos
  have hcovers := lock_covers ha hin
  have heq := @slashLock_eq T s key xp points _ reason hx hin
  by_cases hlt : s.held key (.lock reason) < points
  · refine iff_of_true ?_ hlt.ne
    obtain ⟨t, total, ht, hb⟩ := burnLock_spec hx hin hcovers
    refine ⟨t, ?_, hb.slashed (if_pos hlt.le).symm⟩
    rw [heq, if_pos hlt, bind_of_ok ht]
    rfl
  rw [if_neg hlt] at heq
  by_cases hall : s.held key (.lock reason) = points
  · refine iff_of_false (fun ⟨t, ht, _⟩ => ?_) fun hne => hne hall
    rw [hall, Nat.sub_self, bind_of_error (setLock_zero hx)] at heq
    rw [heq] at ht
    cases ht
  · refine iff_of_true ?_ hall
    have htakes : s.takes key xp (.lock reason) (s.held key (.lock reason) - points) := by
      unfold XpState.takes
      rw [hin]
      simp only [Pocket.allows, Pocket.total]
      omega
    obtain ⟨t, total, ht, hb⟩ := (setLock_spec hx).1 htakes
    refine ⟨t, ?_, hb.slashed (if_neg (by omega)).symm⟩
    rw [heq, bind_of_ok ht]
    rfl

/-- Slashing is exact unless a lock holds just the points that are asked for. -/
theorem slashes_exactly_iff (hx : s.xpOf.get key = some xp)
    (ha : Aggregates xp (s.reserves key) (s.locks key)) :
    SlashesExactly s key xp points ↔
      ∀ reason, 0 < s.held key (.lock reason) → s.held key (.lock reason) ≠ points := by
  constructor
  · intro h reason hpos
    exact (slashLock_slashes_iff hx ha hpos).mp (h.pockets (.lock reason) hpos)
  · intro h
    refine ⟨slashXp_eq hx, fun pocket hpos => ?_⟩
    cases pocket with
    | reserve reason => exact slashReserve_slashes hx ha hpos
    | lock reason => exact (slashLock_slashes_iff hx ha hpos).mpr (h reason hpos)

end Slash

theorem partial_slash_exact : SlashesExactly brimming (7 : Nat) brimmingXp 4 :=
  (slashes_exactly_iff brimming_get brimming_aggregates).mpr fun reason _ => by
    cases reason <;> decide +kernel

/-- A slash of the ten points of a lock of ten points fails. -/
theorem full_slash_fails :
    ¬∀ (s : XpState mockXp) (key : Nat) (xp : Xp) (points : Nat), s.xpOf.get key = some xp →
      Aggregates xp (s.reserves key) (s.locks key) → SlashesExactly s key xp points := by
  intro h
  have hslash := h brimming (7 : Nat) brimmingXp 10 brimming_get brimming_aggregates
  have hpos : 0 < brimming.held (7 : Nat) (.lock Reason.staking) := by decide +kernel
  have hne := (slashLock_slashes_iff brimming_get brimming_aggregates hpos).mp
    (hslash.pockets (.lock Reason.staking) hpos)
  exact hne (by decide +kernel)

end FrameSuite
