import FrameSuite.PoolDust

/-! When a pool's value splits over its slots without dust: it is nothing at all, or the fixed-point
type holds it, the ratio of every slot is exact and every part is whole. -/

namespace FrameSuite

variable {T : Config}

theorem sum_map_eq_iff_of_le {α : Type} {f g : α → Nat} {xs : List α} (h : ∀ x ∈ xs, f x ≤ g x) :
    (xs.map f).sum = (xs.map g).sum ↔ ∀ x ∈ xs, f x = g x := by
  induction xs with
  | nil => simp
  | cons x xs ih =>
    rw [List.forall_mem_cons] at h ⊢
    have hx := h.1
    have hxs : (xs.map f).sum ≤ (xs.map g).sum := List.sum_le_sum h.2
    rw [List.map_cons, List.map_cons, List.sum_cons, List.sum_cons, ← ih h.2]
    omega

theorem sum_map_mul {α : Type} (f : α → Nat) (c : Nat) (xs : List α) :
    (xs.map fun x => f x * c).sum = (xs.map f).sum * c := by
  induction xs with
  | nil => simp
  | cons x xs ih => simp [ih, Nat.add_mul]

/-- The value splits over the shares without a remainder. -/
def SplitsEvenly (T : Config) (shares : List Nat) (effective : Nat) : Prop :=
  effective = 0 ∨ effective * T.share.rational.div ≤ T.share.rational.maxInner ∧
    ∀ n ∈ shares, shares.sum ∣ n * T.share.rational.div ∧ shares.sum ∣ effective * n

theorem slotPart_mono {e e' capital shares : Nat} (hc : capital ≠ 0) (hn : shares ≤ capital) (h : e ≤ e') :
    slotPart T e capital shares ≤ slotPart T e' capital shares := by
  rw [slotPart_eq hc hn, slotPart_eq hc hn, partOf, partOf]
  have hinner : min (e * T.share.rational.div) T.share.rational.maxInner ≤
      min (e' * T.share.rational.div) T.share.rational.maxInner :=
    min_le_min_right _ (Nat.mul_le_mul_right _ h)
  exact Nat.div_le_div_right (Nat.div_le_div_right (Nat.mul_le_mul_right _ hinner))

theorem slotPart_zero {capital shares : Nat} (hc : capital ≠ 0) : slotPart T 0 capital shares = 0 := by
  have hle : slotPart T 0 capital shares * capital ≤ 0 * shares := slotPart_mul_le hc
  rw [Nat.zero_mul, Nat.le_zero, Nat.mul_eq_zero] at hle
  exact hle.resolve_right hc

theorem slotPart_mul_eq_iff {effective capital n : Nat} (hc : capital ≠ 0) (hn : n ≤ capital) (he : effective ≠ 0)
    (hz : n ≠ 0) : slotPart T effective capital n * capital = effective * n ↔
      effective * T.share.rational.div ≤ T.share.rational.maxInner ∧
        capital ∣ n * T.share.rational.div ∧ capital ∣ effective * n := by
  have hpos := T.share.rational.div_pos
  rw [slotPart_eq hc hn, partOf, slotFactor]
  generalize hd : T.share.rational.div = d at hpos ⊢
  generalize hi : min (effective * d) T.share.rational.maxInner = inner
  generalize hf : n * d / capital = factor
  have hinner : inner ≤ effective * d := hi ▸ Nat.min_le_left _ _
  have hfactor : factor * capital ≤ n * d := hf ▸ Nat.div_mul_le_self _ _
  constructor
  · intro heq
    have hpart : inner * factor / d / d * d * d ≤ inner * factor :=
      (Nat.mul_le_mul_right _ (Nat.div_mul_le_self _ _)).trans (Nat.div_mul_le_self _ _)
    have hlow : effective * n * d * d ≤ inner * (factor * capital) := by
      calc effective * n * d * d = inner * factor / d / d * d * d * capital := by rw [← heq]; ring
        _ ≤ inner * factor * capital := Nat.mul_le_mul_right _ hpart
        _ = inner * (factor * capital) := Nat.mul_assoc ..
    have hmid : inner * (factor * capital) ≤ inner * (n * d) := Nat.mul_le_mul_left _ hfactor
    have hhigh : inner * (n * d) ≤ effective * d * (n * d) := Nat.mul_le_mul_right _ hinner
    have hsame : effective * d * (n * d) = effective * n * d * d := by ring
    have hnd : n * d ≠ 0 := Nat.mul_ne_zero hz hpos.ne'
    have hcut : inner = effective * d :=
      Nat.eq_of_mul_eq_mul_right (Nat.pos_of_ne_zero hnd) (Nat.le_antisymm hhigh (by omega))
    have hexact : factor * capital = n * d := by
      have hne : inner ≠ 0 := hcut ▸ Nat.mul_ne_zero he hpos.ne'
      exact Nat.eq_of_mul_eq_mul_left (Nat.pos_of_ne_zero hne) (Nat.le_antisymm hmid (by omega))
    exact ⟨by omega, ⟨factor, by rw [← hexact, Nat.mul_comm]⟩, ⟨_, by rw [← heq, Nat.mul_comm]⟩⟩
  · rintro ⟨hfits, hratio, k, hk⟩
    have hcut : inner = effective * d := by omega
    have hexact : factor * capital = n * d := hf ▸ Nat.div_mul_cancel hratio
    have hwhole : effective * factor = k * d := by
      refine Nat.eq_of_mul_eq_mul_right (Nat.pos_of_ne_zero hc) ?_
      calc effective * factor * capital = effective * n * d := by rw [Nat.mul_assoc, hexact]; ring
        _ = k * d * capital := by rw [hk]; ring
    have hpart : inner * factor / d / d = k := by
      rw [hcut, Nat.mul_right_comm, Nat.mul_div_cancel _ hpos, hwhole, Nat.mul_div_cancel _ hpos]
    rw [hpart, hk, Nat.mul_comm]

theorem splitDust_eq_zero_iff {shares : List Nat} {effective : Nat} (hc : shares.sum ≠ 0) :
    splitDust T shares effective = 0 ↔ SplitsEvenly T shares effective := by
  have hle : (slotParts T effective shares.sum shares).sum ≤ effective :=
    Nat.le_of_mul_le_mul_right (slotParts_mul_le effective hc shares) (Nat.pos_of_ne_zero hc)
  have hparts : splitDust T shares effective = 0 ↔
      ∀ n ∈ shares, slotPart T effective shares.sum n * shares.sum = effective * n := by
    have hsum : (slotParts T effective shares.sum shares).sum = effective ↔
        (shares.map fun n => slotPart T effective shares.sum n * shares.sum).sum =
          (shares.map fun n => effective * n).sum := by
      rw [sum_map_mul, List.sum_map_mul_left, List.map_id', Nat.mul_left_inj hc]
      rfl
    rw [← sum_map_eq_iff_of_le fun n _ => slotPart_mul_le hc, ← hsum, splitDust]
    omega
  rw [hparts, SplitsEvenly]
  by_cases he : effective = 0
  · rw [iff_true_right (.inl he)]
    intro n hn
    rw [he, slotPart_zero hc, Nat.zero_mul, Nat.zero_mul]
  · rw [or_iff_right he]
    have hbound : ∀ n ∈ shares, n ≤ shares.sum := fun n hn =>
      List.single_le_sum (fun _ _ => Nat.zero_le _) _ hn
    have hsome : ∃ n ∈ shares, n ≠ 0 := by
      by_contra hall
      exact hc (List.sum_eq_zero fun n hn => not_not.mp fun hz => hall ⟨n, hn, hz⟩)
    constructor
    · intro h
      obtain ⟨m, hm, hz⟩ := hsome
      refine ⟨((slotPart_mul_eq_iff hc (hbound m hm) he hz).mp (h m hm)).1, fun n hn => ?_⟩
      by_cases hz : n = 0
      · simp [hz]
      · exact ((slotPart_mul_eq_iff hc (hbound n hn) he hz).mp (h n hn)).2
    · rintro ⟨hfits, h⟩ n hn
      by_cases hz : n = 0
      · have hle : slotPart T effective shares.sum n * shares.sum ≤ effective * n := slotPart_mul_le hc
        rw [hz, Nat.mul_zero] at hle ⊢
        omega
      · exact (slotPart_mul_eq_iff hc (hbound n hn) he hz).mpr ⟨hfits, h n hn⟩

end FrameSuite
