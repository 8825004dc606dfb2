import FrameSuite.ActiveValue
import FrameSuite.BalanceSheet
import Mathlib.Algebra.BigOperators.Fin

/-! The receipts outstanding on the vault against the vault itself. Receipts that carry
exactly the shares issued at their locations never claim more than the vault holds. -/

namespace FrameSuite

open ShareBalance

variable {T : Config}

/-- What a receipt is paid at its location. -/
def activeAt (m : DigestMap T) (loc : Location T) (r : Receipt T.share) : Nat :=
  activeClaim (balanceAt m loc) r

def receiptsOn (l : Location T) (claims : Claims T) : List (Receipt T.share) :=
  claims.filterMap fun c => if c.1 = l then some c.2 else none

theorem mem_receiptsOn {l : Location T} {claims : Claims T} {r : Receipt T.share} :
    r ∈ receiptsOn l claims ↔ (l, r) ∈ claims := by
  simp only [receiptsOn, List.mem_filterMap, Option.ite_none_right_eq_some, Option.some.injEq]
  constructor
  · rintro ⟨⟨loc, r'⟩, hm, rfl, rfl⟩
    exact hm
  · exact fun hm => ⟨_, hm, rfl, rfl⟩

theorem tally_receiptsOn (φ : Location T → Receipt T.share → Nat) (l : Location T)
    (claims : Claims T) : ((receiptsOn l claims).map (φ l)).sum =
      tally (fun loc r => if loc = l then φ loc r else 0) claims := by
  induction claims with
  | nil => rfl
  | cons c claims ih =>
    obtain ⟨loc, r⟩ := c
    rw [tally_cons, ← ih]
    by_cases hl : loc = l
    · subst hl
      simp [receiptsOn]
    · simp [receiptsOn, hl]

theorem tally_le_tally {φ ψ : Location T → Receipt T.share → Nat} {claims : Claims T}
    (h : ∀ c ∈ claims, φ c.1 c.2 ≤ ψ c.1 c.2) : tally φ claims ≤ tally ψ claims := by
  induction claims with
  | nil => exact le_refl _
  | cons c claims ih =>
    obtain ⟨loc, r⟩ := c
    rw [tally_cons, tally_cons]
    exact Nat.add_le_add (h _ (List.mem_cons_self ..)) (ih fun c hc => h c (List.mem_cons_of_mem _ hc))

theorem le_tally {φ : Location T → Receipt T.share → Nat} {claims : Claims T}
    {c : Location T × Receipt T.share} (h : c ∈ claims) : φ c.1 c.2 ≤ tally φ claims :=
  List.single_le_sum (fun _ _ => Nat.zero_le _) _
    (List.mem_map_of_mem (f := fun c : Location T × Receipt T.share => φ c.1 c.2) h)

theorem tally_eq_sum {φ : Location T → Receipt T.share → Nat} {claims : Claims T}
    {ls : Finset (Location T)} (h : ∀ c ∈ claims, c.1 ∈ ls) :
    tally φ claims = ∑ l ∈ ls, tally (fun loc r => if loc = l then φ loc r else 0) claims := by
  induction claims with
  | nil => simp
  | cons c claims ih =>
    obtain ⟨loc, r⟩ := c
    have hl : loc ∈ ls := h _ (List.mem_cons_self ..)
    simp only [tally_cons, Finset.sum_add_distrib, Finset.sum_ite_eq, hl, if_true]
    rw [ih fun c hc => h c (List.mem_cons_of_mem _ hc)]

theorem sum_range_getElem? {α : Type} (f : α → Nat) (l : List α) :
    ∑ i ∈ Finset.range l.length, (l[i]?).elim 0 f = (l.map f).sum := by
  induction l with
  | nil => rfl
  | cons a l ih =>
    rw [List.length_cons, Finset.sum_range_succ', List.map_cons, List.sum_cons, ← ih]
    simp [Nat.add_comm]

theorem DigestInfo.sum_at_le (info : DigestInfo T) (is : Finset Nat) :
    ∑ i ∈ is, totalValue (info.at i) ≤ info.value := by
  have hat (i : Nat) : totalValue (info.at i) = (info.balances[i]?).elim 0 totalValue := by
    unfold DigestInfo.at
    cases info.balances[i]? <;> rfl
  simp only [hat]
  rw [DigestInfo.value, ← sum_range_getElem?]
  refine Finset.sum_le_sum_of_ne_zero fun i _ hi => ?_
  rw [Finset.mem_range]
  by_contra hlt
  rw [List.getElem?_eq_none (Nat.le_of_not_lt hlt)] at hi
  exact hi rfl

theorem sum_balanceAt_le (m : DigestMap T) (ls : Finset (Location T)) :
    ∑ l ∈ ls, totalValue (balanceAt m l) ≤ m.sum fun _ info => info.value := by
  let digest : Location T → T.Reason × T.AccountId := fun l => (l.1, l.2.1)
  have hfiber (key : T.Reason × T.AccountId) :
      ∑ l ∈ ls with digest l = key, totalValue (balanceAt m l) ≤
        (m.get key).elim 0 DigestInfo.value := by
    cases hi : m.get key with
    | none =>
      refine (Finset.sum_eq_zero fun l hl => ?_).le
      have hl : (l.1, l.2.1) = key := (Finset.mem_filter.mp hl).2
      simp [balanceAt, hl, hi]
    | some info =>
      have hinj : Set.InjOn (fun l : Location T => l.2.2)
          (({l ∈ ls | digest l = key} : Finset (Location T)) : Set (Location T)) := by
        rintro ⟨r, d, i⟩ hl ⟨r', d', i'⟩ hl' (rfl : i = i')
        have h1 : (r, d) = key := (Finset.mem_filter.mp hl).2
        have h2 : (r', d') = key := (Finset.mem_filter.mp hl').2
        obtain ⟨rfl, rfl⟩ := Prod.mk.inj (h1.trans h2.symm)
        rfl
      refine le_trans (le_of_eq ?_) (info.sum_at_le
        (({l ∈ ls | digest l = key} : Finset (Location T)).image fun l => l.2.2))
      rw [Finset.sum_image hinj]
      refine Finset.sum_congr rfl fun l hl => ?_
      have hl : (l.1, l.2.1) = key := (Finset.mem_filter.mp hl).2
      simp [balanceAt, hl, hi]
  calc ∑ l ∈ ls, totalValue (balanceAt m l)
      = ∑ key ∈ ls.image digest, ∑ l ∈ ls with digest l = key, totalValue (balanceAt m l) :=
        (Finset.sum_fiberwise_of_maps_to (fun l hl => Finset.mem_image_of_mem digest hl) _).symm
    _ ≤ ∑ key ∈ ls.image digest, (m.get key).elim 0 DigestInfo.value :=
        Finset.sum_le_sum fun key _ => hfiber key
    _ ≤ m.sum fun _ info => info.value :=
        Finset.sum_le_sum_of_ne_zero fun key _ hk => (m.mem_keys key).mpr fun hn => hk (by rw [hn]; rfl)

/-- The receipts carry exactly the shares issued at every location. -/
structure Backed (m : DigestMap T) (claims : Claims T) : Prop where
  solvent : AllSolvent m
  issued : ∀ l, tally (sharesAt l) claims = issuedAt m l
  shares_ne : ∀ c ∈ claims, c.2.shares ≠ 0

namespace Backed

variable {m : DigestMap T} {claims : Claims T}

theorem backs (h : Backed m claims) (l : Location T) :
    Backs (balanceAt m l) (receiptsOn l claims) := by
  refine ⟨h.solvent l, ?_, fun r hr => h.shares_ne _ (mem_receiptsOn.mp hr)⟩
  have hi := h.issued l
  rw [issuedAt] at hi
  rw [← hi]
  exact (tally_receiptsOn (fun _ r => r.shares) l claims).symm

theorem active_le (h : Backed m claims) :
    tally (activeAt m) claims ≤ m.sum fun _ info => info.value := by
  have hloc : ∀ c ∈ claims, c.1 ∈ (claims.map Prod.fst).toFinset :=
    fun c hc => List.mem_toFinset.mpr (List.mem_map_of_mem hc)
  rw [tally_eq_sum hloc]
  refine le_trans (Finset.sum_le_sum fun l _ => ?_) (sum_balanceAt_le m _)
  rw [← tally_receiptsOn]
  exact (h.backs l).totalActiveClaims_le

theorem shares_le (h : Backed m claims) {c : Location T × Receipt T.share} (hc : c ∈ claims) :
    c.2.shares ≤ issuedAt m c.1 := by
  have hle : sharesAt c.1 c.1 c.2 ≤ tally (sharesAt c.1) claims := le_tally hc
  rw [h.issued, sharesAt, if_pos rfl] at hle
  exact hle

theorem eq_of_sole (h : Backed m claims) {l : Location T} {b : Balance T.share}
    {r r' : Receipt T.share} (hb : balanceAt m l = some b) (hr : (l, r) ∈ claims)
    (heq : r.shares = b.issued) (hr' : (l, r') ∈ claims) : r' = r := by
  have hs := (hb ▸ h.backs l).eq_singleton (mem_receiptsOn.mpr hr) heq
  have hm := mem_receiptsOn.mpr hr'
  rw [hs] at hm
  exact List.mem_singleton.mp hm

end Backed

/-- The receipts of all direct commits. -/
noncomputable def outstanding (cm : CommitMap T) : Claims T :=
  cm.keys.toList.flatMap fun key => (cm.get key).elim [] (commitClaims key)

theorem tally_outstanding (φ : Location T → Receipt T.share → Nat) (cm : CommitMap T) :
    tally φ (outstanding cm) = commitHeld φ cm := by
  have hflat (ks : List (T.AccountId × T.Reason)) :
      tally φ (ks.flatMap fun key => (cm.get key).elim [] (commitClaims key)) =
        (ks.map fun key => (cm.get key).elim 0 fun info => tally φ (commitClaims key info)).sum := by
    induction ks with
    | nil => rfl
    | cons key ks ih =>
      rw [List.flatMap_cons, tally_append, ih, List.map_cons, List.sum_cons]
      cases cm.get key <;> rfl
  rw [outstanding, hflat, Finset.sum_map_toList]
  rfl

theorem mem_outstanding {cm : CommitMap T} {c : Location T × Receipt T.share} :
    c ∈ outstanding cm ↔ ∃ key info, cm.get key = some info ∧ c ∈ commitClaims key info := by
  simp only [outstanding, List.mem_flatMap, Finset.mem_toList, cm.mem_keys]
  constructor
  · rintro ⟨key, hk, hc⟩
    obtain ⟨info, hi⟩ := Option.ne_none_iff_exists'.mp hk
    exact ⟨key, info, hi, by simpa [hi] using hc⟩
  · rintro ⟨key, info, hi, hc⟩
    exact ⟨key, by simp [hi], by simpa [hi] using hc⟩

end FrameSuite
