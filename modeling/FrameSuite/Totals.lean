import FrameSuite.Conservation

/-! The totals of the reasons against the value their digests hold. A run from a state whose
total is raised shows what a call does where no subtraction from the total fails; calls that
only subtract do the same from the state itself whenever the raise is left over at the end. -/

namespace FrameSuite

open ShareBalance

variable {T : Config}

/-- The effective values of all variants of all digests under a reason. -/
def liveUnder (m : DigestMap T) (reason : T.Reason) : Nat :=
  m.sum fun key info => if key.1 = reason then info.value else 0

def weightOf (reason : T.Reason) (r : T.Reason) : Nat := if r = reason then 1 else 0

theorem liveValue_weightOf (m : DigestMap T) (reason : T.Reason) :
    liveValue (weightOf reason) m = liveUnder m reason :=
  StorageMap.sum_congr fun key info _ => by
    unfold weightOf
    split <;> simp

theorem totalReasons_weightOf (s : State T) (reason : T.Reason) :
    totalReasons (weightOf reason) s.reasonValue = getTotalValue s reason := by
  have hset := totalReasons_set (weightOf reason) s reason 0
  have hrest : totalReasons (weightOf reason) (setTotalValue s reason 0).reasonValue = 0 := by
    refine Finset.sum_eq_zero fun r _ => ?_
    by_cases hr : r = reason
    · simp [setTotalValue, hr]
    · cases hg : (setTotalValue s reason 0).reasonValue.get r <;> simp [weightOf, hr]
  simp only [weightOf, if_true, Nat.one_mul, Nat.mul_zero, Nat.add_zero] at hset hrest ⊢
  omega

/-- The total of every reason is the value its digests hold. -/
structure Totalled (s : State T) : Prop where
  sound : Sound s
  totals : ∀ w, totalReasons w s.reasonValue = liveValue w s.digestMap

theorem Totalled.total_eq {s : State T} (h : Totalled s) (reason : T.Reason) :
    getTotalValue s reason = liveUnder s.digestMap reason := by
  rw [← totalReasons_weightOf, h.totals, liveValue_weightOf]

theorem apply_totalled {s s' : State T} {call : Call T} (hs : Totalled s) (h : s.apply call = .ok s') :
    Totalled s' := by
  have hb := apply_books hs.sound h
  refine ⟨hb.sound, fun w => ?_⟩
  have h1 := hb.totals w
  have h2 := hs.totals w
  omega

theorem Reachable.totalled {s : State T} (h : Reachable s) : Totalled s := by
  obtain ⟨ledger, calls, rfl⟩ := h
  exact run_invariant (fun _ _ _ hs ht => apply_totalled hs ht) ⟨sound_genesis ledger, fun _ => rfl⟩ calls

/-- The state with more booked under a reason than its digests hold. -/
def credit (s : State T) (reason : T.Reason) (extra : Nat) : State T :=
  setTotalValue s reason (getTotalValue s reason + extra)

/-- The results of a call that carry the state on. -/
class Carries (T : outParam Config) (ρ : Type) where
  state : ρ → State T
  credited : ρ → T.Reason → Nat → ρ

instance : Carries T (State T) where
  state s := s
  credited := credit

instance {α : Type} : Carries T (State T × α) where
  state p := p.1
  credited p reason extra := (credit p.1 reason extra, p.2)

open Carries

theorem getTotalValue_setTotalValue (s : State T) (reason r : T.Reason) (v : Nat) :
    getTotalValue (setTotalValue s reason v) r = if r = reason then v else getTotalValue s r := by
  unfold getTotalValue setTotalValue
  dsimp only
  rw [StorageMap.get_insert]
  split <;> rfl

theorem setTotalValue_credit (s : State T) (reason r : T.Reason) (v extra : Nat) :
    setTotalValue (credit s r extra) reason (v + if reason = r then extra else 0) =
      credit (setTotalValue s reason v) r extra := by
  have hmap : (s.reasonValue.insert r (getTotalValue s r + extra)).insert reason
      (v + if reason = r then extra else 0) =
      (s.reasonValue.insert reason v).insert r (getTotalValue (setTotalValue s reason v) r + extra) := by
    refine StorageMap.ext fun k => ?_
    rw [getTotalValue_setTotalValue]
    simp only [StorageMap.get_insert]
    by_cases hr : r = reason
    · subst hr
      by_cases hk : k = r <;> simp [hk]
    · by_cases hk : k = r
      · subst hk
        simp [hr]
      · simp [hk, Ne.symm hr]
  exact congrArg (fun m => { s with reasonValue := m }) hmap

variable {ρ ρ' ρ'' α : Type} [Carries T ρ] [Carries T ρ'] [Carries T ρ'']

/-- A call that never adds to a total. What it does from a state with a raised total it does
from the state itself, provided that the raise is still there at the end. -/
structure Subtracts (F : ρ → Except DispatchError ρ') : Prop where
  falls : ∀ a b, F a = .ok b → ∀ r, getTotalValue (state b) r ≤ getTotalValue (state a) r
  tracks : ∀ a r extra b, F (credited a r extra) = .ok b → extra ≤ getTotalValue (state b) r →
    ∃ b₀, F a = .ok b₀ ∧ b = credited b₀ r extra

/-- A change of the state that leaves the totals alone. -/
structure Overlooks (u : ρ → ρ') : Prop where
  commutes : ∀ a r extra, u (credited a r extra) = credited (u a) r extra
  keeps : ∀ a r, getTotalValue (state (u a)) r = getTotalValue (state a) r

namespace Subtracts

theorem pure {u : ρ → ρ'} (h : Overlooks u) : Subtracts fun a => (Pure.pure (u a) : Except DispatchError ρ') := by
  refine ⟨fun a b hb r => ?_, fun a r extra b hb _ => ?_⟩
  · obtain rfl := pure_eq_ok.mp hb
    exact (h.keeps a r).le
  · obtain rfl := pure_eq_ok.mp hb
    exact ⟨u a, rfl, h.commutes a r extra⟩

theorem error (e : DispatchError) : Subtracts fun _ : ρ => (.error e : Except DispatchError ρ') :=
  ⟨fun _ _ h => (nomatch h), fun _ _ _ _ h => (nomatch h)⟩

theorem bindOn {F : ρ → Except DispatchError ρ'} {G : ρ → ρ' → Except DispatchError ρ''}
    (hF : Subtracts F) (hG : ∀ a, Subtracts (G a)) (hr : ∀ a r extra, G (credited a r extra) = G a) :
    Subtracts fun a => F a >>= G a := by
  refine ⟨fun a c hc r => ?_, fun a r extra c hc hle => ?_⟩
  · obtain ⟨b, hb, hc⟩ := bind_eq_ok.mp hc
    exact ((hG a).falls b c hc r).trans (hF.falls a b hb r)
  · obtain ⟨b, hb, hc⟩ := bind_eq_ok.mp hc
    rw [hr] at hc
    obtain ⟨b₀, hb₀, rfl⟩ := hF.tracks a r extra b hb (hle.trans ((hG a).falls b c hc r))
    obtain ⟨c₀, hc₀, rfl⟩ := (hG a).tracks b₀ r extra c hc hle
    exact ⟨c₀, bind_eq_ok.mpr ⟨b₀, hb₀, hc₀⟩, rfl⟩

theorem bind {F : ρ → Except DispatchError ρ'} {G : ρ' → Except DispatchError ρ''} (hF : Subtracts F)
    (hG : Subtracts G) : Subtracts fun a => F a >>= G :=
  bindOn hF (fun _ => hG) fun _ _ _ => rfl

theorem read {g : ρ → Except DispatchError α} {F : α → ρ → Except DispatchError ρ'}
    (hg : ∀ a r extra, g (credited a r extra) = g a) (hF : ∀ x, Subtracts (F x)) :
    Subtracts fun a => g a >>= fun x => F x a := by
  refine ⟨fun a b hb r => ?_, fun a r extra b hb hle => ?_⟩
  · obtain ⟨x, -, hb⟩ := bind_eq_ok.mp hb
    exact (hF x).falls a b hb r
  · obtain ⟨x, hx, hb⟩ := bind_eq_ok.mp hb
    obtain ⟨b₀, hb₀, rfl⟩ := (hF x).tracks a r extra b hb hle
    exact ⟨b₀, bind_eq_ok.mpr ⟨x, (hg a r extra).symm.trans hx, hb₀⟩, rfl⟩

theorem comp {u : ρ → ρ'} {F : ρ' → Except DispatchError ρ''} (hF : Subtracts F) (hu : Overlooks u) :
    Subtracts fun a => F (u a) :=
  bind (pure hu) hF

theorem ite {p : ρ → Prop} [∀ a, Decidable (p a)] {F G : ρ → Except DispatchError ρ'}
    (hp : ∀ a r extra, p (credited a r extra) ↔ p a) (hF : Subtracts F) (hG : Subtracts G) :
    Subtracts fun a => if p a then F a else G a := by
  refine ⟨fun a b hb r => ?_, fun a r extra b hb hle => ?_⟩
  · split at hb
    · exact hF.falls a b hb r
    · exact hG.falls a b hb r
  · by_cases h : p a
    · rw [if_pos ((hp a r extra).mpr h)] at hb
      rw [if_pos h]
      exact hF.tracks a r extra b hb hle
    · rw [if_neg fun hc => h ((hp a r extra).mp hc)] at hb
      rw [if_neg h]
      exact hG.tracks a r extra b hb hle

theorem pair {F : State T × α → Except DispatchError ρ'} (h : ∀ x, Subtracts fun s => F (s, x)) :
    Subtracts F :=
  ⟨fun a b hb r => (h a.2).falls a.1 b hb r, fun a r extra b hb hle => (h a.2).tracks a.1 r extra b hb hle⟩

end Subtracts

end FrameSuite
