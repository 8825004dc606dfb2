import Mathlib.Logic.Function.Basic
import FrameSuite.AuthorTypes

/-! The registry of funders by itself: who backs which author through which target. It mirrors the
commitments as long as no part is added to or taken from a pool that is committed to. -/

namespace FrameSuite

/-- Authors with their digests, backers with the digests they committed to, indexes and pools with the
digests of their parts, and the registered funders. -/
structure Registry (A : Type) where
  digestOf : A → Option A
  authorOf : A → Option A
  target : A → Option A
  known : A → Bool
  entries : A → Option (List A)
  slots : A → Option (List A)
  funders : A × A → Option (Funder A)

inductive RegistryAction (A : Type)
  | other
  | enlist (who digest : A)
  | back (who : A)
  | exit (who : A)
  | index (digest : A)
  | pool (digest : A)
  | slot (pool digest : A) (add : Bool)

variable {A : Type}

namespace Registry

/-- The backer has a live commitment to the author's digest, or to an index or a pool with that digest
among its parts. -/
def Backs (r : Registry A) (author : A) : Funder A → Prop
  | .direct backer => ∃ d, r.digestOf author = some d ∧ r.target backer = some d
  | .index i backer => r.target backer = some i ∧
      ∃ es, r.entries i = some es ∧ ∃ d ∈ es, r.digestOf author = some d
  | .pool p backer => r.target backer = some p ∧
      ∃ es, r.slots p = some es ∧ ∃ d ∈ es, r.digestOf author = some d

/-- The registry holds exactly the backers, each with its target. -/
def Mirrors (r : Registry A) : Prop :=
  ∀ author backer f, r.funders (author, backer) = some f ↔ f.backer = backer ∧ r.Backs author f

/-- The authors whose records a change through the funder reaches. -/
def Reaches (r : Registry A) (author : A) (f : Funder A) (a : A) : Prop :=
  match f with
  | .direct _ => a = author
  | .index d _ => ∃ es, r.entries d = some es ∧ ∃ e ∈ es, r.authorOf e = some a
  | .pool d _ => ∃ es, r.slots d = some es ∧ ∃ e ∈ es, r.authorOf e = some a

/-- The author, with the digest, stands for the target: it has a part in it. -/
def Stands (r : Registry A) (author digest : A) (f : Funder A) : Prop :=
  r.digestOf author = some digest ∧
    match f with
    | .direct _ => True
    | .index d _ => ∃ es, r.entries d = some es ∧ digest ∈ es
    | .pool d _ => ∃ es, r.slots d = some es ∧ digest ∈ es

/-- The backer's live commitment is on the target. -/
def Fits (r : Registry A) (backer : A) : FundingTarget A → Prop
  | .direct author => ∃ d, r.digestOf author = some d ∧ r.target backer = some d
  | .index i => r.target backer = some i ∧ r.entries i ≠ none
  | .pool p => r.target backer = some p ∧ r.slots p ≠ none

/-- Nothing is known under the digest. -/
def Unused (r : Registry A) (d : A) : Prop :=
  r.authorOf d = none ∧ r.known d = false ∧ r.entries d = none ∧ r.slots d = none

/-- Digests have owners, and all parts are known digests of authors. -/
structure Sound (r : Registry A) : Prop where
  authors : ∀ d a, r.authorOf d = some a → r.digestOf a = some d
  owned : ∀ a d, r.digestOf a = some d → ∃ b, r.authorOf d = some b
  known : ∀ d, r.known d = true → ∃ a, r.authorOf d = some a
  entries : ∀ i es, r.entries i = some es → es ≠ [] ∧ ∀ d ∈ es, r.known d = true
  slots : ∀ p es, r.slots p = some es → es ≠ [] ∧ ∀ d ∈ es, r.known d = true

/-- No digest is of two kinds or of two authors, and only what is known is committed to. -/
structure Apart (r : Registry A) : Prop where
  digests : ∀ a d, r.digestOf a = some d → r.authorOf d = some a
  entries : ∀ d a, r.authorOf d = some a → r.entries d = none
  slots : ∀ d a, r.authorOf d = some a → r.slots d = none
  kinds : ∀ d es, r.entries d = some es → r.slots d = none
  targets : ∀ b d, r.target b = some d → ¬r.Unused d

theorem Sound.author_of_part {r : Registry A} (h : r.Sound) {d : A} (hk : r.known d = true) :
    ∃ a, r.authorOf d = some a ∧ r.digestOf a = some d := by
  obtain ⟨a, ha⟩ := h.known d hk
  exact ⟨a, ha, h.authors d a ha⟩

/-- The backer of a target backs exactly the authors the target reaches, through this target. -/
theorem backs_iff {r : Registry A} (h : r.Apart) {f g : Funder A} {author d a : A} (hs : r.Stands author d f)
    (ht : r.target f.backer = some (f.towards d)) (hg : g.backer = f.backer) (hsound : r.Sound) :
    r.Backs a g ↔ g = f ∧ r.Reaches author f a := by
  have howner {x y : A} : r.digestOf x = some y ↔ r.authorOf y = some x :=
    ⟨h.digests x y, hsound.authors y x⟩
  obtain ⟨hd, hs⟩ := hs
  cases f with
  | direct b =>
    cases g with
    | direct b' =>
      obtain rfl : b' = b := hg
      constructor
      · rintro ⟨x, hx, hx'⟩
        obtain rfl : x = d := Option.some.inj (hx'.symm.trans ht)
        exact ⟨rfl, Option.some.inj ((howner.mp hx).symm.trans (howner.mp hd))⟩
      · rintro ⟨-, rfl⟩
        exact ⟨d, hd, ht⟩
    | index i b' =>
      refine ⟨fun hb => ?_, fun hb => nomatch hb.1⟩
      obtain ⟨hi, es, hes, -⟩ := hb
      obtain rfl : b' = b := hg
      obtain rfl : i = d := Option.some.inj (hi.symm.trans ht)
      rw [h.entries i author (howner.mp hd)] at hes
      cases hes
    | pool p b' =>
      refine ⟨fun hb => ?_, fun hb => nomatch hb.1⟩
      obtain ⟨hp, es, hes, -⟩ := hb
      obtain rfl : b' = b := hg
      obtain rfl : p = d := Option.some.inj (hp.symm.trans ht)
      rw [h.slots p author (howner.mp hd)] at hes
      cases hes
  | index i b =>
    obtain ⟨es, hes, -⟩ := hs
    cases g with
    | direct b' =>
      refine ⟨fun hb => ?_, fun hb => nomatch hb.1⟩
      obtain ⟨x, hx, hx'⟩ := hb
      obtain rfl : b' = b := hg
      obtain rfl : x = i := Option.some.inj (hx'.symm.trans ht)
      rw [h.entries x a (howner.mp hx)] at hes
      cases hes
    | index i' b' =>
      obtain rfl : b' = b := hg
      constructor
      · rintro ⟨hi, es', hes', e, he, hea⟩
        obtain rfl : i' = i := Option.some.inj (hi.symm.trans ht)
        exact ⟨rfl, es', hes', e, he, howner.mp hea⟩
      · rintro ⟨hi, es', hes', e, he, hea⟩
        obtain ⟨rfl, -⟩ := Funder.index.inj hi
        exact ⟨ht, es', hes', e, he, howner.mpr hea⟩
    | pool p b' =>
      refine ⟨fun hb => ?_, fun hb => nomatch hb.1⟩
      obtain ⟨hp, es', hes', -⟩ := hb
      obtain rfl : b' = b := hg
      obtain rfl : p = i := Option.some.inj (hp.symm.trans ht)
      rw [h.kinds p es hes] at hes'
      cases hes'
  | pool p b =>
    obtain ⟨es, hes, -⟩ := hs
    cases g with
    | direct b' =>
      refine ⟨fun hb => ?_, fun hb => nomatch hb.1⟩
      obtain ⟨x, hx, hx'⟩ := hb
      obtain rfl : b' = b := hg
      obtain rfl : x = p := Option.some.inj (hx'.symm.trans ht)
      rw [h.slots x a (howner.mp hx)] at hes
      cases hes
    | index i b' =>
      refine ⟨fun hb => ?_, fun hb => nomatch hb.1⟩
      obtain ⟨hi, es', hes', -⟩ := hb
      obtain rfl : b' = b := hg
      obtain rfl : i = p := Option.some.inj (hi.symm.trans ht)
      rw [h.kinds i es' hes'] at hes
      cases hes
    | pool p' b' =>
      obtain rfl : b' = b := hg
      constructor
      · rintro ⟨hp, es', hes', e, he, hea⟩
        obtain rfl : p' = p := Option.some.inj (hp.symm.trans ht)
        exact ⟨rfl, es', hes', e, he, howner.mp hea⟩
      · rintro ⟨hp, es', hes', e, he, hea⟩
        obtain ⟨rfl, -⟩ := Funder.pool.inj hp
        exact ⟨ht, es', hes', e, he, howner.mpr hea⟩

variable {r r' : Registry A}

theorem Unused.of_same {d : A} (h : r'.Unused d) (ha : r'.authorOf d = r.authorOf d) (hk : r'.known d = r.known d)
    (he : r'.entries d = r.entries d) (hp : r'.slots d = r.slots d) : r.Unused d :=
  ⟨ha ▸ h.1, hk ▸ h.2.1, he ▸ h.2.2.1, hp ▸ h.2.2.2⟩

theorem Stands.goal_used {f : Funder A} {author d : A} (hs : r.Sound) (h : r.Stands author d f) :
    ¬r.Unused (f.towards d) := by
  intro hu
  obtain ⟨hd, h⟩ := h
  cases f with
  | direct =>
    obtain ⟨a, ha⟩ := hs.owned author d hd
    exact absurd (ha.symm.trans hu.1) (by simp)
  | index i b =>
    obtain ⟨es, hes, -⟩ := h
    exact absurd (hes.symm.trans hu.2.2.1) (by simp)
  | pool p b =>
    obtain ⟨es, hes, -⟩ := h
    exact absurd (hes.symm.trans hu.2.2.2) (by simp)

theorem Stands.of_same {f : Funder A} {author d : A} (h : r.Stands author d f) (hd : r'.digestOf = r.digestOf)
    (he : r'.entries = r.entries) (hp : r'.slots = r.slots) : r'.Stands author d f := by
  unfold Stands
  rw [hd, he, hp]
  exact h

theorem Fits.mono {b : A} {via : FundingTarget A} (h : r.Fits b via) (ht : r'.target b = r.target b)
    (hd : ∀ a d, r.digestOf a = some d → r'.digestOf a = some d) (he : ∀ i, r.entries i ≠ none → r'.entries i ≠ none)
    (hp : ∀ p, r.slots p ≠ none → r'.slots p ≠ none) : r'.Fits b via := by
  cases via with
  | direct a =>
    obtain ⟨d, hda, hb⟩ := h
    exact ⟨d, hd a d hda, ht.trans hb⟩
  | index i => exact ⟨ht.trans h.1, he i h.2⟩
  | pool p => exact ⟨ht.trans h.1, hp p h.2⟩

theorem Fits.target_ne {b : A} {via : FundingTarget A} (h : r.Fits b via) : r.target b ≠ none := by
  cases via with
  | direct a =>
    obtain ⟨d, -, hb⟩ := h
    simp [hb]
  | index i => simp [h.1]
  | pool p => simp [h.1]

section Steps

variable [DecidableEq A]

/-- The parts of a pool after the part is dropped or put at the end. -/
def withSlot (es : List A) (d : A) (add : Bool) : List A := (es.filter fun e => e ≠ d) ++ if add then [d] else []

/-- What an action does to the registry. -/
inductive Step (r r' : Registry A) : RegistryAction A → Prop
  | other (h : r' = r) : Step r r' .other
  | enlist {who d : A} (hd : r.digestOf who = none ∨ r.digestOf who = some d)
      (h : r' = { r with
        digestOf := Function.update r.digestOf who (some d)
        authorOf := Function.update r.authorOf d (some who) }) : Step r r' (.enlist who d)
  | back {who : A} {f : Funder A} {author d : A} {known : A → Bool} (hb : f.backer = who) (hs : r.Stands author d f)
      (ht : r.target f.backer = none ∨ r.target f.backer = some (f.towards d))
      (hk : known = r.known ∨ known = Function.update r.known d true)
      (hreach : ∀ a, r.Reaches author f a → r'.funders (a, f.backer) = some f)
      (hkeep : ∀ a b, (b = f.backer → ¬r.Reaches author f a) → r'.funders (a, b) = r.funders (a, b))
      (h : r' = { r with
        target := Function.update r.target f.backer (some (f.towards d))
        known
        funders := r'.funders }) : Step r r' (.back who)
  | exit {who : A} {f : Funder A} {author d : A} (hb : f.backer = who) (hs : r.Stands author d f)
      (ht : r.target f.backer = some (f.towards d))
      (hreach : ∀ a, r.Reaches author f a → r'.funders (a, f.backer) = none)
      (hkeep : ∀ a b, (b = f.backer → ¬r.Reaches author f a) → r'.funders (a, b) = r.funders (a, b))
      (h : r' = { r with
        target := Function.update r.target f.backer none
        funders := r'.funders }) : Step r r' (.exit who)
  | index {i : A} {es : List A} (hi : r.entries i = none) (hne : es ≠ []) (hk : ∀ d ∈ es, r.known d = true)
      (h : r' = { r with entries := Function.update r.entries i (some es) }) : Step r r' (.index i)
  | pool {p : A} {es : List A} (hp : r.slots p = none) (hne : es ≠ []) (hk : ∀ d ∈ es, r.known d = true)
      (h : r' = { r with slots := Function.update r.slots p (some es) }) : Step r r' (.pool p)
  | slot {p d : A} {add : Bool} {es : List A} (hp : r.slots p = some es) (hne : withSlot es d add ≠ [])
      (hk : add = true → r.known d = true)
      (h : r' = { r with slots := Function.update r.slots p (some (withSlot es d add)) }) :
      Step r r' (.slot p d add)

/-- Digests that are made are used for nothing else. -/
def Fresh (r : Registry A) : RegistryAction A → Prop
  | .enlist who d => r.digestOf who = none → r.Unused d
  | .index d => r.Unused d
  | .pool d => r.Unused d
  | _ => True

/-- A pool that is committed to keeps its parts. -/
def KeepsParts (r : Registry A) : RegistryAction A → Prop
  | .slot p d add => (∃ b, r.target b = some p) → ∀ es, r.slots p = some es → (d ∈ es ↔ add = true)
  | _ => True

theorem mem_withSlot {es : List A} {d e : A} {add : Bool} :
    e ∈ withSlot es d add ↔ (e ∈ es ∧ e ≠ d) ∨ (add = true ∧ e = d) := by
  unfold withSlot
  cases add <;> simp

theorem mem_withSlot_iff {es : List A} {d e : A} {add : Bool} (h : d ∈ es ↔ add = true) :
    e ∈ withSlot es d add ↔ e ∈ es := by
  rw [mem_withSlot]
  by_cases he : e = d
  · subst he
    simp [h]
  · simp [he]

variable {action : RegistryAction A}

theorem Step.sound (hs : r.Sound) (h : Step r r' action) : r'.Sound := by
  cases h with
  | other h => exact h ▸ hs
  | enlist hd h =>
    rename_i who d
    subst h
    have howner (e : A) (x : A) (hx : r.authorOf e = some x) :
        ∃ y, Function.update r.authorOf d (some who) e = some y := by
      by_cases he : e = d
      · exact ⟨who, by simp [he]⟩
      · exact ⟨x, by simpa [he] using hx⟩
    refine ⟨fun e a ha => ?_, fun a e ha => ?_, fun e he => ?_, hs.entries, hs.slots⟩
    · dsimp only at ha ⊢
      by_cases he : e = d
      · subst he
        rw [Function.update_self] at ha
        obtain rfl := Option.some.inj ha
        exact Function.update_self ..
      · rw [Function.update_of_ne he] at ha
        have hae := hs.authors e a ha
        by_cases haw : a = who
        · subst haw
          rcases hd with hd | hd
          · rw [hd] at hae
            cases hae
          · exact absurd (Option.some.inj (hae.symm.trans hd)) he
        · rwa [Function.update_of_ne haw]
    · dsimp only at ha ⊢
      by_cases haw : a = who
      · subst haw
        rw [Function.update_self] at ha
        obtain rfl := Option.some.inj ha
        exact ⟨a, Function.update_self ..⟩
      · rw [Function.update_of_ne haw] at ha
        obtain ⟨x, hx⟩ := hs.owned a e ha
        exact howner e x hx
    · obtain ⟨x, hx⟩ := hs.known e he
      exact howner e x hx
  | back hb hst ht hk hreach hkeep h =>
    rename_i who f author d known
    have hknown (e : A) (he : r.known e = true) : known e = true := by
      rcases hk with rfl | rfl
      · exact he
      · by_cases hed : e = d
        · simp [hed]
        · simpa [hed] using he
    rw [h]
    refine ⟨hs.authors, hs.owned, fun e he => ?_, fun i es hi => ?_, fun p es hp => ?_⟩
    · rcases hk with rfl | rfl
      · exact hs.known e he
      · by_cases hed : e = d
        · exact hed ▸ hs.owned author d hst.1
        · exact hs.known e (by simpa [hed] using he)
    · exact ⟨(hs.entries i es hi).1, fun e he => hknown e ((hs.entries i es hi).2 e he)⟩
    · exact ⟨(hs.slots p es hp).1, fun e he => hknown e ((hs.slots p es hp).2 e he)⟩
  | exit hb hst ht hreach hkeep h =>
    rw [h]
    exact ⟨hs.authors, hs.owned, hs.known, hs.entries, hs.slots⟩
  | index hi hne hk h =>
    rename_i i es
    subst h
    refine ⟨hs.authors, hs.owned, hs.known, fun j es' hj => ?_, hs.slots⟩
    dsimp only at hj
    by_cases hij : j = i
    · subst hij
      rw [Function.update_self] at hj
      obtain rfl := Option.some.inj hj
      exact ⟨hne, hk⟩
    · exact hs.entries j es' (by rwa [Function.update_of_ne hij] at hj)
  | pool hp hne hk h =>
    rename_i p es
    subst h
    refine ⟨hs.authors, hs.owned, hs.known, hs.entries, fun q es' hq => ?_⟩
    dsimp only at hq
    by_cases hpq : q = p
    · subst hpq
      rw [Function.update_self] at hq
      obtain rfl := Option.some.inj hq
      exact ⟨hne, hk⟩
    · exact hs.slots q es' (by rwa [Function.update_of_ne hpq] at hq)
  | slot hp hne hk h =>
    rename_i p d add es
    subst h
    refine ⟨hs.authors, hs.owned, hs.known, hs.entries, fun q es' hq => ?_⟩
    dsimp only at hq
    by_cases hpq : q = p
    · subst hpq
      rw [Function.update_self] at hq
      obtain rfl := Option.some.inj hq
      refine ⟨hne, fun e he => ?_⟩
      rcases mem_withSlot.mp he with ⟨he, -⟩ | ⟨hadd, rfl⟩
      · exact (hs.slots q es hp).2 e he
      · exact hk hadd
    · exact hs.slots q es' (by rwa [Function.update_of_ne hpq] at hq)

theorem enlist_again (ha : r.Apart) {who d : A} (hd : r.digestOf who = some d) :
    { r with
      digestOf := Function.update r.digestOf who (some d)
      authorOf := Function.update r.authorOf d (some who) } = r := by
  have h1 : Function.update r.digestOf who (some d) = r.digestOf := by
    rw [← hd, Function.update_eq_self]
  have h2 : Function.update r.authorOf d (some who) = r.authorOf := by
    rw [← ha.digests who d hd, Function.update_eq_self]
  rw [h1, h2]

theorem apart_of_enlist (ha : r.Apart) {who d : A} (hu : r.Unused d) :
    ({ r with
      digestOf := Function.update r.digestOf who (some d)
      authorOf := Function.update r.authorOf d (some who) } : Registry A).Apart := by
  refine ⟨fun a e he => ?_, fun e a he => ?_, fun e a he => ?_, ha.kinds, fun b e he hune => ?_⟩
  · dsimp only at he ⊢
    by_cases haw : a = who
    · subst haw
      rw [Function.update_self] at he
      obtain rfl := Option.some.inj he
      exact Function.update_self ..
    · rw [Function.update_of_ne haw] at he
      have howner := ha.digests a e he
      have hne : e ≠ d := by
        rintro rfl
        rw [hu.1] at howner
        cases howner
      rwa [Function.update_of_ne hne]
  · dsimp only at he
    by_cases hed : e = d
    · exact hed ▸ hu.2.2.1
    · exact ha.entries e a (by rwa [Function.update_of_ne hed] at he)
  · dsimp only at he
    by_cases hed : e = d
    · exact hed ▸ hu.2.2.2
    · exact ha.slots e a (by rwa [Function.update_of_ne hed] at he)
  · by_cases hed : e = d
    · have hnone : Function.update r.authorOf d (some who) e = none := hune.1
      rw [hed, Function.update_self] at hnone
      cases hnone
    · exact ha.targets b e he (hune.of_same (Function.update_of_ne hed _ _) rfl rfl rfl)

theorem Step.apart (hs : r.Sound) (ha : r.Apart) (hf : r.Fresh action) (h : Step r r' action) : r'.Apart := by
  cases h with
  | other h => exact h ▸ ha
  | enlist hd h =>
    rename_i who d
    subst h
    rcases hd with hd | hd
    · exact apart_of_enlist ha (hf hd)
    · exact (enlist_again ha hd).symm ▸ ha
  | back hb hst ht hk hreach hkeep h =>
    rename_i who f author d known
    have hgrow (e : A) (he : known e = false) : r.known e = false := by
      rcases hk with rfl | rfl
      · exact he
      · by_cases hed : e = d
        · simp [hed] at he
        · simpa [hed] using he
    rw [h]
    refine ⟨ha.digests, ha.entries, ha.slots, ha.kinds, fun b e he hu => ?_⟩
    have hunused : r.Unused e := ⟨hu.1, hgrow e hu.2.1, hu.2.2.1, hu.2.2.2⟩
    dsimp only at he
    by_cases hb : b = f.backer
    · rw [hb, Function.update_self] at he
      exact Stands.goal_used hs hst (Option.some.inj he ▸ hunused)
    · exact ha.targets b e (by rwa [Function.update_of_ne hb] at he) hunused
  | exit hb hst ht hreach hkeep h =>
    rename_i who f author d
    rw [h]
    refine ⟨ha.digests, ha.entries, ha.slots, ha.kinds, fun b e he hu => ?_⟩
    dsimp only at he
    by_cases hb : b = f.backer
    · rw [hb, Function.update_self] at he
      cases he
    · exact ha.targets b e (by rwa [Function.update_of_ne hb] at he) hu
  | index hi hne hk h =>
    rename_i i es
    subst h
    refine ⟨ha.digests, fun e a he => ?_, ha.slots, fun e es' he => ?_, fun b e he hu => ?_⟩
    · have hei : e ≠ i := by
        rintro rfl
        rw [hf.1] at he
        cases he
      exact (Function.update_of_ne hei _ _).trans (ha.entries e a he)
    · dsimp only at he
      by_cases hei : e = i
      · exact hei ▸ hf.2.2.2
      · exact ha.kinds e es' (by rwa [Function.update_of_ne hei] at he)
    · by_cases hei : e = i
      · have hnone : Function.update r.entries i (some es) e = none := hu.2.2.1
        rw [hei, Function.update_self] at hnone
        cases hnone
      · exact ha.targets b e he (hu.of_same rfl rfl (Function.update_of_ne hei _ _) rfl)
  | pool hp hne hk h =>
    rename_i p es
    subst h
    refine ⟨ha.digests, ha.entries, fun e a he => ?_, fun e es' he => ?_, fun b e he hu => ?_⟩
    · have hep : e ≠ p := by
        rintro rfl
        rw [hf.1] at he
        cases he
      exact (Function.update_of_ne hep _ _).trans (ha.slots e a he)
    · have hep : e ≠ p := by
        rintro rfl
        change r.entries e = _ at he
        rw [hf.2.2.1] at he
        cases he
      exact (Function.update_of_ne hep _ _).trans (ha.kinds e es' he)
    · by_cases hep : e = p
      · have hnone : Function.update r.slots p (some es) e = none := hu.2.2.2
        rw [hep, Function.update_self] at hnone
        cases hnone
      · exact ha.targets b e he (hu.of_same rfl rfl rfl (Function.update_of_ne hep _ _))
  | slot hp hne hk h =>
    rename_i p d add es
    subst h
    refine ⟨ha.digests, ha.entries, fun e a he => ?_, fun e es' he => ?_, fun b e he hu => ?_⟩
    · have hep : e ≠ p := by
        rintro rfl
        rw [ha.slots e a he] at hp
        cases hp
      exact (Function.update_of_ne hep _ _).trans (ha.slots e a he)
    · have hep : e ≠ p := by
        rintro rfl
        rw [ha.kinds e es' he] at hp
        cases hp
      exact (Function.update_of_ne hep _ _).trans (ha.kinds e es' he)
    · by_cases hep : e = p
      · have hnone : Function.update r.slots p (some (withSlot es d add)) e = none := hu.2.2.2
        rw [hep, Function.update_self] at hnone
        cases hnone
      · exact ha.targets b e he (hu.of_same rfl rfl rfl (Function.update_of_ne hep _ _))

theorem update_ne_none {f : A → Option (List A)} {i j : A} {es : List A} (h : f j ≠ none) :
    Function.update f i (some es) j ≠ none := by
  by_cases hj : j = i
  · simp [hj]
  · rwa [Function.update_of_ne hj]

theorem Step.fits {b : A} {via : FundingTarget A} (h : Step r r' action) (hexit : action ≠ .exit b)
    (hf : r.Fits b via) : r'.Fits b via := by
  cases h with
  | other h => exact h ▸ hf
  | enlist hd h =>
    rename_i who d
    subst h
    refine hf.mono rfl (fun a e ha => ?_) (fun _ he => he) (fun _ hp => hp)
    by_cases haw : a = who
    · subst haw
      rcases hd with hd | hd
      · rw [hd] at ha
        cases ha
      · exact ha ▸ hd ▸ Function.update_self ..
    · exact (Function.update_of_ne haw _ _).trans ha
  | back hb hst ht hk hreach hkeep h =>
    rename_i who f author d known
    rw [h]
    refine hf.mono ?_ (fun _ _ hd => hd) (fun _ he => he) (fun _ hp => hp)
    dsimp only
    by_cases hbf : b = f.backer
    · subst hbf
      rw [Function.update_self]
      exact (ht.resolve_left hf.target_ne).symm
    · exact Function.update_of_ne hbf _ _
  | exit hb hst ht hreach hkeep h =>
    rename_i who f author d
    rw [h]
    refine hf.mono ?_ (fun _ _ hd => hd) (fun _ he => he) (fun _ hp => hp)
    have hne : b ≠ f.backer := by
      rintro rfl
      exact hexit (hb ▸ rfl)
    exact Function.update_of_ne hne _ _
  | index hi hne hk h => exact h ▸ hf.mono rfl (fun _ _ hd => hd) (fun _ => update_ne_none) (fun _ hp => hp)
  | pool hp hne hk h => exact h ▸ hf.mono rfl (fun _ _ hd => hd) (fun _ he => he) (fun _ => update_ne_none)
  | slot hp hne hk h => exact h ▸ hf.mono rfl (fun _ _ hd => hd) (fun _ he => he) (fun _ => update_ne_none)

theorem Step.target_eq {b : A} (h : Step r r' action) (hback : action ≠ .back b) (hexit : action ≠ .exit b) :
    r'.target b = r.target b := by
  cases h with
  | other h => rw [h]
  | enlist hd h => rw [h]
  | back hb hst ht hk hreach hkeep h =>
    rw [h]
    refine Function.update_of_ne ?_ _ _
    rintro rfl
    exact hback (hb ▸ rfl)
  | exit hb hst ht hreach hkeep h =>
    rw [h]
    refine Function.update_of_ne ?_ _ _
    rintro rfl
    exact hexit (hb ▸ rfl)
  | index hi hne hk h => rw [h]
  | pool hp hne hk h => rw [h]
  | slot hp hne hk h => rw [h]

theorem Step.target_exit {b : A} (h : Step r r' (.exit b)) : r'.target b = none := by
  cases h with
  | exit hb hst ht hreach hkeep h =>
    rw [h, ← hb]
    exact Function.update_self ..

end Steps

section Mirror

theorem Mirrors.of_backs (h : r.Mirrors) (hf : r'.funders = r.funders)
    (hb : ∀ a f, r'.Backs a f ↔ r.Backs a f) : r'.Mirrors := fun a b f => by
  rw [hf, hb]
  exact h a b f

theorem backs_of_target {a : A} {g : Funder A} (hd : r'.digestOf = r.digestOf) (he : r'.entries = r.entries)
    (hp : r'.slots = r.slots) (ht : r'.target g.backer = r.target g.backer) : r'.Backs a g ↔ r.Backs a g := by
  cases g with
  | direct b =>
    simp only [Backs, hd]
    rw [show r'.target b = r.target b from ht]
  | index i b =>
    simp only [Backs, hd, he]
    rw [show r'.target b = r.target b from ht]
  | pool p b =>
    simp only [Backs, hd, hp]
    rw [show r'.target b = r.target b from ht]

theorem backs_target {a : A} {g : Funder A} (h : r.Backs a g) : ∃ d, r.target g.backer = some d := by
  cases g with
  | direct b =>
    obtain ⟨d, -, ht⟩ := h
    exact ⟨d, ht⟩
  | index i b => exact ⟨i, h.1⟩
  | pool p b => exact ⟨p, h.1⟩

variable [DecidableEq A] {action : RegistryAction A}

theorem mirrors_of_enlist (hs : r.Sound) (ha : r.Apart) (hm : r.Mirrors) {who d : A} (hd : r.digestOf who = none)
    (hu : r.Unused d) :
    ({ r with
      digestOf := Function.update r.digestOf who (some d)
      authorOf := Function.update r.authorOf d (some who) } : Registry A).Mirrors := by
  have hpart {es : List A} (hes : ∀ e ∈ es, r.known e = true) : d ∉ es := by
    intro hmem
    have := hes d hmem
    rw [hu.2.1] at this
    cases this
  have hdigest {a e : A} (hne : e ≠ d) :
      Function.update r.digestOf who (some d) a = some e ↔ r.digestOf a = some e := by
    by_cases haw : a = who
    · subst haw
      simp [hd, Ne.symm hne]
    · rw [Function.update_of_ne haw]
  have hparts {a : A} {es : List A} (hes : ∀ e ∈ es, r.known e = true) :
      (∃ e ∈ es, Function.update r.digestOf who (some d) a = some e) ↔ ∃ e ∈ es, r.digestOf a = some e :=
    exists_congr fun e => and_congr_right fun he => hdigest fun hed => hpart hes (hed ▸ he)
  refine hm.of_backs rfl fun a f => ?_
  cases f with
  | direct b =>
    refine exists_congr fun e => and_congr_left fun ht => hdigest ?_
    rintro rfl
    exact ha.targets b e ht hu
  | index i b =>
    exact and_congr_right fun _ => exists_congr fun es => and_congr_right fun hes => hparts (hs.entries i es hes).2
  | pool p b =>
    exact and_congr_right fun _ => exists_congr fun es => and_congr_right fun hes => hparts (hs.slots p es hes).2

/-- Placing, raising or resolving a commitment changes the records of its backer alone, for all the
authors the target reaches. -/
theorem mirrors_of_change (hm : r.Mirrors) {f : Funder A} {author : A} {w : Option (Funder A)}
    (hother : ∀ a g, g.backer ≠ f.backer → (r'.Backs a g ↔ r.Backs a g))
    (hold : ∀ a g, g.backer = f.backer → r.Backs a g → g = f ∧ r.Reaches author f a)
    (hnew : ∀ a g, g.backer = f.backer → (r'.Backs a g ↔ w = some g ∧ r.Reaches author f a))
    (hwritten : ∀ g, w = some g → g.backer = f.backer)
    (hreach : ∀ a, r.Reaches author f a → r'.funders (a, f.backer) = w)
    (hkeep : ∀ a b, (b = f.backer → ¬r.Reaches author f a) → r'.funders (a, b) = r.funders (a, b)) :
    r'.Mirrors := by
  intro a b g
  by_cases hb : b = f.backer
  · subst hb
    by_cases hr : r.Reaches author f a
    · rw [hreach a hr]
      constructor
      · intro hw
        have hg := hwritten g hw
        exact ⟨hg, (hnew a g hg).mpr ⟨hw, hr⟩⟩
      · rintro ⟨hg, hbacks⟩
        exact ((hnew a g hg).mp hbacks).1
    · rw [hkeep a _ fun _ => hr, hm a _ g]
      constructor
      · rintro ⟨hg, hbacks⟩
        exact absurd (hold a g hg hbacks).2 hr
      · rintro ⟨hg, hbacks⟩
        exact absurd ((hnew a g hg).mp hbacks).2 hr
  · rw [hkeep a b fun he => absurd he hb, hm a b g]
    exact and_congr_right fun hg => (hother a g (hg ▸ hb)).symm

theorem mirrors_of_back (hs : r.Sound) (ha : r.Apart) (hs' : r'.Sound) (ha' : r'.Apart) (hm : r.Mirrors)
    {f : Funder A} {author d : A} {known : A → Bool} (hst : r.Stands author d f)
    (ht : r.target f.backer = none ∨ r.target f.backer = some (f.towards d))
    (hreach : ∀ a, r.Reaches author f a → r'.funders (a, f.backer) = some f)
    (hkeep : ∀ a b, (b = f.backer → ¬r.Reaches author f a) → r'.funders (a, b) = r.funders (a, b))
    (h : r' = { r with
      target := Function.update r.target f.backer (some (f.towards d))
      known
      funders := r'.funders }) : r'.Mirrors := by
  have htarget : r'.target = Function.update r.target f.backer (some (f.towards d)) := by rw [h]
  have hdigests : r'.digestOf = r.digestOf := by rw [h]
  have hentries : r'.entries = r.entries := by rw [h]
  have hslots : r'.slots = r.slots := by rw [h]
  have hreaches (a : A) : r'.Reaches author f a ↔ r.Reaches author f a := by
    rw [h]
    cases f <;> exact Iff.rfl
  refine mirrors_of_change hm (fun a g hg => ?_) (fun a g hg hb => ?_) (fun a g hg => ?_)
    (fun g hw => Option.some.inj hw ▸ rfl) hreach hkeep
  · exact backs_of_target hdigests hentries hslots (by rw [htarget, Function.update_of_ne hg])
  · obtain ⟨x, hx⟩ := backs_target hb
    rw [hg] at hx
    have hgoal := ht.resolve_left (by simp [hx])
    exact (backs_iff ha hst hgoal hg hs).mp hb
  · have hgoal : r'.target f.backer = some (f.towards d) := by rw [htarget, Function.update_self]
    rw [backs_iff ha' (hst.of_same hdigests hentries hslots) hgoal hg hs', hreaches]
    simp [eq_comm]

theorem mirrors_of_exit (hs : r.Sound) (ha : r.Apart) (hm : r.Mirrors) {f : Funder A} {author d : A}
    (hst : r.Stands author d f) (ht : r.target f.backer = some (f.towards d))
    (hreach : ∀ a, r.Reaches author f a → r'.funders (a, f.backer) = none)
    (hkeep : ∀ a b, (b = f.backer → ¬r.Reaches author f a) → r'.funders (a, b) = r.funders (a, b))
    (h : r' = { r with
      target := Function.update r.target f.backer none
      funders := r'.funders }) : r'.Mirrors := by
  have htarget : r'.target = Function.update r.target f.backer none := by rw [h]
  refine mirrors_of_change (w := none) hm (fun a g hg => ?_)
    (fun a g hg hb => (backs_iff ha hst ht hg hs).mp hb) (fun a g hg => ?_) (fun g hw => nomatch hw) hreach hkeep
  · exact backs_of_target (by rw [h]) (by rw [h]) (by rw [h]) (by rw [htarget, Function.update_of_ne hg])
  · refine ⟨fun hb => ?_, fun hw => nomatch hw.1⟩
    obtain ⟨x, hx⟩ := backs_target hb
    rw [hg, htarget, Function.update_self] at hx
    cases hx

theorem mirrors_of_parts (hm : r.Mirrors) {i : A} {es : List A} (ht : ∀ b, r.target b ≠ some i) :
    ({ r with entries := Function.update r.entries i (some es) } : Registry A).Mirrors ∧
      ({ r with slots := Function.update r.slots i (some es) } : Registry A).Mirrors := by
  constructor
  · refine hm.of_backs rfl fun a f => ?_
    cases f with
    | direct b => exact Iff.rfl
    | pool p b => exact Iff.rfl
    | index j b =>
      refine and_congr_right fun hj => ?_
      have hne : j ≠ i := fun he => ht b (he ▸ hj)
      dsimp only
      rw [Function.update_of_ne hne]
  · refine hm.of_backs rfl fun a f => ?_
    cases f with
    | direct b => exact Iff.rfl
    | index j b => exact Iff.rfl
    | pool p b =>
      refine and_congr_right fun hp => ?_
      have hne : p ≠ i := fun he => ht b (he ▸ hp)
      dsimp only
      rw [Function.update_of_ne hne]

theorem mirrors_of_slots (hm : r.Mirrors) {p : A} {es es' : List A} (hp : r.slots p = some es)
    (hmem : ∀ e, e ∈ es' ↔ e ∈ es) :
    ({ r with slots := Function.update r.slots p (some es') } : Registry A).Mirrors := by
  refine hm.of_backs rfl fun a f => ?_
  cases f with
  | direct b => exact Iff.rfl
  | index j b => exact Iff.rfl
  | pool q b =>
    refine and_congr_right fun _ => ?_
    dsimp only
    by_cases hq : q = p
    · subst hq
      simp [hp, hmem]
    · rw [Function.update_of_ne hq]

/-- With fresh digests, the registry goes on mirroring the commitments when pools that are committed
to keep their parts. -/
theorem Step.mirrors (hs : r.Sound) (ha : r.Apart) (hm : r.Mirrors) (hf : r.Fresh action)
    (hk : r.KeepsParts action) (h : Step r r' action) : r'.Mirrors := by
  have hs' := h.sound hs
  have ha' := h.apart hs ha hf
  cases h with
  | other h => exact h ▸ hm
  | enlist hd h =>
    subst h
    rcases hd with hd | hd
    · exact mirrors_of_enlist hs ha hm hd (hf hd)
    · exact (enlist_again ha hd).symm ▸ hm
  | back hb hst ht hkn hreach hkeep h => exact mirrors_of_back hs ha hs' ha' hm hst ht hreach hkeep h
  | exit hb hst ht hreach hkeep h => exact mirrors_of_exit hs ha hm hst ht hreach hkeep h
  | index hi hne hkn h => exact h ▸ (mirrors_of_parts hm fun b hb => ha.targets b _ hb hf).1
  | pool hp hne hkn h => exact h ▸ (mirrors_of_parts hm fun b hb => ha.targets b _ hb hf).2
  | slot hp hne hkn h =>
    rename_i p d add es
    subst h
    by_cases hb : ∃ b, r.target b = some p
    · exact mirrors_of_slots hm hp fun e => mem_withSlot_iff (hk hb es hp)
    · exact (mirrors_of_parts hm fun b hb' => hb ⟨b, hb'⟩).2

theorem Step.keepsParts (hs : r.Sound) (hm : r.Mirrors) (h : Step r r' action) (hm' : r'.Mirrors) :
    r.KeepsParts action := by
  cases h with
  | slot hp hne hkn h =>
    rename_i p d add es
    rintro ⟨b, hb⟩ es₀ hes₀
    obtain rfl := Option.some.inj (hp.symm.trans hes₀)
    have hfunders : r'.funders = r.funders := by rw [h]
    have hback (a : A) : r.Backs a (.pool p b) ↔ ∃ e ∈ es, r.digestOf a = some e := by
      constructor
      · rintro ⟨-, es', hes', he⟩
        exact Option.some.inj (hp.symm.trans hes') ▸ he
      · exact fun he => ⟨hb, es, hp, he⟩
    have hback' (a : A) : r'.Backs a (.pool p b) ↔ ∃ e ∈ withSlot es d add, r.digestOf a = some e := by
      rw [h]
      constructor
      · rintro ⟨-, es', hes', he⟩
        dsimp only at hes'
        rw [Function.update_self] at hes'
        exact Option.some.inj hes' ▸ he
      · exact fun he => ⟨hb, _, Function.update_self .., he⟩
    have hsame (a : A) : (∃ e ∈ withSlot es d add, r.digestOf a = some e) ↔ ∃ e ∈ es, r.digestOf a = some e := by
      have h1 := hm a b (.pool p b)
      have h2 := hm' a b (.pool p b)
      rw [hfunders] at h2
      rw [← hback, ← hback']
      have h3 := h2.symm.trans h1
      simpa [Funder.backer] using h3
    have hknown : d ∈ es ∨ add = true → r.known d = true := by
      rintro (hd | hadd)
      · exact (hs.slots p es hp).2 d hd
      · exact hkn hadd
    constructor
    · intro hd
      obtain ⟨a, -, ha⟩ := hs.author_of_part (hknown (.inl hd))
      obtain ⟨e, he, hae⟩ := (hsame a).mpr ⟨d, hd, ha⟩
      obtain rfl := Option.some.inj (ha.symm.trans hae)
      rcases mem_withSlot.mp he with ⟨-, hne⟩ | ⟨hadd, -⟩
      · exact absurd rfl hne
      · exact hadd
    · intro hadd
      obtain ⟨a, -, ha⟩ := hs.author_of_part (hknown (.inr hadd))
      obtain ⟨e, he, hae⟩ := (hsame a).mp ⟨d, mem_withSlot.mpr (.inr ⟨hadd, rfl⟩), ha⟩
      obtain rfl := Option.some.inj (ha.symm.trans hae)
      exact he
  | _ => trivial

end Mirror

end Registry

end FrameSuite
