import FrameSuite.ChainRuntime
import FrameSuite.ChainSteps

/-! The bound on the weights of an affidavit. Too many weights are sorted to be cut, but the bounded vector is
built by force, which keeps all of them. -/

namespace FrameSuite

variable {T : ChainConfig} {s t : ChainState T} {who : T.AffidavitId} {affidavit : List T.Weight}

/-- A list of at most `m` entries is stored as it is, and of a longer one `m` entries, none of which is less
than one left out. -/
structure LargestKept {W : Type} (le : W → W → Prop) (m : Nat) (submitted stored : List W) : Prop where
  bounded : stored.length ≤ m
  largest : ∃ left, (stored ++ left).Perm submitted ∧ stored.length = min m submitted.length ∧
    ∀ kept ∈ stored, ∀ cut ∈ left, le cut kept
  unchanged : submitted.length ≤ m → stored = submitted

theorem LargestKept.refl {W : Type} {le : W → W → Prop} {m : Nat} {submitted : List W} (h : submitted.length ≤ m) :
    LargestKept le m submitted submitted :=
  ⟨h, ⟨[], by simp, (Nat.min_eq_right h).symm, fun _ _ _ hcut => absurd hcut List.not_mem_nil⟩, fun _ => rfl⟩

/-- The affidavit that is stored for the key's author keeps the largest weights up to the bound. -/
def AffidavitBounded (le : T.Weight → T.Weight → Prop) (s t : ChainState T) (who : T.AffidavitId)
    (affidavit : List T.Weight) : Prop :=
  ∃ author weights, s.affidavitKeys.get (s.nextSession, who) = some author ∧
    t.authorAffidavits.get (s.nextSession, author) = some (s.blockNumber, weights) ∧
    LargestKept le T.maxAffidavitWeights affidavit weights

/-- What is stored: the weights as they are, or all of them sorted. -/
def forcedWeights (T : ChainConfig) (affidavit : List T.Weight) : List T.Weight :=
  if affidavit.length ≤ T.maxAffidavitWeights then affidavit else T.descending affidavit

theorem submitAffidavit_stores (h : submitAffidavit s who affidavit = .ok t) :
    ∃ author, s.affidavitKeys.get (s.nextSession, who) = some author ∧
      t.authorAffidavits.get (s.nextSession, author) = some (s.blockNumber, forcedWeights T affidavit) := by
  obtain ⟨author, ho, h⟩ := bind_eq_ok.mp h
  obtain rfl := pure_eq_ok.mp h
  exact ⟨author, okOr_eq_ok.mp ho, StorageMap.get_insert_self ..⟩

theorem forcedWeights_length (hsort : ∀ weights, (T.descending weights).Perm weights) (affidavit : List T.Weight) :
    (forcedWeights T affidavit).length = affidavit.length := by
  unfold forcedWeights
  split
  · rfl
  · exact (hsort affidavit).length_eq

theorem AffidavitBounded.submitted_short (hsort : ∀ weights, (T.descending weights).Perm weights)
    {le : T.Weight → T.Weight → Prop} (h : submitAffidavit s who affidavit = .ok t)
    (hb : AffidavitBounded le s t who affidavit) : affidavit.length ≤ T.maxAffidavitWeights := by
  obtain ⟨author, hkey, hstored⟩ := submitAffidavit_stores h
  obtain ⟨author', weights, hkey', hstored', hlargest⟩ := hb
  obtain rfl := Option.some.inj (hkey.symm.trans hkey')
  obtain ⟨-, rfl⟩ := Prod.mk.inj (Option.some.inj (hstored.symm.trans hstored'))
  have hbounded := hlargest.bounded
  rwa [forcedWeights_length hsort] at hbounded

/-- An affidavit is bounded exactly when no more weights are submitted than the bound allows. -/
theorem affidavit_bounded_iff (hsort : ∀ weights, (T.descending weights).Perm weights)
    (le : T.Weight → T.Weight → Prop) (h : submitAffidavit s who affidavit = .ok t) :
    AffidavitBounded le s t who affidavit ↔ affidavit.length ≤ T.maxAffidavitWeights := by
  refine ⟨AffidavitBounded.submitted_short hsort h, fun hshort => ?_⟩
  obtain ⟨author, hkey, hstored⟩ := submitAffidavit_stores h
  rw [forcedWeights, if_pos hshort] at hstored
  exact ⟨author, affidavit, hkey, hstored, .refl hshort⟩

/-- An author with two backers, in the window for affidavits of a hundred weights. -/
def backedInWindow : ChainState chainConfig :=
  chainRun (readyAuthors ++ [backs 4 (.direct 1) 60]) [9] (validates 1 11 :: List.replicate 3 (.enterBlock none))

def amountLe (a b : Funder Nat × Nat) : Prop := a.2 ≤ b.2

theorem affidavit_bounded_in_window : ∃ t : ChainState chainConfig,
    submitAffidavit backedInWindow (11 : Nat) [(.direct 3, 100), (.direct 4, 60)] = .ok t ∧
      AffidavitBounded (T := chainConfig) amountLe backedInWindow t (11 : Nat)
        [(.direct 3, 100), (.direct 4, 60)] := by
  obtain ⟨t, ht⟩ := exists_eq_ok (x := submitAffidavit backedInWindow (11 : Nat) [(.direct 3, 100), (.direct 4, 60)])
    (by decide +kernel)
  exact ⟨t, ht, (affidavit_bounded_iff (fun _ => List.perm_insertionSort _ _) amountLe ht).mpr (by decide)⟩

abbrev narrowParameters : ChainParameters authorConfig := { chainParameters with maxAffidavitWeights := 1 }

/-- An author with two backers, in the window for affidavits. -/
def backedTwice : ChainState narrowParameters.chain :=
  ChainState.after (T := narrowParameters.chain) (authorRun (readyAuthors ++ [backs 4 (.direct 1) 60])) [9] plainChain
    (.dispatch (.signed (1 : Nat)) (.validate (11 : Nat) (11 : Nat)) :: List.replicate 3 (.enterBlock none))

theorem narrow_descending (weights : List (Funder Nat × Nat)) :
    (narrowParameters.chain.descending weights).Perm weights := List.perm_insertionSort _ weights

/-- Both weights of the author are stored where one is allowed. -/
theorem wide_affidavit_stored :
    genAffidavit backedTwice (11 : Nat) = .ok [(.direct 3, 100), (.direct 4, 60)] ∧
      ∃ t : ChainState narrowParameters.chain,
        submitAffidavit backedTwice (11 : Nat) [(.direct 3, 100), (.direct 4, 60)] = .ok t ∧
        (t.authorAffidavits.get (1, (1 : Nat))).map Prod.snd = some [(.direct 3, 100), (.direct 4, 60)] ∧
        ¬AffidavitBounded (T := narrowParameters.chain) amountLe backedTwice t (11 : Nat)
          [(.direct 3, 100), (.direct 4, 60)] := by
  refine ⟨by decide +kernel, ?_⟩
  obtain ⟨t, ht⟩ := exists_eq_ok
    (x := submitAffidavit backedTwice (11 : Nat) [(.direct 3, 100), (.direct 4, 60)]) (by decide +kernel)
  obtain ⟨author, hkey, hstored⟩ := submitAffidavit_stores ht
  obtain rfl : author = (1 : Nat) := Option.some.inj (hkey.symm.trans (by decide +kernel))
  refine ⟨t, ht, ?_, fun hb => absurd (hb.submitted_short narrow_descending ht) (by decide)⟩
  have hsession : backedTwice.nextSession = 1 := by decide +kernel
  rw [hsession] at hstored
  rw [hstored]
  decide +kernel

end FrameSuite
