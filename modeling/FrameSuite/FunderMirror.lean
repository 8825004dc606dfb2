import FrameSuite.AuthorFunding
import FrameSuite.AuthorRuntime

/-! The funder registry mirrors the commitments exactly in the runs in which no pool that is committed to
gains or loses a slot. -/

namespace FrameSuite

variable {T : AuthorConfig}

/-- The digest that a call generates, if it generates one, is in no other use. -/
def AuthorCall.freshDigest (s : AuthorState T) (call : AuthorCall T) : Prop := s.registry.Fresh (call.action s)

/-- The call adds no slot to a pool with live commitments and removes none from it. -/
def AuthorCall.keepsSlots (s : AuthorState T) (call : AuthorCall T) : Prop := s.registry.KeepsParts (call.action s)

structure AuthorState.Mirrored (s : AuthorState T) : Prop where
  sound : s.registry.Sound
  apart : s.registry.Apart
  mirrors : s.registry.Mirrors

theorem mirrored_genesis (ledger : T.Ledger) (g : AuthorGenesis) : (AuthorState.genesis ledger g).Mirrored := by
  refine ⟨registrySound_genesis ledger g, ⟨?_, ?_, ?_, ?_, ?_⟩, fun author backer f => ⟨fun h => ?_, fun h => ?_⟩⟩
  case refine_7 =>
    obtain ⟨d, hd⟩ := Registry.backs_target h.2
    cases hd
  case refine_6 => cases h
  all_goals intro _ _ h
  all_goals cases h

theorem AuthorState.Mirrored.apply {s s' : AuthorState T} {call : AuthorCall T} (hs : s.Mirrored)
    (hf : call.freshDigest s)
    (hk : call.keepsSlots s) (h : s.apply call = .ok s') : s'.Mirrored := by
  have hstep := apply_registryStep hs.sound h
  exact ⟨hstep.sound hs.sound, hstep.apart hs.sound hs.apart hf, hstep.mirrors hs.sound hs.apart hs.mirrors hf hk⟩

/-- With digests that are generated fresh, the registry names exactly the backers of every author in all
states of a run if and only if pools keep their slots while they are committed to. -/
theorem registry_mirrors_iff {ledger : T.Ledger} {g : AuthorGenesis} {calls : List (AuthorCall T)}
    (hfresh : RunMeets AuthorState.apply (fun s call => call.freshDigest s) (AuthorState.genesis ledger g) calls) :
    (∀ pre, pre <+: calls → (AuthorState.after ledger g pre).registry.Mirrors) ↔
      RunMeets AuthorState.apply (fun s call => call.keepsSlots s) (AuthorState.genesis ledger g) calls := by
  refine forall_prefix_iff_of_meets (I := AuthorState.Mirrored) (fun s hs => hs.mirrors)
    (fun s call s' hs hf hk h => hs.apply hf hk h) (fun s call s' hs _ h hm => ?_) (mirrored_genesis ledger g)
    hfresh
  exact (apply_registryStep hs.sound h).keepsParts hs.sound hs.mirrors hm

/-- A pool whose slots are weighed anew keeps its backers. -/
theorem registry_mirrors_weighed_pool : (authorRun (pooledAuthors ++ [weighs 70 51 3])).registry.Mirrors := by
  have hfresh : RunMeets AuthorState.apply (fun s call => AuthorCall.freshDigest s call)
      (AuthorState.genesis (T := authorConfig) fundedLedger plainGenesis) (pooledAuthors ++ [weighs 70 51 3]) :=
    ⟨fun _ _ _ => ⟨rfl, rfl, rfl, rfl⟩, fun _ _ _ => ⟨rfl, rfl, rfl, rfl⟩, fun _ _ => trivial, fun _ _ => trivial,
      fun _ _ => ⟨rfl, rfl, rfl, rfl⟩, fun _ _ => ⟨rfl, rfl, rfl, rfl⟩, fun _ _ => trivial, fun _ _ => trivial,
      trivial⟩
  have hslots : (authorRun pooledAuthors).registry.slots 70 = some [51, 52] := rfl
  have hweighed : (weighs 70 51 3).keepsSlots (authorRun pooledAuthors) := by
    intro _ es hes
    obtain rfl := Option.some.inj (hslots.symm.trans hes)
    decide
  have hkeeps : RunMeets AuthorState.apply (fun s call => AuthorCall.keepsSlots s call)
      (AuthorState.genesis (T := authorConfig) fundedLedger plainGenesis) (pooledAuthors ++ [weighs 70 51 3]) :=
    ⟨fun _ _ => trivial, fun _ _ => trivial, fun _ _ => trivial, fun _ _ => trivial, fun _ _ => trivial,
      fun _ _ => trivial, fun _ _ => trivial, fun _ _ => hweighed, trivial⟩
  exact (registry_mirrors_iff hfresh).mpr hkeeps _ List.prefix_rfl

/-- The backer of a pool stays registered with the author whose slot was taken out. -/
theorem registry_keeps_dropped_slot : ¬(authorRun (pooledAuthors ++ [weighs 70 51 0])).registry.Mirrors := by
  intro h
  obtain ⟨-, -, es, hes, d, hd, hdigest⟩ := (h 1 4 (.pool 70 4)).mp (by decide +kernel)
  have hslots : (authorRun (pooledAuthors ++ [weighs 70 51 0])).registry.slots 70 = some [52] := rfl
  have hauthor : (authorRun (pooledAuthors ++ [weighs 70 51 0])).registry.digestOf 1 = some 51 := rfl
  obtain rfl := Option.some.inj (hslots.symm.trans hes)
  obtain rfl := Option.some.inj (hauthor.symm.trans hdigest)
  exact absurd hd (by decide)

end FrameSuite
