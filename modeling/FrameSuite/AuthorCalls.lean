import FrameSuite.LiveRoles

/-! What the calls of the chain do to the authors: they make one call of the authors pallet, or none, and only the
end of a session rewards. -/

namespace FrameSuite

variable {A : AuthorConfig} {P : ChainParameters A} {s t : ChainState P.chain} {call : ChainCall P.chain}
  {c : AuthorCall A}

/-- The call of the authors pallet that is made in the state. -/
def ChainCall.authorCall (s : ChainState P.chain) : ChainCall P.chain → Option (AuthorCall A)
  | .dispatch _ (.elect _ _) => some (.prepareElects (prepareCandidates s))
  | .enterBlock _ => some .enterBlock
  | .callRoles call => some (call.1.withDuty (isIdle s))
  | _ => none

inductive AuthorsStep (s t : ChainState P.chain) (call : ChainCall P.chain) : Prop
  | called {c : AuthorCall A} (hc : call.authorCall s = some c) (h : s.authors.apply c = .ok t.authors)
  | rewarded (hc : call = .rotateSession) (h : t.authors = (rewardAuthors s).authors)
  | kept (hc : call.authorCall s = none) (h : t.authors = s.authors)

theorem apply_authors (h : s.apply call = .ok t) : AuthorsStep s t call := by
  cases call with
  | dispatch origin extrinsic =>
    have hx := (dispatch_eq_ok h).1
    cases extrinsic with
    | validate signer signature =>
      obtain ⟨author, -, -, -, rfl⟩ := validate_eq_ok hx
      exact .kept rfl rfl
    | declare signer rotate signature =>
      obtain ⟨-, -, author, weights, -, rfl⟩ := declare_eq_ok hx
      exact .kept rfl rfl
    | elect signer signature =>
      obtain ⟨-, author, roles, -, -, -, hprepare, rfl⟩ := elect_eq_ok hx
      exact .called rfl hprepare
    | chill affidavitPub =>
      obtain ⟨author, session, -, -, -, rfl⟩ := chill_eq_ok hx
      exact .kept rfl rfl
  | forceGenesisConfig field => exact .kept rfl (forceGenesisConfig_eq_ok h).roles
  | rotateSession => exact .rewarded rfl (rotateSession_eq_ok h).roles
  | enterBlock author =>
    obtain ⟨roles, points, hr, rfl⟩ := chainEnterBlock_eq_ok h
    exact .called rfl hr
  | callRoles call =>
    obtain ⟨roles, hr, rfl⟩ := callRoles_eq_ok h
    exact .called rfl hr

theorem withDuty_ne_enterBlock {duty : A.AccountId → Option AuthorActivity} (hc : c.ofOthers = true) :
    c.withDuty duty ≠ .enterBlock := by
  cases c <;> simp [AuthorCall.withDuty, AuthorCall.ofOthers] at hc ⊢

theorem withDuty_penalize {duty : A.AccountId → Option AuthorActivity} {who : A.AccountId} {factor : Perbill} :
    c.withDuty duty = .penalize who factor ↔ c = .penalize who factor := by
  cases c <;> simp [AuthorCall.withDuty]

end FrameSuite
