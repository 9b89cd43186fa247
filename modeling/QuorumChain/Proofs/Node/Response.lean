import QuorumChain.Proofs.Node.Continuity

/-!
# What a node must do

A node that hears a good proposal without having one takes it, and a node that hears a good vote
counts it.  Nothing that it does on the way can fail: votes can always be written, and a block that
lists the committee can be sealed by all of it.
-/

namespace QuorumChain

open Wire

namespace Instance

/-- The block of the proposal in force lists the committee, so that it can be sealed. -/
def Sealable (i : Instance) : Prop :=
  ∀ m d, i.round.accepted = some (m, d) →
    ∃ x, m.signed.payload.block.header.extraData = .ok x ∧ x.validators = i.committee.members

/-- Whatever block is in force, its extra-data can be read, and the seals of the committee are not
too many to be written. -/
def Closable (i : Instance) : Prop :=
  ∀ m d, i.round.accepted = some (m, d) →
    i.committee.size ≤ maxLength ∧ ∃ x, m.signed.payload.block.header.extraData = .ok x

theorem Sealable.closable {i : Instance} (h : i.Sealable) : i.Closable := by
  intro m d hm
  obtain ⟨x, hx, hvalidators⟩ := h m d hm
  refine ⟨?_, x, hx⟩
  rw [Committee.size, ← hvalidators]
  exact (Header.extraData_validators hx).2.2

variable {c : Context} {i j : Instance} {actions : List Action}

/-! ## Counting votes -/

theorem Closable.exists_commit?
    (h : i.Closable) : ∃ result, i.round.commit? i.committee = .ok result := by
  rw [Round.commit?]
  split
  · rename_i m d haccepted
    split
    · obtain ⟨hsize, x, hx⟩ := h m d haccepted
      have hseals : (i.round.sealsFor i.committee).length ≤ maxLength := by
        apply Nat.le_trans (List.length_filterMap_le _ _)
        exact Nat.le_trans (List.length_filterMap_le _ _) hsize
      obtain ⟨header, hheader⟩ := Header.exists_withSeals hx hseals
      exact ⟨_, bind_eq_ok.mpr ⟨header, hheader, rfl⟩⟩
    · exact ⟨none, rfl⟩
  · exact ⟨none, rfl⟩

theorem Closable.exists_commitIfQuorum
    (h : i.Closable) : ∃ j actions, commitIfQuorum i = .ok (j, actions) := by
  obtain ⟨result, hresult⟩ := h.exists_commit?
  rw [commitIfQuorum, hresult]
  cases result with
  | none => exact ⟨_, _, rfl⟩
  | some result => exact ⟨_, _, rfl⟩

/-- Becoming prepared changes neither the proposal nor the committee. -/
theorem exists_prepareIfQuorum
    (c : Context) (i : Instance) :
    ∃ j actions, prepareIfQuorum c i = .ok (j, actions) ∧
      j.round.accepted = i.round.accepted ∧ j.committee = i.committee := by
  rcases prepareIfQuorum_cases c i with
    hdone | ⟨digest, m, -, -, ⟨-, hfollow⟩ | ⟨-, p, -, hcertify⟩⟩
  · exact ⟨_, _, hdone, rfl, rfl⟩
  · exact ⟨_, _, hfollow, rfl, rfl⟩
  · exact ⟨_, _, hcertify, rfl, rfl⟩

/-- Votes can be counted. -/
theorem Closable.exists_countVotes
    (c : Context) (h : i.Closable) : ∃ j actions, countVotes c i = .ok (j, actions) := by
  obtain ⟨j, first, hprepare, haccepted, hcommittee⟩ := exists_prepareIfQuorum c i
  have hj : j.Closable := by
    intro m d hm
    rw [haccepted] at hm
    rw [hcommittee]
    exact h m d hm
  obtain ⟨k, second, hcommit⟩ := hj.exists_commitIfQuorum
  exact ⟨k, _, Step.andThen_eq_ok.mpr ⟨j, first, second, hprepare, hcommit, rfl⟩⟩

/-! ## Messages -/

theorem triage_of_admitted
    {m : Message} (hadmitted : m.triage c.scheme i.position = .ok .accept) :
    triage c i m = .accept := by
  rw [triage, hadmitted]

/-- A good proposal can be taken. -/
theorem exists_accept
    {m : JustifiedProposal} {d : Digest} {x : ExtraData} (hfree : i.round.accepted = none)
    (hx : m.signed.payload.block.header.extraData = .ok x)
    (hsize : i.committee.size ≤ maxLength) :
    ∃ j actions, accept c i m d = .ok (j, actions) := by
  have hclosable : ∀ k : Instance, k.round.accepted = some (m, d) → k.committee = i.committee →
      k.Closable := by
    intro k hk hcommittee m' d' hm'
    rw [hk] at hm'
    cases hm'
    rw [hcommittee]
    exact ⟨hsize, x, hx⟩
  rcases accept_cases c m d hfree with ⟨-, hobserve⟩ | ⟨-, p, -, htake⟩
  · obtain ⟨j, rest, hcount⟩ := (hclosable (i.accepting m d) rfl rfl).exists_countVotes c
    exact ⟨j, rest, hobserve.trans hcount⟩
  · obtain ⟨j, rest, hcount⟩ :=
      (hclosable ((i.accepting m d).counting p) rfl rfl).exists_countVotes c
    exact ⟨j, _, htake.trans (Step.andThen_eq_ok.mpr ⟨_, _, rest, rfl, hcount, rfl⟩)⟩

/-- Behind a good proposal, some proposal is in force. -/
theorem receive_proposal
    {m : JustifiedProposal} {d : Digest} {x : ExtraData}
    (hadmitted : (Message.proposal m).triage c.scheme i.position = .ok .accept)
    (hcheck : m.check c.scheme c.execution i.parent i.parentDigest i.committee = .ok d)
    (hx : m.signed.payload.block.header.extraData = .ok x)
    (hvalidators : x.validators = i.committee.members) :
    ∃ j actions, receive c i (.proposal m) = .ok (j, actions) ∧
      ∃ a, j.round.accepted = some a := by
  unfold receive process
  rw [triage_of_admitted hadmitted]
  dsimp only
  rw [onProposal]
  cases haccepted : i.round.accepted with
  | some a => exact ⟨i, [], rfl, a, haccepted⟩
  | none =>
      rw [hcheck]
      have hsize : i.committee.size ≤ maxLength := by
        rw [Committee.size, ← hvalidators]
        exact (Header.extraData_validators hx).2.2
      obtain ⟨j, actions, haccept⟩ := exists_accept (c := c) (d := d) haccepted hx hsize
      refine ⟨j, actions, haccept, (m, d), ?_⟩
      rcases accept_eq_ok haccepted haccept with ⟨-, hcount⟩ | ⟨-, p, rest, -, hcount, -⟩
      · exact (countVotes_lasts.of_ok hcount).accepted _ rfl
      · exact (countVotes_lasts.of_ok hcount).accepted _ rfl

/-- Behind a good prepare, its author has one. -/
theorem receive_prepare
    {p : Signed Prepare} (hsealable : i.Sealable)
    (hadmitted : (Message.prepare p).triage c.scheme i.position = .ok .accept) :
    ∃ j actions, receive c i (.prepare p) = .ok (j, actions) ∧
      ∃ q, (p.author, q) ∈ j.round.prepares.entries := by
  unfold receive process
  rw [triage_of_admitted hadmitted]
  dsimp only
  rw [onPrepare]
  cases hround : i.round.addPrepare? p with
  | none =>
      rw [Round.addPrepare?, Option.map_eq_none_iff] at hround
      exact ⟨i, [], rfl, SortedMap.insertNew?_eq_none hround⟩
  | some round =>
      have hcounting := addPrepare?_getD i.round p
      rw [hround, Option.getD_some] at hcounting
      have hcounted : ({ i with round } : Instance) = i.counting p := by rw [hcounting]; rfl
      dsimp only
      rw [hcounted]
      have hstill : (i.counting p).Sealable := hsealable
      obtain ⟨j, actions, hcount⟩ := hstill.closable.exists_countVotes c
      obtain ⟨q, hq⟩ := SortedMap.exists_mem_keepFirst i.round.prepares p.author p
      exact ⟨j, actions, hcount, q, (countVotes_lasts.of_ok hcount).prepares _ hq⟩

theorem receive_commit
    {p : Signed Commit} (hsealable : i.Sealable)
    (hadmitted : (Message.commit p).triage c.scheme i.position = .ok .accept) :
    ∃ j actions, receive c i (.commit p) = .ok (j, actions) ∧
      ∃ q, (p.author, q) ∈ j.round.commits.entries := by
  unfold receive process
  rw [triage_of_admitted hadmitted]
  dsimp only
  rw [onCommit]
  cases hround : i.round.addCommit? p with
  | none =>
      rw [Round.addCommit?, Option.map_eq_none_iff] at hround
      exact ⟨i, [], rfl, SortedMap.insertNew?_eq_none hround⟩
  | some round =>
      have hcommitting := addCommit?_getD i.round p
      rw [hround, Option.getD_some] at hcommitting
      have hcounted : ({ i with round } : Instance) = i.committing p := by rw [hcommitting]; rfl
      dsimp only
      rw [hcounted]
      have hstill : (i.committing p).Sealable := hsealable
      obtain ⟨j, actions, hcount⟩ := hstill.closable.exists_countVotes c
      obtain ⟨q, hq⟩ := SortedMap.exists_mem_keepFirst i.round.commits p.author p
      exact ⟨j, actions, hcount, q, (countVotes_lasts.of_ok hcount).commits _ hq⟩

/-! ## The start -/

/-- A node that has no right to propose, or has a proposal, proposes nothing. -/
theorem propose_of_idle
    (h : i.round.accepted = none → i.isProposer = false) : propose c i = .done i := by
  rw [propose, if_pos]
  cases haccepted : i.round.accepted with
  | none => simp [h haccepted]
  | some a => simp

theorem exists_start_of_idle
    (h : i.isProposer = false) : ∃ j actions, start c i = .ok (j, actions) := by
  have hidle : propose c i = .done i := propose_of_idle fun _ => h
  exact ⟨i, _, Step.andThen_eq_ok.mpr ⟨i, _, [], rfl, hidle, rfl⟩⟩

/-- A node that makes its first proposal finishes its start. -/
theorem exists_start_of_proposal
    {m : JustifiedProposal} (hm : .broadcast (.proposal m) ∈ (start c i).outcome.2)
    (hsize : i.committee.size ≤ maxLength) : ∃ j actions, start c i = .ok (j, actions) := by
  rw [start] at hm ⊢
  rcases propose_cases c i with ⟨hdone, -⟩ | ⟨cause, hfails⟩ |
    ⟨block, certificate, m', digest, p, -, -, -, hdigest, hsigned, -, hlead⟩
  · exact ⟨i, _, Step.andThen_eq_ok.mpr ⟨i, _, [], rfl, hdone, rfl⟩⟩
  · -- The fault comes before the proposal.
    simp [Step.emit, Step.andThen, Step.outcome, hfails, startTimer] at hm
  · obtain ⟨-, hpayload, -⟩ := Signer.proposal_eq_ok hsigned
    have hclosable : ((i.accepting m' digest).counting p).Closable := by
      rintro _ _ ⟨⟩
      refine ⟨hsize, ?_⟩
      rw [hpayload]
      exact (Header.digest_eq_ok hdigest).1
    obtain ⟨j, rest, hcount⟩ := hclosable.exists_countVotes c
    have hpropose := hlead.trans (Step.andThen_eq_ok.mpr ⟨_, _, rest, rfl, hcount, rfl⟩)
    exact ⟨j, _, Step.andThen_eq_ok.mpr ⟨i, _, _, rfl, hpropose, rfl⟩⟩

end Instance

end QuorumChain
