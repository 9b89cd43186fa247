import QuorumChain.Proofs.Admission.Certificate

/-!
# What admitted messages show

A message that is taken up is its author's, the author is a member, and its view is the present one;
a request may ask for a later round.  A proposal that passes its check lists the committee and is
justified: in round zero by nothing, later by requests whose latest prepared block it repeats.
-/

namespace QuorumChain

theorem View.eq_of_eq
    {v w : View} (hheight : v.height = w.height) (hround : v.round = w.round) : v = w := by
  cases v
  cases w
  rw [View.mk.injEq]
  exact ⟨hheight, hround⟩

namespace Message

variable {m : Message} {scheme : Scheme} {position : Position}

theorem place_eq_accept
    {here : View} (h : m.place here = .accept) :
    m.view.height = here.height ∧ here.round ≤ m.view.round ∧
      (m.kind ≠ .roundChange → m.view.round = here.round) := by
  simp only [place] at h
  split at h
  · contradiction
  · rename_i hlow
    split at h
    · contradiction
    · rename_i hhigh
      split at h
      · contradiction
      · rename_i hstale
        have hheight : m.view.height = here.height :=
          UInt64.le_antisymm (UInt64.not_lt.mp hhigh) (UInt64.not_lt.mp hlow)
        have hround : here.round ≤ m.view.round := UInt32.not_lt.mp hstale
        split at h
        · contradiction
        · rename_i hfuture
          refine ⟨hheight, hround, ?_⟩
          intro hkind
          have hnot : ¬here.round < m.view.round := by
            intro hlt
            apply hfuture
            simp [hlt, hkind]
          exact UInt32.le_antisymm (UInt32.not_lt.mp hnot) hround

/-- A message is taken up only if it passes all checks and belongs to the present round. -/
theorem triage_eq_accept
    (h : m.triage scheme position = .ok .accept) :
    m.authenticate scheme position.committee = .ok () ∧
      m.checkOrigin position.committee = .ok () ∧
        m.place position.view = .accept ∧ m.checkContent scheme position = .ok () := by
  simp only [triage, bind_eq_ok] at h
  obtain ⟨_, hauthor, _, horigin, h⟩ := h
  split at h
  · rename_i hplace
    obtain ⟨_, hcontent, -⟩ := bind_eq_ok.mp h
    exact ⟨hauthor, horigin, hplace, hcontent⟩
  · rename_i hother
    exact absurd (pure_eq_ok.mp h) hother

theorem triage_of_checks
    (hauthor : m.authenticate scheme position.committee = .ok ())
    (horigin : m.checkOrigin position.committee = .ok ()) (hview : m.view = position.view)
    (hcontent : m.checkContent scheme position = .ok ()) :
    m.triage scheme position = .ok .accept := by
  have hplace : m.place position.view = .accept := by
    simp [place, hview]
  simp only [triage, hauthor, horigin, hplace, hcontent, bind, Except.bind, pure, Except.pure]

theorem view_of_admitted
    (h : m.triage scheme position = .ok .accept) (hkind : m.kind ≠ .roundChange) :
    m.view = position.view := by
  obtain ⟨-, -, hplace, -⟩ := triage_eq_accept h
  obtain ⟨hheight, -, hround⟩ := place_eq_accept hplace
  exact View.eq_of_eq hheight (hround hkind)

/-- An admitted request is of the present height, and what it carries is checked. -/
theorem admitted_request
    {q : Signed RoundChange} (h : (Message.roundChange q).triage scheme position = .ok .accept) :
    q.check scheme position.committee = .ok () ∧
      q.payload.check scheme position.committee = .ok () ∧
        q.payload.view.height = position.view.height := by
  obtain ⟨hauthor, -, hplace, hcontent⟩ := triage_eq_accept h
  exact ⟨hauthor, hcontent, (place_eq_accept hplace).1⟩

end Message

/-! ## Proposals -/

/-- The header of a proposed block extends the parent, lists the committee and carries no seals. -/
structure Header.Proposed
    (h parent : Header) (parentDigest : Digest) (committee : Committee) (x : ExtraData) :
    Prop where
  number : h.number = parent.number + 1
  parent : h.parent = parentDigest
  extraData : h.extraData = .ok x
  validators : x.validators = committee.members
  seals : x.seals = []
  vote : h.checkVote x = .ok ()

theorem Header.proposed_of_check
    {h parent : Header} {parentDigest : Digest} {committee : Committee} {round : UInt32}
    {x : ExtraData} (hx : h.checkProposed parent parentDigest committee round = .ok x) :
    h.Proposed parent parentDigest committee x := by
  simp only [checkProposed, bind_eq_ok, require_eq_ok, mapError_eq_ok, beq_iff_eq, pure_eq_ok,
    List.isEmpty_iff] at hx
  obtain ⟨_, hnumber, _, hparent, _, -, x', hextra, _, hvalidators, _, -, _, hseals, _, hvote,
    rfl⟩ := hx
  exact ⟨hnumber, hparent, hextra, hvalidators, hseals, hvote⟩

/-- A header that may be proposed in one round may be proposed in any other. -/
theorem Header.checkProposed_withRound
    {h g parent : Header} {parentDigest : Digest} {committee : Committee} {round round' : UInt32}
    {x : ExtraData} (hx : h.checkProposed parent parentDigest committee round = .ok x)
    (hg : h.withRound round' = .ok g) :
    g.checkProposed parent parentDigest committee round' = .ok { x with round := round' } := by
  simp only [checkProposed, bind_eq_ok, require_eq_ok, mapError_eq_ok, pure_eq_ok,
    List.isEmpty_iff] at hx
  obtain ⟨_, hnumber, _, hparent, _, htime, x', hextra, _, hvalidators, _, -, _, hseals, _, hvote,
    rfl⟩ := hx
  obtain ⟨y, bytes, hy, hbytes, rfl⟩ := withRound_eq_ok hg
  rw [hextra] at hy
  cases hy
  obtain ⟨hlisted, hnodup, -⟩ := extraData_validators hextra
  have hread : ({ h with extra := bytes } : Header).extraData =
      .ok { x' with round := round', seals := [] } :=
    ExtraData.decode_encode hbytes hlisted hnodup
  simp only [checkProposed, bind_eq_ok, require_eq_ok, mapError_eq_ok, pure_eq_ok,
    List.isEmpty_iff]
  exact ⟨(), hnumber, (), hparent, (), htime, _, hread, (), hvalidators, (), beq_self_eq_true _, (),
    rfl, (), hvote, by rw [hseals]⟩

/-- What a proposal has to show: a header on top of the parent, a justification above round zero,
and the digest of its block. -/
structure JustifiedProposal.Passes
    (m : JustifiedProposal) (scheme : Scheme) (parent : Header) (parentDigest : Digest)
    (committee : Committee) (d : Digest) : Prop where
  header : ∃ x, m.signed.payload.block.header.Proposed parent parentDigest committee x
  digest : m.signed.payload.block.header.digest scheme.hash = .ok d
  justified : m.signed.payload.view.round ≠ 0 →
    ∃ c, m.justification = some c ∧
      c.Justifies committee
        (fun q => q.check scheme committee = .ok () ∧ q.payload.check scheme committee = .ok ())
        m.signed.payload.view ∧
      ∀ p, c.latestPrepared = some p → p.block.header.digest scheme.hash = .ok d

theorem JustifiedProposal.check_eq_ok
    {m : JustifiedProposal} {scheme : Scheme} {execution : Execution} {parent : Header}
    {parentDigest : Digest} {committee : Committee} {d : Digest} :
    m.check scheme execution parent parentDigest committee = .ok d ↔
      (∃ x, m.signed.payload.block.header.checkProposed parent parentDigest committee
          m.signed.payload.view.round = .ok x) ∧
        m.checkJustification scheme committee = .ok () ∧
          execution.check parent m.signed.payload.block = .ok () ∧
            m.signed.payload.block.header.digest scheme.hash = .ok d := by
  simp only [check, bind_eq_ok, mapError_eq_ok, Header.digestInMessage_eq_ok]
  constructor
  · rintro ⟨x, hheader, _, hjustification, _, hexecution, hdigest⟩
    exact ⟨⟨x, hheader⟩, hjustification, hexecution, hdigest⟩
  · rintro ⟨⟨x, hheader⟩, hjustification, hexecution, hdigest⟩
    exact ⟨x, hheader, (), hjustification, (), hexecution, hdigest⟩

theorem JustifiedProposal.passes_of_check
    {m : JustifiedProposal} {scheme : Scheme} {execution : Execution} {parent : Header}
    {parentDigest : Digest} {committee : Committee} {d : Digest}
    (h : m.check scheme execution parent parentDigest committee = .ok d) :
    m.Passes scheme parent parentDigest committee d := by
  obtain ⟨⟨x, hheader⟩, hjustification, -, hdigest⟩ := check_eq_ok.mp h
  refine ⟨⟨x, Header.proposed_of_check hheader⟩, hdigest, ?_⟩
  intro hround
  rw [checkJustification] at hjustification
  cases hc : m.justification with
  | none =>
      simp only [hc, require_eq_ok, beq_iff_eq] at hjustification
      exact absurd hjustification hround
  | some c =>
      simp only [hc, bind_eq_ok] at hjustification
      obtain ⟨_, -, _, hcheck, hrepeat⟩ := hjustification
      refine ⟨c, rfl, RoundChangeCertificate.check_eq_ok.mp hcheck, ?_⟩
      intro p hp
      obtain ⟨d', hexpected, hgot⟩ := RoundChangeCertificate.checkReproposal_eq_ok.mp hrepeat p hp
      rw [hdigest] at hgot
      cases hgot
      exact hexpected

end QuorumChain
