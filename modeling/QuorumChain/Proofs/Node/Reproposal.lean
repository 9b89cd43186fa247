import QuorumChain.Proofs.Node.Certification
import QuorumChain.Proofs.Node.Four

/-!
# Proposing again

The proposer of a round above zero proposes the latest prepared block again.  With a hash that tells
the two headers apart, the header of the proposal is the one that was accepted before, save for the
round.  A prepared certificate vouches for a header only, however: the transactions are those of
whoever signed the proposal in it.  So the others admit the proposal, and take it exactly if their
engine takes these transactions under that header.
-/

namespace QuorumChain

theorem Execution.checkUnchanged_eq_ok
    {H : HashFunction} {parent : Header} {b : Block} :
    checkUnchanged H parent b = .ok () ↔
      b.body.root H = .ok b.header.bodyRoot ∧ b.header.stateRoot = parent.stateRoot := by
  simp only [checkUnchanged, bind_eq_ok, mapError_eq_ok]
  constructor
  · rintro ⟨root, hroot, h⟩
    by_cases hbody : root = b.header.bodyRoot
    · by_cases hstate : b.header.stateRoot = parent.stateRoot
      · exact ⟨hbody ▸ hroot, hstate⟩
      · simp [hbody, hstate, throw_ne_ok] at h
    · rw [if_pos hbody] at h
      obtain ⟨_, hthrow, -⟩ := bind_eq_ok.mp h
      exact absurd hthrow throw_ne_ok
  · rintro ⟨hroot, hstate⟩
    exact ⟨_, hroot, by simp [hstate, pure, Except.pure]⟩

/-- With the header of a block that it takes, save for the round, the engine of empty blocks takes
just the transactions with the same root. -/
theorem Execution.check_withRound
    {H : HashFunction} {parent header : Header} {b : Block} {round : UInt32}
    (hb : (emptyBlocks H).check parent b = .ok ()) (hheader : b.header.withRound round = .ok header)
    (body : Body) :
    (emptyBlocks H).check parent ⟨header, body⟩ = .ok () ↔ body.root H = b.body.root H := by
  obtain ⟨hroot, hstate⟩ := checkUnchanged_eq_ok.mp hb
  obtain ⟨_, bytes, -, -, rfl⟩ := Header.withRound_eq_ok hheader
  rw [hroot]
  constructor
  · intro h
    exact (checkUnchanged_eq_ok.mp h).1
  · intro h
    exact checkUnchanged_eq_ok.mpr ⟨h, hstate⟩

/-- The prepared certificate whose block a proposal has to repeat. -/
def JustifiedProposal.repeats? (m : JustifiedProposal) : Option PreparedCertificate :=
  m.justification.bind RoundChangeCertificate.latestPrepared

theorem JustifiedProposal.checkJustification_eq_ok
    {m : JustifiedProposal} {scheme : Scheme} {committee : Committee} {c : RoundChangeCertificate}
    (hc : m.justification = some c) :
    m.checkJustification scheme committee = .ok () ↔
      m.signed.payload.view.round ≠ 0 ∧
        c.check scheme committee m.signed.payload.view = .ok () ∧
          c.checkReproposal scheme.hash m.signed.payload.block = .ok () := by
  simp only [checkJustification, hc, bind_eq_ok, require_eq_ok, bne_iff_ne]
  constructor
  · rintro ⟨_, hround, _, hcheck, hrepeat⟩
    exact ⟨hround, hcheck, hrepeat⟩
  · rintro ⟨hround, hcheck, hrepeat⟩
    exact ⟨(), hround, (), hcheck, hrepeat⟩

namespace Record

/-- A proposal is as others want it: it comes from the proposer of its view, the block is one of the
height, the certificate passes its check, and its latest prepared block is proposed again. -/
structure Offered (s : Setup) (b : Base) (m : JustifiedProposal) : Prop where
  height : m.signed.payload.view.height = b.height
  leads : b.committee.proposer m.signed.payload.view = m.signed.author
  number : m.signed.payload.block.header.number = b.height
  justified : ∀ c, m.justification = some c →
    m.signed.payload.view.round ≠ 0 ∧ c.check s.scheme b.committee m.signed.payload.view = .ok ()
  again : ∀ p, m.repeats? = some p →
    ∃ header, p.block.header.withRound m.signed.payload.view.round = .ok header ∧
      m.signed.payload.block = { p.block with header }

variable {s : Setup} {b : Base} {r : Record} {moment : Setup.Moment} {turns : List Turn}
  {actions : List Action} {j : Instance} {m : JustifiedProposal}

/-- The proposals in which a node proposes a prepared block again, each with the certificate of that
block. -/
def reproposals (r : Record) : List (JustifiedProposal × PreparedCertificate) :=
  r.sent.filterMap fun
    | .proposal m => m.repeats?.map fun p => (m, p)
    | _ => none

theorem mem_reproposals
    {p : PreparedCertificate} :
    (m, p) ∈ r.reproposals ↔ .proposal m ∈ r.sent ∧ m.repeats? = some p := by
  rw [reproposals, List.mem_filterMap]
  constructor
  · rintro ⟨message, hsent, h⟩
    cases message with
    | proposal m' =>
        obtain ⟨p', hp, heq⟩ := Option.map_eq_some_iff.mp h
        cases heq
        exact ⟨hsent, hp⟩
    | _ => contradiction
  · rintro ⟨hsent, hp⟩
    exact ⟨_, hsent, Option.map_eq_some_iff.mpr ⟨p, hp, rfl⟩⟩

/-- Whoever is in the view of such a proposal admits it, if its signature verifies. -/
theorem Offered.triage
    {scheme : Scheme} {i : Instance} (h : Offered s b m) (hframed : i.committee = b.committee)
    (hauthor : (Message.proposal m).authenticate scheme b.committee = .ok ())
    (hview : i.view = m.signed.payload.view) :
    (Message.proposal m).triage scheme i.position = .ok .accept := by
  refine Message.triage_of_checks ?_ ?_ hview.symm rfl
  · rw [Instance.position, hframed]
    exact hauthor
  · rw [Instance.position, hframed]
    simp only [Message.checkOrigin, bind_eq_ok, require_eq_ok, beq_iff_eq]
    exact ⟨(), h.leads, h.number.trans h.height.symm⟩

/-- The header of a block that is proposed again is the accepted one, save for the round. -/
theorem Offered.header
    {p : PreparedCertificate} {accepted : Header} {d : Digest} (h : Offered s b m)
    (hp : m.repeats? = some p) (hprepared : p.block.header.digest s.scheme.hash = .ok d)
    (haccepted : accepted.digest s.scheme.hash = .ok d)
    (hwriting : p.block.header.writing = accepted.writing) :
    ∃ header, accepted.withRound m.signed.payload.view.round = .ok header ∧
      m.signed.payload.block = ⟨header, p.block.body⟩ := by
  obtain ⟨header, hheader, hblock⟩ := h.again p hp
  refine ⟨header, ?_, hblock⟩
  rw [← Header.withRound_congr hprepared haccepted hwriting]
  exact hheader

/-- A proposal whose header is an accepted one, save for the round, passes its check exactly if the
engine takes its block. -/
theorem Offered.check_eq_ok
    {execution : Execution} {p : PreparedCertificate} {accepted : Header} {round : UInt32}
    {x : ExtraData} {d : Digest} (h : Offered s b m) (hp : m.repeats? = some p)
    (hprepared : p.block.header.digest s.scheme.hash = .ok d)
    (hx : accepted.checkProposed b.parent b.parentDigest b.committee round = .ok x)
    (haccepted : accepted.digest s.scheme.hash = .ok d)
    (hwriting : p.block.header.writing = accepted.writing) :
    m.check s.scheme execution b.parent b.parentDigest b.committee = .ok d ↔
      execution.check b.parent m.signed.payload.block = .ok () := by
  obtain ⟨header, hheader, hblock⟩ := h.header hp hprepared haccepted hwriting
  obtain ⟨c, hc, hlatest⟩ := Option.bind_eq_some_iff.mp hp
  obtain ⟨hround, hcheck⟩ := h.justified c hc
  have hdigest : m.signed.payload.block.header.digest s.scheme.hash = .ok d := by
    rw [hblock]
    exact (Header.digest_withRound _ hheader).trans haccepted
  have hproposed : m.signed.payload.block.header.checkProposed b.parent b.parentDigest b.committee
      m.signed.payload.view.round = .ok { x with round := m.signed.payload.view.round } := by
    rw [hblock]
    exact Header.checkProposed_withRound hx hheader
  have hrepeat : c.checkReproposal s.scheme.hash m.signed.payload.block = .ok () := by
    refine RoundChangeCertificate.checkReproposal_eq_ok.mpr ?_
    intro p' hp'
    rw [hlatest] at hp'
    cases hp'
    exact ⟨d, hprepared, hdigest⟩
  have hjustified : m.checkJustification s.scheme b.committee = .ok () :=
    (JustifiedProposal.checkJustification_eq_ok hc).mpr ⟨hround, hcheck, hrepeat⟩
  rw [JustifiedProposal.check_eq_ok]
  constructor
  · rintro ⟨-, -, hexecution, -⟩
    exact hexecution
  · intro hexecution
    exact ⟨⟨_, hproposed⟩, hjustified, hexecution, hdigest⟩

/-! ## The proposals of a node -/

section Own

variable (hown : ∀ d, s.scheme.verify s.signer.address d (s.signer.sign d) = true)

include hown

theorem Attainable.offered_move
    (hr : Attainable s b r) (hmove : Instance.Move (s.context moment) r.heard r.now actions j)
    (hm : .broadcast (.proposal m) ∈ actions) : Offered s b m := by
  have hframed := hr.framed
  have hpresentable := hr.presentable hown
  obtain ⟨block, certificate, _, _, hproposer, -, hcandidate, -, hsigned, -⟩ :=
    hmove.of_proposal hm
  obtain ⟨-, hpayload, hjustification, hauthor, -⟩ := Signer.proposal_eq_ok hsigned
  rw [Instance.isProposer, Bool.and_eq_true, beq_iff_eq, hframed.committee, hframed.self]
    at hproposer
  have hcandidate := Instance.candidate_eq_ok.mp hcandidate
  have hnumber := hpresentable.number_candidate hr.sound hcandidate
  have hpresent : r.now.view = ⟨b.height, r.now.view.round⟩ := View.eq_of_eq hframed.height rfl
  obtain ⟨signed, justification⟩ := m
  dsimp only at hpayload hjustification hauthor
  subst hjustification
  refine ⟨?_, ?_, ?_, ?_, ?_⟩
  · rw [hpayload]
    exact hframed.height
  · rw [hpayload, hauthor]
    exact hproposer.2
  · rw [hpayload]
    exact hnumber
  · rintro c rfl
    rw [hpayload]
    have hcheck : ∀ {rc : RoundChangeCertificate},
        r.now.changes.certificate? r.now.view.round = some rc →
          rc.check s.scheme b.committee r.now.view = .ok () := by
      intro rc hrc
      rw [hpresent]
      exact hpresentable.check_certificate hr.sound hrc
    cases hcandidate with
    | fresh hround hrc => exact ⟨hround, hcheck hrc⟩
    | again hround hrc => exact ⟨hround, hcheck hrc⟩
  · intro p hp
    rw [hpayload]
    cases hcandidate with
    | first => contradiction
    | fresh _ _ hnone =>
        change RoundChangeCertificate.latestPrepared _ = some p at hp
        rw [hnone] at hp
        contradiction
    | again _ _ hlatest hheader =>
        change RoundChangeCertificate.latestPrepared _ = some p at hp
        rw [hlatest] at hp
        cases hp
        exact ⟨_, hheader, rfl⟩

/-- Whatever a node has proposed is as others want it. -/
theorem Attainable.offered
    (hr : Attainable s b r) (hm : .broadcast (.proposal m) ∈ r.made) : Offered s b m := by
  induction hr with
  | idle => exact absurd hm List.not_mem_nil
  | opened moment => simp [Instance.startTimer] at hm
  | hear input _ ih => exact ih hm
  | move hr hmove ih =>
      rcases List.mem_append.mp hm with hold | hnew
      · exact ih hold
      · exact hr.offered_move hown hmove hnew
  | reset _ _ _ hdeparts ih =>
      rcases List.mem_append.mp hm with hold | hnew
      · exact ih hold
      · obtain ⟨q, heq, -⟩ := hdeparts.of_broadcast hnew
        contradiction

/-- A node proposes the latest prepared block again, and a proposal with the same digest has
passed the check of another node.  Then the other node, in the same view, admits the proposal.
The header is the accepted one, save for the round, and the proposal passes the check exactly if
the engine takes the transactions of the certificate under that header. -/
theorem reproposal_passes_iff
    {s' : Setup} {moment' : Setup.Moment} {turns' : List Turn} {accepted : JustifiedProposal}
    {p : PreparedCertificate} {d : Digest} (hscheme : s'.scheme = s.scheme)
    (hagain : (m, p) ∈ (run s b moment turns).reproposals)
    (hprepared : p.block.header.digest s.scheme.hash = .ok d)
    (haccepted : accepted.check s'.scheme s'.execution b.parent b.parentDigest b.committee = .ok d)
    (hinjective : s.scheme.hash p.block.header.writing =
        s.scheme.hash accepted.signed.payload.block.header.writing →
      p.block.header.writing = accepted.signed.payload.block.header.writing)
    (hview : (run s' b moment' turns').now.view = m.signed.payload.view) :
    (Message.proposal m).triage s'.scheme (run s' b moment' turns').now.position = .ok .accept ∧
      ∃ header,
        accepted.signed.payload.block.header.withRound m.signed.payload.view.round = .ok header ∧
          (m.check s'.scheme s'.execution b.parent b.parentDigest b.committee = .ok d ↔
            s'.execution.check b.parent ⟨header, p.block.body⟩ = .ok ()) := by
  obtain ⟨hsent, hp⟩ := mem_reproposals.mp hagain
  have hr := attainable_run s b moment turns
  have hoffered := hr.offered hown (mem_sent.mp hsent)
  have hauthor := (hr.authored (mem_sent.mp hsent)).authenticate rfl hown
  have hframed := (attainable_run s' b moment' turns').framed
  rw [hscheme] at haccepted ⊢
  obtain ⟨⟨x, hx⟩, -, -, hdigest⟩ := JustifiedProposal.check_eq_ok.mp haccepted
  -- One digest, hence one writing: the two headers differ in round and seals only.
  have hwriting := hinjective <|
    (Header.digest_eq_ok hprepared).2.symm.trans (Header.digest_eq_ok hdigest).2
  obtain ⟨header, hheader, hblock⟩ := hoffered.header hp hprepared hdigest hwriting
  refine ⟨hoffered.triage hframed.committee hauthor hview, header, hheader, ?_⟩
  rw [← hblock]
  exact hoffered.check_eq_ok hp hprepared hx hdigest hwriting

end Own

/-- The fourth member among four takes the first fresh block. -/
theorem exists_accepted_fresh :
    ∃ accepted : JustifiedProposal, accepted.signed.payload.block = Four.fresh 0 ∧
      Four.check accepted = .ok (Four.digest (Four.fresh 0)) := by
  obtain ⟨⟨accepted, _⟩, -, hgood⟩ :
      ∃ x ∈ (run (Four.setup 3) Four.base Four.moment
          (Four.hears [Four.propose 1 0 (Four.fresh 0)])).now.round.accepted.toList,
        x.1.signed.payload.block = Four.fresh 0 ∧
          Four.check x.1 = .ok (Four.digest (Four.fresh 0)) := by
    decide +kernel
  exact ⟨accepted, hgood⟩

/-- A block among four that is proposed again passes the check of another member who gave up the
first round as well. -/
theorem reproposal_passes_iff_of_prepared :
    ∃ turns turns' m p,
      (m, p) ∈ (run (Four.setup 2) Four.base Four.moment turns).reproposals ∧
        (Message.proposal m).triage (Four.setup 3).scheme
          (run (Four.setup 3) Four.base Four.moment turns').now.position = .ok .accept ∧
        Four.check m = .ok (Four.digest (Four.fresh 0)) := by
  obtain ⟨accepted, hblock, haccepted⟩ := exists_accepted_fresh
  obtain ⟨⟨m, p⟩, hagain, hbody, hprepared, hwriting, hview⟩ :
      ∃ x ∈ (run (Four.setup 2) Four.base Four.moment (Four.succeeds (Four.fresh 0))).reproposals,
        x.2.block.body = (Four.fresh 0).body ∧
          x.2.block.header.digest Four.hash = .ok (Four.digest (Four.fresh 0)) ∧
            x.2.block.header.writing = (Four.fresh 0).header.writing ∧
              (run (Four.setup 3) Four.base Four.moment
                [⟨Four.moment, .expiry ⟨Four.base.height, 0⟩⟩]).now.view =
                  x.1.signed.payload.view := by
    decide +kernel
  have hscheme : (Four.setup 3).scheme = (Four.setup 2).scheme := rfl
  rw [← hblock] at hwriting
  obtain ⟨hadmitted, header, hheader, hpasses⟩ :=
    reproposal_passes_iff (Four.verify_sign 2 2) hscheme hagain hprepared haccepted
      (fun _ => hwriting) hview
  refine ⟨_, _, m, p, hagain, hadmitted, hpasses.mpr ?_⟩
  obtain ⟨-, -, hexecution, -⟩ := JustifiedProposal.check_eq_ok.mp haccepted
  have hsame : p.block.body = accepted.signed.payload.block.body := by
    rw [hblock]
    exact hbody
  rw [hsame]
  exact (Execution.check_withRound hexecution hheader _).mpr rfl

/-- The first proposer among four shows the prepares of all others with transactions that they have
never seen.  The second proposer proposes these, and nobody takes them. -/
theorem altered_reproposal_fails :
    ∃ turns turns' accepted m p,
      Four.check accepted = .ok (Four.digest (Four.fresh 0)) ∧
        (m, p) ∈ (run (Four.setup 2) Four.base Four.moment turns).reproposals ∧
          p.block.header = accepted.signed.payload.block.header ∧
            (run (Four.setup 3) Four.base Four.moment turns').now.view = m.signed.payload.view ∧
              Four.check m =
                .error (.badExecution (.invalidBlock "transactions root mismatch")) := by
  obtain ⟨accepted, hblock, haccepted⟩ := exists_accepted_fresh
  obtain ⟨⟨m, p⟩, hagain, hheader, hview, hfails⟩ :
      ∃ x ∈ (run (Four.setup 2) Four.base Four.moment (Four.succeeds Four.altered)).reproposals,
        x.2.block.header = (Four.fresh 0).header ∧
          (run (Four.setup 3) Four.base Four.moment
            [⟨Four.moment, .expiry ⟨Four.base.height, 0⟩⟩]).now.view = x.1.signed.payload.view ∧
            Four.check x.1 =
              .error (.badExecution (.invalidBlock "transactions root mismatch")) := by
    decide +kernel
  refine ⟨_, _, accepted, m, p, haccepted, hagain, ?_, hview, hfails⟩
  rw [hblock]
  exact hheader

end Record

end QuorumChain
