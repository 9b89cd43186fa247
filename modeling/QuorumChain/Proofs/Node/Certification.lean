import QuorumChain.Proofs.Node.Four
import QuorumChain.Proofs.Node.Log

/-!
# What a node can show

A node builds certificates from votes that it has counted on different ways: its own are never
checked, others arrive before the proposal or after it.  Others check a certificate as a whole.  The
two agree: as long as the node's own signatures verify, each certificate it holds passes the check,
and so does the block that it would propose again.
-/

namespace QuorumChain

namespace Instance

/-- The block of a latest prepared certificate whose extra-data can be read is proposed again. -/
theorem exists_candidate
    {rc : RoundChangeCertificate} {p : PreparedCertificate} {x : ExtraData} (round : UInt32)
    (hround : round ≠ 0) (hp : rc.latestPrepared = some p)
    (hx : p.block.header.extraData = .ok x) :
    ∃ header, p.block.header.withRound round = .ok header ∧
      ∀ (c : Context) (i : Instance), i.view.round = round →
        i.changes.certificate? round = some rc →
          candidate c i = .ok (some ({ p.block with header }, some rc)) := by
  obtain ⟨header, hheader⟩ := Header.exists_withRound hx round
  refine ⟨header, hheader, ?_⟩
  intro c i hview hrc
  subst hview
  exact candidate_eq_ok.mpr (.again hround hrc hp hheader)

end Instance

namespace Record

/-- What the node could show passes the checks of others: the proposal in force is the
proposer's, the certificate that it holds is good, and so are the requests for each round. -/
structure Presentable (s : Setup) (b : Base) (r : Record) : Prop where
  accepted : ∀ m d, r.now.round.accepted = some (m, d) →
    m.signed.check s.scheme b.committee = .ok () ∧
      m.signed.author = b.committee.proposer m.signed.payload.view ∧
        m.signed.payload.block.header.number = b.height
  prepared : ∀ c, r.now.prepared = some c →
    ∃ d, c.check s.scheme b.committee b.height = .ok d
  changes : ∀ round, ∀ x ∈ (r.now.changes.forRound round).entries,
    x.2.check s.scheme b.committee = .ok () ∧ x.2.payload.check s.scheme b.committee = .ok ()

variable {s : Setup} {b : Base} {r : Record} {moment : Setup.Moment} {turns : List Turn}
  {actions : List Action} {j : Instance}

theorem presentable_fresh (s : Setup) (b : Base) (heard : List Input) (made : List Action) :
    Presentable s b ⟨b.fresh s, heard, made⟩ where
  accepted m d hm := by contradiction
  prepared c hc := by contradiction
  changes round x hx := absurd hx List.not_mem_nil

/-- Entering the present round once more adds nothing that could be shown. -/
theorem Presentable.entering
    (h : r.Presentable s b) : (r.moved (r.now.entering r.now.view) actions).Presentable s b where
  accepted m d hm := by contradiction
  prepared := h.prepared
  changes round x hx := h.changes round x (RoundChanges.mem_forRound_dropBelow hx)

/-! ## Certificates for a round -/

theorem Presentable.check_certificate
    {round : UInt32} {rc : RoundChangeCertificate} (h : r.Presentable s b)
    (hsound : Sound s b r) (hrc : r.now.changes.certificate? round = some rc) :
    rc.check s.scheme b.committee ⟨b.height, round⟩ = .ok () :=
  RoundChangeCertificate.check_eq_ok.mpr (hsound.justifies hrc (h.changes round))

/-- A candidate for a proposal has the number of the height. -/
theorem Presentable.number_candidate
    {block : Block} {certificate : Option RoundChangeCertificate} (h : r.Presentable s b)
    (hsound : Sound s b r)
    (hcandidate : Instance.Candidate (s.context moment) r.now block certificate) :
    block.header.number = b.height := by
  have hfresh : ∀ {block : Block},
      Instance.freshBlock (s.context moment) r.now = .ok (some block) →
        block.header.number = b.height := by
    intro block hblock
    rw [(Instance.freshBlock_extends hblock).1, Instance.height, hsound.framed.parent]
    rfl
  cases hcandidate with
  | first _ hblock => exact hfresh hblock
  | fresh _ _ _ hblock => exact hfresh hblock
  | again _ hrc hp hheader =>
      have hcheck := h.check_certificate hsound hrc
      obtain ⟨-, d, hgood⟩ := RoundChangeCertificate.check_latestPrepared hcheck hp
      obtain ⟨-, -, hnumber, -⟩ := PreparedCertificate.check_eq_ok.mp hgood
      obtain ⟨x, bytes, -, -, rfl⟩ := Header.withRound_eq_ok hheader
      exact hnumber

/-! ## One move -/

section Own

variable (hown : ∀ d, s.scheme.verify s.signer.address d (s.signer.sign d) = true)

include hown

/-- A vote that the node goes by passes its check, also if it is the node's own. -/
theorem Attainable.check_of_credits
    {P : Type} [Payload P] [Carried P] [LawfulCarried P] {m : Signed P} (hr : Attainable s b r)
    (h : r.Credits s b m) : m.check s.scheme b.committee = .ok () := by
  obtain ⟨-, ⟨message, -, -, hcheck⟩ | hsent⟩ := h
  · exact hcheck
  · rw [← LawfulCarried.authenticate]
    exact (hr.authored hsent).authenticate rfl hown

section Move

variable (hr : Attainable s b r) (h : r.Presentable s b)
  (hmove : Instance.Move (s.context moment) r.heard r.now actions j)

include hr h hmove

theorem Presentable.accepted_moved :
    ∀ m d, j.round.accepted = some (m, d) →
      m.signed.check s.scheme b.committee = .ok () ∧
        m.signed.author = b.committee.proposer m.signed.payload.view ∧
          m.signed.payload.block.header.number = b.height := by
  intro m d hj
  have hframed := hr.framed
  rcases hmove.of_accepted hj with hold | ⟨hheard, hadmitted, -⟩ | hsent
  · exact h.accepted m d hold
  · obtain ⟨hauthor, horigin, -, -⟩ := Message.triage_eq_accept hadmitted
    have hview := Message.view_of_admitted hadmitted (by simp [Message.kind])
    rw [hframed.position_committee] at hauthor horigin
    simp only [Message.checkOrigin, bind_eq_ok, require_eq_ok, beq_iff_eq] at horigin
    obtain ⟨_, hproposer, hnumber⟩ := horigin
    refine ⟨hauthor, hproposer.symm, hnumber.trans ?_⟩
    change m.signed.payload.view = r.now.view at hview
    rw [hview]
    exact hframed.height
  · -- Nobody has checked the node's own proposal: it is good by the way it was made.
    have hauthored := hframed.authored hmove hsent
    obtain ⟨block, certificate, _, _, hproposer, -, hcandidate, -, hsigned, -⟩ :=
      hmove.of_proposal hsent
    obtain ⟨-, hpayload, -, hauthor, -⟩ := Signer.proposal_eq_ok hsigned
    rw [Instance.isProposer, Bool.and_eq_true, beq_iff_eq, hframed.committee, hframed.self]
      at hproposer
    refine ⟨hauthored.authenticate rfl hown, ?_, ?_⟩
    · rw [hauthor, hpayload]
      exact hproposer.2.symm
    · rw [hpayload]
      exact h.number_candidate hr.sound (Instance.candidate_eq_ok.mp hcandidate)

theorem Presentable.prepared_moved :
    ∀ c, j.prepared = some c → ∃ d, c.check s.scheme b.committee b.height = .ok d := by
  intro c hc
  rcases hmove.of_prepared hc with hold | ⟨m, d, haccepted, hquorum, -, rfl⟩
  · exact h.prepared c hold
  · obtain ⟨hsigned, hauthor, hnumber⟩ := h.accepted m d haccepted
    have hsupports := hr.sound.supports_matching haccepted hquorum
    refine ⟨d, PreparedCertificate.check_eq_ok.mpr ⟨hsigned, hauthor, hnumber, ?_⟩⟩
    exact PreparedCertificate.Backs.mono hsupports
      fun p _ hcredits => hr.check_of_credits hown hcredits

theorem Presentable.changes_moved :
    ∀ round, ∀ x ∈ (j.changes.forRound round).entries,
      x.2.check s.scheme b.committee = .ok () ∧
        x.2.payload.check s.scheme b.committee = .ok () := by
  intro round x hx
  have hframed := hr.framed
  rcases hmove.of_requested hx with hold | ⟨q, rfl, rfl, ⟨-, hadmitted⟩ | hsent⟩
  · exact h.changes round x hold
  · obtain ⟨hcheck, hpayload, -⟩ := Message.admitted_request hadmitted
    rw [hframed.position_committee] at hcheck hpayload
    exact ⟨hcheck, hpayload⟩
  · -- The node's own request carries the certificate that it holds, of an earlier round.
    obtain ⟨target, -, hlater, -, hsigned, -⟩ := hmove.of_request hsent
    obtain ⟨-, hpayload, -⟩ := Signer.roundChange_eq_ok hsigned
    refine ⟨(hframed.authored hmove hsent).authenticate rfl hown, ?_⟩
    rw [hpayload]
    refine RoundChange.check_eq_ok.mpr ?_
    intro c hc
    obtain ⟨d, hcheck⟩ := h.prepared c hc
    refine ⟨UInt32.lt_of_le_of_lt (hr.sound.prepared c hc).1 hlater, d, ?_⟩
    rw [← hframed.height] at hcheck
    exact hcheck

theorem Presentable.move : (r.moved j actions).Presentable s b where
  accepted := h.accepted_moved hown hr hmove
  prepared := h.prepared_moved hown hr hmove
  changes := h.changes_moved hown hr hmove

end Move

/-! ## All runs -/

theorem Attainable.presentable (hr : Attainable s b r) : r.Presentable s b := by
  induction hr with
  | idle => exact presentable_fresh s b [] []
  | opened moment => exact presentable_fresh s b [] _
  | hear input _ ih => exact ⟨ih.accepted, ih.prepared, ih.changes⟩
  | move hr hmove ih => exact ih.move hown hr hmove
  | reset hr hlast _ hdeparts ih =>
      rw [hr.eq_entering hlast hdeparts]
      exact ih.entering

/-- The certificates that a node holds pass their checks: the latest prepared one, and those for
rounds above zero; and the block that would be proposed again from one is the one that it
justifies. -/
theorem certificates_pass (b : Base) (moment : Setup.Moment) (turns : List Turn) :
    (∀ c, (run s b moment turns).now.prepared = some c →
      ∃ d, c.check s.scheme b.committee b.height = .ok d) ∧
    ∀ round rc, 0 < round → (run s b moment turns).now.changes.certificate? round = some rc →
      rc.check s.scheme b.committee ⟨b.height, round⟩ = .ok () ∧
        ∀ p, rc.latestPrepared = some p →
          ∃ block, rc.checkReproposal s.scheme.hash block = .ok () ∧
            ∀ (c : Context) (i : Instance), i.view.round = round →
              i.changes.certificate? round = some rc →
                Instance.candidate c i = .ok (some (block, some rc)) := by
  have hr := attainable_run s b moment turns
  have hpresentable := hr.presentable hown
  refine ⟨hpresentable.prepared, ?_⟩
  intro round rc hround hrc
  have hcheck := hpresentable.check_certificate hr.sound hrc
  refine ⟨hcheck, ?_⟩
  intro p hp
  obtain ⟨-, d, hgood⟩ := RoundChangeCertificate.check_latestPrepared hcheck hp
  have hdigest := (PreparedCertificate.backs_of_check hgood).digest
  obtain ⟨⟨x, hx⟩, -⟩ := Header.digest_eq_ok hdigest
  have hnonzero : round ≠ 0 := by
    rintro rfl
    exact absurd hround (UInt32.lt_irrefl _)
  obtain ⟨header, hheader, hcandidate⟩ := Instance.exists_candidate round hnonzero hp hx
  refine ⟨{ p.block with header }, ?_, hcandidate⟩
  refine RoundChangeCertificate.checkReproposal_eq_ok.mpr ?_
  intro p' hp'
  rw [hp] at hp'
  cases hp'
  exact ⟨d, hdigest, (Header.digest_withRound _ hheader).trans hdigest⟩

end Own

/-- The leader of the second round among four, who was prepared in the first one, holds
certificates of both kinds. -/
theorem certificates_pass_of_leader :
    ∃ turns c rc p,
      (run (Four.setup 2) Four.base Four.moment turns).now.prepared = some c ∧
        (run (Four.setup 2) Four.base Four.moment turns).now.changes.certificate? 1 = some rc ∧
          rc.latestPrepared = some p ∧
            (∃ d, c.check (Four.setup 2).scheme Four.committee Four.base.height = .ok d) ∧
              rc.check (Four.setup 2).scheme Four.committee ⟨Four.base.height, 1⟩ = .ok () ∧
                ∃ block, rc.checkReproposal Four.hash block = .ok () := by
  obtain ⟨turns, hends⟩ : ∃ turns,
      ((run (Four.setup 2) Four.base Four.moment turns).now.prepared.isSome &&
        ((run (Four.setup 2) Four.base Four.moment turns).now.changes.certificate? 1).any
          fun rc => rc.latestPrepared.isSome) = true :=
    ⟨Four.hears [Four.propose 1 0 (Four.fresh 0), Four.prepare 0 0 (Four.fresh 0),
        Four.prepare 1 0 (Four.fresh 0)] ++
      ⟨Four.moment, .expiry ⟨Four.base.height, 0⟩⟩ ::
        Four.hears [Four.request 0 1, Four.request 1 1], by decide +kernel⟩
  rw [Bool.and_eq_true, Option.isSome_iff_exists, Option.any_eq_true] at hends
  obtain ⟨⟨c, hc⟩, rc, hrc, hlatest⟩ := hends
  obtain ⟨p, hp⟩ := Option.isSome_iff_exists.mp hlatest
  obtain ⟨hprepared, hcertificates⟩ :=
    certificates_pass (s := Four.setup 2) (Four.verify_sign 2 2) Four.base Four.moment turns
  obtain ⟨hcheck, hrepeat⟩ := hcertificates 1 rc (by decide) hrc
  obtain ⟨block, hblock, -⟩ := hrepeat p hp
  exact ⟨turns, c, rc, p, hc, hrc, hp, hprepared c hc, hcheck, block, hblock⟩

end Record

end QuorumChain
