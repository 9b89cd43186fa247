import QuorumChain.Proofs.Chain.Identity
import QuorumChain.Proofs.Node.Evidence

/-!
# The invariant of a record

An instance keeps the base it was made for, counts credited votes of the present view only, holds a
supported certificate of no later round, and takes only grounded proposals.  Every move keeps all of
this, and so does a reset of the last round: a member that is there has asked for the round before,
so that its new request adds nothing.
-/

namespace QuorumChain

namespace Instance

variable {c : Context} {i : Instance} {block : Block} {certificate : Option RoundChangeCertificate}

theorem freshBlock_eq_ok :
    freshBlock c i = .ok (some block) ↔
      c.execution.createBlock i.parent i.parentDigest i.view.round i.committee
        (c.votes.offer i.committee) = .ok block := by
  rw [freshBlock]
  split
  · rename_i hcreate
    rw [hcreate, Except.ok.injEq, Option.some.injEq, Except.ok.injEq]
  · rename_i hcreate
    simp [hcreate]
  · rename_i hcreate
    simp [hcreate]

/-- A fresh block extends the parent. -/
theorem freshBlock_extends
    (h : freshBlock c i = .ok (some block)) :
    block.header.number = i.height ∧ block.header.parent = i.parentDigest := by
  obtain ⟨_, -, hstamp⟩ := Execution.createBlock_eq_ok.mp (freshBlock_eq_ok.mp h)
  exact ⟨Block.number_stamp hstamp, Block.parent_stamp hstamp⟩

/-- What the proposer of the present round may propose. -/
inductive Candidate (c : Context) (i : Instance) :
    Block → Option RoundChangeCertificate → Prop
  /-- A fresh block in round zero. -/
  | first {block : Block}
      (hround : i.view.round = 0)
      (hfresh : freshBlock c i = .ok (some block)) :
      Candidate c i block none
  /-- A fresh block above round zero: nobody who asked for the round is prepared. -/
  | fresh {block : Block} {rc : RoundChangeCertificate}
      (hround : i.view.round ≠ 0)
      (hrc : i.changes.certificate? i.view.round = some rc)
      (hnone : rc.latestPrepared = none)
      (hfresh : freshBlock c i = .ok (some block)) :
      Candidate c i block (some rc)
  /-- The latest prepared block once more. -/
  | again {rc : RoundChangeCertificate} {p : PreparedCertificate} {header : Header}
      (hround : i.view.round ≠ 0)
      (hrc : i.changes.certificate? i.view.round = some rc)
      (hp : rc.latestPrepared = some p)
      (hheader : p.block.header.withRound i.view.round = .ok header) :
      Candidate c i { p.block with header } (some rc)

theorem candidate_eq_ok :
    candidate c i = .ok (some (block, certificate)) ↔ Candidate c i block certificate := by
  rw [candidate]
  constructor
  · intro h
    by_cases hround : i.view.round = 0
    · simp only [if_pos hround, bind_eq_ok, pure_eq_ok, Option.map_eq_some_iff] at h
      obtain ⟨found, hfound, block', rfl, heq⟩ := h
      cases heq
      exact .first hround hfound
    · simp only [if_neg hround] at h
      cases hrc : i.changes.certificate? i.view.round with
      | none => simp [hrc] at h
      | some rc =>
          simp only [hrc] at h
          cases hlatest : rc.latestPrepared with
          | none =>
              simp only [hlatest, bind_eq_ok, pure_eq_ok, Option.map_eq_some_iff] at h
              obtain ⟨found, hfound, block', rfl, heq⟩ := h
              cases heq
              exact .fresh hround hrc hlatest hfound
          | some p =>
              simp only [hlatest, bind_eq_ok, pure_eq_ok, mapError_eq_ok, Option.some.injEq,
                Prod.mk.injEq] at h
              obtain ⟨header, hheader, rfl, rfl⟩ := h
              exact .again hround hrc hlatest hheader
  · intro h
    cases h with
    | first hround hfresh => simp [hround, hfresh, bind, Except.bind, pure, Except.pure]
    | fresh hround hrc hnone hfresh =>
        simp [hround, hrc, hnone, hfresh, bind, Except.bind, pure, Except.pure]
    | again hround hrc hp hheader =>
        simp [hround, hrc, hp, hheader, mapError_ok, bind, Except.bind, pure, Except.pure]

/-- A candidate above round zero comes with a certificate whose latest prepared block, if there
is one, it repeats. -/
theorem Candidate.justified
    (h : Candidate c i block certificate) (hround : i.view.round ≠ 0) :
    ∃ rc, certificate = some rc ∧ i.changes.certificate? i.view.round = some rc ∧
      ∀ p, rc.latestPrepared = some p →
        block.header.digest c.scheme.hash = p.block.header.digest c.scheme.hash := by
  cases h with
  | first hzero => exact absurd hzero hround
  | fresh _ hrc hnone =>
      refine ⟨_, rfl, hrc, ?_⟩
      intro p hp
      rw [hnone] at hp
      contradiction
  | again _ hrc hp hheader =>
      refine ⟨_, rfl, hrc, ?_⟩
      intro p' hp'
      rw [hp] at hp'
      cases hp'
      exact Header.digest_withRound _ hheader

/-- A candidate lists the committee or is proposed again. -/
theorem Candidate.listed
    (h : Candidate c i block certificate) :
    (∃ x, block.header.extraData = .ok x ∧ x.validators = i.committee.members) ∨
      (i.view.round ≠ 0 ∧ ∃ rc p, certificate = some rc ∧ rc.latestPrepared = some p) := by
  cases h with
  | first _ hfresh =>
      exact .inl ⟨_, Execution.extraData_createBlock (freshBlock_eq_ok.mp hfresh), rfl⟩
  | fresh _ _ _ hfresh =>
      exact .inl ⟨_, Execution.extraData_createBlock (freshBlock_eq_ok.mp hfresh), rfl⟩
  | again hround _ hp => exact .inr ⟨hround, _, _, rfl, hp⟩

end Instance

namespace Record

/-- The instance is one of the base and of the node. -/
structure Framed (s : Setup) (b : Base) (i : Instance) : Prop where
  parent : i.parent = b.parent
  parentDigest : i.parentDigest = b.parentDigest
  committee : i.committee = b.committee
  self : i.self = s.signer.address
  height : i.view.height = b.height
  roundQuorum : i.round.quorum = b.committee.quorum
  changesQuorum : i.changes.quorum = b.committee.quorum

/-- What the node counts, keeps and accepts is credited, supported and grounded. -/
structure Sound (s : Setup) (b : Base) (r : Record) : Prop where
  framed : Framed s b r.now
  prepares : ∀ x ∈ r.now.round.prepares.entries,
    x.1 = x.2.author ∧ x.2.payload.view = r.now.view ∧ r.Credits s b x.2
  commits : ∀ x ∈ r.now.round.commits.entries,
    x.1 = x.2.author ∧ x.2.payload.view = r.now.view ∧ r.Credits s b x.2
  changes : ∀ round, ∀ x ∈ (r.now.changes.forRound round).entries,
    x.1 = x.2.author ∧ x.2.payload.view = ⟨b.height, round⟩ ∧ r.Upholds s b x.2
  prepared : ∀ c, r.now.prepared = some c →
    c.view.round ≤ r.now.view.round ∧ ∃ d, r.Supports s b c d
  accepted : ∀ m d, r.now.round.accepted = some (m, d) →
    m.signed.payload.view = r.now.view ∧ r.Grounds s b m d

variable {s : Setup} {b : Base} {r : Record} {moment : Setup.Moment} {actions : List Action}
  {i j : Instance}

theorem framed_fresh (s : Setup) (b : Base) : Framed s b (b.fresh s) :=
  ⟨rfl, rfl, rfl, rfl, rfl, rfl, rfl⟩

theorem Framed.move
    {heard : List Input} (h : Framed s b i)
    (hmove : Instance.Move (s.context moment) heard i actions j) : Framed s b j := by
  obtain ⟨hparent, hdigest, hcommittee, hself⟩ := hmove.base
  have hquorum := hmove.quorum (h.committee.symm ▸ h.roundQuorum)
    (h.committee.symm ▸ h.changesQuorum)
  have hheight : j.view.height = i.view.height := by
    rcases hmove.lasts_or_rises with hlasts | hrises
    · rw [hlasts.view]
    · exact hrises.height
  have hbase : j.committee = b.committee := hcommittee.trans h.committee
  exact ⟨hparent.trans h.parent, hdigest.trans h.parentDigest, hbase, hself.trans h.self,
    hheight.trans h.height, hbase ▸ hquorum.1, hbase ▸ hquorum.2⟩

theorem Framed.requesting
    (h : Framed s b i) (m : Signed RoundChange) : Framed s b (i.requesting m) :=
  { h with changesQuorum := (RoundChanges.quorum_add _ m).trans h.changesQuorum }

theorem Framed.entering
    (h : Framed s b i) {view : View} (hheight : view.height = b.height) :
    Framed s b (i.entering view) :=
  { h with height := hheight, roundQuorum := congrArg Committee.quorum h.committee }

theorem Framed.departs
    {round : UInt32} (h : Framed s b i)
    (hdeparts : Instance.Departs (s.context moment) i round actions j) : Framed s b j := by
  cases hdeparts with
  | silently => exact h.entering h.height
  | announced m => exact (h.requesting m).entering h.height

theorem Framed.member (h : Framed s b i) (hmember : i.isMember = true) :
    s.signer.address ∈ b.committee.members := by
  rw [Instance.isMember, h.committee, h.self, Committee.contains, List.contains_iff_mem]
    at hmember
  exact hmember

/-- A vote of the node's own, cast as a member, is credited. -/
theorem Framed.credits_own
    {P : Type} [Payload P] [Carried P] {m : Signed P} (h : Framed s b i)
    (hmember : i.isMember = true) (hauthor : m.author = s.signer.address)
    (hsent : .broadcast (Carried.message m) ∈ r.made) : r.Credits s b m := by
  refine ⟨?_, .inr hsent⟩
  rw [hauthor]
  exact h.member hmember

theorem Framed.position_committee (h : Framed s b i) : i.position.committee = b.committee :=
  h.committee

/-- The record behind a move. -/
def moved (r : Record) (j : Instance) (actions : List Action) : Record :=
  { r with now := j, made := r.made ++ actions }

theorem extends_moved (r : Record) (j : Instance) (actions : List Action) :
    r.Extends (r.moved j actions) :=
  ⟨fun _ hx => hx, fun _ ha => List.mem_append_left _ ha⟩

theorem mem_moved
    {a : Action} (ha : a ∈ actions) : a ∈ (r.moved j actions).made :=
  List.mem_append_right _ ha

/-! ## One move -/

/-- A quorum of prepares for the proposal in force supports it. -/
theorem Sound.supports_matching
    {m : JustifiedProposal} {d : Digest} (h : Sound s b r)
    (haccepted : r.now.round.accepted = some (m, d))
    (hquorum : r.now.round.hasPreparedQuorum = true) :
    r.Supports s b ⟨m.signed, r.now.round.matchingPrepares⟩ d := by
  obtain ⟨hview, hgrounds⟩ := h.accepted m d haccepted
  have hdigest : r.now.round.digest = some d := Round.digest_eq_some.mpr ⟨m, haccepted⟩
  have hmatching : ∀ p ∈ r.now.round.matchingPrepares,
      p.payload = ⟨r.now.view, d⟩ ∧ r.Credits s b p := by
    intro p hp
    obtain ⟨hmem, hfor⟩ := List.mem_filter.mp hp
    obtain ⟨k, hentry⟩ := SortedMap.mem_values.mp hmem
    obtain ⟨-, hpview, hcredits⟩ := h.prepares _ hentry
    rw [hdigest, beq_iff_eq, Option.some.injEq] at hfor
    refine ⟨?_, hcredits⟩
    rw [← hfor, ← hpview]
  rw [Round.hasPreparedQuorum, Bool.and_eq_true, decide_eq_true_eq] at hquorum
  refine ⟨?_, hgrounds.digest, ?_, fun p hp => (hmatching p hp).2, ?_, ?_⟩
  · show m.signed.payload.view.height = b.height
    rw [hview, h.framed.height]
  · intro p hp
    show p.payload = ⟨m.signed.payload.view, d⟩
    rw [hview]
    exact (hmatching p hp).1
  · have hnodup := SortedMap.nodup_map_values (f := fun p : Signed Prepare => p.author)
      fun x hx => (h.prepares x hx).1
    exact hnodup.sublist (List.filter_sublist.map _)
  · rw [← h.framed.roundQuorum]
    exact hquorum.2

/-- The requests for a round justify it. -/
theorem Sound.justifies
    {round : UInt32} {rc : RoundChangeCertificate} {credible : Signed RoundChange → Prop}
    (h : Sound s b r) (hrc : r.now.changes.certificate? round = some rc)
    (hcredible : ∀ x ∈ (r.now.changes.forRound round).entries, credible x.2) :
    rc.Justifies b.committee credible ⟨b.height, round⟩ := by
  obtain ⟨hrequests, hquorum⟩ := RoundChanges.certificate?_eq_some hrc
  have hentry : ∀ q ∈ rc.requests, ∃ k, (k, q) ∈ (r.now.changes.forRound round).entries := by
    intro q hq
    rw [hrequests] at hq
    exact SortedMap.mem_values.mp hq
  refine ⟨?_, ?_, ?_, ?_⟩
  · intro q hq
    obtain ⟨k, hk⟩ := hentry q hq
    exact (h.changes round _ hk).2.1
  · intro q hq
    obtain ⟨k, hk⟩ := hentry q hq
    exact hcredible _ hk
  · rw [hrequests]
    exact SortedMap.nodup_map_values fun x hx => (h.changes round x hx).1
  · rw [← h.framed.changesQuorum]
    exact hquorum

theorem Sound.of_matchingCommits
    {p : Signed Commit} (h : Sound s b r) (hp : p ∈ r.now.round.matchingCommits) :
    (p.author, p) ∈ r.now.round.commits.entries ∧ some p.payload.digest = r.now.round.digest ∧
      p.payload.view = r.now.view ∧ r.Credits s b p := by
  obtain ⟨hmem, hdigest⟩ := List.mem_filter.mp hp
  obtain ⟨k, hentry⟩ := SortedMap.mem_values.mp hmem
  obtain ⟨hkey, hview, hcredits⟩ := h.commits _ hentry
  dsimp only at hkey
  subst hkey
  exact ⟨hentry, beq_iff_eq.mp hdigest, hview, hcredits⟩

theorem Sound.nodup_matchingCommits (h : Sound s b r) :
    (r.now.round.matchingCommits.map (·.author)).Nodup :=
  (SortedMap.nodup_map_values (f := fun p : Signed Commit => p.author)
    fun x hx => (h.commits x hx).1).sublist (List.filter_sublist.map _)

variable (h : Sound s b r) (hmove : Instance.Move (s.context moment) r.heard r.now actions j)

include h hmove

theorem Sound.prepares_moved :
    ∀ x ∈ j.round.prepares.entries,
      x.1 = x.2.author ∧ x.2.payload.view = j.view ∧ (r.moved j actions).Credits s b x.2 := by
  intro x hx
  obtain ⟨hview, hx⟩ := hmove.of_counted hx
  rw [hview]
  rcases hx with hx | ⟨m, rfl, ⟨hheard, hadmitted⟩ | hown⟩
  · obtain ⟨hkey, hpresent, hcredits⟩ := h.prepares x hx
    exact ⟨hkey, hpresent, hcredits.mono (r.extends_moved j actions)⟩
  · have hpresent := Message.view_of_admitted hadmitted (by simp [Message.kind])
    obtain ⟨hcheck, -⟩ := Message.triage_eq_accept hadmitted
    rw [h.framed.position_committee] at hcheck
    exact ⟨rfl, hpresent, credits_of_check hheard (List.mem_singleton_self m) hcheck⟩
  · obtain ⟨_, d, hmember, -, hp, -⟩ := hmove.of_prepare hown
    obtain ⟨-, hpayload, hauthor, -⟩ := Signer.prepare_eq_ok hp
    refine ⟨rfl, by rw [hpayload], h.framed.credits_own hmember hauthor (mem_moved hown)⟩

theorem Sound.commits_moved :
    ∀ x ∈ j.round.commits.entries,
      x.1 = x.2.author ∧ x.2.payload.view = j.view ∧ (r.moved j actions).Credits s b x.2 := by
  intro x hx
  obtain ⟨hview, hx⟩ := hmove.of_committed hx
  rw [hview]
  rcases hx with hx | ⟨m, rfl, ⟨hheard, hadmitted⟩ | hown⟩
  · obtain ⟨hkey, hpresent, hcredits⟩ := h.commits x hx
    exact ⟨hkey, hpresent, hcredits.mono (r.extends_moved j actions)⟩
  · have hpresent := Message.view_of_admitted hadmitted (by simp [Message.kind])
    obtain ⟨hcheck, -⟩ := Message.triage_eq_accept hadmitted
    rw [h.framed.position_committee] at hcheck
    exact ⟨rfl, hpresent, credits_of_check hheard (List.mem_singleton_self m) hcheck⟩
  · obtain ⟨_, d, hmember, -, -, hp, -⟩ := hmove.of_commit hown
    obtain ⟨-, hpayload, hauthor, -⟩ := Signer.commit_eq_ok hp
    refine ⟨rfl, by rw [hpayload], h.framed.credits_own hmember hauthor (mem_moved hown)⟩

theorem Sound.changes_moved :
    ∀ round, ∀ x ∈ (j.changes.forRound round).entries,
      x.1 = x.2.author ∧ x.2.payload.view = ⟨b.height, round⟩ ∧
        (r.moved j actions).Upholds s b x.2 := by
  intro round x hx
  rcases hmove.of_requested hx with hx | ⟨q, rfl, rfl, ⟨hheard, hadmitted⟩ | hown⟩
  · obtain ⟨hkey, hview, hupholds⟩ := h.changes round x hx
    exact ⟨hkey, hview, hupholds.mono (r.extends_moved j actions)⟩
  · obtain ⟨hcheck, hpayload, hheight⟩ := Message.admitted_request hadmitted
    rw [h.framed.position_committee] at hcheck hpayload
    refine ⟨rfl, View.eq_of_eq (hheight.trans h.framed.height) rfl, ?_⟩
    exact upholds_of_check hheard (List.mem_singleton_self q) (fun p hp => hp) hcheck hpayload
  · obtain ⟨target, hmember, hlater, -, hq, -⟩ := hmove.of_request hown
    obtain ⟨-, hpayload, hauthor, -⟩ := Signer.roundChange_eq_ok hq
    have hheight : q.payload.view.height = b.height := by
      rw [hpayload]
      exact h.framed.height
    refine ⟨rfl, View.eq_of_eq hheight rfl,
      h.framed.credits_own hmember hauthor (mem_moved hown), ?_⟩
    intro c hc
    rw [hpayload] at hc
    obtain ⟨hround, d, hsupports⟩ := h.prepared c hc
    rw [hheight]
    refine ⟨?_, d, hsupports.mono (r.extends_moved j actions)⟩
    rw [hpayload]
    exact UInt32.lt_of_le_of_lt hround hlater

theorem Sound.prepared_moved :
    ∀ c, j.prepared = some c →
      c.view.round ≤ j.view.round ∧ ∃ d, (r.moved j actions).Supports s b c d := by
  intro c hc
  rcases hmove.of_prepared hc with hc | ⟨m, d, haccepted, hquorum, hview, rfl⟩
  · obtain ⟨hround, d, hsupports⟩ := h.prepared c hc
    refine ⟨?_, d, hsupports.mono (r.extends_moved j actions)⟩
    rcases hmove.lasts_or_rises with hlasts | hrises
    · rw [hlasts.view]
      exact hround
    · exact UInt32.le_trans hround (UInt32.le_of_lt hrises.later)
  · refine ⟨?_, d, (h.supports_matching haccepted hquorum).mono (r.extends_moved j actions)⟩
    show m.signed.payload.view.round ≤ j.view.round
    rw [(h.accepted m d haccepted).1, hview]
    exact UInt32.le_refl _

theorem Sound.grounds_own
    {m : JustifiedProposal} (hm : .broadcast (.proposal m) ∈ actions) :
    ∃ d, j.round.accepted = some (m, d) ∧ j.view = r.now.view ∧
      m.signed.payload.view = r.now.view ∧ (r.moved j actions).Grounds s b m d := by
  obtain ⟨block, certificate, d, p, -, -, hcandidate, hdigest, hsigned, rfl⟩ :=
    hmove.of_proposal hm
  obtain ⟨-, hpayload, hjustification, -⟩ := Signer.proposal_eq_ok hsigned
  have hcandidate := Instance.candidate_eq_ok.mp hcandidate
  have hview : m.signed.payload.view = r.now.view := by rw [hpayload]
  have hblock : m.signed.payload.block = block := by rw [hpayload]
  refine ⟨d, rfl, rfl, hview, .inr (mem_moved hm), by rw [hblock]; exact hdigest, ?_, ?_⟩
  · rw [hblock, hview, hjustification, ← h.framed.committee]
    exact hcandidate.listed
  · intro hround
    rw [hview] at hround ⊢
    obtain ⟨rc, rfl, hcertificate, hlatest⟩ := hcandidate.justified hround
    refine ⟨rc, hjustification, ?_, ?_⟩
    · have hview' : r.now.view = ⟨b.height, r.now.view.round⟩ :=
        View.eq_of_eq h.framed.height rfl
      rw [hview']
      apply h.justifies hcertificate
      intro x hx
      exact (h.changes _ x hx).2.2.mono (r.extends_moved _ actions)
    · intro p hp
      exact (hlatest p hp).symm.trans hdigest

theorem Sound.accepted_moved :
    ∀ m d, j.round.accepted = some (m, d) →
      m.signed.payload.view = j.view ∧ (r.moved j actions).Grounds s b m d := by
  intro m d hj
  rcases hmove.of_accepted hj with hold | ⟨hheard, hadmitted, hcheck⟩ | hown
  · obtain ⟨hview, hgrounds⟩ := h.accepted m d hold
    refine ⟨?_, hgrounds.mono (r.extends_moved j actions)⟩
    rcases hmove.lasts_or_rises with hlasts | hrises
    · rw [hview, hlasts.view]
    · rw [hrises.accepted] at hj
      contradiction
  · have hpresent := Message.view_of_admitted hadmitted (by simp [Message.kind])
    rw [h.framed.parent, h.framed.parentDigest, h.framed.committee] at hcheck
    refine ⟨?_, grounds_of_passes hheard (JustifiedProposal.passes_of_check hcheck)⟩
    rcases hmove.lasts_or_rises with hlasts | hrises
    · rw [hlasts.view]
      exact hpresent
    · rw [hrises.accepted] at hj
      contradiction
  · obtain ⟨d', haccepted, hview, hpresent, hgrounds⟩ := h.grounds_own hmove hown
    rw [haccepted] at hj
    cases hj
    exact ⟨hpresent.trans hview.symm, hgrounds⟩

omit h hmove

/-- Entering the present round once more forgets its votes and the proposal in force. -/
theorem Sound.entering
    (h : Sound s b r) : Sound s b (r.moved (r.now.entering r.now.view) actions) where
  framed := h.framed.entering h.framed.height
  prepares x hx := absurd hx List.not_mem_nil
  commits x hx := absurd hx List.not_mem_nil
  changes round x hx := by
    obtain ⟨hkey, hview, hupholds⟩ := h.changes round x (RoundChanges.mem_forRound_dropBelow hx)
    exact ⟨hkey, hview, hupholds.mono (r.extends_moved _ actions)⟩
  prepared c hc := by
    obtain ⟨hround, d, hsupports⟩ := h.prepared c hc
    exact ⟨hround, d, hsupports.mono (r.extends_moved _ actions)⟩
  accepted m d hm := by contradiction

/-! ## Every attainable record -/

theorem Attainable.framed (hr : Attainable s b r) : Framed s b r.now := by
  induction hr with
  | idle => exact framed_fresh s b
  | opened moment => exact framed_fresh s b
  | hear input _ ih => exact ih
  | move _ hmove ih => exact ih.move hmove
  | reset _ _ _ hdeparts ih => exact ih.departs hdeparts

/-- A member in a round above zero has asked for it. -/
theorem Attainable.asks
    (hr : Attainable s b r) (hmember : r.now.isMember = true) (hround : r.now.view.round ≠ 0) :
    ∃ q, (r.now.self, q) ∈ (r.now.changes.forRound r.now.view.round).entries := by
  induction hr with
  | idle => exact absurd rfl hround
  | opened moment => exact absurd rfl hround
  | hear input _ ih => exact ih hmember hround
  | move hr hmove ih =>
      obtain ⟨-, -, hcommittee, hself⟩ := hmove.base
      rw [Instance.isMember, hcommittee, hself] at hmember
      rw [hself]
      exact hmove.requested hr.framed.self.symm hmember hround (ih hmember)
  | reset hr _ _ hdeparts _ =>
      obtain ⟨hcommittee, hself⟩ := hdeparts.base
      rw [Instance.isMember, hcommittee, hself] at hmember
      rw [hself]
      exact hdeparts.requested hr.framed.self.symm hmember

theorem sound_fresh (s : Setup) (b : Base) (heard : List Input) (made : List Action) :
    Sound s b ⟨b.fresh s, heard, made⟩ where
  framed := framed_fresh s b
  prepares x hx := absurd hx List.not_mem_nil
  commits x hx := absurd hx List.not_mem_nil
  changes round x hx := absurd hx List.not_mem_nil
  prepared c hc := by contradiction
  accepted m d hm := by contradiction

theorem Sound.mono
    {r' : Record} (h : Sound s b r) (hnow : r'.now = r.now) (hle : r.Extends r') :
    Sound s b r' where
  framed := hnow ▸ h.framed
  prepares x hx := by
    rw [hnow] at hx ⊢
    obtain ⟨hkey, hview, hcredits⟩ := h.prepares x hx
    exact ⟨hkey, hview, hcredits.mono hle⟩
  commits x hx := by
    rw [hnow] at hx ⊢
    obtain ⟨hkey, hview, hcredits⟩ := h.commits x hx
    exact ⟨hkey, hview, hcredits.mono hle⟩
  changes round x hx := by
    rw [hnow] at hx
    obtain ⟨hkey, hview, hupholds⟩ := h.changes round x hx
    exact ⟨hkey, hview, hupholds.mono hle⟩
  prepared c hc := by
    rw [hnow] at hc ⊢
    obtain ⟨hround, d, hsupports⟩ := h.prepared c hc
    exact ⟨hround, d, hsupports.mono hle⟩
  accepted m d hm := by
    rw [hnow] at hm ⊢
    obtain ⟨hview, hgrounds⟩ := h.accepted m d hm
    exact ⟨hview, hgrounds.mono hle⟩

/-- Every move keeps the invariant. -/
theorem Sound.move
    (h : Sound s b r) (hmove : Instance.Move (s.context moment) r.heard r.now actions j) :
    Sound s b (r.moved j actions) where
  framed := h.framed.move hmove
  prepares := h.prepares_moved hmove
  commits := h.commits_moved hmove
  changes := h.changes_moved hmove
  prepared := h.prepared_moved hmove
  accepted := h.accepted_moved hmove

/-- A reset of the last round changes nothing but the round. -/
theorem Attainable.eq_entering
    (hr : Attainable s b r) (hlast : r.now.view.round = View.lastRound)
    (hdeparts : Instance.Departs (s.context moment) r.now r.now.view.round actions j) :
    j = r.now.entering r.now.view := by
  refine hdeparts.eq_entering hr.framed.self.symm fun hmember => hr.asks hmember ?_
  rw [hlast]
  decide

/-- Every attainable record satisfies the invariant. -/
theorem Attainable.sound (hr : Attainable s b r) : Sound s b r := by
  induction hr with
  | idle => exact sound_fresh s b [] []
  | opened moment => exact sound_fresh s b [] _
  | hear input _ ih => exact ih.mono rfl ⟨fun _ hx => List.mem_cons_of_mem _ hx, fun _ ha => ha⟩
  | move _ hmove ih => exact ih.move hmove
  | reset hr hlast _ hdeparts ih =>
      rw [hr.eq_entering hlast hdeparts]
      exact ih.entering

theorem Reachable.sound (hr : Reachable s b r) : Sound s b r :=
  hr.attainable.sound

end Record

end QuorumChain
