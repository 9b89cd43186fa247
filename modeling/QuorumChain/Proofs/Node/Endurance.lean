import Mathlib.Data.List.Perm.Subperm
import QuorumChain.Proofs.Message.Capacity
import QuorumChain.Proofs.Node.Log
import QuorumChain.Proofs.Node.Response

/-!
# Steps that cannot fail

A step fails only where something has to be written or read: a vote, a block with its seals or for
another round, a request with the certificate that it carries.  Whatever an instance has taken up
could be written by its author and was read by the instance, so it can be shown again.  Every move
keeps that, and under it only a fresh block may be too long for a message.  Where the committee and
the transactions that the execution engine comes up with are within the limits of the encoding, each
part of a step succeeds, whatever the message.
-/

namespace QuorumChain

open Wire

/-- What succeeds for each item and keeps a property succeeds for all of them. -/
theorem Step.exists_forEach
    {σ α : Type} {next : σ → α → Step σ} {p : σ → Prop} {items : List α}
    (hnext : ∀ s, p s → ∀ a ∈ items, ∃ t actions, next s a = .ok (t, actions) ∧ p t) {s : σ}
    (hs : p s) : ∃ t actions, forEach items next s = .ok (t, actions) ∧ p t := by
  induction items generalizing s with
  | nil => exact ⟨s, [], rfl, hs⟩
  | cons a rest ih =>
      obtain ⟨t, first, hfirst, ht⟩ := hnext s hs a List.mem_cons_self
      obtain ⟨u, second, hsecond, hu⟩ :=
        ih (fun s hs b hb => hnext s hs b (List.mem_cons_of_mem a hb)) ht
      refine ⟨u, first ++ second, ?_, hu⟩
      rw [forEach_cons]
      exact andThen_eq_ok.mpr ⟨t, first, second, hfirst, hsecond, rfl⟩

namespace RoundChangeCertificate

theorem mem_of_foldl_later
    {found : List PreparedCertificate} {start : Option PreparedCertificate}
    {best : PreparedCertificate} (h : found.foldl later start = some best) :
    start = some best ∨ best ∈ found := by
  induction found generalizing start with
  | nil => exact .inl h
  | cons p rest ih =>
      rcases ih h with hlater | hmem
      · cases start with
        | none =>
            cases hlater
            exact .inr List.mem_cons_self
        | some first =>
            rw [later] at hlater
            split at hlater
            · exact .inl hlater
            · cases hlater
              exact .inr List.mem_cons_self
      · exact .inr (List.mem_cons_of_mem p hmem)

/-- The latest prepared certificate is carried by a request. -/
theorem exists_of_latestPrepared
    {c : RoundChangeCertificate} {best : PreparedCertificate} (h : c.latestPrepared = some best) :
    ∃ q ∈ c.requests, q.payload.prepared = some best := by
  rcases mem_of_foldl_later h with hnone | hmem
  · contradiction
  · exact List.mem_filterMap.mp hmem

end RoundChangeCertificate

namespace Instance

/-- What an instance may have to show again can be written and read. -/
structure Robust (own : Address) (i : Instance) : Prop where
  self : i.self = own
  accepted : ∀ m d, i.round.accepted = some (m, d) → m.signed.payload.block.Sendable
  prepares : ∀ x ∈ i.round.prepares.entries, x.1 ∈ i.committee.members
  prepared : ∀ p, i.prepared = some p →
    p.block.Sendable ∧ p.prepares.length ≤ i.committee.size
  requests : ∀ round, ∀ x ∈ (i.changes.forRound round).entries,
    ∀ p, x.2.payload.prepared = some p → p.block.Sendable

variable {own : Address} {c : Context} {heard : List Input} {i j : Instance} {m : Message}
  {actions : List Action}

/-! ## What is taken up can be shown again -/

/-- A proposal that is admitted and passes its check can be made again. -/
theorem sendable_of_check
    {m : JustifiedProposal} {d : Digest}
    (hadmitted : (Message.proposal m).triage c.scheme i.position = .ok .accept)
    (hcheck : m.check c.scheme c.execution i.parent i.parentDigest i.committee = .ok d) :
    m.signed.payload.block.Sendable := by
  obtain ⟨hauthentic, -⟩ := Message.triage_eq_accept hadmitted
  obtain ⟨hwritable, -⟩ := Signed.check_eq_ok.mp hauthentic
  obtain ⟨-, -, -, hdigest⟩ := JustifiedProposal.check_eq_ok.mp hcheck
  exact ⟨Proposal.writable_iff.mp hwritable, (Header.digest_eq_ok hdigest).1⟩

/-- So can the block of a certificate that an admitted request carries. -/
theorem sendable_of_admitted
    {m : Signed RoundChange} {p : PreparedCertificate}
    (hadmitted : (Message.roundChange m).triage c.scheme i.position = .ok .accept)
    (hp : m.payload.prepared = some p) : p.block.Sendable := by
  obtain ⟨-, hpayload, -⟩ := Message.admitted_request hadmitted
  obtain ⟨-, d, hcheck⟩ := RoundChange.check_eq_ok.mp hpayload p hp
  obtain ⟨hsigned, -, -, hbacks⟩ := PreparedCertificate.check_eq_ok.mp hcheck
  obtain ⟨hwritable, -⟩ := Signed.check_eq_ok.mp hsigned
  exact ⟨Proposal.writable_iff.mp hwritable, (Header.digest_eq_ok hbacks.digest).1⟩

/-- The prepares for the block proposed are at most as many as the members. -/
theorem Robust.length_matchingPrepares_le
    (h : i.Robust own) : i.round.matchingPrepares.length ≤ i.committee.size := by
  have hsubset : i.round.prepares.entries.map (·.1) ⊆ i.committee.members := by
    intro a ha
    obtain ⟨x, hx, rfl⟩ := List.mem_map.mp ha
    exact h.prepares x hx
  have hlength := (List.subperm_of_subset i.round.prepares.nodup_keys hsubset).length_le
  rw [List.length_map] at hlength
  refine (List.length_filter_le _ _).trans ?_
  rw [SortedMap.values, List.length_map]
  exact hlength

theorem robust_fresh (s : Setup) (b : Base) : (b.fresh s).Robust s.signer.address where
  self := rfl
  accepted m d hm := by contradiction
  prepares x hx := absurd hx List.not_mem_nil
  prepared p hp := by contradiction
  requests round x hx := absurd hx List.not_mem_nil

theorem Robust.entering (h : i.Robust own) (view : View) : (i.entering view).Robust own where
  self := h.self
  accepted m d hm := by contradiction
  prepares x hx := absurd hx List.not_mem_nil
  prepared := h.prepared
  requests round x hx := h.requests round x (RoundChanges.mem_forRound_dropBelow hx)

/-- A request that the node makes carries its own certificate. -/
theorem Robust.requesting
    {m : Signed RoundChange} (h : i.Robust own)
    (hm : ∀ p, m.payload.prepared = some p → p.block.Sendable) : (i.requesting m).Robust own :=
  { h with
    requests := by
      intro round x hx
      rcases RoundChanges.mem_forRound_add hx with hx | ⟨-, rfl⟩
      · exact h.requests round x hx
      · exact hm }

theorem Robust.departs
    {round : UInt32} (h : i.Robust c.signer.address) (hdeparts : Departs c i round actions j) :
    j.Robust c.signer.address := by
  cases hdeparts with
  | silently => exact h.entering _
  | announced m _ hm =>
      obtain ⟨-, hpayload, -⟩ := Signer.roundChange_eq_ok hm
      refine (h.requesting fun p hp => (h.prepared p ?_).1).entering _
      rwa [hpayload] at hp

/-! ## Every move keeps it -/

section Moved

variable (h : i.Robust c.signer.address) (hmove : Move c heard i actions j)

include h hmove

theorem Robust.accepted_moved :
    ∀ m d, j.round.accepted = some (m, d) → m.signed.payload.block.Sendable := by
  intro m d hj
  rcases hmove.of_accepted hj with hold | ⟨-, hadmitted, hcheck⟩ | hown
  · exact h.accepted m d hold
  · exact sendable_of_check hadmitted hcheck
  · obtain ⟨block, certificate, d', p, -, -, -, hdigest, hsigned, -⟩ := hmove.of_proposal hown
    obtain ⟨hwritable, hpayload, -⟩ := Signer.proposal_eq_ok hsigned
    refine ⟨Proposal.writable_iff.mp hwritable, ?_⟩
    rw [hpayload]
    exact (Header.digest_eq_ok hdigest).1

theorem Robust.prepares_moved : ∀ x ∈ j.round.prepares.entries, x.1 ∈ j.committee.members := by
  intro x hx
  obtain ⟨-, -, hcommittee, -⟩ := hmove.base
  rw [hcommittee]
  obtain ⟨-, hold | ⟨m, rfl, ⟨-, hadmitted⟩ | hown⟩⟩ := hmove.of_counted hx
  · exact h.prepares x hold
  · obtain ⟨hauthentic, -⟩ := Message.triage_eq_accept hadmitted
    exact (Signed.check_eq_ok.mp hauthentic).2.2
  · obtain ⟨_, d, hmember, -, hp, -⟩ := hmove.of_prepare hown
    obtain ⟨-, -, hauthor, -⟩ := Signer.prepare_eq_ok hp
    rw [isMember, h.self, Committee.contains, List.contains_iff_mem] at hmember
    dsimp only
    rw [hauthor]
    exact hmember

theorem Robust.prepared_moved :
    ∀ p, j.prepared = some p → p.block.Sendable ∧ p.prepares.length ≤ j.committee.size := by
  intro p hp
  obtain ⟨-, -, hcommittee, -⟩ := hmove.base
  rw [hcommittee]
  rcases hmove.of_prepared hp with hold | ⟨m, d, haccepted, -, -, rfl⟩
  · exact h.prepared p hold
  · exact ⟨h.accepted m d haccepted, h.length_matchingPrepares_le⟩

theorem Robust.requests_moved :
    ∀ round, ∀ x ∈ (j.changes.forRound round).entries,
      ∀ p, x.2.payload.prepared = some p → p.block.Sendable := by
  intro round x hx p hp
  rcases hmove.of_requested hx with hold | ⟨q, rfl, -, ⟨-, hadmitted⟩ | hown⟩
  · exact h.requests round x hold p hp
  · exact sendable_of_admitted hadmitted hp
  · obtain ⟨_, -, -, -, hq, -⟩ := hmove.of_request hown
    obtain ⟨-, hpayload, -⟩ := Signer.roundChange_eq_ok hq
    rw [hpayload] at hp
    exact (h.prepared p hp).1

theorem Robust.move : j.Robust c.signer.address := by
  obtain ⟨-, -, -, hself⟩ := hmove.base
  exact
    { self := hself.trans h.self
      accepted := h.accepted_moved hmove
      prepares := h.prepares_moved hmove
      prepared := h.prepared_moved hmove
      requests := h.requests_moved hmove }

end Moved

theorem Robust.stays (h : i.Robust c.signer.address) (hstays : Stays c heard i actions j) :
    j.Robust c.signer.address :=
  hstays.moves.preserves (fun hmove hi => hi.move hmove) h

theorem Robust.course
    {again : Prop} (h : i.Robust c.signer.address) (hcourse : Course c heard again i actions j) :
    j.Robust c.signer.address := by
  cases hcourse with
  | stay hstays => exact h.stays hstays
  | leave hcounts _ _ _ _ hdeparts hstays => exact ((h.stays hcounts).departs hdeparts).stays hstays
  | reset _ _ _ hdeparts hstays => exact (h.departs hdeparts).stays hstays

/-! ## Proposing -/

/-- A fresh block is needed for a proposal: in round zero, and wherever the requests of a quorum
name no prepared block. -/
def NeedsFresh (i : Instance) : Prop :=
  i.view.round = 0 ∨
    ∃ rc, i.changes.certificate? i.view.round = some rc ∧ rc.latestPrepared = none

/-- Whatever fresh block is made can be proposed; there may be none. -/
def FreshSendable (c : Context) (i : Instance) : Prop :=
  ∃ found, freshBlock c i = .ok found ∧ ∀ block, found = some block → block.Sendable

/-- Within the limits of the encoding, the engine's candidate becomes a block that can be
proposed. -/
theorem freshBlock_of_build
    {candidate : Block} (hsize : i.committee.size ≤ maxLength)
    (h : c.execution.ProposalsFit i.parent i.parentDigest i.committee)
    (hbuild : c.execution.build i.parent = .ok candidate) :
    ∃ block, freshBlock c i = .ok (some block) ∧ block.Sendable := by
  obtain ⟨block, hcreate, hsendable⟩ := h.exists_createBlock hsize hbuild i.view.round
    (c.votes.offer i.committee)
  exact ⟨block, freshBlock_eq_ok.mpr hcreate, hsendable⟩

theorem freshSendable_of_fits
    (hsize : i.committee.size ≤ maxLength)
    (h : c.execution.ProposalsFit i.parent i.parentDigest i.committee) : i.FreshSendable c := by
  cases hbuild : c.execution.build i.parent with
  | error e =>
      refine ⟨none, ?_, fun block hblock => by contradiction⟩
      simp only [freshBlock, Execution.createBlock, hbuild]
      rfl
  | ok candidate =>
      obtain ⟨block, hfresh, hsendable⟩ := freshBlock_of_build hsize h hbuild
      refine ⟨some block, hfresh, ?_⟩
      rintro _ ⟨⟩
      exact hsendable

/-- There is an answer to the question what to propose. -/
theorem Robust.exists_candidate
    (h : i.Robust c.signer.address) (hfresh : i.NeedsFresh → i.FreshSendable c) :
    ∃ found, candidate c i = .ok found ∧
      ∀ block certificate, found = some (block, certificate) → block.Sendable := by
  have hoffered : i.NeedsFresh → ∀ certificate : Option RoundChangeCertificate,
      ∃ made, freshBlock c i = .ok made ∧ ∀ block justification,
        made.map (fun block => (block, certificate)) = some (block, justification) →
          block.Sendable := by
    intro hneeds certificate
    obtain ⟨made, hmade, hsendable⟩ := hfresh hneeds
    refine ⟨made, hmade, fun block justification heq => ?_⟩
    obtain ⟨_, hblock, ⟨⟩⟩ := Option.map_eq_some_iff.mp heq
    exact hsendable block hblock
  rw [candidate]
  split
  · rename_i hround
    obtain ⟨made, hmade, hsendable⟩ := hoffered (.inl hround) none
    exact ⟨_, bind_eq_ok.mpr ⟨made, hmade, rfl⟩, hsendable⟩
  · split
    · exact ⟨none, rfl, fun block certificate heq => by contradiction⟩
    · rename_i rc hrc
      split
      · rename_i p hp
        obtain ⟨q, hq, hqp⟩ := RoundChangeCertificate.exists_of_latestPrepared hp
        rw [(RoundChanges.certificate?_eq_some hrc).1] at hq
        obtain ⟨a, hentry⟩ := SortedMap.mem_values.mp hq
        obtain ⟨header, hheader, hsendable⟩ :=
          (h.requests _ _ hentry p hqp).exists_withRound i.view.round
        refine ⟨_, bind_eq_ok.mpr ⟨header, mapError_eq_ok.mpr hheader, rfl⟩, ?_⟩
        rintro block certificate ⟨⟩
        exact hsendable
      · rename_i hp
        obtain ⟨made, hmade, hsendable⟩ := hoffered (.inr ⟨rc, hrc, hp⟩) (some rc)
        exact ⟨_, bind_eq_ok.mpr ⟨made, hmade, rfl⟩, hsendable⟩

theorem Robust.exists_propose
    (h : i.Robust c.signer.address) (hsize : i.committee.size ≤ maxLength)
    (hfresh : i.NeedsFresh → i.FreshSendable c) : ∃ j actions, propose c i = .ok (j, actions) := by
  rw [propose]
  split
  · exact ⟨i, [], rfl⟩
  · rename_i hturn
    have hfree : i.round.accepted = none := by
      rw [Bool.or_eq_true, not_or] at hturn
      simpa using hturn.2
    obtain ⟨found, hfound, hsendable⟩ := h.exists_candidate hfresh
    cases found with
    | none => exact ⟨i, [], Step.given_eq_ok.mpr ⟨none, hfound, rfl⟩⟩
    | some candidate =>
        obtain ⟨block, certificate⟩ := candidate
        have hblock := hsendable block certificate rfl
        obtain ⟨x, hx⟩ := hblock.readable
        obtain ⟨digest, hdigest⟩ := hblock.exists_digest c.scheme.hash
        obtain ⟨m, hm⟩ := hblock.exists_proposal c.signer c.scheme.hash i.view certificate
        obtain ⟨-, hpayload, -⟩ := Signer.proposal_eq_ok hm
        have hread : m.signed.payload.block.header.extraData = .ok x := by rw [hpayload, hx]
        obtain ⟨j, rest, haccept⟩ := exists_accept (c := c) (d := digest) hfree hread hsize
        refine ⟨j, .broadcast (.proposal m) :: rest, Step.given_eq_ok.mpr ⟨_, hfound, ?_⟩⟩
        refine Step.given_eq_ok.mpr ⟨digest, mapError_eq_ok.mpr hdigest, ?_⟩
        refine Step.given_eq_ok.mpr ⟨m, written_eq_ok.mpr hm, ?_⟩
        exact Step.andThen_eq_ok.mpr ⟨i, _, rest, rfl, haccept, rfl⟩

/-! ## Taking up messages -/

section Messages

variable (h : i.Robust c.signer.address) (hsize : i.committee.size ≤ maxLength)

include h hsize

theorem Robust.exists_countVotes : ∃ j actions, countVotes c i = .ok (j, actions) := by
  have hclosable : i.Closable := fun m d hm => ⟨hsize, (h.accepted m d hm).readable⟩
  exact hclosable.exists_countVotes c

omit h in
theorem exists_onProposal
    {p : JustifiedProposal}
    (hadmitted : (Message.proposal p).triage c.scheme i.position = .ok .accept) :
    ∃ j actions, onProposal c i p = .ok (j, actions) := by
  rw [onProposal]
  split
  · exact ⟨i, [], rfl⟩
  · rename_i hfree
    split
    · rename_i d hcheck
      obtain ⟨x, hx⟩ := (sendable_of_check hadmitted hcheck).readable
      exact exists_accept (by simpa using hfree) hx hsize
    · exact ⟨i, [], rfl⟩

theorem Robust.exists_onPrepare
    {p : Signed Prepare}
    (hadmitted : (Message.prepare p).triage c.scheme i.position = .ok .accept) :
    ∃ j actions, onPrepare c i p = .ok (j, actions) := by
  have hmove : Move c [.message (.prepare p)] i [] (i.counting p) :=
    .prepare p List.mem_cons_self hadmitted
  have hcounting := addPrepare?_getD i.round p
  rw [onPrepare]
  split
  · rename_i round hround
    rw [hround, Option.getD_some] at hcounting
    rw [hcounting]
    exact (h.move hmove).exists_countVotes hsize
  · exact ⟨i, [], rfl⟩

theorem Robust.exists_onCommit
    {p : Signed Commit}
    (hadmitted : (Message.commit p).triage c.scheme i.position = .ok .accept) :
    ∃ j actions, onCommit c i p = .ok (j, actions) := by
  have hmove : Move c [.message (.commit p)] i [] (i.committing p) :=
    .commit p List.mem_cons_self hadmitted
  have hcommitting := addCommit?_getD i.round p
  rw [onCommit]
  split
  · rename_i round hround
    rw [hround, Option.getD_some] at hcommitting
    rw [hcommitting]
    exact (h.move hmove).exists_countVotes hsize
  · exact ⟨i, [], rfl⟩

/-- Whatever is done with a message succeeds, if requests to change the round can be taken up. -/
theorem Robust.exists_process
    {change : Signed RoundChange → Step Instance}
    (m : Message) (hchange : ∀ p, m = .roundChange p →
      m.triage c.scheme i.position = .ok .accept → ∃ j actions, change p = .ok (j, actions)) :
    ∃ j actions, process change c i m = .ok (j, actions) := by
  unfold process
  split
  · exact ⟨i, [], rfl⟩
  · exact ⟨i.keep m, [], rfl⟩
  · rename_i haccept
    have hadmitted := triage_eq_ok haccept
    cases m with
    | proposal p => exact exists_onProposal hsize hadmitted
    | prepare p => exact h.exists_onPrepare hsize hadmitted
    | commit p => exact h.exists_onCommit hsize hadmitted
    | roundChange p => exact hchange p rfl hadmitted

theorem Robust.exists_replayKept : ∃ j actions, replayKept c i = .ok (j, actions) := by
  have hreplay : ∀ k : Instance, k.Robust c.signer.address ∧ k.base = i.base → ∀ m : Message,
      ∃ l actions, replay c k m = .ok (l, actions) ∧ l.Robust c.signer.address ∧
        l.base = i.base := by
    rintro k ⟨hk, hbase⟩ m
    have hcommittee : k.committee = i.committee := congrArg Base.committee hbase
    obtain ⟨l, actions, hl⟩ :=
      hk.exists_process (hcommittee ▸ hsize) m fun _ _ _ => ⟨k, [], rfl⟩
    have hstays : Stays c [.message m] k actions l :=
      (replay_stays List.mem_cons_self).of_ok hl
    exact ⟨l, actions, hl, hk.stays hstays, hstays.moves.base_eq.trans hbase⟩
  have hrelease : ∀ later, Instance.Robust c.signer.address { i with later } := fun later =>
    ⟨h.self, h.accepted, h.prepares, h.prepared, h.requests⟩
  rw [replayKept]
  obtain ⟨j, actions, hj, -⟩ := Step.exists_forEach (fun k hk m _ => hreplay k hk m)
    ⟨hrelease ((i.later.dropBelow i.view.round).take i.view.round).2, rfl⟩
  exact ⟨j, actions, hj⟩

end Messages

/-! ## Moving on -/

/-- A round can be announced where the committee can be written: so can all of its prepares. -/
theorem Robust.exists_announce
    (h : i.Robust c.signer.address) (hsize : i.committee.size ≤ maxLength) (view : View) :
    ∃ j actions, announce c i view = .ok (j, actions) ∧ j.Robust c.signer.address := by
  have hshown : ∀ p, i.prepared = some p → p.block.Sendable ∧ p.prepares.length ≤ maxLength := by
    intro p hp
    obtain ⟨hblock, hlength⟩ := h.prepared p hp
    exact ⟨hblock, hlength.trans hsize⟩
  rw [announce]
  split
  · obtain ⟨m, hm⟩ := c.signer.exists_roundChange c.scheme.hash view hshown
    obtain ⟨-, hpayload, -⟩ := Signer.roundChange_eq_ok hm
    refine ⟨i.requesting m, _, Step.given_eq_ok.mpr ⟨m, written_eq_ok.mpr hm, rfl⟩, ?_⟩
    refine h.requesting fun p hp => (h.prepared p ?_).1
    rwa [hpayload] at hp
  · exact ⟨i, [], rfl, h⟩

theorem Robust.exists_moveTo
    (h : i.Robust c.signer.address) (hsize : i.committee.size ≤ maxLength) (round : UInt32)
    (hfresh : ∀ j actions, announce c i (i.viewIn round) = .ok (j, actions) →
      (j.entering (i.viewIn round)).NeedsFresh →
        (j.entering (i.viewIn round)).FreshSendable c) :
    ∃ j actions, moveTo c i round = .ok (j, actions) := by
  obtain ⟨j, first, hannounce, hj⟩ := h.exists_announce hsize (i.viewIn round)
  have hdeparts := departs_of_announce hannounce
  have hentered := hj.entering (i.viewIn round)
  have hbase : (j.entering (i.viewIn round)).base = i.base := hdeparts.base_eq
  have hcommittee : (j.entering (i.viewIn round)).committee = i.committee :=
    congrArg Base.committee hbase
  obtain ⟨k, second, hpropose⟩ :=
    hentered.exists_propose (hcommittee ▸ hsize) (hfresh j first hannounce)
  have hstays : Stays c [] (j.entering (i.viewIn round)) second k := propose_stays.of_ok hpropose
  obtain ⟨l, third, hreplay⟩ := (hentered.stays hstays).exists_replayKept
    ((hstays.moves.committee.trans hcommittee) ▸ hsize)
  have hproposes := Step.andThen_eq_ok.mpr ⟨k, second, third, hpropose, hreplay, rfl⟩
  rw [moveTo_of_announce hannounce]
  exact ⟨l, _, Step.andThen_eq_ok.mpr ⟨_, _, _, rfl, hproposes, rfl⟩⟩

/-- A request can be taken up if the node can leave for a round that a quorum asks for and can
propose. -/
theorem exists_onRoundChange_of
    {p : Signed RoundChange}
    (hmove : (i.requesting p).changes.hasQuorum p.payload.view.round = true →
      ∃ j actions, moveTo c (i.requesting p) p.payload.view.round = .ok (j, actions))
    (hpropose : ∃ j actions, propose c (i.requesting p) = .ok (j, actions)) :
    ∃ j actions, onRoundChange c i p = .ok (j, actions) := by
  rw [onRoundChange]
  split
  · exact ⟨i, [], rfl⟩
  · split
    · exact ⟨i, [], rfl⟩
    · rename_i changes hnew
      have hrequesting : i.changes.add p = changes := by
        rw [RoundChanges.add, hnew, Option.getD_some]
      rw [← hrequesting]
      dsimp only
      split
      · rename_i hquorum
        exact hmove (Bool.and_eq_true_iff.mp hquorum).2
      · split
        · exact hpropose
        · exact ⟨_, [], rfl⟩

section Fits

variable (h : i.Robust c.signer.address) (hsize : i.committee.size ≤ maxLength)
  (hfits : c.execution.ProposalsFit i.parent i.parentDigest i.committee)

include h hsize hfits

/-- Within the limits of the encoding, a node can leave its round for any other one. -/
theorem Robust.exists_moveTo_of_fits
    (round : UInt32) : ∃ j actions, moveTo c i round = .ok (j, actions) := by
  refine h.exists_moveTo hsize round ?_
  intro j actions hannounce _
  have hbase : (j.entering (i.viewIn round)).base = i.base :=
    (departs_of_announce hannounce).base_eq
  have hparent : (j.entering (i.viewIn round)).parent = i.parent := congrArg Base.parent hbase
  have hdigest : (j.entering (i.viewIn round)).parentDigest = i.parentDigest :=
    congrArg Base.parentDigest hbase
  have hcommittee : (j.entering (i.viewIn round)).committee = i.committee :=
    congrArg Base.committee hbase
  apply freshSendable_of_fits <;> rw [hcommittee]
  · exact hsize
  · rw [hparent, hdigest]
    exact hfits

theorem Robust.exists_onRoundChange
    {p : Signed RoundChange}
    (hadmitted : (Message.roundChange p).triage c.scheme i.position = .ok .accept) :
    ∃ j actions, onRoundChange c i p = .ok (j, actions) := by
  have hcounted : (i.requesting p).Robust c.signer.address :=
    h.requesting fun _ hc => sendable_of_admitted hadmitted hc
  have hlisted : (i.requesting p).committee.size ≤ maxLength := hsize
  refine exists_onRoundChange_of (fun _ => hcounted.exists_moveTo_of_fits hlisted hfits _) ?_
  exact hcounted.exists_propose hlisted fun _ => freshSendable_of_fits hlisted hfits

/-! ## Whole steps -/

/-- Within the limits of the encoding, no message makes an instance fail. -/
theorem Robust.exists_receive (m : Message) : ∃ j actions, receive c i m = .ok (j, actions) :=
  h.exists_process hsize m fun _ hp hadmitted =>
    h.exists_onRoundChange hsize hfits (hp ▸ hadmitted)

/-- Nor does the end of a timer. -/
theorem Robust.exists_expire (view : View) : ∃ j actions, expire c i view = .ok (j, actions) := by
  rw [expire]
  split
  · exact ⟨i, [], rfl⟩
  · exact h.exists_moveTo_of_fits hsize hfits _

end Fits

/-- Whatever a step has done, the instance stays robust. -/
theorem Robust.receive
    (h : i.Robust c.signer.address) (m : Message) :
    (i.receive c m).Ends fun _ j => j.Robust c.signer.address := by
  obtain ⟨_, -, hcourse⟩ := exists_receive_course c i m
  exact hcourse.imp fun _ _ => h.course

theorem Robust.expire
    (h : i.Robust c.signer.address) (view : View) :
    (i.expire c view).Ends fun _ j => j.Robust c.signer.address := by
  obtain ⟨heard, hkeeps, -⟩ := i.exists_keepsHeard
  have hkeeps' : i.KeepsHeard (.expiry view :: heard) :=
    fun m hm => List.mem_cons_of_mem _ (hkeeps m hm)
  exact (expire_course hkeeps' List.mem_cons_self).imp fun _ _ => h.course

end Instance

/-- Whatever a node has taken up in a height, it can show again. -/
theorem Record.Attainable.robust
    {s : Setup} {b : Base} {r : Record} (hr : Attainable s b r) :
    r.now.Robust s.signer.address := by
  induction hr with
  | idle => exact Instance.robust_fresh s b
  | opened moment => exact Instance.robust_fresh s b
  | hear input _ ih => exact ih
  | @move r moment _ _ _ hmove ih =>
      have hi : r.now.Robust (s.context moment).signer.address := ih
      exact hi.move hmove
  | @reset r moment _ _ _ _ _ hdeparts ih =>
      have hi : r.now.Robust (s.context moment).signer.address := ih
      exact hi.departs hdeparts

end QuorumChain
