import QuorumChain.Proofs.Node.Four
import QuorumChain.Proofs.Node.Later
import QuorumChain.Proofs.Node.Quiescence
import QuorumChain.Proofs.Node.Response

/-!
# The order of votes

A round collects a proposal and at most one prepare and one commit of every other member, in
whatever order they arrive.  Votes that come before the proposal are counted whatever they are
for, and turn out to be for it or not; votes that come later are checked against it.  Either
way, what matters is how many prepares and commits among the messages are for the proposal:
these two numbers tell which phase the round ends in and whether its block is handed out.

A round that has heard some of the messages has either not seen the proposal, and its phase has
not changed, or it has come as far as the numbers so far allow.  Every message keeps this, and
so does everything that it sets off.
-/

namespace QuorumChain

namespace Round

/-- The number of prepares for a block. -/
def preparesFor (r : Round) (d : Digest) : Nat :=
  (r.prepares.values.filter fun m => m.payload.digest == d).length

/-- The number of commits for a block. -/
def commitsFor (r : Round) (d : Digest) : Nat :=
  (r.commits.values.filter fun m => m.payload.digest == d).length

theorem length_matchingPrepares
    {r : Round} {d : Digest} (h : r.digest = some d) :
    r.matchingPrepares.length = r.preparesFor d := by
  rw [matchingPrepares, h]
  rfl

theorem length_matchingCommits
    {r : Round} {d : Digest} (h : r.digest = some d) :
    r.matchingCommits.length = r.commitsFor d := by
  rw [matchingCommits, h]
  rfl

theorem hasPreparedQuorum_eq_true
    {r : Round} {a : JustifiedProposal} {d : Digest} (h : r.accepted = some (a, d)) :
    r.hasPreparedQuorum = true ↔ r.phase = .newRound ∧ r.quorum ≤ r.preparesFor d := by
  have hdigest : r.digest = some d := digest_eq_some.mpr ⟨a, h⟩
  simp [hasPreparedQuorum, h, length_matchingPrepares hdigest]

theorem hasCommitQuorum_eq_true
    {r : Round} {a : JustifiedProposal} {d : Digest} (h : r.accepted = some (a, d)) :
    r.hasCommitQuorum = true ↔ r.phase ≠ .committed ∧ r.quorum ≤ r.commitsFor d := by
  have hdigest : r.digest = some d := digest_eq_some.mpr ⟨a, h⟩
  simp [hasCommitQuorum, h, length_matchingCommits hdigest]

end Round

/-- The phase that some prepares, some commits and a vote of the node's own lead to. -/
def Phase.settled (quorum prepares commits own : Nat) : Phase :=
  if quorum ≤ commits ∨ (quorum ≤ prepares ∧ quorum ≤ commits + own) then .committed
  else if quorum ≤ prepares then .prepared
  else .newRound

namespace Message

variable {m : Message} {scheme : Scheme} {position : Position}

/-- The place of a message in its round: a member has one of each kind. -/
def slot (m : Message) : MessageKind × Address :=
  (m.kind, m.author)

theorem triage_eq_accept_iff :
    m.triage scheme position = .ok .accept ↔
      m.authenticate scheme position.committee = .ok () ∧
        m.checkOrigin position.committee = .ok () ∧
          m.place position.view = .accept ∧ m.checkContent scheme position = .ok () := by
  refine ⟨triage_eq_accept, ?_⟩
  rintro ⟨hauthor, horigin, hplace, hcontent⟩
  simp only [triage, hauthor, horigin, hplace, hcontent, bind, Except.bind, pure, Except.pure]

theorem checkDigest_some
    {d got : Digest} : checkDigest (some d) got = .ok () ↔ got = d := by
  rw [checkDigest, require_eq_ok, beq_iff_eq, eq_comm]

/-- Once a proposal is known, a vote must be for it; nothing else about it is checked anew. -/
theorem checkContent_some
    {w : Signed Commit} {d : Digest} (hnone : position.proposed = none) :
    (Message.commit w).checkContent scheme { position with proposed := some d } = .ok () ↔
      (Message.commit w).checkContent scheme position = .ok () ∧ w.payload.digest = d := by
  simp only [checkContent, bind_eq_ok, hnone]
  constructor
  · rintro ⟨_, hdigest, hseal⟩
    exact ⟨⟨(), rfl, hseal⟩, checkDigest_some.mp hdigest⟩
  · rintro ⟨⟨_, -, hseal⟩, hdigest⟩
    exact ⟨(), checkDigest_some.mpr hdigest, hseal⟩

end Message

namespace Instance

variable {c : Context} {i j k : Instance} {p : JustifiedProposal} {d : Digest} {m : Message}
  {ms : List Message} {actions : List Action} {blocks : List Block} {v : Signed Prepare}
  {w : Signed Commit}

/-! ## Votes for a proposal -/

theorem triage_eq_accept_iff :
    triage c i m = .accept ↔ m.triage c.scheme i.position = .ok .accept :=
  ⟨triage_eq_ok, triage_of_admitted⟩

theorem triage_congr
    (hview : j.view = k.view) (hcommittee : j.committee = k.committee)
    (hdigest : j.round.digest = k.round.digest) (m : Message) : triage c j m = triage c k m := by
  rw [triage, triage, position, position, hview, hcommittee, hdigest]

/-- Once the proposal is known, a prepare must be for it. -/
theorem triage_prepare_accepting
    (hfree : i.round.accepted = none) :
    triage c (i.accepting p d) (.prepare v) = .accept ↔
      triage c i (.prepare v) = .accept ∧ v.payload.digest = d := by
  have hknown : (Message.prepare v).checkContent c.scheme (i.accepting p d).position = .ok () ↔
      v.payload.digest = d := Message.checkDigest_some
  have hunknown : (Message.prepare v).checkContent c.scheme i.position = .ok () := by
    rw [Message.checkContent, position, Round.digest, hfree]
    rfl
  rw [triage_eq_accept_iff, triage_eq_accept_iff, Message.triage_eq_accept_iff,
    Message.triage_eq_accept_iff, hknown, iff_true_intro hunknown]
  simp only [and_true, and_assoc]
  rfl

theorem triage_commit_accepting
    (hfree : i.round.accepted = none) :
    triage c (i.accepting p d) (.commit w) = .accept ↔
      triage c i (.commit w) = .accept ∧ w.payload.digest = d := by
  have hnone : i.position.proposed = none := by
    rw [position, Round.digest, hfree]
    rfl
  have hknown : (Message.commit w).checkContent c.scheme (i.accepting p d).position = .ok () ↔
      (Message.commit w).checkContent c.scheme i.position = .ok () ∧ w.payload.digest = d :=
    Message.checkContent_some hnone
  rw [triage_eq_accept_iff, triage_eq_accept_iff, Message.triage_eq_accept_iff,
    Message.triage_eq_accept_iff, hknown]
  simp only [and_assoc]
  rfl

/-- The number of messages of a kind that an instance takes up. -/
def tally (c : Context) (i : Instance) (kind : MessageKind) (ms : List Message) : Nat :=
  ms.countP fun m => m.kind == kind && triage c i m == .accept

theorem tally_append
    (kind : MessageKind) (ms : List Message) (m : Message) :
    tally c i kind (ms ++ [m]) =
      tally c i kind ms + if m.kind = kind ∧ triage c i m = .accept then 1 else 0 := by
  rw [tally, List.countP_append, List.countP_singleton]
  simp [tally]

theorem preparesFor_counting
    (hnew : ∀ q, (v.author, q) ∉ i.round.prepares.entries) (d : Digest) :
    (i.counting v).round.preparesFor d =
      i.round.preparesFor d + if v.payload.digest = d then 1 else 0 := by
  have hlength := SortedMap.length_filter_keepFirst hnew v fun m => m.payload.digest == d
  simp only [beq_iff_eq] at hlength
  exact hlength

theorem commitsFor_committing
    (hnew : ∀ q, (w.author, q) ∉ i.round.commits.entries) (d : Digest) :
    (i.committing w).round.commitsFor d =
      i.round.commitsFor d + if w.payload.digest = d then 1 else 0 := by
  have hlength := SortedMap.length_filter_keepFirst hnew w fun m => m.payload.digest == d
  simp only [beq_iff_eq] at hlength
  exact hlength

/-- The number of votes that the node itself has in a round with a proposal. -/
def weight (i : Instance) : Nat :=
  if i.isMember then 1 else 0

/-! ## A round that has heard some messages -/

/-- What has been heard of a round: the base of the height is the same, and whoever has a vote
has sent it or is the node itself. -/
structure Hears (c : Context) (i : Instance) (ms : List Message) (j : Instance) : Prop where
  base : j.parent = i.parent ∧ j.parentDigest = i.parentDigest ∧ j.committee = i.committee ∧
    j.self = i.self
  view : j.view = i.view
  quorum : j.round.quorum = i.round.quorum
  prepares : ∀ x ∈ j.round.prepares.entries, (.prepare, x.1) ∈ ms.map Message.slot ∨
    (x.1 = c.signer.address ∧ j.round.accepted ≠ none)
  commits : ∀ x ∈ j.round.commits.entries, (.commit, x.1) ∈ ms.map Message.slot ∨
    (x.1 = c.signer.address ∧ j.round.phase ≠ .newRound)

/-- A round that has not seen the proposal yet. -/
structure AwaitsProposal (c : Context) (i : Instance) (p : JustifiedProposal) (d : Digest)
    (ms : List Message) (j : Instance) : Prop extends Hears c i ms j where
  accepted : j.round.accepted = none
  phase : j.round.phase = .newRound
  preparesFor : j.round.preparesFor d = tally c (i.accepting p d) .prepare ms
  commitsFor : j.round.commitsFor d = tally c (i.accepting p d) .commit ms

/-- How far a round may have come with some prepares, some commits and a vote of its own: its
phase, the commits that it holds and the blocks that it has handed out. -/
inductive Stage (H : HashFunction) (d : Digest) (quorum prepares commits own : Nat) :
    Phase → Nat → List Block → Prop
  | newRound : Stage H d quorum prepares commits own .newRound commits []
  | prepared (hprepared : quorum ≤ prepares) :
      Stage H d quorum prepares commits own .prepared (commits + own) []
  | committed {held : Nat} {block : Block}
      (hcommitted : quorum ≤ commits ∨ (quorum ≤ prepares ∧ quorum ≤ commits + own))
      (hblock : block.header.digest H = .ok d) :
      Stage H d quorum prepares commits own .committed held [block]

theorem Stage.of_newRound
    {H : HashFunction} {quorum prepares commits own held : Nat}
    (h : Stage H d quorum prepares commits own .newRound held blocks) :
    held = commits ∧ blocks = [] := by
  cases h
  exact ⟨rfl, rfl⟩

/-- A quorum of commits that has not been acted on is a quorum of those that were sent, or makes
use of the node's own. -/
theorem Stage.of_quorum
    {H : HashFunction} {quorum prepares commits own held : Nat} {phase : Phase}
    (h : Stage H d quorum prepares commits own phase held blocks) (hopen : phase ≠ .committed)
    (hquorum : quorum ≤ held) :
    blocks = [] ∧ (quorum ≤ commits ∨ (quorum ≤ prepares ∧ quorum ≤ commits + own)) := by
  cases h with
  | newRound => exact ⟨rfl, .inl hquorum⟩
  | prepared hprepared => exact ⟨rfl, .inr ⟨hprepared, hquorum⟩⟩
  | committed => exact absurd rfl hopen

/-- A round that has drawn all conclusions has come to the phase that the numbers lead to, and has
handed out its block exactly if it is committed. -/
theorem Stage.settled
    {H : HashFunction} {quorum prepares commits own held : Nat} {phase : Phase}
    (h : Stage H d quorum prepares commits own phase held blocks)
    (hprepared : phase = .newRound → ¬quorum ≤ prepares)
    (hcommitted : phase ≠ .committed → ¬quorum ≤ held) :
    phase = Phase.settled quorum prepares commits own ∧
      blocks.map (fun b => b.header.digest H) = if phase = .committed then [.ok d] else [] := by
  cases h with
  | newRound =>
      have hfew := hprepared rfl
      have hnone := hcommitted Phase.noConfusion
      exact ⟨by simp [Phase.settled, hfew, hnone], rfl⟩
  | prepared hreached =>
      have hnone := hcommitted Phase.noConfusion
      have hnone' : ¬quorum ≤ commits := by omega
      exact ⟨by simp [Phase.settled, hreached, hnone, hnone'], rfl⟩
  | committed hreached hblock =>
      refine ⟨(if_pos hreached).symm, ?_⟩
      rw [if_pos rfl, List.map_singleton, hblock]

theorem Stage.more_prepares
    {H : HashFunction} {quorum prepares prepares' commits own held : Nat} {phase : Phase}
    (h : Stage H d quorum prepares commits own phase held blocks) (hle : prepares ≤ prepares') :
    Stage H d quorum prepares' commits own phase held blocks := by
  cases h with
  | newRound => exact .newRound
  | prepared hprepared => exact .prepared (hprepared.trans hle)
  | committed hcommitted hblock =>
      exact .committed (hcommitted.imp_right (And.imp_left fun hquorum => hquorum.trans hle)) hblock

theorem Stage.one_commit
    {H : HashFunction} {quorum prepares commits own held : Nat} {phase : Phase}
    (h : Stage H d quorum prepares commits own phase held blocks) :
    Stage H d quorum prepares (commits + 1) own phase (held + 1) blocks := by
  cases h with
  | newRound => exact .newRound
  | prepared hprepared =>
      rw [Nat.add_right_comm]
      exact .prepared hprepared
  | committed hcommitted hblock => exact .committed (by omega) hblock

/-- A round that has seen the proposal and handed out some blocks. -/
structure KnowsProposal (c : Context) (i : Instance) (p : JustifiedProposal) (d : Digest)
    (ms : List Message) (j : Instance) (blocks : List Block) : Prop extends Hears c i ms j where
  accepted : j.round.accepted = some (p, d)
  preparesFor : j.round.preparesFor d = tally c (i.accepting p d) .prepare ms + i.weight
  stage : Stage c.scheme.hash d i.round.quorum
    (tally c (i.accepting p d) .prepare ms + i.weight) (tally c (i.accepting p d) .commit ms)
    i.weight j.round.phase (j.round.commitsFor d) blocks

/-- The proposal of a round and votes of others, at most one of each kind of everybody. -/
structure Ballot (c : Context) (i : Instance) (p : JustifiedProposal) (ms : List Message) :
    Prop where
  view : ∀ m ∈ ms, m.view = i.view
  votes : ∀ m ∈ ms, m = .proposal p ∨
    ((m.kind = .prepare ∨ m.kind = .commit) ∧ m.author ≠ c.signer.address)
  once : (ms.map Message.slot).Nodup

theorem Ballot.perm
    {ms' : List Message} (h : Ballot c i p ms) (hperm : ms'.Perm ms) : Ballot c i p ms' where
  view m hm := h.view m (hperm.mem_iff.mp hm)
  votes m hm := h.votes m (hperm.mem_iff.mp hm)
  once := (hperm.map _).nodup_iff.mpr h.once

theorem Ballot.init (h : Ballot c i p (ms ++ [m])) :
    Ballot c i p ms ∧ m.slot ∉ ms.map Message.slot := by
  have honce := h.once
  rw [List.map_append, List.nodup_append] at honce
  refine ⟨⟨?_, ?_, honce.1⟩, fun hm => ?_⟩
  · exact fun m hm => h.view m (List.mem_append_left _ hm)
  · exact fun m hm => h.votes m (List.mem_append_left _ hm)
  · exact honce.2.2 _ hm _ List.mem_cons_self rfl

/-- The node's own votes are not among those of the others. -/
theorem Ballot.not_own
    {kind : MessageKind} (h : Ballot c i p ms) (hkind : kind ≠ .proposal) :
    (kind, c.signer.address) ∉ ms.map Message.slot := by
  intro hslot
  obtain ⟨m, hm, heq⟩ := List.mem_map.mp hslot
  obtain ⟨hkind', hauthor⟩ := Prod.mk.inj heq
  rcases h.votes m hm with rfl | ⟨-, hother⟩
  · exact hkind hkind'.symm
  · exact hother hauthor

/-! ## What is kept -/

theorem Hears.append (h : Hears c i ms j) (m : Message) : Hears c i (ms ++ [m]) j where
  base := h.base
  view := h.view
  quorum := h.quorum
  prepares x hx := by
    rw [List.map_append]
    exact (h.prepares x hx).imp_left (List.mem_append_left _)
  commits x hx := by
    rw [List.map_append]
    exact (h.commits x hx).imp_left (List.mem_append_left _)

theorem Hears.isMember (h : Hears c i ms j) : j.isMember = i.isMember := by
  obtain ⟨-, -, hcommittee, hself⟩ := h.base
  rw [Instance.isMember, Instance.isMember, hcommittee, hself]

theorem Hears.weight_eq (h : Hears c i ms j) : i.weight = if j.isMember then 1 else 0 := by
  rw [weight, h.isMember]

theorem Hears.counting
    (h : Hears c i ms j) (hv : (.prepare, v.author) ∈ ms.map Message.slot ∨
      (v.author = c.signer.address ∧ j.round.accepted ≠ none)) :
    Hears c i ms (j.counting v) where
  base := h.base
  view := h.view
  quorum := h.quorum
  prepares x hx := by
    rcases SortedMap.mem_keepFirst hx with rfl | hx
    · exact hv
    · exact h.prepares x hx
  commits := h.commits

theorem Hears.committing
    (h : Hears c i ms j) (hw : (.commit, w.author) ∈ ms.map Message.slot ∨
      (w.author = c.signer.address ∧ j.round.phase ≠ .newRound)) :
    Hears c i ms (j.committing w) where
  base := h.base
  view := h.view
  quorum := h.quorum
  prepares := h.prepares
  commits x hx := by
    rcases SortedMap.mem_keepFirst hx with rfl | hx
    · exact hw
    · exact h.commits x hx

/-- Becoming prepared or committed changes nothing of what was heard. -/
theorem Hears.rises
    {phase : Phase} {prepared : Option PreparedCertificate} (h : Hears c i ms j)
    (hphase : phase ≠ .newRound) :
    Hears c i ms { j with round := { j.round with phase }, prepared } where
  base := h.base
  view := h.view
  quorum := h.quorum
  prepares := h.prepares
  commits x hx := (h.commits x hx).imp_right (And.imp_right fun _ => hphase)

/-- A quorum of prepares that has not been acted on is there only while nothing is decided. -/
theorem KnowsProposal.of_preparedQuorum
    (hj : KnowsProposal c i p d ms j blocks) (hquorum : j.round.hasPreparedQuorum = true) :
    j.round.phase = .newRound ∧
      i.round.quorum ≤ tally c (i.accepting p d) .prepare ms + i.weight ∧
        j.round.commitsFor d = tally c (i.accepting p d) .commit ms ∧ blocks = [] := by
  obtain ⟨hphase, hreached⟩ := (Round.hasPreparedQuorum_eq_true hj.accepted).mp hquorum
  rw [hj.quorum, hj.preparesFor] at hreached
  have hstage := hj.stage
  rw [hphase] at hstage
  obtain ⟨hheld, hblocks⟩ := hstage.of_newRound
  exact ⟨hphase, hreached, hheld, hblocks⟩

/-- Somebody who is no member becomes prepared. -/
theorem KnowsProposal.follow
    {certificate : PreparedCertificate} (hj : KnowsProposal c i p d ms j blocks)
    (hquorum : j.round.hasPreparedQuorum = true) (hmember : j.isMember = false) :
    KnowsProposal c i p d ms (j.certifying certificate) blocks := by
  obtain ⟨-, hreached, hheld, rfl⟩ := hj.of_preparedQuorum hquorum
  have hweight : i.weight = 0 := by rw [hj.weight_eq, hmember]; rfl
  have hsum : j.round.commitsFor d = tally c (i.accepting p d) .commit ms + i.weight := by
    rw [hheld, hweight, Nat.add_zero]
  refine ⟨hj.toHears.rises Phase.noConfusion, hj.accepted, hj.preparesFor, ?_⟩
  show Stage _ _ _ _ _ _ .prepared (j.round.commitsFor d) []
  rw [hsum]
  exact .prepared hreached

/-- A member becomes prepared and commits. -/
theorem KnowsProposal.certify
    {certificate : PreparedCertificate} (hj : KnowsProposal c i p d ms j blocks)
    (hballot : Ballot c i p ms)
    (hquorum : j.round.hasPreparedQuorum = true) (hmember : j.isMember = true)
    (hw : c.signer.commit c.scheme.hash j.view d = .ok w) :
    KnowsProposal c i p d ms ((j.certifying certificate).committing w) blocks := by
  obtain ⟨hphase, hreached, hheld, rfl⟩ := hj.of_preparedQuorum hquorum
  obtain ⟨-, hpayload, hauthor, -⟩ := Signer.commit_eq_ok hw
  have hweight : i.weight = 1 := by rw [hj.weight_eq, hmember]; rfl
  have hnew : ∀ q, (w.author, q) ∉ j.round.commits.entries := by
    intro q hq
    rcases hj.commits _ hq with hslot | ⟨-, hlate⟩
    · rw [hauthor] at hslot
      exact hballot.not_own MessageKind.noConfusion hslot
    · exact hlate hphase
  have hhears : Hears c i ms (j.certifying certificate) := hj.toHears.rises Phase.noConfusion
  have hsum : ((j.certifying certificate).committing w).round.commitsFor d =
      tally c (i.accepting p d) .commit ms + i.weight := by
    rw [commitsFor_committing (i := j.certifying certificate) hnew, hpayload, if_pos rfl, hweight]
    exact congrArg (· + 1) hheld
  refine ⟨hhears.committing (.inr ⟨hauthor, Phase.noConfusion⟩), hj.accepted, hj.preparesFor, ?_⟩
  rw [hsum]
  exact .prepared hreached

/-- Every move within the round that hears nothing keeps what the numbers allow. -/
theorem KnowsProposal.move
    (hj : KnowsProposal c i p d ms j blocks) (hballot : Ballot c i p ms)
    (hdigest : p.signed.payload.block.header.digest c.scheme.hash = .ok d)
    (h : Move c [] j actions k) (hview : k.view = j.view) :
    KnowsProposal c i p d ms k (blocks ++ actions.filterMap Action.imported?) := by
  have hstuck : ∀ {round : UInt32}, j.view.round < round → round ≠ j.view.round :=
    fun hlater heq => UInt32.lt_irrefl _ (heq ▸ hlater)
  cases h with
  | keep _ hheard => exact absurd hheard List.not_mem_nil
  | prepare _ hheard => exact absurd hheard List.not_mem_nil
  | commit _ hheard => exact absurd hheard List.not_mem_nil
  | request _ hheard => exact absurd hheard List.not_mem_nil
  | observe _ _ hheard => exact absurd hheard List.not_mem_nil
  | take _ _ _ hheard => exact absurd hheard List.not_mem_nil
  | lead _ _ _ _ _ _ hfree =>
      rw [hj.accepted] at hfree
      contradiction
  | leave round hlater => exact absurd (congrArg View.round hview) (hstuck hlater)
  | depart round _ hlater => exact absurd (congrArg View.round hview) (hstuck hlater)
  | release later =>
      have hhears : Hears c i ms { j with later } :=
        ⟨hj.base, hj.view, hj.quorum, hj.prepares, hj.commits⟩
      rw [List.filterMap_nil, List.append_nil]
      exact ⟨hhears, hj.accepted, hj.preparesFor, hj.stage⟩
  | follow _ m _ hquorum hmember =>
      rw [List.filterMap_nil, List.append_nil]
      exact hj.follow hquorum hmember
  | certify digest m w haccepted hquorum hmember hw =>
      rw [hj.accepted] at haccepted
      obtain ⟨-, rfl⟩ := Prod.mk.inj (Option.some.inj haccepted)
      rw [List.filterMap_cons, List.filterMap_nil]
      exact (List.append_nil blocks).symm ▸ hj.certify hballot hquorum hmember hw
  | decide digest m header haccepted hquorum hheader =>
      rw [hj.accepted] at haccepted
      obtain ⟨rfl, rfl⟩ := Prod.mk.inj (Option.some.inj haccepted)
      obtain ⟨hopen, hreached⟩ := (Round.hasCommitQuorum_eq_true hj.accepted).mp hquorum
      rw [hj.quorum] at hreached
      obtain ⟨rfl, hcommitted⟩ := hj.stage.of_quorum hopen hreached
      refine ⟨hj.toHears.rises Phase.noConfusion, hj.accepted, hj.preparesFor, ?_⟩
      exact .committed hcommitted ((Header.digest_withSeals _ hheader).trans hdigest)

theorem KnowsProposal.stays
    (hj : KnowsProposal c i p d ms j blocks) (hballot : Ballot c i p ms)
    (hdigest : p.signed.payload.block.header.digest c.scheme.hash = .ok d)
    (h : Stays c [] j actions k) :
    KnowsProposal c i p d ms k (blocks ++ actions.filterMap Action.imported?) := by
  induction h generalizing blocks with
  | refl j =>
      rw [List.filterMap_nil, List.append_nil]
      exact hj
  | head hfirst hview _ ih =>
      rw [List.filterMap_append, ← List.append_assoc]
      exact ih (hj.move hballot hdigest hfirst hview)

/-- The block of the proposal can be given its seals. -/
theorem KnowsProposal.closable
    (hj : KnowsProposal c i p d ms j blocks)
    (hcheck : p.check c.scheme c.execution i.parent i.parentDigest i.committee = .ok d) :
    j.Closable := by
  intro m' d' haccepted
  rw [hj.accepted] at haccepted
  obtain ⟨rfl, -⟩ := Prod.mk.inj (Option.some.inj haccepted)
  obtain ⟨x, hx⟩ := (JustifiedProposal.passes_of_check hcheck).header
  obtain ⟨-, -, hcommittee, -⟩ := hj.base
  rw [hcommittee, Committee.size, ← hx.validators]
  exact ⟨(Header.extraData_validators hx.extraData).2.2, x, hx.extraData⟩

/-- Votes can be counted, and whatever follows is as the numbers allow. -/
theorem KnowsProposal.count
    (hj : KnowsProposal c i p d ms j blocks) (hballot : Ballot c i p ms)
    (hcheck : p.check c.scheme c.execution i.parent i.parentDigest i.committee = .ok d) :
    ∃ k actions, countVotes c j = .ok (k, actions) ∧
      KnowsProposal c i p d ms k (blocks ++ actions.filterMap Action.imported?) := by
  have hpasses := JustifiedProposal.passes_of_check hcheck
  obtain ⟨k, actions, hk⟩ := (hj.closable hcheck).exists_countVotes c
  exact ⟨k, actions, hk, hj.stays hballot hpasses.digest (countVotes_stays.of_ok hk)⟩

/-! ## Messages -/

theorem KnowsProposal.triage_eq (h : KnowsProposal c i p d ms j blocks) (m : Message) :
    triage c j m = triage c (i.accepting p d) m := by
  refine triage_congr (k := i.accepting p d) h.view h.base.2.2.1 ?_ m
  rw [Round.digest, h.accepted]
  rfl

theorem AwaitsProposal.triage_eq (h : AwaitsProposal c i p d ms j)
    (hfree : i.round.accepted = none) (m : Message) :
    triage c j m = triage c i m := by
  refine triage_congr h.view h.base.2.2.1 ?_ m
  rw [Round.digest, Round.digest, h.accepted, hfree]

/-- A message of the present round is taken up or dropped. -/
theorem triage_of_view (hview : m.view = i.view) :
    triage c i m = .accept ∨ triage c i m = .stale := by
  cases htriage : triage c i m with
  | accept => exact .inl rfl
  | stale => exact .inr rfl
  | future =>
      have hplace := triage_eq_future htriage
      simp [Message.place, hview] at hplace

theorem receive_prepare_of_new
    (htriage : triage c j (.prepare v) = .accept)
    (hnew : ∀ q, (v.author, q) ∉ j.round.prepares.entries) :
    j.receive c (.prepare v) = countVotes c (j.counting v) := by
  unfold receive process
  rw [htriage]
  dsimp only
  rw [onPrepare]
  cases hround : j.round.addPrepare? v with
  | none =>
      rw [Round.addPrepare?, Option.map_eq_none_iff] at hround
      obtain ⟨q, hq⟩ := SortedMap.insertNew?_eq_none hround
      exact absurd hq (hnew q)
  | some round =>
      have hcounting := addPrepare?_getD j.round v
      rw [hround, Option.getD_some] at hcounting
      rw [hcounting]
      rfl

theorem receive_commit_of_new
    (htriage : triage c j (.commit w) = .accept)
    (hnew : ∀ q, (w.author, q) ∉ j.round.commits.entries) :
    j.receive c (.commit w) = countVotes c (j.committing w) := by
  unfold receive process
  rw [htriage]
  dsimp only
  rw [onCommit]
  cases hround : j.round.addCommit? w with
  | none =>
      rw [Round.addCommit?, Option.map_eq_none_iff] at hround
      obtain ⟨q, hq⟩ := SortedMap.insertNew?_eq_none hround
      exact absurd hq (hnew q)
  | some round =>
      have hcommitting := addCommit?_getD j.round w
      rw [hround, Option.getD_some] at hcommitting
      rw [hcommitting]
      rfl

/-- Without a proposal there is nothing to conclude from votes. -/
theorem countVotes_of_free (hfree : j.round.accepted = none) : countVotes c j = .done j := by
  have hprepare : prepareIfQuorum c j = .done j := by
    rw [prepareIfQuorum, Round.digest, hfree]
    rfl
  have hcommit : commitIfQuorum j = .done j := by
    rw [commitIfQuorum, Round.commit?, hfree]
    rfl
  rw [countVotes, hprepare, Step.done_andThen, hcommit]

/-- A message of another kind, or one that is dropped, does not change a tally. -/
theorem tally_append_of_ne
    {kind : MessageKind} (h : m.kind ≠ kind ∨ triage c i m ≠ .accept) (ms : List Message) :
    tally c i kind (ms ++ [m]) = tally c i kind ms := by
  rw [tally_append, if_neg, Nat.add_zero]
  rintro ⟨hkind, haccept⟩
  exact h.elim (fun hne => hne hkind) fun hne => hne haccept

theorem tally_append_prepare
    (hfree : i.round.accepted = none) (haccept : triage c i (.prepare v) = .accept) (d : Digest) :
    tally c (i.accepting p d) .prepare (ms ++ [.prepare v]) =
      tally c (i.accepting p d) .prepare ms + if v.payload.digest = d then 1 else 0 := by
  rw [tally_append]
  simp [Message.kind, triage_prepare_accepting hfree, haccept]

theorem tally_append_commit
    (hfree : i.round.accepted = none) (haccept : triage c i (.commit w) = .accept) (d : Digest) :
    tally c (i.accepting p d) .commit (ms ++ [.commit w]) =
      tally c (i.accepting p d) .commit ms + if w.payload.digest = d then 1 else 0 := by
  rw [tally_append]
  simp [Message.kind, triage_commit_accepting hfree, haccept]

theorem tally_perm
    {ms' : List Message} (h : ms'.Perm ms) (kind : MessageKind) :
    tally c i kind ms' = tally c i kind ms :=
  h.countP_eq _

/-! ## Hearing a vote -/

theorem slot_mem_append (ms : List Message) (m : Message) :
    m.slot ∈ (ms ++ [m]).map Message.slot :=
  List.mem_map_of_mem (List.mem_append_right _ List.mem_cons_self)

/-- The author of a new prepare has none yet. -/
theorem Hears.new_prepare
    (h : Hears c i ms j) (hslot : (Message.prepare v).slot ∉ ms.map Message.slot)
    (hother : v.author ≠ c.signer.address) : ∀ q, (v.author, q) ∉ j.round.prepares.entries := by
  intro q hq
  rcases h.prepares _ hq with hsent | ⟨hown, -⟩
  · exact hslot hsent
  · exact hother hown

theorem Hears.new_commit
    (h : Hears c i ms j) (hslot : (Message.commit w).slot ∉ ms.map Message.slot)
    (hother : w.author ≠ c.signer.address) : ∀ q, (w.author, q) ∉ j.round.commits.entries := by
  intro q hq
  rcases h.commits _ hq with hsent | ⟨hown, -⟩
  · exact hslot hsent
  · exact hother hown

section Vote

variable (hfree : i.round.accepted = none) (hview : m.view = i.view)
  (hslot : m.slot ∉ ms.map Message.slot) (hother : m.author ≠ c.signer.address)
  (hkind : m.kind = .prepare ∨ m.kind = .commit)

theorem triage_accepting_of_stale
    (hfree : i.round.accepted = none) (hkind : m.kind = .prepare ∨ m.kind = .commit)
    (hstale : triage c i m = .stale) : triage c (i.accepting p d) m ≠ .accept := by
  cases m with
  | proposal _ => simp [Message.kind] at hkind
  | roundChange _ => simp [Message.kind] at hkind
  | prepare v =>
      rw [Ne, triage_prepare_accepting hfree, hstale]
      simp
  | commit w =>
      rw [Ne, triage_commit_accepting hfree, hstale]
      simp

include hfree hview hslot hother hkind

/-- Before the proposal, votes are only counted. -/
theorem AwaitsProposal.vote
    (hj : AwaitsProposal c i p d ms j) :
    ∃ k, j.receive c m = .done k ∧ AwaitsProposal c i p d (ms ++ [m]) k := by
  have htriage := hj.triage_eq hfree m
  rcases triage_of_view (c := c) hview with haccept | hstale
  · cases m with
    | proposal _ => simp [Message.kind] at hkind
    | roundChange _ => simp [Message.kind] at hkind
    | prepare v =>
        have hnew := hj.toHears.new_prepare hslot hother
        have hhears := (hj.toHears.append (.prepare v)).counting (.inl (slot_mem_append ms _))
        refine ⟨j.counting v, ?_, hhears, hj.accepted, hj.phase, ?_, ?_⟩
        · rw [receive_prepare_of_new (htriage.trans haccept) hnew]
          exact countVotes_of_free hj.accepted
        · rw [preparesFor_counting hnew, tally_append_prepare hfree haccept, hj.preparesFor]
        · rw [tally_append_of_ne (.inl MessageKind.noConfusion)]
          exact hj.commitsFor
    | commit w =>
        have hnew := hj.toHears.new_commit hslot hother
        have hhears := (hj.toHears.append (.commit w)).committing (.inl (slot_mem_append ms _))
        refine ⟨j.committing w, ?_, hhears, hj.accepted, hj.phase, ?_, ?_⟩
        · rw [receive_commit_of_new (htriage.trans haccept) hnew]
          exact countVotes_of_free hj.accepted
        · rw [tally_append_of_ne (.inl MessageKind.noConfusion)]
          exact hj.preparesFor
        · rw [commitsFor_committing hnew, tally_append_commit hfree haccept, hj.commitsFor]
  · have hdropped := triage_accepting_of_stale (p := p) (d := d) hfree hkind hstale
    refine ⟨j, receive_of_stale (htriage.trans hstale), hj.toHears.append m, hj.accepted, hj.phase,
      ?_, ?_⟩
    · rw [tally_append_of_ne (.inr hdropped)]
      exact hj.preparesFor
    · rw [tally_append_of_ne (.inr hdropped)]
      exact hj.commitsFor

/-- Behind the proposal, votes for it are weighed and others are dropped. -/
theorem KnowsProposal.vote
    (hj : KnowsProposal c i p d ms j blocks) (hballot : Ballot c i p (ms ++ [m]))
    (hcheck : p.check c.scheme c.execution i.parent i.parentDigest i.committee = .ok d) :
    ∃ k actions, j.receive c m = .ok (k, actions) ∧
      KnowsProposal c i p d (ms ++ [m]) k (blocks ++ actions.filterMap Action.imported?) := by
  have htriage := hj.triage_eq m
  rcases triage_of_view (c := c) (i := i.accepting p d) hview with haccept | hstale
  · cases m with
    | proposal _ => simp [Message.kind] at hkind
    | roundChange _ => simp [Message.kind] at hkind
    | prepare v =>
        obtain ⟨hadmitted, hdigest⟩ := (triage_prepare_accepting hfree).mp haccept
        have hnew := hj.toHears.new_prepare hslot hother
        have hhears := (hj.toHears.append (.prepare v)).counting (.inl (slot_mem_append ms _))
        rw [receive_prepare_of_new (htriage.trans haccept) hnew]
        refine KnowsProposal.count ⟨hhears, hj.accepted, ?_, ?_⟩ hballot hcheck
        · rw [preparesFor_counting hnew, tally_append_prepare hfree hadmitted, if_pos hdigest,
            hj.preparesFor]
          exact Nat.add_right_comm _ _ _
        · rw [tally_append_prepare hfree hadmitted,
            tally_append_of_ne (.inl MessageKind.noConfusion)]
          exact hj.stage.more_prepares (by omega)
    | commit w =>
        obtain ⟨hadmitted, hdigest⟩ := (triage_commit_accepting hfree).mp haccept
        have hnew := hj.toHears.new_commit hslot hother
        have hhears := (hj.toHears.append (.commit w)).committing (.inl (slot_mem_append ms _))
        rw [receive_commit_of_new (htriage.trans haccept) hnew]
        refine KnowsProposal.count ⟨hhears, hj.accepted, ?_, ?_⟩ hballot hcheck
        · rw [tally_append_of_ne (.inl MessageKind.noConfusion)]
          exact hj.preparesFor
        · rw [tally_append_of_ne (.inl MessageKind.noConfusion),
            tally_append_commit hfree hadmitted,
            commitsFor_committing hnew, if_pos hdigest]
          exact hj.stage.one_commit
  · have hdropped : triage c (i.accepting p d) m ≠ .accept := by
      rw [hstale]
      exact Admission.noConfusion
    refine ⟨j, [], receive_of_stale (htriage.trans hstale), hj.toHears.append m, hj.accepted,
      ?_, ?_⟩
    · rw [tally_append_of_ne (.inr hdropped)]
      exact hj.preparesFor
    · rw [tally_append_of_ne (.inr hdropped), tally_append_of_ne (.inr hdropped)]
      rw [List.filterMap_nil, List.append_nil]
      exact hj.stage

end Vote

/-! ## Hearing the proposal -/

/-- A round that has gathered votes takes the proposal and weighs them. -/
theorem AwaitsProposal.proposal
    (hj : AwaitsProposal c i p d ms j) (hfree : i.round.accepted = none)
    (hadmitted : triage c i (.proposal p) = .accept) (hballot : Ballot c i p (ms ++ [.proposal p]))
    (hcheck : p.check c.scheme c.execution i.parent i.parentDigest i.committee = .ok d) :
    ∃ k actions, j.receive c (.proposal p) = .ok (k, actions) ∧
      KnowsProposal c i p d (ms ++ [.proposal p]) k (actions.filterMap Action.imported?) := by
  obtain ⟨hparent, hparentDigest, hcommittee, -⟩ := hj.base
  have hreceive : j.receive c (.proposal p) = accept c j p d := by
    unfold receive process
    rw [hj.triage_eq hfree, hadmitted]
    dsimp only
    rw [onProposal, hj.accepted, hparent, hparentDigest, hcommittee, hcheck]
    rfl
  have hpasses := JustifiedProposal.passes_of_check hcheck
  obtain ⟨x, hx⟩ := hpasses.header
  have hsize : j.committee.size ≤ Wire.maxLength := by
    rw [hcommittee, Committee.size, ← hx.validators]
    exact (Header.extraData_validators hx.extraData).2.2
  obtain ⟨k, actions, hk⟩ := exists_accept (c := c) (d := d) hj.accepted hx.extraData hsize
  refine ⟨k, actions, hreceive.trans hk, ?_⟩
  have hprepares : tally c (i.accepting p d) .prepare (ms ++ [.proposal p]) =
      j.round.preparesFor d :=
    (tally_append_of_ne (.inl MessageKind.noConfusion) ms).trans hj.preparesFor.symm
  have hcommits : tally c (i.accepting p d) .commit (ms ++ [.proposal p]) = j.round.commitsFor d :=
    (tally_append_of_ne (.inl MessageKind.noConfusion) ms).trans hj.commitsFor.symm
  have hstage : ∀ prepares, Stage c.scheme.hash d i.round.quorum prepares
      (tally c (i.accepting p d) .commit (ms ++ [.proposal p])) i.weight j.round.phase
        (j.round.commitsFor d) [] := by
    intro prepares
    rw [hcommits, hj.phase]
    exact .newRound
  have hheard := hj.toHears.append (.proposal p)
  have haccepting : Hears c i (ms ++ [.proposal p]) (j.accepting p d) :=
    { base := hheard.base
      view := hheard.view
      quorum := hheard.quorum
      prepares := fun x hx => .inl ((hheard.prepares x hx).resolve_right fun h => h.2 hj.accepted)
      commits := hheard.commits }
  rcases accept_eq_ok hj.accepted hk with ⟨hmember, hcount⟩ | ⟨hmember, q, rest, hq, hcount, rfl⟩
  · have hweight : i.weight = 0 := by rw [hj.weight_eq, hmember]; rfl
    have hknows : KnowsProposal c i p d (ms ++ [.proposal p]) (j.accepting p d) [] := by
      refine ⟨haccepting, rfl, ?_, hstage _⟩
      rw [hprepares, hweight]
      rfl
    exact hknows.stays hballot hpasses.digest (countVotes_stays.of_ok hcount)
  · obtain ⟨-, hpayload, hauthor, -⟩ := Signer.prepare_eq_ok hq
    have hweight : i.weight = 1 := by rw [hj.weight_eq, hmember]; rfl
    have hnew : ∀ v, (q.author, v) ∉ (j.accepting p d).round.prepares.entries := by
      intro v hv
      rcases hj.prepares _ hv with hsent | ⟨-, htaken⟩
      · rw [hauthor] at hsent
        exact hballot.init.1.not_own MessageKind.noConfusion hsent
      · exact htaken hj.accepted
    have hknows :
        KnowsProposal c i p d (ms ++ [.proposal p]) ((j.accepting p d).counting q) [] := by
      have hown := haccepting.counting (.inr ⟨hauthor, Option.some_ne_none _⟩)
      refine ⟨hown, rfl, ?_, hstage _⟩
      rw [preparesFor_counting hnew, hpayload, if_pos rfl, hprepares, hweight]
      rfl
    exact hknows.stays hballot hpasses.digest (countVotes_stays.of_ok hcount)

/-! ## The whole ballot -/

/-- A round that begins has gathered nothing. -/
theorem awaitsProposal_nil
    {proposer : Address} {quorum : Nat} (hfresh : i.round = .start i.view proposer quorum) :
    AwaitsProposal c i p d [] i where
  base := ⟨rfl, rfl, rfl, rfl⟩
  view := rfl
  quorum := rfl
  prepares x hx := by
    rw [hfresh] at hx
    exact absurd hx List.not_mem_nil
  commits x hx := by
    rw [hfresh] at hx
    exact absurd hx List.not_mem_nil
  accepted := by rw [hfresh]; rfl
  phase := by rw [hfresh]; rfl
  preparesFor := by rw [hfresh]; rfl
  commitsFor := by rw [hfresh]; rfl

section Run

variable {proposer : Address} {quorum : Nat}

/-- After any part of a ballot, a round has gathered the votes of it or has weighed them. -/
theorem Ballot.heard
    (hballot : Ballot c i p ms) (hfresh : i.round = .start i.view proposer quorum)
    (hadmitted : triage c i (.proposal p) = .accept)
    (hcheck : p.check c.scheme c.execution i.parent i.parentDigest i.committee = .ok d) :
    ∃ j actions, Step.forEach ms (receive c) i = .ok (j, actions) ∧ j.Concluded ∧
      ((.proposal p ∉ ms ∧ actions = [] ∧ AwaitsProposal c i p d ms j) ∨
        (.proposal p ∈ ms ∧ KnowsProposal c i p d ms j (actions.filterMap Action.imported?))) := by
  have hfree : i.round.accepted = none := by rw [hfresh]; rfl
  induction ms using List.reverseRecOn with
  | nil =>
      have hquiescent : i.Quiescent := by constructor <;> rw [hfresh] <;> rfl
      exact ⟨i, [], rfl, hquiescent.concluded,
        .inl ⟨List.not_mem_nil, rfl, awaitsProposal_nil hfresh⟩⟩
  | append_singleton ms m ih =>
      obtain ⟨hinit, hslot⟩ := hballot.init
      obtain ⟨j, actions, hj, hconcluded, hheard⟩ := ih hinit
      have hlast : m ∈ ms ++ [m] := List.mem_append_right _ List.mem_cons_self
      have hview : m.view = i.view := hballot.view m hlast
      suffices hstep : ∃ k more, j.receive c m = .ok (k, more) ∧
          ((.proposal p ∉ ms ++ [m] ∧ actions ++ more = [] ∧ AwaitsProposal c i p d (ms ++ [m]) k) ∨
            (.proposal p ∈ ms ++ [m] ∧
              KnowsProposal c i p d (ms ++ [m]) k
                ((actions ++ more).filterMap Action.imported?))) by
        obtain ⟨k, more, hk, hcases⟩ := hstep
        refine ⟨k, actions ++ more, ?_, (receive_concluded hconcluded).of_ok hk, hcases⟩
        rw [Step.forEach_append]
        exact Step.andThen_eq_ok.mpr ⟨j, actions, more, hj, hk, rfl⟩
      rcases hballot.votes m hlast with rfl | ⟨hkind, hother⟩
      · rcases hheard with ⟨-, rfl, hawaits⟩ | ⟨htaken, -⟩
        · obtain ⟨k, more, hk, hknows⟩ := hawaits.proposal hfree hadmitted hballot hcheck
          exact ⟨k, more, hk, .inr ⟨hlast, hknows⟩⟩
        · exact absurd (List.mem_map_of_mem htaken) hslot
      · have hne : m ≠ .proposal p := by
          rintro rfl
          simp [Message.kind] at hkind
        rcases hheard with ⟨hnot, rfl, hawaits⟩ | ⟨htaken, hknows⟩
        · obtain ⟨k, hk, hawaits⟩ := hawaits.vote hfree hview hslot hother hkind
          refine ⟨k, [], hk, .inl ⟨?_, rfl, hawaits⟩⟩
          rw [List.mem_append, List.mem_singleton]
          exact fun h => h.elim hnot fun h => hne h.symm
        · obtain ⟨k, more, hk, hknows⟩ := hknows.vote hfree hview hslot hother hkind hballot hcheck
          refine ⟨k, more, hk, .inr ⟨List.mem_append_left _ htaken, ?_⟩⟩
          rw [List.filterMap_append]
          exact hknows

/-- The digests of the blocks that a ballot lets a round hand out, and the phase that it ends in. -/
theorem KnowsProposal.settled
    (hj : KnowsProposal c i p d ms j blocks) (hquiescent : j.Quiescent) :
    j.round.phase = Phase.settled i.round.quorum (tally c (i.accepting p d) .prepare ms + i.weight)
        (tally c (i.accepting p d) .commit ms) i.weight ∧
      blocks.map (fun b => b.header.digest c.scheme.hash) =
        if j.round.phase = .committed then [.ok d] else [] := by
  have hprepared : j.round.phase = .newRound →
      ¬i.round.quorum ≤ tally c (i.accepting p d) .prepare ms + i.weight := by
    intro hphase hreached
    rw [← hj.preparesFor, ← hj.quorum] at hreached
    have hquorum := (Round.hasPreparedQuorum_eq_true hj.accepted).mpr ⟨hphase, hreached⟩
    rw [hquiescent.prepared] at hquorum
    contradiction
  have hcommitted : j.round.phase ≠ .committed → ¬i.round.quorum ≤ j.round.commitsFor d := by
    intro hphase hreached
    rw [← hj.quorum] at hreached
    have hquorum := (Round.hasCommitQuorum_eq_true hj.accepted).mpr ⟨hphase, hreached⟩
    rw [hquiescent.committed] at hquorum
    contradiction
  exact hj.stage.settled hprepared hcommitted

/-- The outcome of a round does not depend on the order in which its proposal and its votes
arrive. -/
theorem vote_order_irrelevant
    {ms' : List Message} (hfresh : i.round = .start i.view proposer quorum)
    (hadmitted : (Message.proposal p).triage c.scheme i.position = .ok .accept)
    (hcheck : p.check c.scheme c.execution i.parent i.parentDigest i.committee = .ok d)
    (hballot : Ballot c i p ms) (hproposal : .proposal p ∈ ms) (hperm : ms'.Perm ms) :
    ∃ j actions j' actions', Step.forEach ms (receive c) i = .ok (j, actions) ∧
      Step.forEach ms' (receive c) i = .ok (j', actions') ∧ j'.round.phase = j.round.phase ∧
        (actions'.filterMap Action.imported?).map (fun b => b.header.digest c.scheme.hash) =
          (actions.filterMap Action.imported?).map (fun b => b.header.digest c.scheme.hash) := by
  have htriage := triage_of_admitted hadmitted
  have hproposal' : .proposal p ∈ ms' := hperm.mem_iff.mpr hproposal
  obtain ⟨j, actions, hj, hconcluded, hheard⟩ := hballot.heard hfresh htriage hcheck
  obtain ⟨j', actions', hj', hconcluded', hheard'⟩ :=
    (hballot.perm hperm).heard hfresh htriage hcheck
  have hknows := (hheard.resolve_left fun h => h.1 hproposal).2
  have hknows' := (hheard'.resolve_left fun h => h.1 hproposal').2
  obtain ⟨hphase, hblocks⟩ := hknows.settled (hconcluded (hknows.closable hcheck))
  obtain ⟨hphase', hblocks'⟩ := hknows'.settled (hconcluded' (hknows'.closable hcheck))
  have hsame : j'.round.phase = j.round.phase := by
    rw [hphase', hphase, tally_perm hperm, tally_perm hperm]
  exact ⟨j, actions, j', actions', hj, hj', hsame, by rw [hblocks', hblocks, hsame]⟩

/-- A member of four hears the proposal and the votes for it, with one vote for another block
among them, in one order and in the opposite one. -/
theorem vote_order_irrelevant_of_four :
    let c := (Four.setup 0).context Four.moment
    let i := Four.base.fresh (Four.setup 0)
    let ms := [Four.propose 1 0 (Four.fresh 0), Four.prepare 1 0 (Four.fresh 0),
      Four.prepare 2 0 (Four.fresh 0), Four.prepare 3 0 Four.odd, Four.commit 1 0 (Four.fresh 0),
      Four.commit 3 0 (Four.fresh 0)].filterMap Except.toOption
    ms.length = 6 ∧ ∃ j actions j' actions', Step.forEach ms (receive c) i = .ok (j, actions) ∧
      Step.forEach ms.reverse (receive c) i = .ok (j', actions') ∧ j'.round.phase = j.round.phase ∧
        (actions'.filterMap Action.imported?).map (fun b => b.header.digest c.scheme.hash) =
          (actions.filterMap Action.imported?).map (fun b => b.header.digest c.scheme.hash) := by
  intro c i ms
  refine ⟨by decide +kernel, ?_⟩
  have hgood : ((Four.signer 1).proposal Four.hash ⟨Four.base.height, 0⟩ (Four.fresh 0)
      none).toOption.any (fun p => triage c i (.proposal p) == .accept &&
        (p.check c.scheme c.execution i.parent i.parentDigest i.committee).isOk &&
        decide (.proposal p ∈ ms) && decide (∀ m ∈ ms, m = .proposal p ∨
          ((m.kind = .prepare ∨ m.kind = .commit) ∧ m.author ≠ c.signer.address))) = true := by
    decide +kernel
  obtain ⟨p, -, hp⟩ := (Option.any_eq_true _ _).mp hgood
  simp only [Bool.and_eq_true, beq_iff_eq, decide_eq_true_eq] at hp
  obtain ⟨⟨⟨htriage, hok⟩, hproposal⟩, hvotes⟩ := hp
  have hballot : Ballot c i p ms := ⟨by decide +kernel, hvotes, by decide +kernel⟩
  have hfresh : ∀ (b : Base) (s : Setup), (b.fresh s).round =
      .start (b.fresh s).view (b.committee.proposer (b.fresh s).view) b.committee.quorum :=
    fun _ _ => rfl
  cases hcheck : p.check c.scheme c.execution i.parent i.parentDigest i.committee with
  | error e =>
      rw [hcheck] at hok
      exact absurd hok Bool.false_ne_true
  | ok d =>
      exact vote_order_irrelevant (hfresh _ _) (triage_eq_ok htriage) hcheck hballot hproposal
        (List.reverse_perm ms)

end Run

end Instance

end QuorumChain
