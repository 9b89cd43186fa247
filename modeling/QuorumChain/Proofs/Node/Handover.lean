import QuorumChain.Proofs.Node.Derivation
import QuorumChain.Proofs.Node.Endurance
import QuorumChain.Proofs.Node.Four
import QuorumChain.Proofs.Node.Later
import QuorumChain.Proofs.Node.Linkage
import QuorumChain.Proofs.Node.Lock

/-!
# Handing a round over

A round that is not decided is given up when its timer runs out or when a quorum asks for the
next one, whichever comes first.  The proposer of the next round may learn of the quorum before,
with or after its own request, and each order takes another branch.  In all of them it asks for
the round once and proposes in it once.

While the round goes on, only requests come in, and they are too few.  Then the node leaves, and
from there on it has proposed, or it has nothing to propose: the requests are still too few, or
nobody who asked is prepared and the engine has refused a fresh block.  Every further request
keeps this, and once a quorum has asked, only the last of the three is left.
-/

namespace QuorumChain

/-- The request to change the round that an action sends. -/
def Action.request? : Action → Option (Signed RoundChange)
  | .broadcast (.roundChange m) => some m
  | _ => none

/-- The proposal that an action sends. -/
def Action.proposal? : Action → Option JustifiedProposal
  | .broadcast (.proposal m) => some m
  | _ => none

theorem Action.eq_of_request?
    {a : Action} {m : Signed RoundChange} (h : a.request? = some m) :
    a = .broadcast (.roundChange m) := by
  unfold request? at h
  split at h
  · cases h
    rfl
  · contradiction

theorem Action.eq_of_proposal?
    {a : Action} {m : JustifiedProposal} (h : a.proposal? = some m) :
    a = .broadcast (.proposal m) := by
  unfold proposal? at h
  split at h
  · cases h
    rfl
  · contradiction

/-- Nothing is found among actions none of which sends what is looked for. -/
theorem Action.filterMap_eq_nil
    {P : Type} {found? : Action → Option P} {send : P → Message} {actions : List Action}
    (hfound : ∀ {a m}, found? a = some m → a = .broadcast (send m))
    (h : ∀ m, .broadcast (send m) ∉ actions) : actions.filterMap found? = [] := by
  rw [List.filterMap_eq_nil_iff]
  intro a ha
  cases hm : found? a with
  | none => rfl
  | some m => exact absurd (hfound hm ▸ ha) (h m)

namespace RoundChanges

variable {t : RoundChanges} {round : UInt32}

/-- Enough members who have asked for a round are a quorum. -/
theorem hasQuorum_of_asked
    {authors : List Address} (hnodup : authors.Nodup)
    (hasked : ∀ a ∈ authors, ∃ q, (a, q) ∈ (t.forRound round).entries)
    (hquorum : t.quorum ≤ authors.length) : t.hasQuorum round = true := by
  have hsubset : authors ⊆ (t.forRound round).entries.map (·.1) := by
    intro a ha
    obtain ⟨q, hq⟩ := hasked a ha
    exact List.mem_map.mpr ⟨_, hq, rfl⟩
  have hlength := (List.subperm_of_subset hnodup hsubset).length_le
  rw [List.length_map] at hlength
  rw [hasQuorum, decide_eq_true_eq, count, SortedMap.size]
  exact hquorum.trans hlength

theorem exists_certificate?
    {x : Address × Signed RoundChange} (hquorum : t.hasQuorum round = true)
    (hx : x ∈ (t.forRound round).entries) : ∃ rc, t.certificate? round = some rc := by
  obtain ⟨byAuthor, hround, -⟩ := mem_forRound.mp hx
  exact ⟨⟨byAuthor.values⟩, by rw [certificate?, if_pos hquorum, hround]; rfl⟩

end RoundChanges

namespace Instance

variable {c : Context} {s : Setup} {heard : List Input} {i j k : Instance} {round : UInt32}
  {actions : List Action}

/-! ## Moves that hear nothing -/

theorem Move.changes_eq
    (h : Move c [] i actions j) (hview : j.view = i.view) : j.changes = i.changes := by
  cases h with
  | request _ hheard => exact absurd hheard List.not_mem_nil
  | leave round hlater =>
      have hsame : round = i.view.round := congrArg View.round hview
      exact absurd hlater (hsame ▸ UInt32.lt_irrefl _)
  | depart round _ hlater =>
      have hsame : round = i.view.round := congrArg View.round hview
      exact absurd hlater (hsame ▸ UInt32.lt_irrefl _)
  | _ => rfl

/-- Requests are counted only when they are heard. -/
theorem Stays.changes_eq (h : Stays c [] i actions j) : j.changes = i.changes := by
  induction h with
  | refl i => rfl
  | head hmove hview _ ih => exact ih.trans (hmove.changes_eq hview)

/-- Nobody proposes in a round that has a proposal. -/
theorem Stays.proposes_nothing
    {a : JustifiedProposal × Digest} (h : Stays c heard i actions j)
    (htaken : i.round.accepted = some a) (m : JustifiedProposal) :
    .broadcast (.proposal m) ∉ actions := by
  induction h with
  | refl i => exact List.not_mem_nil
  | @head i j _ _ _ hfirst hview hrest ih =>
      intro hm
      rcases List.mem_append.mp hm with hm | hm
      · obtain ⟨-, -, -, -, -, hfree, -⟩ := hfirst.of_proposal hm
        rw [htaken] at hfree
        contradiction
      · exact ih ((hfirst.stays hview).lasts.accepted a htaken) hm

/-! ## Proposing -/

/-- Above round zero, nothing can be proposed only for want of requests or of a block. -/
theorem lacks_of_candidate
    (hround : i.view.round ≠ 0) (hnone : candidate c i = .ok none) :
    i.changes.certificate? i.view.round = none ∨ (i.NeedsFresh ∧ freshBlock c i = .ok none) := by
  rw [candidate, if_neg hround] at hnone
  cases hrc : i.changes.certificate? i.view.round with
  | none => exact .inl rfl
  | some rc =>
      rw [hrc] at hnone
      dsimp only at hnone
      cases hlatest : rc.latestPrepared with
      | some p =>
          rw [hlatest] at hnone
          obtain ⟨header, -, hnone⟩ := bind_eq_ok.mp hnone
          exact absurd (pure_eq_ok.mp hnone) (Option.some_ne_none _)
      | none =>
          rw [hlatest] at hnone
          obtain ⟨found, hfound, hnone⟩ := bind_eq_ok.mp hnone
          obtain rfl := Option.map_eq_none_iff.mp (pure_eq_ok.mp hnone)
          exact .inr ⟨.inr ⟨rc, hrc, hlatest⟩, hfound⟩

/-- What becomes of the attempt to propose above round zero: there is nothing to propose, or one
proposal is made, with the certificate of the requests. -/
inductive Proposes (c : Context) (i : Instance) : List Action → Instance → Prop
  | nothing
      (hlacks : i.changes.certificate? i.view.round = none ∨
        (i.NeedsFresh ∧ freshBlock c i = .ok none)) : Proposes c i [] i
  | once {j : Instance} {actions : List Action} (m : JustifiedProposal)
      (rc : RoundChangeCertificate)
      (htaken : j.round.accepted ≠ none)
      (hm : actions.filterMap Action.proposal? = [m])
      (hview : m.signed.payload.view = i.view)
      (hjustified : m.justification = some rc)
      (hrc : i.changes.certificate? i.view.round = some rc)
      (hsilent : ∀ q, .broadcast (.roundChange q) ∉ actions)
      (hchanges : j.changes = i.changes)
      (hstill : j.view = i.view) :
      Proposes c i actions j

theorem proposes
    (hround : i.view.round ≠ 0) (hproposer : i.isProposer = true) (hfree : i.round.accepted = none)
    (hpropose : propose c i = .ok (j, actions)) : Proposes c i actions j := by
  have hstays : Stays c [] i actions j := propose_stays.of_ok hpropose
  rcases propose_eq_ok hpropose with ⟨rfl, rfl, hnone⟩ |
    ⟨block, certificate, m, d, p, rest, -, -, hfound, -, hm, -, hcount, rfl⟩
  · exact .nothing (lacks_of_candidate hround (hnone hproposer hfree))
  · obtain ⟨rc, rfl, hrc, -⟩ := (candidate_eq_ok.mp hfound).justified hround
    obtain ⟨-, hpayload, hjustified, -⟩ := Signer.proposal_eq_ok hm
    have hcounts : Stays c [] ((i.accepting m d).counting p) rest j := countVotes_stays.of_ok hcount
    have hrest := Action.filterMap_eq_nil Action.eq_of_proposal? (hcounts.proposes_nothing rfl)
    refine .once m rc ?_ ?_ ?_ hjustified hrc hstays.silent hstays.changes_eq hstays.lasts.view
    · rw [hcounts.lasts.accepted _ rfl]
      exact Option.some_ne_none _
    · exact congrArg (m :: ·) hrest
    · rw [hpayload]

theorem Proposes.lasts
    (h : Proposes c i actions j) :
    j.view = i.view ∧ j.changes = i.changes ∧ actions.filterMap Action.request? = [] := by
  cases h with
  | nothing => exact ⟨rfl, rfl, rfl⟩
  | once m rc _ _ _ _ _ hsilent hchanges hview =>
      exact ⟨hview, hchanges, Action.filterMap_eq_nil Action.eq_of_request? hsilent⟩

/-! ## Entering the round -/

theorem replayKept_of_nothing
    (hkeeps : i.KeepsHeard []) : ∃ later, replayKept c i = .done { i with later } := by
  refine ⟨((i.later.dropBelow i.view.round).take i.view.round).2, ?_⟩
  have hnone : ((i.later.dropBelow i.view.round).take i.view.round).1 = [] := by
    rw [List.eq_nil_iff_forall_not_mem]
    intro m hm
    exact List.not_mem_nil
      (hkeeps m (Backlog.holds_of_holds_dropBelow (Backlog.holds_of_mem_take hm)))
  show Step.forEach ((i.later.dropBelow i.view.round).take i.view.round).1 (replay c) _ = _
  rw [hnone]
  rfl

/-- Whatever becomes of a move once the round is announced, the instance is in that round and counts
the requests that it counted when it entered it. -/
theorem moveTo_enters
    {first : List Action} (hkeeps : i.KeepsHeard [])
    (hannounce : announce c i (i.viewIn round) = .ok (k, first)) :
    (moveTo c i round).Ends fun _ j =>
      j.view = i.viewIn round ∧ j.changes = (k.entering (i.viewIn round)).changes := by
  have hdeparts := departs_of_announce hannounce
  rw [moveTo_of_announce hannounce]
  exact Step.ends_emit_andThen <| (proceed_stays (hdeparts.keepsHeard hkeeps)).imp
    fun _ _ hstays => ⟨hstays.lasts.view, hstays.changes_eq⟩

/-- The proposer of a round that it enters asks for it and tries to propose. -/
theorem moveTo_proposes
    (hround : round ≠ 0) (hmember : i.isMember = true)
    (hproposer : i.committee.proposer (i.viewIn round) = i.self) (hkeeps : i.KeepsHeard [])
    (hmove : moveTo c i round = .ok (j, actions)) :
    ∃ m k rest later, c.signer.roundChange c.scheme.hash (i.viewIn round) i.prepared = .ok m ∧
      Proposes c ((i.requesting m).entering (i.viewIn round)) rest k ∧
        j = { k with later } ∧
          actions = .broadcast (.roundChange m) :: startTimer c (i.viewIn round) :: rest := by
  rw [moveTo_eq_leaveFor] at hmove
  obtain ⟨k, first, last, hleave, hreplay, rfl⟩ := Step.andThen_eq_ok.mp hmove
  obtain ⟨k', asked, _, hannounce, hentered, rfl⟩ := Step.andThen_eq_ok.mp hleave
  obtain ⟨k'', timer, rest, henter, hpropose, rfl⟩ := Step.andThen_eq_ok.mp hentered
  obtain ⟨rfl, rfl⟩ := Step.emit_eq_ok.mp henter
  rw [announce, if_pos hmember] at hannounce
  obtain ⟨m, hm, hannounce⟩ := Step.given_eq_ok.mp hannounce
  obtain ⟨rfl, rfl⟩ := Step.emit_eq_ok.mp hannounce
  have hm := written_eq_ok.mp hm
  have hdeparts : Departs c i round _ ((i.requesting m).entering (i.viewIn round)) :=
    .announced m hmember hm
  have hleads : ((i.requesting m).entering (i.viewIn round)).isProposer = true := by
    show (i.isMember && i.committee.proposer (i.viewIn round) == i.self) = true
    rw [hmember, hproposer]
    simp
  have hproposes := proposes (i := (i.requesting m).entering (i.viewIn round)) hround hleads rfl
    hpropose
  have hstays : Stays c [] _ rest k := propose_stays.of_ok hpropose
  obtain ⟨later, hdone⟩ := replayKept_of_nothing (c := c)
    (hstays.moves.preserves Move.keepsHeard (hdeparts.keepsHeard hkeeps))
  rw [hdone] at hreplay
  obtain ⟨rfl, rfl⟩ := Step.done_eq_ok.mp hreplay
  exact ⟨m, k, rest, later, hm, hproposes, rfl, by simp⟩

/-! ## Requests -/

theorem receive_of_request
    {q : Signed RoundChange}
    (hadmitted : (Message.roundChange q).triage c.scheme i.position = .ok .accept) :
    receive c i (.roundChange q) = onRoundChange c i q := by
  unfold receive process
  rw [triage_of_admitted hadmitted]

/-- A request that is taken up was made before, or it is counted; then the round may be left, or its
proposer may have something to propose. -/
theorem receive_request
    {q : Signed RoundChange}
    (hadmitted : (Message.roundChange q).triage c.scheme i.position = .ok .accept)
    (hopen : i.round.phase ≠ .committed) :
    (receive c i (.roundChange q) = .done i ∧
      ∃ q', (q.author, q') ∈ (i.changes.forRound q.payload.view.round).entries) ∨
    receive c i (.roundChange q) =
      if i.view.round < q.payload.view.round ∧
          (i.requesting q).changes.hasQuorum q.payload.view.round = true then
        moveTo c (i.requesting q) q.payload.view.round
      else if q.payload.view.round = i.view.round then propose c (i.requesting q)
      else .done (i.requesting q) := by
  rw [receive_of_request hadmitted, onRoundChange, if_neg hopen]
  cases hnew : i.changes.add? q with
  | none =>
      rw [RoundChanges.add?, Option.map_eq_none_iff] at hnew
      exact .inl ⟨rfl, SortedMap.insertNew?_eq_none hnew⟩
  | some changes =>
      have hrequesting : i.requesting q = { i with changes } := by
        rw [requesting, RoundChanges.add, hnew, Option.getD_some]
      right
      rw [hrequesting]
      simp only [Bool.and_eq_true, decide_eq_true_eq]
      rfl

/-- A request for the present round is taken up before anything is proposed in it, unless the
round is decided or its author has made one before. -/
theorem receive_request_of_present
    {q : Signed RoundChange}
    (hadmitted : (Message.roundChange q).triage c.scheme i.position = .ok .accept)
    (hq : q.payload.view.round = i.view.round) :
    (receive c i (.roundChange q) = .done i ∧ (i.round.phase = .committed ∨
      ∃ q', (q.author, q') ∈ (i.changes.forRound i.view.round).entries)) ∨
    receive c i (.roundChange q) = propose c (i.requesting q) := by
  by_cases hphase : i.round.phase = .committed
  · refine .inl ⟨?_, .inl hphase⟩
    rw [receive_of_request hadmitted, onRoundChange, if_pos hphase]
  · have hcases := receive_request hadmitted hphase
    rw [hq, if_neg fun h => UInt32.lt_irrefl _ h.1, if_pos rfl] at hcases
    exact hcases.imp_left (And.imp_right .inr)

/-- Behind a proposal, requests for the round are only counted. -/
theorem receive_request_of_taken
    {q : Signed RoundChange}
    (hadmitted : (Message.roundChange q).triage c.scheme i.position = .ok .accept)
    (hq : q.payload.view.round = i.view.round) (htaken : i.round.accepted ≠ none) :
    ∃ j, receive c i (.roundChange q) = .done j ∧ j.round = i.round := by
  have hidle : propose c (i.requesting q) = .done (i.requesting q) :=
    propose_of_idle fun hnone => absurd hnone htaken
  rcases receive_request_of_present hadmitted hq with ⟨hdone, -⟩ | hpropose
  · exact ⟨i, hdone, rfl⟩
  · exact ⟨i.requesting q, hpropose.trans hidle, rfl⟩

/-- How an instance answers a turn. -/
def respond (s : Setup) (i : Instance) (t : Turn) : Step Instance :=
  match t.input with
  | .message m => i.receive (s.context t.moment) m
  | .expiry view => i.expire (s.context t.moment) view

/-- Whoever has sent a request in some turns has asked for the round. -/
def Asked (round : UInt32) (ts : List Turn) (i : Instance) : Prop :=
  ∀ t ∈ ts, ∀ q, t.input = .message (.roundChange q) →
    ∃ q', (q.author, q') ∈ (i.changes.forRound round).entries

/-- The author of another request has asked for the round as well. -/
theorem Asked.request
    {ts : List Turn} {t : Turn} {q : Signed RoundChange} (h : Asked round ts i)
    (hkeeps : ∀ x ∈ (i.changes.forRound round).entries, x ∈ (j.changes.forRound round).entries)
    (ht : t.input = .message (.roundChange q))
    (hq : ∃ q', (q.author, q') ∈ (j.changes.forRound round).entries) :
    Asked round (ts ++ [t]) j := by
  intro t' ht' p hp
  rcases List.mem_append.mp ht' with ht' | ht'
  · obtain ⟨q', hq'⟩ := h t' ht' p hp
    exact ⟨q', hkeeps _ hq'⟩
  · rw [List.mem_singleton.mp ht', ht] at hp
    cases hp
    exact hq

theorem Asked.expiry
    {ts : List Turn} {t : Turn} {view : View} (h : Asked round ts i) (ht : t.input = .expiry view) :
    Asked round (ts ++ [t]) i := by
  intro t' ht' q hq
  rcases List.mem_append.mp ht' with ht' | ht'
  · exact h t' ht' q hq
  · rw [List.mem_singleton.mp ht', ht] at hq
    contradiction

end Instance

/-! ## Fresh blocks -/

namespace Setup.Moment

/-- The execution engine that can be asked at a moment gives a block for a round of a height,
and the block can be proposed. -/
def Provides (moment : Setup.Moment) (b : Base) (round : UInt32) : Prop :=
  ∃ block, moment.execution.createBlock b.parent b.parentDigest round b.committee
    (moment.votes.offer b.committee) = .ok block ∧ block.Sendable

/-- The execution engine fails to give a block; a proposer takes that for an answer. -/
def Refuses (moment : Setup.Moment) (b : Base) (round : UInt32) : Prop :=
  ∃ cause, moment.execution.createBlock b.parent b.parentDigest round b.committee
    (moment.votes.offer b.committee) = .error (.execution cause)

variable {moment : Setup.Moment} {s : Setup} {b : Base} {i : Instance} {round : UInt32}

theorem Provides.freshBlock
    (h : moment.Provides b round) (hbase : i.base = b) (hround : i.view.round = round) :
    ∃ block, i.freshBlock (s.context moment) = .ok (some block) ∧ block.Sendable := by
  subst hbase hround
  obtain ⟨block, hcreate, hsendable⟩ := h
  exact ⟨block, Instance.freshBlock_eq_ok.mpr hcreate, hsendable⟩

theorem Refuses.freshBlock
    (h : moment.Refuses b round) (hbase : i.base = b) (hround : i.view.round = round) :
    i.freshBlock (s.context moment) = .ok none := by
  subst hbase hround
  obtain ⟨cause, hcreate⟩ := h
  have hasked : (s.context moment).execution.createBlock i.parent i.parentDigest i.view.round
      i.committee ((s.context moment).votes.offer i.committee) = .error (.execution cause) :=
    hcreate
  rw [Instance.freshBlock, hasked]

/-- If the block that the engine may give can be proposed, so can a fresh one. -/
theorem freshSendable
    (h : moment.Provides b round ∨ moment.Refuses b round) (hbase : i.base = b)
    (hround : i.view.round = round) : i.FreshSendable (s.context moment) := by
  rcases h with hprovides | hrefuses
  · obtain ⟨block, hfresh, hsendable⟩ := hprovides.freshBlock (s := s) hbase hround
    refine ⟨some block, hfresh, ?_⟩
    rintro _ ⟨⟩
    exact hsendable
  · exact ⟨none, hrefuses.freshBlock hbase hround, fun block hblock => by contradiction⟩

/-- A proposer that lacks requests or a block, though the engine gives one if it does not refuse
to, has been refused one unless it lacks requests. -/
theorem refused_of_lacks
    {refused : Prop}
    (hlacks : i.changes.certificate? i.view.round = none ∨
      (i.NeedsFresh ∧ i.freshBlock (s.context moment) = .ok none))
    (hneeds : i.NeedsFresh → moment.Provides b round ∨ (moment.Refuses b round ∧ refused))
    (hbase : i.base = b) (hround : i.view.round = round) :
    i.changes.certificate? round = none ∨ refused := by
  rw [hround] at hlacks
  refine hlacks.imp_right ?_
  rintro ⟨hfresh, hnone⟩
  rcases hneeds hfresh with hprovides | ⟨-, hrefused⟩
  · obtain ⟨block, hblock, -⟩ := hprovides.freshBlock (s := s) hbase hround
    cases hnone.symm.trans hblock
  · exact hrefused

end Setup.Moment

namespace Record

open Instance

/-- A proposal for a view rests on requests for it of a quorum. -/
def Opens (b : Base) (view : View) (m : JustifiedProposal) : Prop :=
  m.signed.payload.view = view ∧ ∃ rc, m.justification = some rc ∧
    (∀ q ∈ rc.requests, q.payload.view = view) ∧ (rc.requests.map (·.author)).Nodup ∧
      b.committee.quorum ≤ rc.requests.length

/-- A turn leaves a node that needs a fresh block to propose in a round: it has not proposed there
before, and now there are the requests of a quorum, none of which names a prepared block. -/
def NeedsBlock (round : UInt32) (before after : Instance) : Prop :=
  (before.view.round = round → before.round.accepted = none) ∧
    ∃ rc, after.changes.certificate? round = some rc ∧ rc.latestPrepared = none

/-- An undecided round goes on after some turns, and the requests for the next one are counted. -/
structure GoesOn (i : Instance) (round : UInt32) (ts : List Turn) (j : Instance) : Prop where
  same : j.round = i.round
  keeps : j.KeepsHeard []
  asked : Asked round ts j

/-- The node waits in its round: no timer has run out, and too few have asked for the next round. -/
structure Waits (i : Instance) (round : UInt32) (ts : List Turn) (j : Instance) : Prop
    extends GoesOn i round ts j where
  few : j.changes.hasQuorum round = false
  running : ∀ t ∈ ts, t.input ≠ .expiry i.view

/-- The next round has been entered after some turns: the node has asked for it once, and it has
proposed once or cannot propose yet. -/
structure Leads (b : Base) (i : Instance) (round : UInt32) (refused : Prop) (ts : List Turn)
    (j : Instance) (actions : List Action) : Prop where
  view : j.view = i.viewIn round
  request : ∃ m, actions.filterMap Action.request? = [m] ∧ m.payload.view = i.viewIn round
  proposal : (j.round.accepted = none ∧ j.round.phase = .newRound ∧
      (j.changes.certificate? round = none ∨ refused) ∧ Asked round ts j ∧
      actions.filterMap Action.proposal? = []) ∨
    (j.round.accepted ≠ none ∧
      ∃ m, actions.filterMap Action.proposal? = [m] ∧ Opens b (i.viewIn round) m)

/-- What may be taken for a refusal may be taken more widely. -/
theorem Leads.imp
    {b : Base} {i j : Instance} {round : UInt32} {refused refused' : Prop} {ts : List Turn}
    {actions : List Action} (h : Leads b i round refused ts j actions)
    (himp : refused → refused') : Leads b i round refused' ts j actions := by
  refine ⟨h.view, h.request, h.proposal.imp_left ?_⟩
  rintro ⟨hfree, hphase, hlacks, hasked, hnone⟩
  exact ⟨hfree, hphase, hlacks.imp_right himp, hasked, hnone⟩

/-- A turn of a round that is given up: its timer runs out, or somebody asks for the next round. -/
def GivesUp (s : Setup) (i : Instance) (t : Turn) : Prop :=
  t.input = .expiry i.view ∨
    ∃ q, t.input = .message (.roundChange q) ∧
      q.payload.view = i.viewIn (View.successor i.view.round) ∧
        (Message.roundChange q).triage s.scheme i.position = .ok .accept

variable {s : Setup} {b : Base} {r : Record} {i j k : Instance} {round : UInt32} {ts : List Turn}
  {t : Turn} {actions rest : List Action} {moment : Setup.Moment} {refused : Prop}

/-- The certificate of the requests is that of a quorum. -/
theorem Sound.opens
    {m : JustifiedProposal} {rc : RoundChangeCertificate} (h : Sound s b r)
    (hview : m.signed.payload.view = ⟨b.height, round⟩) (hm : m.justification = some rc)
    (hrc : r.now.changes.certificate? round = some rc) : Opens b ⟨b.height, round⟩ m := by
  have hjustifies : rc.Justifies b.committee (fun _ => True) ⟨b.height, round⟩ :=
    h.justifies hrc fun _ _ => trivial
  exact ⟨hview, rc, hm, hjustifies.view, hjustifies.nodup, hjustifies.quorum⟩

/-- Whoever proposes in some view is a member. -/
theorem Framed.isMember_of_proposer
    {view : View} (h : Framed s b i) (hproposer : b.committee.proposer view = s.signer.address) :
    i.isMember = true := by
  rw [isMember, h.committee, h.self, ← hproposer, Committee.contains, List.contains_iff_mem]
  exact List.get_mem _ _

/-- A request that is admitted in one view of the height is admitted in the view that it is for. -/
theorem admitted_request_of
    {q : Signed RoundChange} {position position' : Position}
    (hadmitted : (Message.roundChange q).triage s.scheme position = .ok .accept)
    (hcommittee : position'.committee = position.committee)
    (hview : q.payload.view = position'.view) :
    (Message.roundChange q).triage s.scheme position' = .ok .accept := by
  obtain ⟨hauthor, horigin, -, hcontent⟩ := Message.triage_eq_accept hadmitted
  rw [← hcommittee] at hauthor horigin
  refine Message.triage_of_checks hauthor horigin hview ?_
  rw [Message.checkContent] at hcontent ⊢
  rw [hcommittee]
  exact hcontent

/-- An admitted request may be counted before anything else is done about it. -/
theorem Attainable.requesting
    {q : Signed RoundChange} (hr : Attainable s b r) (moment : Setup.Moment)
    (hadmitted : (Message.roundChange q).triage s.scheme r.now.position = .ok .accept) :
    Attainable s b ⟨r.now.requesting q, .message (.roundChange q) :: r.heard, r.made⟩ := by
  have hmove : Move (s.context moment) (.message (.roundChange q) :: r.heard) r.now []
      (r.now.requesting q) := .request q List.mem_cons_self hadmitted
  have hmoved := (hr.hear (.message (.roundChange q))).move hmove
  rwa [List.append_nil] at hmoved

theorem now_turn_of_respond
    (h : r.now.respond s t = .ok (j, actions)) : (r.turn s t).now = j := by
  have hanswer : r.answer s t = .ok (j, actions) := h
  rw [turn, hanswer]
  rfl

/-- What every outcome of an answer has, the instance behind the turn has. -/
theorem now_turn_of_ends
    {p : List Action → Instance → Prop} {step : Step Instance} (hrespond : r.now.respond s t = step)
    (h : step.Ends p) : ∃ actions, p actions (r.turn s t).now := by
  have hanswer : r.answer s t = step := hrespond
  rw [turn, hanswer]
  exact ⟨_, h⟩

/-- If an instance needs a fresh block to propose in a round above zero, the turn in which it is
about to do so is one in which a block is needed. -/
theorem needsBlock_of_needsFresh
    {before after : Instance} (hneeds : i.NeedsFresh) (hround : i.view.round = round)
    (hnonzero : round ≠ 0) (hfree : before.view.round = round → before.round.accepted = none)
    (hchanges : after.changes = i.changes) : NeedsBlock round before after := by
  subst hround
  rcases hneeds with hzero | ⟨rc, hrc, hnone⟩
  · exact absurd hzero hnonzero
  · exact ⟨hfree, rc, hchanges ▸ hrc, hnone⟩

/-! ## Turn by turn -/

section Turns

variable (hr : Attainable s b r) (hi : Framed s b i) (hlater : i.view.round < round)

include hlater

theorem ne_zero_of_later : round ≠ 0 := by
  rintro rfl
  exact UInt32.not_lt_zero hlater

omit hlater in
include hr hi in
/-- What is proposed in a turn, on the requests that are there behind it, rests on a quorum. -/
theorem opens_of_turn
    {m : JustifiedProposal} {rc : RoundChangeCertificate} (hnow : (r.turn s t).now = j)
    (hview : m.signed.payload.view = i.viewIn round) (hm : m.justification = some rc)
    (hrc : j.changes.certificate? round = some rc) : Opens b (i.viewIn round) m := by
  subst hnow
  have hat : i.viewIn round = ⟨b.height, round⟩ := View.eq_of_eq hi.height rfl
  rw [hat] at hview ⊢
  exact (hr.turn t).sound.opens hview hm hrc

/-- In the next round, the old timer means nothing. -/
theorem respond_expiry
    (hview : j.view = i.viewIn round) (ht : t.input = .expiry i.view) :
    j.respond s t = .done j := by
  have hother : i.view ≠ j.view := by
    rw [hview]
    intro heq
    have hround : i.view.round = round := congrArg View.round heq
    exact UInt32.lt_irrefl _ (hround ▸ hlater)
  rw [respond, ht]
  dsimp only
  rw [expire, if_pos (.inl hother)]

include hr hi

omit hlater in
/-- In the next round, a request for it is admitted. -/
theorem admitted_of_entered
    {q : Signed RoundChange} (hview : r.now.view = i.viewIn round)
    (hq : q.payload.view = i.viewIn round)
    (hadmitted : (Message.roundChange q).triage s.scheme i.position = .ok .accept) :
    (Message.roundChange q).triage s.scheme r.now.position = .ok .accept ∧
      q.payload.view.round = r.now.view.round := by
  refine ⟨?_, by rw [hq, hview]⟩
  exact admitted_request_of hadmitted (hr.framed.committee.trans hi.committee.symm)
    (hq.trans hview.symm)

/-- While the node waits, a turn leaves it waiting or makes it move to the next round. -/
theorem Waits.turn
    (hwaits : Waits i round ts r.now) (hopen : i.round.phase ≠ .committed)
    (hround : round = View.successor i.view.round) (hgives : GivesUp s i t) :
    (∃ k, r.now.respond s t = .done k ∧ Waits i round (ts ++ [t]) k) ∨
      ∃ k heard, r.now.respond s t = moveTo (s.context t.moment) k round ∧
        Attainable s b ⟨k, heard, r.made⟩ ∧ GoesOn i round (ts ++ [t]) k := by
  have hview : r.now.view = i.view := congrArg Round.view hwaits.same
  have hstill : r.now.round.phase ≠ .committed := by rwa [hwaits.same]
  rcases hgives with ht | ⟨q, ht, hq, hadmitted⟩
  · refine .inr ⟨r.now, r.heard, ?_, hr, hwaits.same, hwaits.keeps, hwaits.asked.expiry ht⟩
    rw [respond, ht, hround]
    dsimp only
    rw [expire, if_neg (by simp [hview, hstill])]
  · have hqround : q.payload.view.round = round := by
      rw [hq, hround]
      rfl
    have hposition : r.now.position = i.position := by
      rw [position, position, hview, hwaits.same, hr.framed.committee, hi.committee]
    rw [← hposition] at hadmitted
    have hrunning : ∀ t' ∈ ts ++ [t], t'.input ≠ .expiry i.view := by
      intro t' ht'
      rcases List.mem_append.mp ht' with ht' | ht'
      · exact hwaits.running t' ht'
      · rw [List.mem_singleton.mp ht', ht]
        exact Input.noConfusion
    have hrespond : r.now.respond s t = r.now.receive (s.context t.moment) (.roundChange q) := by
      rw [respond, ht]
    rcases receive_request (c := s.context t.moment) hadmitted hstill with
      ⟨hdone, hbefore⟩ | hcounted
    · rw [hqround] at hbefore
      have hasked := hwaits.asked.request (fun _ hx => hx) ht hbefore
      exact .inl ⟨r.now, hrespond.trans hdone,
        ⟨hwaits.same, hwaits.keeps, hasked⟩, hwaits.few, hrunning⟩
    · have hasked : Asked round (ts ++ [t]) (r.now.requesting q) := by
        refine hwaits.asked.request (fun _ hx => RoundChanges.mem_forRound_add_of_mem hx) ht ?_
        rw [← hqround]
        exact RoundChanges.exists_mem_forRound_add r.now.changes q
      have hgoes : GoesOn i round (ts ++ [t]) (r.now.requesting q) :=
        ⟨hwaits.same, hwaits.keeps, hasked⟩
      rw [hqround, hview] at hcounted
      by_cases hquorum : (r.now.requesting q).changes.hasQuorum round = true
      · rw [if_pos ⟨hlater, hquorum⟩] at hcounted
        exact .inr ⟨_, _, hrespond.trans hcounted, hr.requesting t.moment hadmitted, hgoes⟩
      · have hother : round ≠ i.view.round := fun heq => UInt32.lt_irrefl _ (heq ▸ hlater)
        rw [if_neg fun h => hquorum h.2, if_neg hother] at hcounted
        exact .inl ⟨_, hrespond.trans hcounted, hgoes, Bool.eq_false_iff.mpr hquorum, hrunning⟩

variable (hsize : b.committee.size ≤ Wire.maxLength)

omit hr hi hlater in
include hsize in
/-- Whoever moves to the next round enters it, whatever the engine answers. -/
theorem GoesOn.enters
    {heard : List Input} (hgoes : GoesOn i round ts k) (hk : Attainable s b ⟨k, heard, r.made⟩)
    (hrespond : r.now.respond s t = moveTo (s.context t.moment) k round) :
    (r.turn s t).now.view = i.viewIn round ∧
      ∃ e first, announce (s.context t.moment) k (k.viewIn round) = .ok (e, first) ∧
        (r.turn s t).now.changes = (e.entering (k.viewIn round)).changes := by
  have hrobust : k.Robust (s.context t.moment).signer.address := hk.robust
  have hlisted : k.committee.size ≤ Wire.maxLength := by rwa [hk.framed.committee]
  have hview : k.viewIn round = i.viewIn round := by
    rw [viewIn, viewIn, Instance.view, hgoes.same]
    rfl
  obtain ⟨e, first, hannounce, -⟩ := hrobust.exists_announce hlisted (k.viewIn round)
  obtain ⟨_, hentered, hchanges⟩ :=
    now_turn_of_ends hrespond (moveTo_enters hgoes.keeps hannounce)
  exact ⟨hentered.trans hview, e, first, hannounce, hchanges⟩

variable (hproposer : b.committee.proposer (i.viewIn round) = s.signer.address)
  (hbuilds : NeedsBlock round r.now (r.turn s t).now →
    t.moment.Provides b round ∨ (t.moment.Refuses b round ∧ refused))

include hsize hproposer hbuilds

/-- Whoever moves to the next round, which it leads, asks for it and proposes if possible. -/
theorem GoesOn.leads
    {heard : List Input} (hgoes : GoesOn i round ts k) (hk : Attainable s b ⟨k, heard, r.made⟩)
    (hbefore : r.now.view.round ≠ round)
    (hrespond : r.now.respond s t = moveTo (s.context t.moment) k round) :
    ∃ j actions, r.now.respond s t = .ok (j, actions) ∧ Leads b i round refused ts j actions := by
  have hframed : Framed s b k := hk.framed
  have hrobust : k.Robust (s.context t.moment).signer.address := hk.robust
  have hlisted : k.committee.size ≤ Wire.maxLength := by rwa [hframed.committee]
  have hview : k.viewIn round = i.viewIn round := by
    rw [viewIn, viewIn, Instance.view, hgoes.same]
    rfl
  have hlead : k.committee.proposer (k.viewIn round) = k.self := by
    rw [hframed.committee, hview, hframed.self, hproposer]
  have hnonzero := ne_zero_of_later hlater
  have hneeds : ∀ l : Instance, l.view.round = round → (r.turn s t).now.changes = l.changes →
      l.NeedsFresh → t.moment.Provides b round ∨ (t.moment.Refuses b round ∧ refused) := by
    intro l hlround hlchanges hl
    exact hbuilds (needsBlock_of_needsFresh hl hlround hnonzero
      (fun hsame => absurd hsame hbefore) hlchanges)
  obtain ⟨-, e, first, hannounce, hchanges⟩ := hgoes.enters hsize hk hrespond
  obtain ⟨j, actions, hj⟩ := hrobust.exists_moveTo hlisted round (by
    intro e' first' hannounce' hl
    rw [hannounce] at hannounce'
    cases hannounce'
    exact Setup.Moment.freshSendable ((hneeds _ rfl hchanges hl).imp_right And.left)
      ((departs_of_announce hannounce).base_eq.trans hframed.base) rfl)
  have hnow := now_turn_of_respond (hrespond.trans hj)
  refine ⟨j, actions, hrespond.trans hj, ?_⟩
  obtain ⟨m, l, rest, later, hm, hproposes, rfl, rfl⟩ :=
    moveTo_proposes hnonzero (hframed.isMember_of_proposer hproposer) hlead hgoes.keeps hj
  obtain ⟨-, hpayload, -⟩ := Signer.roundChange_eq_ok hm
  obtain ⟨hstill, hkept, hsilent⟩ := hproposes.lasts
  have hrequest : m.payload.view = i.viewIn round := by
    rw [hpayload]
    exact hview
  refine ⟨hstill.trans hview, ⟨m, congrArg (m :: ·) hsilent, hrequest⟩, ?_⟩
  cases hproposes with
  | nothing hlacks =>
      refine .inl ⟨rfl, rfl, ?_, ?_, rfl⟩
      · exact Setup.Moment.refused_of_lacks hlacks (hneeds _ rfl (congrArg Instance.changes hnow))
          hframed.base rfl
      · intro t ht q hq
        obtain ⟨q', hq'⟩ := hgoes.asked t ht q hq
        exact ⟨q', RoundChanges.mem_forRound_dropBelow_of_mem
          (RoundChanges.mem_forRound_add_of_mem hq')⟩
  | once p rc htaken hp hpview hjustified hrc =>
      refine .inr ⟨htaken, p, hp, opens_of_turn hr hi hnow (hpview.trans hview) hjustified ?_⟩
      show l.changes.certificate? round = some rc
      rw [hkept]
      exact hrc

/-- In the next round, a request that is counted may be what the proposer waits for. -/
theorem Leads.count
    {q : Signed RoundChange} (hleads : Leads b i round refused ts r.now actions)
    (hfree : r.now.round.accepted = none) (hphase : r.now.round.phase = .newRound)
    (hasked : Asked round (ts ++ [t]) (r.now.requesting q))
    (hnone : actions.filterMap Action.proposal? = [])
    (hadmitted : (Message.roundChange q).triage s.scheme r.now.position = .ok .accept)
    (hrespond : r.now.respond s t = propose (s.context t.moment) (r.now.requesting q)) :
    ∃ j more, r.now.respond s t = .ok (j, more) ∧
      Leads b i round refused (ts ++ [t]) j (actions ++ more) := by
  have hview : r.now.view.round = round := congrArg View.round hleads.view
  have hcount := hr.requesting t.moment hadmitted
  have hrobust : (r.now.requesting q).Robust (s.context t.moment).signer.address := hcount.robust
  have hlisted : (r.now.requesting q).committee.size ≤ Wire.maxLength := by
    rwa [hcount.framed.committee]
  have hnonzero := ne_zero_of_later hlater
  have hends : (propose (s.context t.moment) (r.now.requesting q)).Ends
      (Stays (s.context t.moment) [] (r.now.requesting q)) := propose_stays
  obtain ⟨_, hstays⟩ := now_turn_of_ends hrespond hends
  have hneeds (hl : (r.now.requesting q).NeedsFresh) :
      t.moment.Provides b round ∨ (t.moment.Refuses b round ∧ refused) :=
    hbuilds (needsBlock_of_needsFresh hl hview hnonzero (fun _ => hfree) hstays.changes_eq)
  obtain ⟨j, more, hj⟩ := hrobust.exists_propose hlisted fun hl =>
    Setup.Moment.freshSendable ((hneeds hl).imp_right And.left) hcount.framed.base hview
  have hnow := now_turn_of_respond (hrespond.trans hj)
  have hleader : (r.now.requesting q).isProposer = true := by
    show (r.now.isMember && r.now.committee.proposer r.now.view == r.now.self) = true
    rw [hr.framed.isMember_of_proposer hproposer, hleads.view, hr.framed.committee, hproposer,
      hr.framed.self, beq_self_eq_true]
    rfl
  have hproposes := proposes (hview ▸ hnonzero) hleader hfree hj
  obtain ⟨hstill, hchanges, hsilent⟩ := hproposes.lasts
  have hrequest : (actions ++ more).filterMap Action.request? =
      actions.filterMap Action.request? := by
    rw [List.filterMap_append, hsilent, List.append_nil]
  refine ⟨j, more, hrespond.trans hj, hstill.trans hleads.view, hrequest ▸ hleads.request, ?_⟩
  rw [List.filterMap_append, hnone]
  cases hproposes with
  | nothing hlacks =>
      have hrefused := Setup.Moment.refused_of_lacks hlacks hneeds hcount.framed.base hview
      exact .inl ⟨hfree, hphase, hrefused, hasked, rfl⟩
  | once p rc htaken hp hpview hjustified hrc =>
      refine .inr ⟨htaken, p, hp,
        opens_of_turn hr hi hnow (hpview.trans hleads.view) hjustified ?_⟩
      rw [hchanges, ← hview]
      exact hrc

/-- In the next round, a request for it is counted, unless its author has sent one before or the
node has proposed. -/
theorem Leads.hear
    {q : Signed RoundChange} (hleads : Leads b i round refused ts r.now actions)
    (ht : t.input = .message (.roundChange q)) (hq : q.payload.view = i.viewIn round)
    (hadmitted : (Message.roundChange q).triage s.scheme i.position = .ok .accept) :
    ∃ j more, r.now.respond s t = .ok (j, more) ∧
      Leads b i round refused (ts ++ [t]) j (actions ++ more) := by
  obtain ⟨hadmitted', hqround⟩ := admitted_of_entered hr hi hleads.view hq hadmitted
  have hview : r.now.view.round = round := congrArg View.round hleads.view
  have hrespond : r.now.respond s t = r.now.receive (s.context t.moment) (.roundChange q) := by
    rw [respond, ht]
  rcases hleads.proposal with ⟨hfree, hphase, hlacks, hasked, hnone⟩ | ⟨htaken, hmade⟩
  · rcases receive_request_of_present (c := s.context t.moment) hadmitted' hqround with
      ⟨hdone, hdecided | hbefore⟩ | hcounted
    · rw [hphase] at hdecided
      contradiction
    · rw [hview] at hbefore
      have hasked' := hasked.request (fun _ hx => hx) ht hbefore
      refine ⟨r.now, [], hrespond.trans hdone, ?_⟩
      rw [List.append_nil]
      exact ⟨hleads.view, hleads.request, .inl ⟨hfree, hphase, hlacks, hasked', hnone⟩⟩
    · have hasked' : Asked round (ts ++ [t]) (r.now.requesting q) := by
        refine hasked.request (fun _ hx => RoundChanges.mem_forRound_add_of_mem hx) ht ?_
        rw [← hview, ← hqround]
        exact RoundChanges.exists_mem_forRound_add r.now.changes q
      exact hleads.count hr hi hlater hsize hproposer hbuilds hfree hphase hasked' hnone
        hadmitted' (hrespond.trans hcounted)
  · obtain ⟨j, hj, hsame⟩ :=
      receive_request_of_taken (c := s.context t.moment) hadmitted' hqround htaken
    refine ⟨j, [], hrespond.trans hj, ?_⟩
    rw [List.append_nil]
    refine ⟨?_, hleads.request, .inr ⟨?_, hmade⟩⟩
    · rw [Instance.view, hsame]
      exact hleads.view
    · rwa [hsame]

/-- In the next round, every turn is answered, and the node goes on leading. -/
theorem Leads.turn
    (hleads : Leads b i round refused ts r.now actions)
    (hround : round = View.successor i.view.round) (hgives : GivesUp s i t) :
    ∃ j more, r.now.respond s t = .ok (j, more) ∧
      Leads b i round refused (ts ++ [t]) j (actions ++ more) := by
  rcases hgives with ht | ⟨q, ht, hq, hadmitted⟩
  · refine ⟨r.now, [], respond_expiry hlater hleads.view ht, ?_⟩
    rw [List.append_nil]
    refine ⟨hleads.view, hleads.request, hleads.proposal.imp_left ?_⟩
    rintro ⟨hfree, hphase, hlacks, hasked, hnone⟩
    exact ⟨hfree, hphase, hlacks, hasked.expiry ht, hnone⟩
  · exact hleads.hear hr hi hlater hsize hproposer hbuilds ht (hround ▸ hq) hadmitted

end Turns

/-! ## The handover -/

section Handover

variable {turns : List Turn} (hi : i = (run s b moment turns).now)
  (hround : round = View.successor i.view.round) (hlast : i.view.round ≠ View.lastRound)
  (hopen : i.round.phase ≠ .committed) (hsize : b.committee.size ≤ Wire.maxLength)
  (hnone : (i.changes.forRound round).entries = []) (hkeeps : i.KeepsHeard [])
  (hts : ∀ t ∈ ts, GivesUp s i t)

include hi hround hlast hopen hsize hnone hkeeps hts

end Handover

/-- Once a quorum has asked, whoever leads the next round has proposed in it, unless the engine has
refused a block. -/
theorem Leads.proposed
    {voters : List Address} (hr : Attainable s b r)
    (hleads : Leads b i round refused ts r.now actions)
    (hproposer : b.committee.proposer (i.viewIn round) = s.signer.address) (hround : round ≠ 0)
    (hnodup : voters.Nodup) (hothers : s.signer.address ∉ voters)
    (hvoters : ∀ a ∈ voters, ∃ t ∈ ts, ∃ q, t.input = .message (.roundChange q) ∧ q.author = a)
    (hquorum : b.committee.quorum ≤ voters.length + 1) (hgiven : ¬refused) :
    ∃ m, actions.filterMap Action.proposal? = [m] ∧ Opens b (i.viewIn round) m := by
  rcases hleads.proposal with ⟨-, -, hlacks, hasked, -⟩ | ⟨-, hmade⟩
  · exfalso
    have hframed := hr.framed
    have hview : r.now.view.round = round := by
      rw [hleads.view]
      rfl
    have hown : ∃ q, (s.signer.address, q) ∈ (r.now.changes.forRound round).entries := by
      have hasks := hr.asks (hframed.isMember_of_proposer hproposer) (hview ▸ hround)
      rwa [hframed.self, hview] at hasks
    have hall : ∀ a ∈ s.signer.address :: voters,
        ∃ q, (a, q) ∈ (r.now.changes.forRound round).entries := by
      intro a ha
      rcases List.mem_cons.mp ha with rfl | ha
      · exact hown
      · obtain ⟨t, ht, q, hq, rfl⟩ := hvoters a ha
        exact hasked t ht q hq
    have hreached : r.now.changes.hasQuorum round = true := by
      refine RoundChanges.hasQuorum_of_asked (List.nodup_cons.mpr ⟨hothers, hnodup⟩) hall ?_
      rw [hframed.changesQuorum]
      exact hquorum
    obtain ⟨q, hq⟩ := hown
    obtain ⟨rc, hrc⟩ := RoundChanges.exists_certificate? hreached hq
    rw [hlacks.resolve_right hgiven] at hrc
    contradiction
  · exact hmade

end Record

end QuorumChain
