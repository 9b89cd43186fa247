import QuorumChain.Admission.Basic
import QuorumChain.Chain.Creation
import QuorumChain.Data.Backlog
import QuorumChain.Node.Setup
import QuorumChain.Round.Basic
import QuorumChain.Round.Change

/-!
# Deciding one height

An instance decides the block of one height.  It goes through rounds: in each it waits for the
proposal, answers with a prepare, commits once a quorum is prepared and hands out the block once
a quorum has committed.  When a round expires, or when a quorum asks for a later one, the
instance moves on; it announces the move, takes its latest prepared certificate along and starts
the timer of the new round.  The proposer of a later round proposes again what may have been
decided before.

Steps are functions from an instance to an instance and the actions to be done.  A step that
meets a fault halfway stops there: the instance keeps what has changed by then, and the actions
are lost.  Only members of the committee send messages; everybody else follows.
-/

namespace QuorumChain

/-- The state of the decision of one height. -/
structure Instance where
  /-- The header of the block below. -/
  parent : Header
  /-- Its digest. -/
  parentDigest : Digest
  /-- The committee of the height. -/
  committee : Committee
  /-- The node's own address. -/
  self : Address
  /-- The present round. -/
  round : Round
  /-- The latest prepared certificate of this node. -/
  prepared : Option PreparedCertificate
  /-- The requests to change the round. -/
  changes : RoundChanges
  /-- Messages of later rounds. -/
  later : Backlog UInt32 Message
deriving DecidableEq

/-- What is left of a step that could not be finished. -/
structure Breakdown (σ : Type) where
  /-- The state, with whatever had changed before the fault. -/
  state : σ
  /-- The actions asked for before the fault; nobody does them. -/
  lost : List Action
  cause : Fault

/-- A step gives the new state and the actions to be done, or it breaks down. -/
abbrev Step (σ : Type) := Except (Breakdown σ) (σ × List Action)

namespace Step

variable {σ : Type}

/-- The step that changes the state only. -/
def done (s : σ) : Step σ :=
  .ok (s, [])

/-- The step that also asks for actions. -/
def emit (s : σ) (actions : List Action) : Step σ :=
  .ok (s, actions)

/-- The step that needs a value and breaks down in a state if there is none. -/
def given {α : Type} (s : σ) (x : Except Fault α) (next : α → Step σ) : Step σ :=
  match x with
  | .ok a => next a
  | .error cause => .error ⟨s, [], cause⟩

/-- One step after another; the actions of both are to be done.  If the second one breaks down,
those of the first one are lost as well. -/
def andThen (step : Step σ) (next : σ → Step σ) : Step σ :=
  match step with
  | .error b => .error b
  | .ok (s, actions) =>
    match next s with
    | .error b => .error { b with lost := actions ++ b.lost }
    | .ok (s, more) => .ok (s, actions ++ more)

/-- A step for each item of a list, one after the other. -/
def forEach {α : Type} (items : List α) (next : σ → α → Step σ) (s : σ) : Step σ :=
  items.foldl (fun step a => step.andThen fun s => next s a) (done s)

end Step

namespace Instance

/-- The instance behind a block, before its first round begins. -/
def new (parent : Header) (parentDigest : Digest) (committee : Committee) (self : Address)
    (limit : Nat) : Instance :=
  let view : View := ⟨parent.number + 1, 0⟩
  { parent, parentDigest, committee, self
    round := .start view (committee.proposer view) committee.quorum
    prepared := none
    changes := .empty committee.quorum
    later := .empty limit }

/-- The height that is decided. -/
def height (i : Instance) : UInt64 :=
  i.parent.number + 1

/-- The present view. -/
def view (i : Instance) : View :=
  i.round.view

/-- Whether the node is a member of the committee. -/
def isMember (i : Instance) : Bool :=
  i.committee.contains i.self

/-- Whether the node is the proposer of the present view. -/
def isProposer (i : Instance) : Bool :=
  i.isMember && i.committee.proposer i.view == i.self

/-- The digest of the block that the node has committed. -/
def committed? (i : Instance) : Option Digest :=
  if i.round.phase = .committed then i.round.digest else none

/-- What the instance knows about its round. -/
def position (i : Instance) : Position :=
  ⟨i.view, i.committee, i.round.digest⟩

/-- The action that starts the timer of a view. -/
def startTimer (c : Context) (view : View) : Action :=
  .startTimer view (roundTimeout c.settings.baseTimeout view.round)

/-- Report a value that cannot be written as a fault. -/
def written {α : Type} (x : Except WireError α) : Except Fault α :=
  x.mapError .unwritable

/-- Become prepared if a quorum is: keep the certificate and, as a member, commit. -/
def prepareIfQuorum (c : Context) (i : Instance) : Step Instance :=
  match i.round.digest, i.round.prepare? with
  | some digest, some (certificate, round) =>
    let i := { i with round, prepared := some certificate }
    if i.isMember then
      .given i (written (c.signer.commit c.scheme.hash i.view digest)) fun m =>
        .emit { i with round := (i.round.addCommit? m).getD i.round } [.broadcast (.commit m)]
    else .done i
  | _, _ => .done i

/-- Hand out the block if a quorum has committed it, and stop the timer.  Nothing else stops it: a
prepared round whose commits are lost has to expire. -/
def commitIfQuorum (i : Instance) : Step Instance :=
  .given i ((i.round.commit? i.committee).mapError Fault.extraData) fun
    | some (block, round) => .emit { i with round } [.stopTimer, .importBlock block]
    | none => .done i

/-- Do what the votes allow. -/
def countVotes (c : Context) (i : Instance) : Step Instance :=
  (prepareIfQuorum c i).andThen commitIfQuorum

/-- Take a proposal for the one of the round and, as a member, prepare it. -/
def accept (c : Context) (i : Instance) (m : JustifiedProposal) (digest : Digest) :
    Step Instance :=
  let i := { i with round := (i.round.accept? m digest).getD i.round }
  let voted : Step Instance :=
    if i.isMember then
      .given i (written (c.signer.prepare c.scheme.hash i.view digest)) fun m =>
        .emit { i with round := (i.round.addPrepare? m).getD i.round } [.broadcast (.prepare m)]
    else .done i
  voted.andThen (countVotes c)

/-- A fresh block for the present round; a failure of the execution engine gives none. -/
def freshBlock (c : Context) (i : Instance) : Except Fault (Option Block) :=
  match c.execution.createBlock i.parent i.parentDigest i.view.round i.committee
      (c.votes.offer i.committee) with
  | .ok block => .ok (some block)
  | .error (.execution _) => .ok none
  | .error e => .error e

/-- What the proposer of the present round may propose.  In round zero that is a fresh block; later
it takes a certificate, and the block of the latest prepared certificate in it comes first. -/
def candidate (c : Context) (i : Instance) :
    Except Fault (Option (Block × Option RoundChangeCertificate)) :=
  if i.view.round = 0 then do
    return (← freshBlock c i).map fun block => (block, none)
  else
    match i.changes.certificate? i.view.round with
    | none => .ok none
    | some certificate =>
      match certificate.latestPrepared with
      | some prepared => do
        let block := prepared.block
        let header ← (block.header.withRound i.view.round).mapError Fault.extraData
        return some ({ block with header }, some certificate)
      | none => do
        return (← freshBlock c i).map fun block => (block, some certificate)

/-- Propose, if the node leads the round, has not proposed yet and has something to propose. -/
def propose (c : Context) (i : Instance) : Step Instance :=
  if !i.isProposer || i.round.accepted.isSome then .done i
  else
    .given i (candidate c i) fun
      | none => .done i
      | some (block, certificate) =>
        .given i ((block.header.digest c.scheme.hash).mapError Fault.extraData) fun digest =>
          .given i (written (c.signer.proposal c.scheme.hash i.view block certificate)) fun m =>
            (Step.emit i [.broadcast (.proposal m)]).andThen fun i => accept c i m digest

/-- Take up an admitted proposal; only the first good one of a round counts. -/
def onProposal (c : Context) (i : Instance) (m : JustifiedProposal) : Step Instance :=
  if i.round.accepted.isSome then .done i
  else
    match m.check c.scheme c.execution i.parent i.parentDigest i.committee with
    | .ok digest => accept c i m digest
    | .error _ => .done i

/-- Take up an admitted prepare. -/
def onPrepare (c : Context) (i : Instance) (m : Signed Prepare) : Step Instance :=
  match i.round.addPrepare? m with
  | some round => countVotes c { i with round }
  | none => .done i

/-- Take up an admitted commit. -/
def onCommit (c : Context) (i : Instance) (m : Signed Commit) : Step Instance :=
  match i.round.addCommit? m with
  | some round => countVotes c { i with round }
  | none => .done i

/-- What to do with a message: take it up, keep it or drop it. -/
def triage (c : Context) (i : Instance) (m : Message) : Admission :=
  match m.triage c.scheme i.position with
  | .ok admission => admission
  | .error _ => .stale

/-- Keep a message for its round. -/
def keep (i : Instance) (m : Message) : Instance :=
  { i with later := i.later.push m.view.round m }

/-- Do with a message what has to be done, where `change` takes up requests to change the round. -/
def process (change : Signed RoundChange → Step Instance) (c : Context) (i : Instance)
    (m : Message) : Step Instance :=
  match triage c i m with
  | .stale => .done i
  | .future => .done (i.keep m)
  | .accept =>
    match m with
    | .proposal p => onProposal c i p
    | .prepare p => onPrepare c i p
    | .commit p => onCommit c i p
    | .roundChange p => change p

/-- Take up a message that was kept for the present round.  A request to change the round is never
kept for the height it belongs to, so there is none. -/
def replay (c : Context) (i : Instance) (m : Message) : Step Instance :=
  process (fun _ => .done i) c i m

/-- As a member, ask for a round in public. -/
def announce (c : Context) (i : Instance) (view : View) : Step Instance :=
  if i.isMember then
    .given i (written (c.signer.roundChange c.scheme.hash view i.prepared)) fun m =>
      .emit { i with changes := i.changes.add m } [.broadcast (.roundChange m)]
  else .done i

/-- Enter a round: nothing of the old one but the certificate is kept. -/
def enter (c : Context) (i : Instance) (view : View) : Step Instance :=
  .emit
    { i with
      round := .start view (i.committee.proposer view) i.committee.quorum
      changes := i.changes.dropBelow view.round }
    [startTimer c view]

/-- Take up the messages that were kept for the present round, and forget those of earlier ones. -/
def replayKept (c : Context) (i : Instance) : Step Instance :=
  let (kept, later) := (i.later.dropBelow i.view.round).take i.view.round
  Step.forEach kept (replay c) { i with later }

/-- Leave the present round for another one. -/
def moveTo (c : Context) (i : Instance) (round : UInt32) : Step Instance :=
  let view : View := { i.view with round }
  (announce c i view).andThen fun i =>
    (enter c i view).andThen fun i =>
      (propose c i).andThen (replayKept c)

/-- Take up an admitted request to change the round.  A quorum for a later round moves the node
there; a request for the present round may be what its proposer waits for. -/
def onRoundChange (c : Context) (i : Instance) (m : Signed RoundChange) : Step Instance :=
  if i.round.phase = .committed then .done i
  else
    match i.changes.add? m with
    | none => .done i
    | some changes =>
      let i := { i with changes }
      let target := m.payload.view.round
      if i.view.round < target && changes.hasQuorum target then moveTo c i target
      else if target = i.view.round then propose c i
      else .done i

/-- Enter round zero: start the timer and propose if it is the node's turn. -/
def start (c : Context) (i : Instance) : Step Instance :=
  (Step.emit i [startTimer c i.view]).andThen (propose c)

/-- Receive a message. -/
def receive (c : Context) (i : Instance) (m : Message) : Step Instance :=
  process (onRoundChange c i) c i m

/-- The timer of a view has run out.  An undecided present round is given up. -/
def expire (c : Context) (i : Instance) (view : View) : Step Instance :=
  if view ≠ i.view ∨ i.round.phase = .committed then .done i
  else moveTo c i (View.successor view.round)

end Instance

end QuorumChain
