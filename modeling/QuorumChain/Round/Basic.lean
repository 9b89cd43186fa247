import QuorumChain.Committee.Basic
import QuorumChain.Data.SortedMap
import QuorumChain.Message.Basic

/-!
# One round

A round collects the first acceptable proposal and one prepare and one commit of each member.
Votes may come before the proposal; they count as soon as they turn out to be for it.  A quorum of
prepares makes the round prepared and gives a certificate; a quorum of commits commits the block,
whether this node has prepared it or not, and gives the block with its seals.
-/

namespace QuorumChain

/-- How far a round has come. -/
inductive Phase where
  | newRound
  | prepared
  | committed
deriving DecidableEq, Repr

/-- The state of a round. -/
structure Round where
  view : View
  /-- The proposer of the view. -/
  proposer : Address
  /-- The number of votes that decide. -/
  quorum : Nat
  phase : Phase
  /-- The proposal in force and the digest of its block. -/
  accepted : Option (JustifiedProposal × Digest)
  /-- The prepare of each member. -/
  prepares : SortedMap Address (Signed Prepare)
  /-- The commit of each member. -/
  commits : SortedMap Address (Signed Commit)
deriving DecidableEq

namespace Round

/-- A round in which nothing has happened. -/
def start (view : View) (proposer : Address) (quorum : Nat) : Round :=
  ⟨view, proposer, quorum, .newRound, none, .empty, .empty⟩

/-- The digest of the block proposed. -/
def digest (r : Round) : Option Digest :=
  r.accepted.map (·.2)

/-- Take a proposal for the one in force, if there is none yet. -/
def accept? (r : Round) (m : JustifiedProposal) (digest : Digest) : Option Round :=
  if r.accepted.isNone then some { r with accepted := some (m, digest) } else none

/-- Count a prepare, unless its author has one already. -/
def addPrepare? (r : Round) (m : Signed Prepare) : Option Round :=
  (r.prepares.insertNew? m.author m).map fun prepares => { r with prepares }

/-- Count a commit, unless its author has one already. -/
def addCommit? (r : Round) (m : Signed Commit) : Option Round :=
  (r.commits.insertNew? m.author m).map fun commits => { r with commits }

/-- The prepares for the block proposed, in the order of their authors. -/
def matchingPrepares (r : Round) : List (Signed Prepare) :=
  r.prepares.values.filter fun m => some m.payload.digest == r.digest

/-- The commits for the block proposed, in the order of their authors. -/
def matchingCommits (r : Round) : List (Signed Commit) :=
  r.commits.values.filter fun m => some m.payload.digest == r.digest

/-- Whether the round can become prepared. -/
def hasPreparedQuorum (r : Round) : Bool :=
  r.phase == .newRound && r.accepted.isSome && r.quorum ≤ r.matchingPrepares.length

/-- Whether the round can become committed. -/
def hasCommitQuorum (r : Round) : Bool :=
  r.phase != .committed && r.accepted.isSome && r.quorum ≤ r.matchingCommits.length

/-- The certificate of a quorum of prepares, and the round when it is prepared. -/
def prepare? (r : Round) : Option (PreparedCertificate × Round) :=
  match r.accepted with
  | some (m, _) =>
    if r.hasPreparedQuorum then
      some (⟨m.signed, r.matchingPrepares⟩, { r with phase := .prepared })
    else none
  | none => none

/-- The seals over the block proposed, in the order of the committee. -/
def sealsFor (r : Round) (committee : Committee) : List Signature :=
  (committee.members.filterMap r.commits.get?).filterMap fun m =>
    if some m.payload.digest = r.digest then some m.payload.committedSeal else none

/-- The block that a quorum of commits has decided, with its seals, and the round when it is
committed. -/
def commit? (r : Round) (committee : Committee) :
    Except ExtraDataError (Option (Block × Round)) :=
  match r.accepted with
  | some (m, _) =>
    if r.hasCommitQuorum then do
      let block := m.signed.payload.block
      let header ← block.header.withSeals (r.sealsFor committee)
      return some ({ block with header }, { r with phase := .committed })
    else return none
  | none => return none

end Round

end QuorumChain
