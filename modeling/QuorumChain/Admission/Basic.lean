import QuorumChain.Admission.Certificate

/-!
# Admitting messages

A message is first authenticated: its signature must be its author's and the author a member.  A
proposal must come from the proposer of its own view.  Then its place is compared with the node's
view: what is late is dropped, what is early is kept for later.  Only what belongs to the present
round is checked further.  A round change is about a view still to come, so it is never early
within its height.
-/

namespace QuorumChain

/-- What a node knows about its present round. -/
structure Position where
  /-- The present view. -/
  view : View
  /-- The committee of the height. -/
  committee : Committee
  /-- The digest of the block proposed for the view, once it is known. -/
  proposed : Option Digest

/-- What is to be done with an authenticated message. -/
inductive Admission where
  /-- Take it up now. -/
  | accept
  /-- Keep it for a later view. -/
  | future
  /-- Drop it: its view has passed. -/
  | stale
deriving DecidableEq, Repr

namespace Message

/-- The signature of a message must be its author's, and the author a member. -/
def authenticate (scheme : Scheme) (committee : Committee) : Message → Except Rejection Unit
  | .proposal m => m.signed.check scheme committee
  | .prepare m => m.check scheme committee
  | .commit m => m.check scheme committee
  | .roundChange m => m.check scheme committee

/-- A proposal must come from the proposer of its view, with a block of its height. -/
def checkOrigin (committee : Committee) : Message → Except Rejection Unit
  | .proposal m => do
    let view := m.signed.payload.view
    let proposer := committee.proposer view
    require (proposer == m.signed.author) (.notProposer m.signed.author proposer view)
    let number := m.signed.payload.block.header.number
    require (number == view.height) (.wrongHeight view.height number)
  | _ => .ok ()

/-- Where a message stands as seen from a view. -/
def place (m : Message) (here : View) : Admission :=
  let v := m.view
  if v.height < here.height then .stale
  else if here.height < v.height then .future
  else if v.round < here.round then .stale
  else if here.round < v.round && m.kind != .roundChange then .future
  else .accept

/-- A vote must be for the block proposed, if that is known. -/
def checkDigest (proposed : Option Digest) (got : Digest) : Except Rejection Unit :=
  match proposed with
  | some expected => require (expected == got) (.otherDigest expected got)
  | none => .ok ()

/-- The checks of a message that belongs to the present round. -/
def checkContent (scheme : Scheme) (at_ : Position) : Message → Except Rejection Unit
  | .proposal _ => .ok ()
  | .prepare m => checkDigest at_.proposed m.payload.digest
  | .commit m => do
    checkDigest at_.proposed m.payload.digest
    require (scheme.verify m.author m.payload.digest m.payload.committedSeal) (.badSeal m.author)
  | .roundChange m => m.payload.check scheme at_.committee

/-- Decide what to do with a message. -/
def triage (scheme : Scheme) (at_ : Position) (m : Message) : Except Rejection Admission := do
  m.authenticate scheme at_.committee
  m.checkOrigin at_.committee
  match m.place at_.view with
  | .accept =>
    m.checkContent scheme at_
    return .accept
  | other => return other

end Message

namespace JustifiedProposal

/-- A proposal needs a justification above round zero, and there only. -/
def checkJustification (m : JustifiedProposal) (scheme : Scheme) (committee : Committee) :
    Except Rejection Unit :=
  let view := m.signed.payload.view
  match m.justification with
  | none => require (view.round == 0) (.unjustified view)
  | some c => do
    require (view.round != 0) .needlessJustification
    c.check scheme committee view
    c.checkReproposal scheme.hash m.signed.payload.block

/-- Check an admitted proposal: its header, its justification and its execution.  The answer is the
digest of its block. -/
def check (m : JustifiedProposal) (scheme : Scheme) (execution : Execution) (parent : Header)
    (parentDigest : Digest) (committee : Committee) : Except Rejection Digest := do
  let block := m.signed.payload.block
  let round := m.signed.payload.view.round
  let _ ← (block.header.checkProposed parent parentDigest committee round).mapError .badHeader
  m.checkJustification scheme committee
  (execution.check parent block).mapError .badExecution
  block.header.digestInMessage scheme.hash

end JustifiedProposal

end QuorumChain
