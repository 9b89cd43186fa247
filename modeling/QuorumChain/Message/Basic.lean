import QuorumChain.Chain.ExtraData
import QuorumChain.Message.View

/-!
# Messages

Validators exchange four kinds of messages.  The proposer of a view sends a proposal with a block;
validators answer with a prepare and later with a commit that name the block by digest; and they
ask for a new view with a round change.  A quorum of prepares makes a prepared certificate, which
round changes carry along; a quorum of round changes makes a round-change certificate, which
justifies the proposal of the new view.

The author signs the digest of the payload together with its kind, so that a signature of one kind
is never one of another.
-/

namespace QuorumChain

/-- The four kinds of messages. -/
inductive MessageKind where
  | proposal
  | prepare
  | commit
  | roundChange
deriving DecidableEq, Repr

/-- A block put forward for a view. -/
structure Proposal where
  view : View
  block : Block
deriving DecidableEq

/-- Support for a block. -/
structure Prepare where
  view : View
  digest : Digest
deriving DecidableEq

/-- The decision for a block, with a seal over its digest. -/
structure Commit where
  view : View
  digest : Digest
  committedSeal : Signature
deriving DecidableEq

/-- A payload with its author and the author's signature. -/
structure Signed (P : Type) where
  payload : P
  author : Address
  signature : Signature
deriving DecidableEq

/-- A proposal with prepares for it. -/
structure PreparedCertificate where
  proposal : Signed Proposal
  prepares : List (Signed Prepare)
deriving DecidableEq

/-- A request to move to a view, with the author's latest prepared certificate. -/
structure RoundChange where
  view : View
  prepared : Option PreparedCertificate
deriving DecidableEq

/-- Requests to move to a view. -/
structure RoundChangeCertificate where
  requests : List (Signed RoundChange)
deriving DecidableEq

/-- A proposal with the requests that justify it in a round above the first. -/
structure JustifiedProposal where
  signed : Signed Proposal
  justification : Option RoundChangeCertificate
deriving DecidableEq

/-- What validators send to each other. -/
inductive Message where
  | proposal (m : JustifiedProposal)
  | prepare (m : Signed Prepare)
  | commit (m : Signed Commit)
  | roundChange (m : Signed RoundChange)
deriving DecidableEq

/-- The name of a kind. -/
def MessageKind.name : MessageKind → String
  | .proposal => "PROPOSAL"
  | .prepare => "PREPARE"
  | .commit => "COMMIT"
  | .roundChange => "ROUND_CHANGE"

namespace PreparedCertificate

/-- The view in which the block was prepared. -/
def view (c : PreparedCertificate) : View :=
  c.proposal.payload.view

/-- The prepared block. -/
def block (c : PreparedCertificate) : Block :=
  c.proposal.payload.block

end PreparedCertificate

namespace RoundChangeCertificate

/-- The later of two certificates, the second one if they are equally late. -/
def later : Option PreparedCertificate → PreparedCertificate → Option PreparedCertificate
  | none, c => some c
  | some best, c => if compare best.view c.view = .gt then some best else some c

/-- The certificate with the latest view among those that the requests carry; of equally late ones
the last. -/
def latestPrepared (c : RoundChangeCertificate) : Option PreparedCertificate :=
  (c.requests.filterMap (·.payload.prepared)).foldl later none

end RoundChangeCertificate

namespace Message

/-- The kind of a message. -/
def kind : Message → MessageKind
  | .proposal _ => .proposal
  | .prepare _ => .prepare
  | .commit _ => .commit
  | .roundChange _ => .roundChange

/-- The author of a message. -/
def author : Message → Address
  | .proposal m => m.signed.author
  | .prepare m => m.author
  | .commit m => m.author
  | .roundChange m => m.author

/-- The view that a message is about; for a round change the one to move to. -/
def view : Message → View
  | .proposal m => m.signed.payload.view
  | .prepare m => m.payload.view
  | .commit m => m.payload.view
  | .roundChange m => m.payload.view

/-- The signature under the payload. -/
def signature : Message → Signature
  | .proposal m => m.signed.signature
  | .prepare m => m.signature
  | .commit m => m.signature
  | .roundChange m => m.signature

end Message

end QuorumChain
