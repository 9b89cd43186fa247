import QuorumChain.Admission.Rejection
import QuorumChain.Committee.Election

/-!
# Checking certificates

A prepared certificate holds the proposer's proposal and prepares of distinct members for its
block, a quorum of them.  A round-change certificate holds requests of distinct members for one
view, a quorum of them; if one of them carries a prepared certificate, the block of the latest has
to be proposed again.
-/

namespace QuorumChain

/-- The signature under a payload must be the author's, and the author a member. -/
def Signed.check {P : Type} [Payload P] (m : Signed P) (scheme : Scheme) (committee : Committee) :
    Except Rejection Unit := do
  let digest ← (Payload.signingDigest scheme.hash m.payload).mapError .unwritable
  require (scheme.verify m.author digest m.signature) (.badSignature m.author)
  require (committee.contains m.author) (.notMember m.author)

/-- The digest of a header that a message carries. -/
def Header.digestInMessage (h : Header) (H : HashFunction) : Except Rejection Digest :=
  (h.digest H).mapError fun e => .badHeader (.extraData e)

namespace PreparedCertificate

/-- Check the prepares of a certificate for a view and a digest; `known` holds the authors met
before. -/
def checkPrepares (scheme : Scheme) (committee : Committee) (view : View) (digest : Digest) :
    List Address → List (Signed Prepare) → Except Rejection Unit
  | _, [] => .ok ()
  | known, m :: rest => do
    m.check scheme committee
    require (m.payload.view == view) (.badCertificate (.strayPrepare m.payload.view view))
    require (m.payload.digest == digest) (.badCertificate .otherDigest)
    require (!known.contains m.author) (.badCertificate (.repeatedPrepare m.author))
    checkPrepares scheme committee view digest (m.author :: known) rest

/-- Check a prepared certificate of a height; the answer is the digest of the prepared block. -/
def check (c : PreparedCertificate) (scheme : Scheme) (committee : Committee) (height : UInt64) :
    Except Rejection Digest := do
  require (c.view.height == height) (.badCertificate (.otherHeight c.view.height height))
  c.proposal.check scheme committee
  let proposer := committee.proposer c.view
  require (c.proposal.author == proposer)
    (.badCertificate (.notProposer c.proposal.author proposer))
  require (c.block.header.number == height) (.badCertificate .wrongNumber)
  let digest ← c.block.header.digestInMessage scheme.hash
  checkPrepares scheme committee c.view digest [] c.prepares
  require (committee.quorum ≤ c.prepares.length)
    (.badCertificate (.tooFewPrepares c.prepares.length committee.quorum))
  return digest

end PreparedCertificate

/-- Check what a request carries: a prepared certificate of the height and of an earlier round.
The signature is checked elsewhere. -/
def RoundChange.check (p : RoundChange) (scheme : Scheme) (committee : Committee) :
    Except Rejection Unit :=
  match p.prepared with
  | none => .ok ()
  | some c => do
    let _ ← c.check scheme committee p.view.height
    require (c.view.round < p.view.round)
      (.badCertificate (.notEarlier c.view.round p.view.round))

namespace RoundChangeCertificate

/-- Check the requests of a certificate for a view; `known` holds the authors met before. -/
def checkRequests (scheme : Scheme) (committee : Committee) (target : View) :
    List Address → List (Signed RoundChange) → Except Rejection Unit
  | _, [] => .ok ()
  | known, m :: rest => do
    require (m.payload.view == target) (.badCertificate (.strayRequest m.payload.view target))
    m.check scheme committee
    m.payload.check scheme committee
    require (!known.contains m.author) (.badCertificate (.repeatedRequest m.author))
    checkRequests scheme committee target (m.author :: known) rest

/-- Check a certificate that justifies a proposal for a view. -/
def check (c : RoundChangeCertificate) (scheme : Scheme) (committee : Committee) (target : View) :
    Except Rejection Unit := do
  checkRequests scheme committee target [] c.requests
  require (committee.quorum ≤ c.requests.length)
    (.badCertificate (.tooFewRequests c.requests.length committee.quorum))

/-- The block that a certificate justifies is that of its latest prepared certificate, if it has
one. -/
def checkReproposal (c : RoundChangeCertificate) (H : HashFunction) (b : Block) :
    Except Rejection Unit :=
  match c.latestPrepared with
  | none => .ok ()
  | some prepared => do
    let expected ← prepared.block.header.digestInMessage H
    let got ← b.header.digestInMessage H
    require (expected == got) (.otherReproposal expected got)

end RoundChangeCertificate

end QuorumChain
