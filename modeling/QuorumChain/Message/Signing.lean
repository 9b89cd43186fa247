import QuorumChain.Message.Format

/-!
# Signing messages

What is signed is the digest of a payload written behind the number of its kind.  A scheme gives
the hash function and the check of signatures; a signer gives the signatures of one validator.
Neither is tied to a particular algorithm.
-/

namespace QuorumChain

/-- The cryptography that all nodes share. -/
structure Scheme where
  /-- The hash function. -/
  hash : HashFunction
  /-- Whether a signature over a digest is the signer's. -/
  verify : Address → Digest → Signature → Bool

/-- The signing capability of one validator. -/
structure Signer where
  /-- The validator's address. -/
  address : Address
  /-- Its signature over a digest. -/
  sign : Digest → Signature

/-- A type of payloads. -/
class Payload (P : Type) where
  /-- The kind of its messages. -/
  kind : MessageKind
  /-- The view a payload is about. -/
  view : P → View
  /-- How a payload is written. -/
  format : Wire.Format P

instance : Payload Proposal := ⟨.proposal, (·.view), Proposal.format⟩

instance : Payload Prepare := ⟨.prepare, (·.view), Prepare.format⟩

instance : Payload Commit := ⟨.commit, (·.view), Commit.format⟩

instance : Payload RoundChange := ⟨.roundChange, (·.view), RoundChange.format⟩

/-- What is hashed to sign a payload: the number of its kind and the payload. -/
def Payload.signingFormat (P : Type) [Payload P] : Wire.Format (MessageKind × P) :=
  .pair MessageKind.format (Payload.format (P := P))

/-- The digest that the author of a payload signs. -/
def Payload.signingDigest {P : Type} [Payload P] (H : HashFunction) (p : P) :
    Except WireError Digest :=
  H.ofValue (signingFormat P) (Payload.kind P, p)

namespace Signer

/-- Sign a payload. -/
def signed {P : Type} [Payload P] (s : Signer) (H : HashFunction) (p : P) :
    Except WireError (Signed P) := do
  let digest ← Payload.signingDigest H p
  return ⟨p, s.address, s.sign digest⟩

/-- A proposal of a block for a view. -/
def proposal (s : Signer) (H : HashFunction) (view : View) (block : Block)
    (justification : Option RoundChangeCertificate) : Except WireError JustifiedProposal := do
  return ⟨← s.signed H ⟨view, block⟩, justification⟩

/-- A prepare for a digest. -/
def prepare (s : Signer) (H : HashFunction) (view : View) (digest : Digest) :
    Except WireError (Signed Prepare) :=
  s.signed H ⟨view, digest⟩

/-- A commit for a digest, with the signer's seal over it. -/
def commit (s : Signer) (H : HashFunction) (view : View) (digest : Digest) :
    Except WireError (Signed Commit) :=
  s.signed H ⟨view, digest, s.sign digest⟩

/-- A request to move to a view. -/
def roundChange (s : Signer) (H : HashFunction) (view : View)
    (prepared : Option PreparedCertificate) : Except WireError (Signed RoundChange) :=
  s.signed H ⟨view, prepared⟩

end Signer

end QuorumChain
