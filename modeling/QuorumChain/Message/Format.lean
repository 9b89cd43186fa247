import QuorumChain.Message.Basic

/-!
# How messages are written

Every type of the protocol is written as its fields in order; a message starts with the number of
its kind.
-/

namespace QuorumChain

open Wire

/-- A kind is written as its number. -/
def MessageKind.format : Format MessageKind :=
  .enumeration [.proposal, .prepare, .commit, .roundChange]

def Proposal.format : Format Proposal :=
  (Format.pair View.format Block.format).via (fun p => (p.view, p.block))
    (fun (view, block) => ⟨view, block⟩)

def Prepare.format : Format Prepare :=
  (Format.pair View.format (.fixed 32)).via (fun p => (p.view, p.digest))
    (fun (view, digest) => ⟨view, digest⟩)

def Commit.format : Format Commit :=
  (Format.pair View.format <| .pair (.fixed 32) (.fixed 64)).via
    (fun p => (p.view, p.digest, p.committedSeal))
    (fun (view, digest, committedSeal) => ⟨view, digest, committedSeal⟩)

/-- A signed payload is written as the payload, the author and the signature. -/
def Signed.format {P : Type} (f : Format P) : Format (Signed P) :=
  (Format.pair f <| .pair (.fixed 20) (.fixed 64)).via
    (fun s => (s.payload, s.author, s.signature))
    (fun (payload, author, signature) => ⟨payload, author, signature⟩)

def PreparedCertificate.format : Format PreparedCertificate :=
  (Format.pair (Signed.format Proposal.format) (.list (Signed.format Prepare.format))).via
    (fun c => (c.proposal, c.prepares)) (fun (proposal, prepares) => ⟨proposal, prepares⟩)

def RoundChange.format : Format RoundChange :=
  (Format.pair View.format (.option PreparedCertificate.format)).via
    (fun p => (p.view, p.prepared)) (fun (view, prepared) => ⟨view, prepared⟩)

def RoundChangeCertificate.format : Format RoundChangeCertificate :=
  (Format.list (Signed.format RoundChange.format)).via (·.requests) (⟨·⟩)

def JustifiedProposal.format : Format JustifiedProposal :=
  (Format.pair (Signed.format Proposal.format) (.option RoundChangeCertificate.format)).via
    (fun m => (m.signed, m.justification)) (fun (signed, justification) => ⟨signed, justification⟩)

namespace Message

/-- The octets of a message: the number of its kind and the fields of that kind. -/
def write : Message → Octets
  | .proposal m => Format.writeCount 0 ++ JustifiedProposal.format.write m
  | .prepare m => Format.writeCount 1 ++ (Signed.format Prepare.format).write m
  | .commit m => Format.writeCount 2 ++ (Signed.format Commit.format).write m
  | .roundChange m => Format.writeCount 3 ++ (Signed.format RoundChange.format).write m

/-- The length of the first sequence in a message that is too long to be written. -/
def excess : Message → Option Nat
  | .proposal m => JustifiedProposal.format.excess m
  | .prepare m => (Signed.format Prepare.format).excess m
  | .commit m => (Signed.format Commit.format).excess m
  | .roundChange m => (Signed.format RoundChange.format).excess m

/-- Read a message of the kind with the given number. -/
def readKind : Nat → Reader Message
  | 0, bytes => (JustifiedProposal.format.read bytes).map fun (m, rest) => (.proposal m, rest)
  | 1, bytes => ((Signed.format Prepare.format).read bytes).map fun (m, rest) => (.prepare m, rest)
  | 2, bytes => ((Signed.format Commit.format).read bytes).map fun (m, rest) => (.commit m, rest)
  | 3, bytes =>
    ((Signed.format RoundChange.format).read bytes).map fun (m, rest) => (.roundChange m, rest)
  | number, _ => .error (.unknownVariant number 4)

/-- The format of messages. -/
def format : Format Message where
  write := write
  excess := excess
  read bytes := do
    let (number, rest) ← Format.readCount bytes
    readKind number rest

end Message

end QuorumChain
