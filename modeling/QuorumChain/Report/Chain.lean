import QuorumChain.Chain.Ledger
import QuorumChain.Committee.Election
import QuorumChain.Json.Value

/-!
# Blocks as JSON

Tools that watch a chain read its values as JSON.  Addresses and digests have their text form,
other octets are bare hexadecimal digits.
-/

namespace QuorumChain

/-- Octets as digits. -/
def Octets.report (bytes : Octets) : Json :=
  .text (Hex.encode bytes)

/-- An address or a digest in its text form. -/
def Fixed.report {n : Nat} (a : Fixed n) : Json :=
  .text a.text

/-- A signature as digits. -/
def Signature.report (s : Signature) : Json :=
  .text s.hex

/-- Addresses in order. -/
def Address.reportAll (l : List Address) : Json :=
  .each Fixed.report l

/-- The word for a direction. -/
def VoteKind.word : VoteKind → String
  | .add => "Add"
  | .drop => "Drop"

def Vote.report (v : Vote) : Json :=
  .object [("subject", v.subject.report), ("type", .text v.kind.word)]

def ExtraData.report (x : ExtraData) : Json :=
  .object [("validators", Address.reportAll x.validators), ("vote", .option Vote.report x.vote),
    ("round", .nat x.round.toNat), ("seals", .each Signature.report x.seals)]

/-- The digest of a header, if it has one. -/
def Header.reportDigest (H : HashFunction) (h : Header) : Json :=
  .option Fixed.report (h.digest H).toOption

/-- A block: the fields of its header, its transactions and its digest. -/
def Block.report (H : HashFunction) (b : Block) : Json :=
  let h := b.header
  .object [("number", .nat h.number.toNat), ("parent_hash", h.parent.report),
    ("timestamp", .nat h.timestamp.toNat), ("coinbase", h.coinbase.report),
    ("nonce", .nat h.nonce.toNat), ("state_root", h.stateRoot.report),
    ("transactions_root", h.bodyRoot.report), ("extra_data", h.extra.report),
    ("txs", .each Octets.report b.body.transactions), ("digest", h.reportDigest H)]

/-- A block by number and digest. -/
def Block.reportBriefly (H : HashFunction) (b : Block) : Json :=
  .list [.nat b.header.number.toNat, b.header.reportDigest H]

/-- The fields that describe a committee. -/
def Committee.fields (c : Committee) : List (String × Json) :=
  [("validators", Address.reportAll c.members), ("len", .nat c.size), ("quorum", .nat c.quorum),
    ("max_faulty", .nat c.maxFaulty)]

/-- A view in its text form. -/
def View.report (v : View) : Json :=
  .text v.text

end QuorumChain
