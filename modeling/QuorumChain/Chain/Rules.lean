import QuorumChain.Committee.Basic
import QuorumChain.Message.Signing

/-!
# The rules for headers

A proposed header extends its parent, lists the committee, belongs to the round and carries no
seals yet.  A committed header carries seals of distinct members, enough for a quorum.  In both
the two writings of the vote agree.
-/

namespace QuorumChain

/-- What is wrong with a header. -/
inductive HeaderError where
  /-- The block does not have the number behind its parent. -/
  | wrongNumber (expected got : UInt64)
  /-- The header names another parent. -/
  | wrongParent (expected got : Digest)
  /-- The block is older than its parent. -/
  | timeReversal (parent got : UInt64)
  /-- The extra-data does not list the committee. -/
  | wrongCommittee
  /-- The extra-data names another round. -/
  | wrongRound (expected got : UInt32)
  /-- A proposed header carries seals. -/
  | sealedEarly (count : Nat)
  /-- The seals are too few. -/
  | tooFewSeals (got needed : Nat)
  /-- The seal at this place is no member's. -/
  | foreignSeal (index : Nat)
  /-- A member sealed more than once. -/
  | repeatedSeal (a : Address)
  /-- The extra-data cannot be read. -/
  | extraData (cause : ExtraDataError)
  /-- The vote is wrong. -/
  | vote (cause : VoteError)
deriving DecidableEq

/-- The wording of the complaint. -/
def HeaderError.message : HeaderError → String
  | .wrongNumber expected got =>
    "Expected block #" ++ toString expected ++ ", got #" ++ toString got
  | .wrongParent expected got =>
    "Parent hash " ++ got.text ++ " does not match parent " ++ expected.text
  | .timeReversal parent got =>
    "Timestamp " ++ toString got ++ " precedes parent timestamp " ++ toString parent
  | .wrongCommittee => "Extra-data validators do not match the active set"
  | .wrongRound expected got =>
    "Extra-data round " ++ toString got ++ " does not match round " ++ toString expected
  | .sealedEarly count => "Proposed header already carries " ++ toString count ++ " seals"
  | .tooFewSeals got needed =>
    "Only " ++ toString got ++ " committed seals, " ++ toString needed ++ " required"
  | .foreignSeal index =>
    "Committed seal " ++ toString index ++ " is not from an active validator"
  | .repeatedSeal a => "Validator " ++ a.text ++ " sealed the block twice"
  | .extraData cause => cause.message
  | .vote cause => cause.message

/-- Report an error unless a condition holds. -/
def require {ε : Type} (condition : Bool) (e : ε) : Except ε Unit :=
  if condition then .ok () else .error e

namespace Header

/-- Check a header that is proposed for a round on top of a parent; the answer is its extra-data. -/
def checkProposed (h parent : Header) (parentDigest : Digest) (committee : Committee)
    (round : UInt32) : Except HeaderError ExtraData := do
  require (h.number == parent.number + 1) (.wrongNumber (parent.number + 1) h.number)
  require (h.parent == parentDigest) (.wrongParent parentDigest h.parent)
  require (parent.timestamp ≤ h.timestamp) (.timeReversal parent.timestamp h.timestamp)
  let x ← h.extraData.mapError .extraData
  require (x.validators == committee.members) .wrongCommittee
  require (x.round == round) (.wrongRound round x.round)
  require x.seals.isEmpty (.sealedEarly x.seals.length)
  (h.checkVote x).mapError .vote
  return x

/-- The member behind each seal, in the order of the seals.  `index` is the place of the first seal
of the list and `known` holds those who sealed before. -/
def attributeSeals (scheme : Scheme) (committee : Committee) (digest : Digest) :
    Nat → List Address → List Signature → Except HeaderError (List Address)
  | _, _, [] => .ok []
  | index, known, first :: rest =>
    match committee.members.find? (scheme.verify · digest first) with
    | none => .error (.foreignSeal index)
    | some signer => do
      require (!known.contains signer) (.repeatedSeal signer)
      let others ← attributeSeals scheme committee digest (index + 1) (signer :: known) rest
      return signer :: others

/-- The members who sealed a block, in the order of the seals. -/
def signers (scheme : Scheme) (committee : Committee) (h : Header) :
    Except HeaderError (List Address) := do
  let x ← h.extraData.mapError .extraData
  let digest ← (h.digest scheme.hash).mapError .extraData
  attributeSeals scheme committee digest 0 [] x.seals

/-- Check a committed header; the answer is the list of those who sealed it. -/
def checkCommitted (scheme : Scheme) (committee : Committee) (h : Header) :
    Except HeaderError (List Address) := do
  let x ← h.extraData.mapError .extraData
  require (x.validators == committee.members) .wrongCommittee
  (h.checkVote x).mapError .vote
  let signers ← h.signers scheme committee
  require (committee.quorum ≤ signers.length) (.tooFewSeals signers.length committee.quorum)
  return signers

end Header

end QuorumChain
