import QuorumChain.Chain.Fault

/-!
# Making blocks

The first block lists the first committee.  Every other block is a candidate of the execution
engine in which consensus has written the fields that are its own: parent, number, vote and
extra-data, and a time that is not before the parent's.
-/

namespace QuorumChain

/-- The first block of a chain. -/
def genesis (H : HashFunction) (validators : List Address) (timestamp : UInt64) :
    Except ExtraDataError Block := do
  if validators.isEmpty then throw .noValidators
  let bodyRoot ← (Body.empty.root H).mapError .unhashable
  let extra ← ExtraData.encode ⟨validators, none, 0, []⟩
  let header : Header := { Header.blank with timestamp, nonce := dropNonce, bodyRoot, extra }
  let _ ← header.extraData
  return ⟨header, .empty⟩

/-- The fields of consensus written into a candidate block on top of a parent. -/
def Block.stamp (b : Block) (parent : Header) (parentDigest : Digest) (round : UInt32)
    (committee : Committee) (vote : Option Vote) : Except ExtraDataError Block := do
  let extra ← ExtraData.encode ⟨committee.members, vote, round, []⟩
  let header := { b.header with
    parent := parentDigest
    number := parent.number + 1
    timestamp := max b.header.timestamp parent.timestamp }
  return { b with header := { header.withVote vote with extra } }

/-- A block for a round on top of a parent. -/
def Execution.createBlock (e : Execution) (parent : Header) (parentDigest : Digest)
    (round : UInt32) (committee : Committee) (vote : Option Vote) : Except Fault Block := do
  let candidate ← (e.build parent).mapError .execution
  (candidate.stamp parent parentDigest round committee vote).mapError .extraData

end QuorumChain
