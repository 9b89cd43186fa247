import QuorumChain.Chain.Creation
import QuorumChain.Committee.Cache

/-!
# Chains for simulations

A chain grows by blocks that are made for the committee behind the last block and sealed by chosen
signers, who need not be members.
-/

namespace QuorumChain

/-- The header with the seals of signers over its digest. -/
def Header.sealedBy (H : HashFunction) (h : Header) (signers : List Signer) :
    Except ExtraDataError Header := do
  let digest ← h.digest H
  h.withSeals (signers.map (·.sign digest))

/-- The block of a round on top of another, sealed by signers. -/
def Block.next (H : HashFunction) (e : Execution) (b : Block) (round : UInt32) (vote : Option Vote)
    (signers : List Signer) : Except Fault Block := do
  let (committee, _) ← (CommitteeCache.empty 1).after H b.header
  let digest ← (b.header.digest H).mapError Fault.extraData
  let fresh ← e.createBlock b.header digest round committee vote
  let header ← (fresh.header.sealedBy H signers).mapError Fault.extraData
  return { fresh with header }

end QuorumChain
