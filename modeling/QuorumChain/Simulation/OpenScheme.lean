import QuorumChain.Data.SortedMap
import QuorumChain.Message.Signing

/-!
# Signatures without secrets

In simulations signatures need not be secret, only distinct.  The signature of an address over a
digest is the hash of the address and the digest in one order, followed by their hash in the other.
Signatures of known addresses verify when they are equal to that.
-/

namespace QuorumChain.OpenScheme

/-- The signature of an address over a digest. -/
def sign (H : HashFunction) (a : Address) (digest : Digest) : Signature :=
  Fixed.ofPadded
    ((H (a.octets ++ digest.octets)).octets ++ (H (digest.octets ++ a.octets)).octets)

/-- The signer with an address. -/
def signer (H : HashFunction) (a : Address) : Signer :=
  ⟨a, sign H a⟩

/-- The scheme in which the signatures of known addresses verify. -/
def scheme (H : HashFunction) (known : List Address) : Scheme :=
  ⟨H, fun a digest signature => known.contains a && signature == sign H a digest⟩

end QuorumChain.OpenScheme
