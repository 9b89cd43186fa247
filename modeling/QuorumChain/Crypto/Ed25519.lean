import QuorumChain.Crypto.Edwards25519
import QuorumChain.Crypto.Sha512
import QuorumChain.Data.Identifier

/-!
# Ed25519 signatures

A secret seed determines a scalar and a nonce key; a signature is a point and a scalar.
Verification is strict: the scalar must be reduced, and neither the point nor the public key may
have small order.
-/

namespace QuorumChain.Ed25519

open Edwards25519

/-- The secret from which a key pair is made. -/
abbrev Seed := Fixed 32

/-- A public key: its writing and the point written. -/
structure PublicKey where
  /-- The key as written. -/
  octets : Fixed 32
  /-- The point. -/
  point : Point

/-- Read a public key; the octets may name no point. -/
def PublicKey.decode? (octets : Fixed 32) : Option PublicKey :=
  (Point.decode? octets.octets).map fun point => ⟨octets, point⟩

/-- A key pair. -/
structure KeyPair where
  /-- The secret the pair was made from. -/
  seed : Seed
  /-- The secret factor of the base point. -/
  scalar : Nat
  /-- The octets from which nonces are made. -/
  nonceKey : Octets
  /-- The public key. -/
  publicKey : PublicKey

/-- The factor in 32 octets, with the three low bits and the top bit cleared and the bit below the
top bit set. -/
def clamp (bytes : Octets) : Nat :=
  let v := Octets.toNatLE bytes
  let top := Nat.pow 2 254
  v % top / 8 * 8 + top

/-- The key pair of a seed. -/
def KeyPair.ofSeed (seed : Seed) : KeyPair :=
  let h := Sha512.hash seed.octets
  let scalar := clamp (h.take 32)
  let point := mulBase scalar
  ⟨seed, scalar, h.drop 32, ⟨Fixed.ofPadded point.encode, point⟩⟩

/-- A hash as a scalar. -/
def scalarOfHash (bytes : Octets) : Nat :=
  Octets.toNatLE (Sha512.hash bytes) % order

/-- The signature of a message. -/
def KeyPair.sign (k : KeyPair) (message : Octets) : Signature :=
  let r := scalarOfHash (k.nonceKey ++ message)
  let point := (mulBase r).encode
  let c := scalarOfHash (point ++ k.publicKey.octets.octets ++ message)
  let s := (r + c * k.scalar) % order
  Fixed.ofPadded (point ++ Octets.ofNatLE 32 s)

/-- Whether a signature of a message is valid under a public key. -/
def PublicKey.verify (k : PublicKey) (message : Octets) (signature : Signature) : Bool :=
  let rBytes := signature.octets.take 32
  let s := Octets.toNatLE (signature.octets.drop 32)
  if s < order then
    match Point.decode? rBytes with
    | none => false
    | some r =>
      if r.isSmallOrder || k.point.isSmallOrder then false
      else
        let c := scalarOfHash (rBytes ++ k.octets.octets ++ message)
        ((mulBase s).add (Point.mul 253 c k.point.neg)).same r
  else false

end QuorumChain.Ed25519
