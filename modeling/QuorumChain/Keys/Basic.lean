import QuorumChain.Crypto.Blake3
import QuorumChain.Crypto.Ed25519
import QuorumChain.Data.SortedMap
import QuorumChain.Message.Signing

/-!
# Validator keys

A validator signs with an ed25519 key.  Its address is the last twenty octets of the BLAKE3 hash of
the public key.  A registry holds the public keys of the validators that are known; nobody else's
signatures verify.
-/

namespace QuorumChain

/-- The address of a public key. -/
def Ed25519.PublicKey.address (k : Ed25519.PublicKey) : Address :=
  Fixed.ofPadded ((Blake3.hash k.octets.octets).octets.drop 12)

/-- The key of a validator. -/
structure ValidatorKey where
  pair : Ed25519.KeyPair
  address : Address

namespace ValidatorKey

/-- The key made from a secret seed. -/
def ofSeed (seed : Ed25519.Seed) : ValidatorKey :=
  let pair := Ed25519.KeyPair.ofSeed seed
  ⟨pair, pair.publicKey.address⟩

/-- The seed of the development validator with a number. -/
def devSeed (number : Nat) : Ed25519.Seed :=
  Blake3.hash (Octets.ofText ("istanbul-dev-validator-" ++ toString number))

/-- The key of the development validator with a number. -/
def dev (number : Nat) : ValidatorKey :=
  ofSeed (devSeed number)

/-- The signing capability of a key. -/
def signer (k : ValidatorKey) : Signer :=
  ⟨k.address, fun digest => k.pair.sign digest.octets⟩

/-- The form of a key inside a message; it shows no secret. -/
def shown (k : ValidatorKey) : String :=
  "NodeKeyPair \x7b address: " ++ k.address.shown ++ ", .. \x7d"

end ValidatorKey

/-- The public keys of the validators that are known. -/
structure KeyRegistry where
  keys : SortedMap Address Ed25519.PublicKey

namespace KeyRegistry

/-- The registry that knows nobody. -/
def empty : KeyRegistry :=
  ⟨.empty⟩

/-- The registry that also knows a key. -/
def insert (r : KeyRegistry) (k : Ed25519.PublicKey) : KeyRegistry :=
  ⟨r.keys.insert k.address k⟩

/-- The registry that knows the listed keys. -/
def ofList (keys : List Ed25519.PublicKey) : KeyRegistry :=
  keys.foldl insert empty

/-- The number of known validators. -/
def size (r : KeyRegistry) : Nat :=
  r.keys.size

/-- Whether a validator is known. -/
def contains (r : KeyRegistry) (a : Address) : Bool :=
  r.keys.contains a

/-- Whether a signature is that of a known validator. -/
def verify (r : KeyRegistry) (a : Address) (digest : Digest) (signature : Signature) : Bool :=
  match r.keys.get? a with
  | some k => k.verify digest.octets signature
  | none => false

/-- BLAKE3 and the signatures of known validators. -/
def scheme (r : KeyRegistry) : Scheme :=
  ⟨Blake3.hash, r.verify⟩

end KeyRegistry

end QuorumChain
