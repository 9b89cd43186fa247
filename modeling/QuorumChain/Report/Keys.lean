import QuorumChain.Keys.Keystore
import QuorumChain.Report.Chain
import QuorumChain.Report.Error

/-!
# Keys as JSON
-/

namespace QuorumChain

/-- The report of a keystore that cannot be loaded; what is wrong with its file is not told. -/
def KeystoreError.failure (e : KeystoreError) : Failure :=
  match e with
  | .unreadable => ⟨"Io", none⟩
  | .malformed => ⟨"Format", none⟩
  | .notHex _ | .wrongLength _ => ⟨"InvalidKey", some e.message⟩
  | .otherAddress .. => ⟨"AddressMismatch", some e.message⟩

/-- A key without its secret. -/
def ValidatorKey.fields (k : ValidatorKey) : List (String × Json) :=
  [("address", k.address.report), ("public", .text k.pair.publicKey.octets.hex),
    ("debug", .text k.shown)]

/-- The signature of a key over a digest, and whether those who know the key accept it. -/
def ValidatorKey.signatureFields (k : ValidatorKey) (digest : Digest) : List (String × Json) :=
  let signature := k.signer.sign digest
  let registry := KeyRegistry.ofList [k.pair.publicKey]
  [("signature", signature.report),
    ("verifies", .bool (registry.verify k.address digest signature))]

end QuorumChain
