import QuorumChain.Json.Raw
import QuorumChain.Json.Value
import QuorumChain.Keys.Basic

/-!
# Keystores

A keystore is a JSON text with the address of a validator and the secret seed of its key.  Loading
it checks that the two belong together.
-/

namespace QuorumChain

/-- What is written in a keystore. -/
structure Keystore where
  /-- The text of the address. -/
  address : String
  /-- The text of the secret. -/
  secretKey : String
deriving DecidableEq

/-- Why no key can be loaded. -/
inductive KeystoreError where
  /-- The file cannot be read. -/
  | unreadable
  /-- The text is not that of a keystore. -/
  | malformed
  /-- The secret is not hexadecimal. -/
  | notHex (cause : Hex.Error)
  /-- The secret has the wrong length. -/
  | wrongLength (got : Nat)
  /-- The address is not that of the key. -/
  | otherAddress (stored : String) (derived : Address)
deriving DecidableEq

/-- The wording of the complaint. -/
def KeystoreError.message : KeystoreError → String
  | .unreadable => "IO error"
  | .malformed => "Keystore format error"
  | .notHex cause => "Invalid key: Invalid hex: " ++ cause.message
  | .wrongLength got => "Invalid key: expected 32 bytes, got " ++ toString got
  | .otherAddress stored derived =>
    "Keystore address " ++ stored ++ " does not match key address " ++ derived.text

namespace Keystore

/-- The keystore of a key. -/
def ofKey (k : ValidatorKey) : Keystore :=
  ⟨k.address.text, k.pair.seed.hex⟩

/-- A keystore as JSON. -/
def toJson (s : Keystore) : Json :=
  .object [("address", .text s.address), ("secret_key", .text s.secretKey)]

/-- The text of a keystore. -/
def write (s : Keystore) : String :=
  s.toJson.pretty

/-- The value of the only member with a name, which has to be a text. -/
def member? (members : List (String × Json.Raw)) (name : String) : Option String :=
  match members.filter (·.1 = name) with
  | [(_, v)] => v.text?
  | _ => none

/-- The keystore that a JSON value is: an object with the two members among others, or a list of
the two texts. -/
def ofRaw? : Json.Raw → Option Keystore
  | .object members => do
    let members ← members.mapM fun (name, v) => (Json.readText? name).map (·, v)
    return ⟨← member? members "address", ← member? members "secret_key"⟩
  | .list [address, secret] => return ⟨← address.text?, ← secret.text?⟩
  | _ => none

/-- Read the text of a keystore. -/
def ofOctets (text : Octets) : Except KeystoreError Keystore :=
  match (Json.Raw.ofOctets? text).bind ofRaw? with
  | some s => .ok s
  | none => .error .malformed

/-- Take away every `0x` at the front. -/
def dropMarks : Octets → Octets
  | 48 :: 120 :: rest => dropMarks rest
  | bytes => bytes

/-- The secret seed. -/
def seed (s : Keystore) : Except KeystoreError Ed25519.Seed :=
  match Hex.decodeOctets (dropMarks (Octets.ofText s.secretKey)) with
  | .error cause => .error (.notHex cause)
  | .ok bytes =>
    match Fixed.ofList? bytes with
    | some seed => .ok seed
    | none => .error (.wrongLength bytes.length)

/-- The key of a keystore. -/
def key (s : Keystore) : Except KeystoreError ValidatorKey := do
  let key := ValidatorKey.ofSeed (← s.seed)
  if (Address.ofText s.address).toOption = some key.address then return key
  else throw (.otherAddress s.address key.address)

/-- Load the key from the text of a keystore; there is none if the file cannot be read. -/
def load (text : Option Octets) : Except KeystoreError ValidatorKey :=
  match text with
  | none => .error .unreadable
  | some text => (ofOctets text).bind key

end Keystore

end QuorumChain
