import QuorumChain.Text.Hex

/-!
# Addresses, digests and signatures

The three kinds of fixed-length octet strings that name validators, name blocks and prove
authorship.  Each is read from a list of octets of the right length; addresses and digests also
have a hexadecimal text form.
-/

namespace QuorumChain

/-- The address of a validator. -/
abbrev Address := Fixed 20

/-- The digest of an encoded value. -/
abbrev Digest := Fixed 32

/-- A signature over a digest. -/
abbrev Signature := Fixed 64

/-- Addresses are ordered octet by octet. -/
instance Address.instTransOrd : Std.TransOrd Address :=
  inferInstanceAs (Std.TransOrd (Fixed 20))

/-- Why octets or a text name no identifier. -/
inductive IdentifierError where
  /-- The number of octets is wrong for the kind of identifier. -/
  | wrongLength (what : String) (expected got : Nat)
  /-- The text is not hexadecimal. -/
  | notHex (cause : Hex.Error)
deriving DecidableEq, Repr

/-- The wording of the complaint. -/
def IdentifierError.message : IdentifierError → String
  | .wrongLength what expected got =>
    "Invalid " ++ what ++ " length: expected " ++ toString expected ++ ", got " ++ toString got
  | .notHex cause => "Invalid data: Invalid hex: " ++ cause.message

namespace Fixed

variable {n : Nat}

/-- The octets as hexadecimal digits. -/
def hex (a : Fixed n) : String :=
  Hex.encode a.octets

/-- The first four octets as hexadecimal digits. -/
def short (a : Fixed n) : String :=
  Hex.encode (a.octets.take 4)

/-- The text form: the digits behind `0x`. -/
def text (a : Fixed n) : String :=
  "0x" ++ a.hex

/-- Read a list of octets; `what` names the kind of identifier in a complaint. -/
def ofOctets (what : String) (bytes : Octets) : Except IdentifierError (Fixed n) :=
  match ofList? bytes with
  | some a => .ok a
  | none => .error (.wrongLength what n bytes.length)

/-- Take away one `0x` at the front, if there is one. -/
def dropMark : Octets → Octets
  | 48 :: 120 :: rest => rest
  | bytes => bytes

/-- Read a text form; the leading `0x` may be missing. -/
def ofText (what : String) (text : String) : Except IdentifierError (Fixed n) :=
  match Hex.decodeOctets (dropMark (Octets.ofText text)) with
  | .ok bytes => ofOctets what bytes
  | .error cause => .error (.notHex cause)

end Fixed

namespace Address

/-- Read an address from its octets. -/
def ofOctets : Octets → Except IdentifierError Address :=
  Fixed.ofOctets "address"

/-- Read an address from its text. -/
def ofText : String → Except IdentifierError Address :=
  Fixed.ofText "address"

/-- The form of an address inside a quoted value. -/
def shown (a : Address) : String :=
  "Address(" ++ a.text ++ ")"

/-- The address that stands for nobody. -/
def zero : Address :=
  Fixed.zero

end Address

namespace Digest

/-- Read a digest from its octets. -/
def ofOctets : Octets → Except IdentifierError Digest :=
  Fixed.ofOctets "hash"

/-- Read a digest from its text. -/
def ofText : String → Except IdentifierError Digest :=
  Fixed.ofText "hash"

/-- The form of a digest inside a quoted value. -/
def shown (d : Digest) : String :=
  "Hash(" ++ d.text ++ ")"

/-- The digest of zero octets that stands for no value. -/
def zero : Digest :=
  Fixed.zero

end Digest

namespace Signature

/-- Read a signature from its octets. -/
def ofOctets : Octets → Except IdentifierError Signature :=
  Fixed.ofOctets "signature"

/-- The form of a signature inside a quoted value: only its first octets are shown. -/
def shown (s : Signature) : String :=
  "Signature(0x" ++ s.short ++ "..)"

end Signature

end QuorumChain
