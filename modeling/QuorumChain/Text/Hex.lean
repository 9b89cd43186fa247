import QuorumChain.Data.Octets
import QuorumChain.Text.Quoted

/-!
# Hexadecimal text

Octets are written as pairs of lowercase digits.  Reading takes digits of either case and says
what is wrong with a text that is no such writing: first an odd length, then the first octet of the
text that is no digit.
-/

namespace QuorumChain.Hex

/-- What is wrong with a hexadecimal text. -/
inductive Error where
  /-- The text has an odd number of octets. -/
  | oddLength
  /-- The octet of the text at a position is no digit; it is shown as the character of that
  number. -/
  | badDigit (shown : Char) (position : Nat)
deriving DecidableEq, Repr

/-- The wording of the complaint. -/
def Error.message : Error → String
  | .oddLength => "Odd number of digits"
  | .badDigit shown position =>
    "Invalid character " ++ Text.quotedChar shown ++ " at position " ++ toString position

/-- The lowercase digit of a number below sixteen. -/
def digit (v : Nat) : Char :=
  if v < 10 then Char.ofNat (48 + v) else Char.ofNat (87 + v)

/-- The digits of a string of octets, two for each. -/
def digits : Octets → List Char
  | [] => []
  | b :: rest => digit (b.toNat / 16) :: digit (b.toNat % 16) :: digits rest

/-- A string of octets as text. -/
def encode (bytes : Octets) : String :=
  String.ofList (digits bytes)

/-- The value of an octet of text that is a digit. -/
def digitValue? (b : UInt8) : Option Nat :=
  let v := b.toNat
  if 48 ≤ v ∧ v ≤ 57 then some (v - 48)
  else if 97 ≤ v ∧ v ≤ 102 then some (v - 87)
  else if 65 ≤ v ∧ v ≤ 70 then some (v - 55)
  else none

/-- The value of one digit of the text, or the complaint about it. -/
def readDigit (position : Nat) (b : UInt8) : Except Error Nat :=
  match digitValue? b with
  | some v => .ok v
  | none => .error (.badDigit (Char.ofNat b.toNat) position)

/-- Read pairs of digits, the first of which stands at `position` in the text. -/
def readPairs : Nat → Octets → Except Error Octets
  | _, [] => .ok []
  | _, [_] => .error .oddLength
  | position, high :: low :: rest => do
    let h ← readDigit position high
    let l ← readDigit (position + 1) low
    let tail ← readPairs (position + 2) rest
    return UInt8.ofNat (16 * h + l) :: tail

/-- The octets that a text in UTF-8 writes. -/
def decodeOctets (text : Octets) : Except Error Octets :=
  if text.length % 2 = 1 then .error .oddLength else readPairs 0 text

/-- The octets that a text writes. -/
def decode (text : String) : Except Error Octets :=
  decodeOctets (Octets.ofText text)

end QuorumChain.Hex
