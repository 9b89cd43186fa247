/-!
# Decimal numbers

A number is written with the ten digits.  Zeros in front of it mean nothing.
-/

namespace QuorumChain.Text

/-- Whether a character is a decimal digit. -/
def isDigit (c : Char) : Bool :=
  '0' ≤ c && c ≤ '9'

/-- The value of a digit. -/
def digitValue (c : Char) : Nat :=
  c.toNat - 48

/-- The number that digits write in a base. -/
def ofDigits (base : Nat) (value : Char → Nat) (digits : List Char) : Nat :=
  digits.foldl (fun v c => base * v + value c) 0

/-- The number that digits write; there has to be one at least. -/
def decimal? (digits : List Char) : Option Nat :=
  if digits.isEmpty || !digits.all isDigit then none else some (ofDigits 10 digitValue digits)

/-- A natural number below a bound, maybe behind a plus sign. -/
def natural? (bound : Nat) (text : String) : Option Nat :=
  let digits := match text.toList with
    | '+' :: rest => rest
    | digits => digits
  (decimal? digits).filter (· < bound)

/-- An integer from zero up to a bound; a sign of either kind may stand before it. -/
def integer? (bound : Nat) (text : String) : Option Nat :=
  match text.toList with
  | '-' :: digits => (decimal? digits).filter fun v => v == 0 && v < bound
  | _ => natural? bound text

end QuorumChain.Text
