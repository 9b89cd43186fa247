import QuorumChain.Text.Decimal
import QuorumChain.Toml.Value

/-!
# Numbers, dates and words in TOML

A scalar without quotes is a run of letters, digits and a few signs.  This module tells what such a
run stands for.  Integers have 64 bits and a sign.
-/

namespace QuorumChain.Toml

open Text (isDigit decimal? ofDigits)

/-- Digits without the underscores that stand between them, each of them between two digits. -/
def ungroup? (isDigit : Char → Bool) : List Char → Option (List Char)
  | [] => none
  | [c] => if isDigit c then some [c] else none
  | c :: '_' :: rest => if isDigit c then (ungroup? isDigit rest).map (c :: ·) else none
  | c :: rest => if isDigit c then (ungroup? isDigit rest).map (c :: ·) else none

/-- The digits of a decimal integer; a zero stands alone. -/
def decimalDigits? (written : List Char) : Option (List Char) :=
  match written with
  | ['0'] => some ['0']
  | '0' :: _ => none
  | _ => ungroup? isDigit written

/-- A number with its sign taken off; the flag tells whether the sign is a minus. -/
def dropSign : List Char → Bool × List Char
  | '-' :: rest => (true, rest)
  | '+' :: rest => (false, rest)
  | rest => (false, rest)

/-- The value of a digit in bases up to sixteen. -/
def digitValue (c : Char) : Nat :=
  if isDigit c then c.toNat - 48
  else if 'a' ≤ c then c.toNat - 87
  else c.toNat - 55

/-- Whether a character is a digit in base sixteen. -/
def isHexDigit (c : Char) : Bool :=
  isDigit c || ('a' ≤ c && c ≤ 'f') || ('A' ≤ c && c ≤ 'F')

/-- The number that digits write in a base, maybe with underscores between them. -/
def inBase? (base : Nat) (isDigit : Char → Bool) (written : List Char) : Option Int :=
  (ungroup? isDigit written).map fun digits => ofDigits base digitValue digits

/-- The integer that a run of characters writes. -/
def integer? (written : List Char) : Option Int :=
  let value := match written with
    | '0' :: 'x' :: rest => inBase? 16 isHexDigit rest
    | '0' :: 'o' :: rest => inBase? 8 (fun c => '0' ≤ c && c ≤ '7') rest
    | '0' :: 'b' :: rest => inBase? 2 (fun c => c == '0' || c == '1') rest
    | _ =>
      let (minus, digits) := dropSign written
      (decimalDigits? digits).map fun digits =>
        let n : Int := ofDigits 10 digitValue digits
        if minus then -n else n
  value.filter fun n => -9223372036854775808 ≤ n && n < 9223372036854775808

/-- The exponent of a number behind the letter `e`. -/
def exponent? (written : List Char) : Option Int :=
  let (minus, digits) := dropSign written
  (ungroup? isDigit digits).map fun digits =>
    let n : Int := ofDigits 10 digitValue digits
    if minus then -n else n

/-- Whether `digits` times ten to the `exponent` rounds to no finite number of 64 bits. -/
def isOverflow (digits : List Char) (exponent : Int) : Bool :=
  let m := ofDigits 10 digitValue digits
  let bound := Nat.pow 2 1024 - Nat.pow 2 970
  if m = 0 then false
  else if 400 < exponent then true
  else if 0 ≤ exponent then bound ≤ m * Nat.pow 10 exponent.toNat
  else if digits.length < (-exponent).toNat then false
  else bound * Nat.pow 10 (-exponent).toNat ≤ m

/-- Whether a run of characters writes a number with a fraction or an exponent.  A positive number
must not be too great. -/
def isReal (written : List Char) : Bool :=
  let (minus, body) := dropSign written
  if body = ['i', 'n', 'f'] || body = ['n', 'a', 'n'] then true
  else
    let isPart (c : Char) := isDigit c || c == '_'
    let isMark (c : Char) := c == 'e' || c == 'E'
    let check (whole : List Char) (fraction : List Char) (exponent : Int) : Bool :=
      minus || !isOverflow (whole ++ fraction) (exponent - fraction.length)
    match decimalDigits? (body.takeWhile isPart), body.dropWhile isPart with
    | some whole, '.' :: rest =>
      match ungroup? isDigit (rest.takeWhile isPart), rest.dropWhile isPart with
      | some fraction, [] => check whole fraction 0
      | some fraction, e :: tail => isMark e && (exponent? tail).any (check whole fraction)
      | none, _ => false
    | some whole, e :: tail => isMark e && (exponent? tail).any (check whole [])
    | _, _ => false

/-- Take a number of exactly `count` digits off the front. -/
def takeNumber? (count least greatest : Nat) (s : List Char) : Option (Nat × List Char) := do
  let digits := s.take count
  if digits.length ≠ count then failure
  let n ← decimal? digits
  if n < least || greatest < n then failure
  return (n, s.drop count)

/-- Take a character off the front. -/
def takeChar? (c : Char) : List Char → Option (List Char)
  | d :: rest => if d = c then some rest else none
  | [] => none

/-- The number of days of a month. -/
def daysOf (year month : Nat) : Nat :=
  if month = 2 then
    if year % 4 = 0 && (year % 100 ≠ 0 || year % 400 = 0) then 29 else 28
  else if month = 4 || month = 6 || month = 9 || month = 11 then 30
  else 31

/-- Take a date off the front. -/
def dropDate? (s : List Char) : Option (List Char) := do
  let (year, s) ← takeNumber? 4 0 9999 s
  let s ← takeChar? '-' s
  let (month, s) ← takeNumber? 2 1 12 s
  let s ← takeChar? '-' s
  let (_, s) ← takeNumber? 2 1 (daysOf year month) s
  return s

/-- Take a time of day off the front. -/
def dropTime? (s : List Char) : Option (List Char) := do
  let (_, s) ← takeNumber? 2 0 23 s
  let s ← takeChar? ':' s
  let (_, s) ← takeNumber? 2 0 59 s
  let s ← takeChar? ':' s
  let (_, s) ← takeNumber? 2 0 60 s
  match s with
  | '.' :: rest => if (rest.takeWhile isDigit).isEmpty then none else some (rest.dropWhile isDigit)
  | _ => some s

/-- Whether a run of characters is the distance from universal time. -/
def isOffset : List Char → Bool
  | ['Z'] => true
  | ['z'] => true
  | sign :: s =>
    (sign == '+' || sign == '-') && (do
      let (_, s) ← takeNumber? 2 0 23 s
      let s ← takeChar? ':' s
      let (_, s) ← takeNumber? 2 0 59 s
      return s.isEmpty) == some true
  | [] => false

/-- Whether a run of characters is a time of day, maybe with a distance from universal time. -/
def isTimeOfMoment (s : List Char) : Bool :=
  (dropTime? s).any fun rest => rest.isEmpty || isOffset rest

/-- Whether a run of characters is a date. -/
def isDate (s : List Char) : Bool :=
  dropDate? s == some []

/-- Whether a run of characters is a date, a time of day or both. -/
def isMoment (s : List Char) : Bool :=
  dropTime? s == some [] ||
    match dropDate? s with
    | some [] => true
    | some (mark :: time) => (mark == 'T' || mark == 't') && isTimeOfMoment time
    | none => false

/-- The value that a run of characters stands for. -/
def scalar? (written : List Char) : Option Toml :=
  if written = "true".toList then some (.boolean true)
  else if written = "false".toList then some (.boolean false)
  else
    match integer? written with
    | some n => some (.integer n)
    | none =>
      if isReal written then some (.real (String.ofList written))
      else if isMoment written then some (.moment (String.ofList written))
      else none

end QuorumChain.Toml
