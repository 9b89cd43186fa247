import QuorumChain.Text.Hex

/-!
# The tokens of a JSON text

A JSON text is a string of octets.  Outside of quoted texts it consists of marks, of words such as
`null` and numbers, and of blanks between them.  Quoted texts are kept as they are written; reading
them is a second step, because a text that nobody asks for need not be in UTF-8.
-/

namespace QuorumChain.Json

/-- A token. -/
inductive Token where
  /-- An opening bracket. -/
  | openList
  /-- A closing bracket. -/
  | closeList
  /-- An opening brace. -/
  | openObject
  /-- A closing brace. -/
  | closeObject
  | comma
  | colon
  /-- A quoted text as written, without the quotes. -/
  | text (written : Octets)
  /-- A number, or one of the words `true`, `false` and `null`. -/
  | scalar (written : Octets)
deriving DecidableEq

/-- Whether an octet is a blank. -/
def isBlank (b : UInt8) : Bool :=
  b == 32 || b == 10 || b == 13 || b == 9

/-- Whether an octet is a decimal digit. -/
def isDigit (b : UInt8) : Bool :=
  48 ≤ b && b ≤ 57

/-- Whether an octet can stand in a number or a word. -/
def isWordPart (b : UInt8) : Bool :=
  isDigit b || (97 ≤ b && b ≤ 122) || (65 ≤ b && b ≤ 90) || b == 43 || b == 45 || b == 46

/-- The token of a mark. -/
def mark? (b : UInt8) : Option Token :=
  if b = 91 then some .openList
  else if b = 93 then some .closeList
  else if b = 123 then some .openObject
  else if b = 125 then some .closeObject
  else if b = 44 then some .comma
  else if b = 58 then some .colon
  else none

/-- The rest of a text behind its digits, of which there has to be one. -/
def dropDigits? : Octets → Option Octets
  | [] => none
  | b :: rest => if isDigit b then some (rest.dropWhile isDigit) else none

/-- Whether the end of a number is an exponent or nothing. -/
def isExponent : Octets → Bool
  | [] => true
  | e :: rest =>
    (e == 101 || e == 69) &&
      let digits := match rest with
        | s :: tail => if s = 43 ∨ s = 45 then tail else rest
        | [] => []
      dropDigits? digits == some []

/-- Whether the end of a number is a fraction, an exponent, both or nothing. -/
def isFraction : Octets → Bool
  | 46 :: rest => (dropDigits? rest).any isExponent
  | rest => isExponent rest

/-- Whether a word is a number: no zero stands before other digits. -/
def isNumber (word : Octets) : Bool :=
  let unsigned := match word with
    | 45 :: rest => rest
    | _ => word
  match unsigned with
  | 48 :: rest => isFraction rest
  | _ => (dropDigits? unsigned).any isFraction

/-- Whether a word may stand for a value. -/
def isScalar (word : Octets) : Bool :=
  word == Octets.ofText "null" || word == Octets.ofText "true" || word == Octets.ofText "false" ||
    isNumber word

/-- Whether an octet may follow a backslash and need no digits. -/
def isEscape (b : UInt8) : Bool :=
  (Octets.ofText "\"\\/bfnrt").contains b

/-- Where a scan stands. -/
inductive Scan.Place where
  /-- Between tokens. -/
  | between
  /-- In a word; its octets, latest first. -/
  | word (written : Octets)
  /-- In a quoted text; its octets, latest first. -/
  | inside (written : Octets)
  /-- Behind a backslash in a quoted text. -/
  | escape (written : Octets)
  /-- Before digits that belong to an escape. -/
  | digits (count : Nat) (written : Octets)

/-- A scan under way: where it stands, and the tokens before, latest first. -/
structure Scan where
  place : Scan.Place
  tokens : List Token

namespace Scan

/-- Read an octet between tokens. -/
def enter (tokens : List Token) (b : UInt8) : Option Scan :=
  if isBlank b then some ⟨.between, tokens⟩
  else if b = 34 then some ⟨.inside [], tokens⟩
  else if isWordPart b then some ⟨.word [b], tokens⟩
  else (mark? b).map fun t => ⟨.between, t :: tokens⟩

/-- The tokens with a finished word. -/
def endWord (tokens : List Token) (written : Octets) : Option (List Token) :=
  let word := written.reverse
  if isScalar word then some (.scalar word :: tokens) else none

/-- Read an octet. -/
def step (s : Scan) (b : UInt8) : Option Scan :=
  match s.place with
  | .between => enter s.tokens b
  | .word written =>
    if isWordPart b then some { s with place := .word (b :: written) }
    else (endWord s.tokens written).bind (enter · b)
  | .inside written =>
    if b = 34 then some ⟨.between, .text written.reverse :: s.tokens⟩
    else if b = 92 then some { s with place := .escape (b :: written) }
    else if b < 32 then none
    else some { s with place := .inside (b :: written) }
  | .escape written =>
    if b = 117 then some { s with place := .digits 4 (b :: written) }
    else if isEscape b then some { s with place := .inside (b :: written) }
    else none
  | .digits count written =>
    if (Hex.digitValue? b).isNone then none
    else if count ≤ 1 then some { s with place := .inside (b :: written) }
    else some { s with place := .digits (count - 1) (b :: written) }

/-- The tokens of a text that ends here. -/
def finish (s : Scan) : Option (List Token) :=
  match s.place with
  | .between => some s.tokens.reverse
  | .word written => (endWord s.tokens written).map List.reverse
  | _ => none

end Scan

/-- The tokens of a text. -/
def tokens? (text : Octets) : Option (List Token) :=
  (text.foldlM Scan.step ⟨.between, []⟩).bind Scan.finish

/-- The unit of UTF-16 that four digits write. -/
def unit? (digits : Octets) : Option Nat :=
  (digits.mapM Hex.digitValue?).map fun values => values.foldl (fun v d => 16 * v + d) 0

/-- The octet that an escape without digits writes. -/
def escaped? (b : UInt8) : Option UInt8 :=
  if b = 34 ∨ b = 92 ∨ b = 47 then some b
  else if b = 98 then some 8
  else if b = 102 then some 12
  else if b = 110 then some 10
  else if b = 114 then some 13
  else if b = 116 then some 9
  else none

/-- The octets of the character with a number. -/
def charOctets (v : Nat) : Octets :=
  Octets.ofText (String.ofList [Char.ofNat v])

/-- The octets that a quoted text stands for.  An escape of half a pair has to be followed by the
other half. -/
def unescape? : Octets → Option Octets
  | [] => some []
  | 92 :: 117 :: a :: b :: c :: d :: rest => do
    let high ← unit? [a, b, c, d]
    if high < 0xD800 ∨ 0xDFFF < high then
      let tail ← unescape? rest
      return charOctets high ++ tail
    else if 0xDC00 ≤ high then none
    else
      match rest with
      | 92 :: 117 :: e :: f :: g :: h :: rest =>
        let low ← unit? [e, f, g, h]
        if low < 0xDC00 ∨ 0xDFFF < low then none
        else
          let tail ← unescape? rest
          return charOctets (0x10000 + (high - 0xD800) * 0x400 + (low - 0xDC00)) ++ tail
      | _ => none
  | 92 :: b :: rest => do
    let octet ← escaped? b
    let tail ← unescape? rest
    return octet :: tail
  | b :: rest => (unescape? rest).map (b :: ·)

/-- The text that is written between quotes, if it is in UTF-8. -/
def readText? (written : Octets) : Option String :=
  (unescape? written).bind fun bytes => String.fromUTF8? (ByteArray.mk bytes.toArray)

end QuorumChain.Json
