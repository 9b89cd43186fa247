import QuorumChain.Toml.Scalar

/-!
# Quoted texts in TOML

A text stands between double quotes, with escapes, or between single quotes, without.  Three quotes
of either kind enclose a text of several lines.  All functions here take the characters behind the
opening quotes and give the text together with the characters behind the closing ones.
-/

namespace QuorumChain.Toml

/-- Whether a character may stand in a text or a comment on one line. -/
def isPrintable (c : Char) : Bool :=
  c == '\t' || (' ' ≤ c && c ≠ '\x7f')

/-- The character that an escape with one letter stands for. -/
def shortEscape? : Char → Option Char
  | 'b' => some '\x08'
  | 't' => some '\t'
  | 'n' => some '\n'
  | 'f' => some '\x0c'
  | 'r' => some '\r'
  | '"' => some '"'
  | '\\' => some '\\'
  | _ => none

/-- The character with the number that digits write. -/
def longEscape? (count : Nat) (s : List Char) : Option (Char × List Char) :=
  let digits := s.take count
  if digits.length = count && digits.all isHexDigit then
    let v := Text.ofDigits 16 digitValue digits
    if v < 0xD800 || (0xDFFF < v && v < 0x110000) then some (Char.ofNat v, s.drop count) else none
  else none

/-- The character that the escape behind a backslash stands for. -/
def escape? : List Char → Option (Char × List Char)
  | 'u' :: rest => longEscape? 4 rest
  | 'U' :: rest => longEscape? 8 rest
  | c :: rest => (shortEscape? c).map (·, rest)
  | [] => none

/-- A text that goes up to a double quote; what is read already stands latest first, and `fuel`
bounds the number of characters. -/
def basic? (fuel : Nat) (done : List Char) (s : List Char) : Option (String × List Char) :=
  match fuel, s with
  | 0, _ => none
  | _, [] => none
  | _, '"' :: rest => some (String.ofList done.reverse, rest)
  | fuel + 1, '\\' :: rest => do
    let (c, rest) ← escape? rest
    basic? fuel (c :: done) rest
  | fuel + 1, c :: rest => if isPrintable c then basic? fuel (c :: done) rest else none

/-- A text that goes up to a single quote. -/
def literal? (s : List Char) : Option (String × List Char) :=
  match s.dropWhile fun c => c ≠ '\'' && isPrintable c with
  | '\'' :: rest => some (String.ofList (s.takeWhile (· ≠ '\'')), rest)
  | _ => none

/-- Take away blanks and line ends. -/
def dropGap : List Char → List Char
  | ' ' :: rest => dropGap rest
  | '\t' :: rest => dropGap rest
  | '\n' :: rest => dropGap rest
  | '\r' :: '\n' :: rest => dropGap rest
  | s => s

/-- Whether a text begins with a line end. -/
def atLineEnd : List Char → Bool
  | '\n' :: _ => true
  | '\r' :: '\n' :: _ => true
  | _ => false

/-- A text of several lines that goes up to three quotes; one or two more may stand before them.
In a text with escapes a backslash at the end of a line joins it to what follows. -/
def lines? (quote : Char) (fuel : Nat) (done : List Char) (s : List Char) :
    Option (String × List Char) :=
  match fuel with
  | 0 => none
  | fuel + 1 =>
    let run := (s.takeWhile (· = quote)).length
    if 3 ≤ run then
      let extra := min (run - 3) 2
      some (String.ofList (done.reverse ++ List.replicate extra quote), s.drop (extra + 3))
    else
      match s with
      | [] => none
      | '\r' :: '\n' :: rest => lines? quote fuel ('\n' :: '\r' :: done) rest
      | c :: rest =>
        if c = '\\' && quote = '"' then
          if atLineEnd (rest.dropWhile fun c => c = ' ' || c = '\t') then
            lines? quote fuel done (dropGap rest)
          else
            match escape? rest with
            | some (c, rest) => lines? quote fuel (c :: done) rest
            | none => none
        else if c = '\n' || isPrintable c then lines? quote fuel (c :: done) rest
        else none

/-- Take away one line end, if there is one. -/
def dropLineEnd : List Char → List Char
  | '\n' :: rest => rest
  | '\r' :: '\n' :: rest => rest
  | s => s

/-- A quoted text on one line. -/
def shortText? : List Char → Option (String × List Char)
  | '"' :: rest => basic? (rest.length + 1) [] rest
  | '\'' :: rest => literal? rest
  | _ => none

/-- A quoted text. -/
def text? : List Char → Option (String × List Char)
  | '"' :: '"' :: '"' :: rest => lines? '"' (rest.length + 1) [] (dropLineEnd rest)
  | '\'' :: '\'' :: '\'' :: rest => lines? '\'' (rest.length + 1) [] (dropLineEnd rest)
  | s => shortText? s

end QuorumChain.Toml
