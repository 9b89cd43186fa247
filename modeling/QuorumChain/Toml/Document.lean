import QuorumChain.Toml.Text

/-!
# TOML documents

A document is a list of lines.  A line gives a value to a key, or it is a header that tells where
the following values belong.  Readers take what they read off the front of the text and refuse what
is no TOML.
-/

namespace QuorumChain.Toml

/-- Takes characters off the front of a text. -/
abbrev Reader := StateT (List Char) Option

namespace Reader

/-- Refuse the text. -/
def refuse {α : Type} : Reader α :=
  fun _ => none

/-- The next character. -/
def peek? : Reader (Option Char) := do
  return (← get).head?

/-- Take the characters that satisfy a condition. -/
def takeWhile (p : Char → Bool) : Reader (List Char) :=
  fun s => some (s.takeWhile p, s.dropWhile p)

/-- Take a character, if it is the next one. -/
def accepts (c : Char) : Reader Bool :=
  fun s => some (match s with
    | d :: rest => if d = c then (true, rest) else (false, s)
    | [] => (false, s))

/-- Take a character, which has to be the next one. -/
def expect (c : Char) : Reader Unit := do
  unless ← accepts c do refuse

/-- Take blanks. -/
def blanks : Reader Unit := do
  let _ ← takeWhile fun c => c = ' ' || c = '\t'

/-- Take a line end, if there is one. -/
def lineEnd : Reader Bool :=
  fun s => some (atLineEnd s, dropLineEnd s)

/-- Take a comment, if there is one. -/
def comment : Reader Unit := do
  if (← peek?) = some '#' then
    let _ ← takeWhile isPrintable

/-- Take the rest of a line that has nothing more to say. -/
def restOfLine : Reader Unit := do
  blanks
  comment
  unless ← lineEnd do
    unless (← get).isEmpty do refuse

/-- Take blanks, comments and line ends. -/
def gap : Reader Unit := do
  go (← get).length
where
  /-- One line after the other; `fuel` bounds the number of lines. -/
  go : Nat → Reader Unit
    | 0 => pure ()
    | fuel + 1 => do
      blanks
      comment
      if ← lineEnd then go fuel

/-- Whether a character may stand in a name without quotes. -/
def isNamePart (c : Char) : Bool :=
  Text.isDigit c || ('a' ≤ c && c ≤ 'z') || ('A' ≤ c && c ≤ 'Z') || c == '_' || c == '-'

/-- A name. -/
def name : Reader String := do
  match ← peek? with
  | some '"' | some '\'' => fun s => shortText? s
  | _ =>
    let chars ← takeWhile isNamePart
    if chars.isEmpty then refuse
    return String.ofList chars

/-- A key: names with dots between them, fewer than eighty. -/
def key : Reader (List String) := do
  let names ← go (← get).length
  if 80 ≤ names.length then refuse
  return names
where
  /-- One name after the other; `fuel` bounds the number of names. -/
  go : Nat → Reader (List String)
    | 0 => refuse
    | fuel + 1 => do
      blanks
      let first ← name
      blanks
      if ← accepts '.' then return first :: (← go fuel)
      return [first]

/-- Whether a character may stand in a scalar without quotes. -/
def isScalarPart (c : Char) : Bool :=
  isNamePart c || c == '+' || c == '.' || c == ':'

/-- Whether a time of day may begin here, behind a blank. -/
def beginsTime : List Char → Bool
  | ' ' :: a :: b :: ':' :: _ => Text.isDigit a && Text.isDigit b
  | _ => false

/-- A scalar without quotes.  A blank may stand between a date and a time of day. -/
def scalar : Reader Toml := do
  let written ← takeWhile isScalarPart
  if isDate written && beginsTime (← get) then
    expect ' '
    let time ← takeWhile isScalarPart
    if isTimeOfMoment time then return .moment (String.ofList (written ++ ' ' :: time))
    else refuse
  else fun s => (scalar? written).map (·, s)

/-- A value that holds no others. -/
def simple : Reader Toml := do
  match ← peek? with
  | some '"' | some '\'' => fun s => (text? s).map fun (t, rest) => (.text t, rest)
  | _ => scalar

/-- The items of an array behind the bracket; a comma may stand behind the last one. -/
def items (item : Reader Toml) : Nat → Reader (List Toml)
  | 0 => refuse
  | fuel + 1 => do
    gap
    if ← accepts ']' then return []
    let v ← item
    gap
    if ← accepts ',' then return v :: (← items item fuel)
    expect ']'
    return [v]

/-- The pairs of a table in braces behind its opening brace. -/
def pairs (value : Reader Toml) : Nat → Reader (List (List String × Toml))
  | 0 => refuse
  | fuel + 1 => do
    let k ← key
    expect '='
    blanks
    let v ← value
    blanks
    if ← accepts ',' then return (k, v) :: (← pairs value fuel)
    expect '\x7d'
    return [(k, v)]

/-- A table in braces behind its opening brace. -/
def inline (value : Reader Toml) : Reader Toml := do
  blanks
  if ← accepts '\x7d' then return .inline []
  let pairs ← pairs value (← get).length
  fun s => (Entries.insertAll [] pairs).map fun entries => (.inline entries, s)

/-- A value; `depth` bounds how deep arrays and tables in braces are nested. -/
def value : Nat → Reader Toml
  | 0 => simple
  | depth + 1 => do
    if ← accepts '[' then return .array (← items (value depth) (← get).length)
    if ← accepts '\x7b' then inline (value depth)
    else simple

/-- The line of a key and its value. -/
def pair : Reader (List String × Toml) := do
  let k ← key
  expect '='
  blanks
  let v ← value 79
  restOfLine
  return (k, v)

/-- A header behind its opening bracket. -/
def header : Reader Place := do
  if ← accepts '[' then
    let path ← key
    expect ']'
    expect ']'
    restOfLine
    return .row path
  else
    let path ← key
    expect ']'
    restOfLine
    return .table path

/-- The lines of a document, where `place` and `pairs` tell of the lines since the latest header;
`fuel` bounds the number of lines. -/
def lines (document : Entries) (place : Place) (pairs : List (List String × Toml)) :
    Nat → Reader Entries
  | 0 => refuse
  | fuel + 1 => do
    blanks
    match ← peek? with
    | none => fun s => (document.settle place pairs).map (·, s)
    | some '[' =>
      let document ← fun s => (document.settle place pairs).map (·, s)
      expect '['
      lines document (← header) [] fuel
    | some c =>
      if c = '#' || c = '\n' || c = '\r' then
        restOfLine
        lines document place pairs fuel
      else
        let p ← pair
        lines document place (pairs ++ [p]) fuel

end Reader

/-- The table that a document is.  A byte order mark may stand at its beginning. -/
def ofText? (text : String) : Option Entries :=
  let chars := match text.toList with
    | '\uFEFF' :: rest => rest
    | chars => chars
  (Reader.lines [] .document [] (chars.length + 1) chars).map (·.1)

end QuorumChain.Toml
