import QuorumChain.Data.Octets

/-!
# JSON values and their text

Values are printed in two layouts: compact, and with every item on a line of its own, indented by
two blanks a level.  Control characters, quotes and backslashes in texts are escaped; everything
else stands for itself.
-/

namespace QuorumChain

/-- A JSON value; numbers are whole. -/
inductive Json where
  | null
  | bool (b : Bool)
  | number (n : Int)
  | text (s : String)
  | list (items : List Json)
  | object (fields : List (String × Json))

namespace Json

/-- A natural number. -/
def nat (n : Nat) : Json :=
  .number n

/-- A value that may be missing. -/
def option {α : Type} (f : α → Json) : Option α → Json
  | some a => f a
  | none => .null

/-- A list of values of one type. -/
def each {α : Type} (f : α → Json) (items : List α) : Json :=
  .list (items.map f)

/-- A character inside a quoted text. -/
def escaped (c : Char) : String :=
  if c = '"' then "\\\""
  else if c = '\\' then "\\\\"
  else if c = '\n' then "\\n"
  else if c = '\r' then "\\r"
  else if c = '\t' then "\\t"
  else if c = '\x08' then "\\b"
  else if c = '\x0c' then "\\f"
  else if c.toNat < 16 then "\\u000" ++ String.ofList (Nat.toDigits 16 c.toNat)
  else if c.toNat < 32 then "\\u00" ++ String.ofList (Nat.toDigits 16 c.toNat)
  else c.toString

/-- A text in quotes. -/
def quoted (s : String) : String :=
  "\"" ++ s.foldl (fun done c => done ++ escaped c) "" ++ "\""

mutual

/-- A value in compact layout, behind what is printed already. -/
def print (done : String) : Json → String
  | .null => done ++ "null"
  | .bool true => done ++ "true"
  | .bool false => done ++ "false"
  | .number n => done ++ toString n
  | .text s => done ++ quoted s
  | .list items => printItems (done ++ "[") true items ++ "]"
  | .object fields => printFields (done ++ "\x7b") true fields ++ "\x7d"

/-- The items of a list, with commas between them. -/
def printItems (done : String) (first : Bool) : List Json → String
  | [] => done
  | v :: rest => printItems (print (if first then done else done ++ ",") v) false rest

/-- The fields of an object, with commas between them. -/
def printFields (done : String) (first : Bool) : List (String × Json) → String
  | [] => done
  | (k, v) :: rest =>
    printFields (print ((if first then done else done ++ ",") ++ quoted k ++ ":") v) false rest

end

/-- A value in compact layout. -/
def compact (v : Json) : String :=
  print "" v

/-- A new line at a level of indentation. -/
def newline (level : Nat) : String :=
  "\n" ++ String.ofList (List.replicate (2 * level) ' ')

mutual

/-- A value with every item on a line of its own, at a level of indentation. -/
def layOut (level : Nat) : Json → String
  | .list [] => "[]"
  | .object [] => "\x7b\x7d"
  | .list items => "[" ++ layOutItems (level + 1) items ++ newline level ++ "]"
  | .object fields => "\x7b" ++ layOutFields (level + 1) fields ++ newline level ++ "\x7d"
  | .null => "null"
  | .bool true => "true"
  | .bool false => "false"
  | .number n => toString n
  | .text s => quoted s

/-- The items of a list, each on its line. -/
def layOutItems (level : Nat) : List Json → String
  | [] => ""
  | [v] => newline level ++ layOut level v
  | v :: rest => newline level ++ layOut level v ++ "," ++ layOutItems level rest

/-- The fields of an object, each on its line. -/
def layOutFields (level : Nat) : List (String × Json) → String
  | [] => ""
  | [(k, v)] => newline level ++ quoted k ++ ": " ++ layOut level v
  | (k, v) :: rest =>
    newline level ++ quoted k ++ ": " ++ layOut level v ++ "," ++ layOutFields level rest

end

/-- A value with every item on a line of its own. -/
def pretty (v : Json) : String :=
  layOut 0 v

end Json

end QuorumChain
