import QuorumChain.Text.Visible

/-!
# Quoted characters and texts

Messages quote what they complain about.  A character stands in single quotes and a text in double
quotes; the quote in use, the backslash and every character without a visible form are escaped.
-/

namespace QuorumChain.Text

/-- The digits of a number in base sixteen, without leading zeros. -/
def hexDigits (v : Nat) : String :=
  String.ofList (Nat.toDigits 16 v)

/-- One character inside quotes of the given kind. -/
def escaped (quote c : Char) : String :=
  if c = '\x00' then "\\0"
  else if c = '\t' then "\\t"
  else if c = '\r' then "\\r"
  else if c = '\n' then "\\n"
  else if c = '\\' || c = quote then String.ofList ['\\', c]
  else if isVisible c then c.toString
  else "\\u\x7b" ++ hexDigits c.toNat ++ "\x7d"

/-- A character in single quotes. -/
def quotedChar (c : Char) : String :=
  "'" ++ escaped '\'' c ++ "'"

/-- A text in double quotes. -/
def quoted (text : String) : String :=
  "\"" ++ String.join (text.toList.map (escaped '"')) ++ "\""

end QuorumChain.Text
