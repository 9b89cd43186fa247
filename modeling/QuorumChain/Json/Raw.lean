import QuorumChain.Json.Token

/-!
# JSON values as they are written

A machine puts the tokens of a JSON text together to a value.  Numbers and quoted texts in it are
left as they are written.  The lists and objects that are still open lie on a stack, so values may
be nested to any depth.
-/

namespace QuorumChain.Json

/-- A value as it is written. -/
inductive Raw where
  /-- A number or a word. -/
  | scalar (written : Octets)
  /-- A quoted text without the quotes. -/
  | text (written : Octets)
  | list (items : List Raw)
  | object (members : List (Octets × Raw))

/-- A list or an object that is still open; what it holds stands latest first. -/
inductive Raw.Frame where
  | list (items : List Raw)
  /-- An object before the name of a member. -/
  | object (members : List (Octets × Raw))
  /-- An object before the value of the named member. -/
  | member (members : List (Octets × Raw)) (name : Octets)

/-- What is expected next. -/
inductive Raw.Machine where
  /-- A value; `first` tells whether the innermost list may still be empty. -/
  | value (first : Bool) (open_ : List Raw.Frame)
  /-- The name of a member; `first` tells whether the object may still be empty. -/
  | name (first : Bool) (members : List (Octets × Raw)) (outer : List Raw.Frame)
  /-- The colon behind a name. -/
  | colon (open_ : List Raw.Frame)
  /-- A comma or the end of the innermost frame. -/
  | next (frame : Raw.Frame) (outer : List Raw.Frame)
  /-- Nothing. -/
  | done (v : Raw)

namespace Raw

/-- Put a finished value where it belongs. -/
def place (v : Raw) : List Frame → Machine
  | [] => .done v
  | .list items :: outer => .next (.list (v :: items)) outer
  | .object members :: outer => .next (.object members) outer
  | .member members name :: outer => .next (.object ((name, v) :: members)) outer

/-- Read a token. -/
def step : Machine → Token → Option Machine
  | .value _ frames, .text written => some (place (.text written) frames)
  | .value _ frames, .scalar written => some (place (.scalar written) frames)
  | .value _ frames, .openList => some (.value true (.list [] :: frames))
  | .value _ frames, .openObject => some (.name true [] frames)
  | .value true (.list [] :: outer), .closeList => some (place (.list []) outer)
  | .name _ members outer, .text written => some (.colon (.member members written :: outer))
  | .name true [] outer, .closeObject => some (place (.object []) outer)
  | .colon frames, .colon => some (.value false frames)
  | .next (.list items) outer, .comma => some (.value false (.list items :: outer))
  | .next (.list items) outer, .closeList => some (place (.list items.reverse) outer)
  | .next (.object members) outer, .comma => some (.name false members outer)
  | .next (.object members) outer, .closeObject => some (place (.object members.reverse) outer)
  | _, _ => none

/-- The value that tokens write. -/
def ofTokens? (tokens : List Token) : Option Raw :=
  match tokens.foldlM step (.value false []) with
  | some (.done v) => some v
  | _ => none

/-- The value that a text writes. -/
def ofOctets? (text : Octets) : Option Raw :=
  (tokens? text).bind ofTokens?

/-- The text that a value is. -/
def text? : Raw → Option String
  | .text written => readText? written
  | _ => none

end Raw

end QuorumChain.Json
