/-!
# TOML values

A document in TOML is a table of named values.  How a table came about decides whether later parts
of the document may still add to it.
-/

namespace QuorumChain

/-- How a table came about. -/
inductive Toml.Origin where
  /-- By a header of its own. -/
  | header
  /-- By the header of a table inside of it. -/
  | implied
  /-- By a dotted key. -/
  | dotted
deriving DecidableEq, Repr

/-- A value. -/
inductive Toml where
  | integer (n : Int)
  /-- A number with a fraction or an exponent, or one of the words for infinity and no number. -/
  | real (written : String)
  | boolean (b : Bool)
  | text (s : String)
  /-- A date, a time of day or both. -/
  | moment (written : String)
  | array (items : List Toml)
  /-- A table in braces; it is complete. -/
  | inline (entries : List (String × Toml))
  | table (origin : Toml.Origin) (entries : List (String × Toml))
  /-- Tables that share a name, each begun by a header in double brackets. -/
  | tables (rows : List (List (String × Toml)))

namespace Toml

/-- The entries of a table. -/
abbrev Entries := List (String × Toml)

/-- A table's entries with the value of a name changed. -/
def Entries.replace (entries : Entries) (name : String) (v : Toml) : Entries :=
  entries.map fun e => if e.1 = name then (name, v) else e

/-- Change the table to which a path leads.  Tables on the way are made where there are none; an
array of tables leads into its last one.  A path of dotted keys must not lead into a table that a
header began. -/
def Entries.update (dotted : Bool) (f : Origin → Entries → Option Entries) :
    List String → Origin → Entries → Option Entries
  | [], origin, entries => f origin entries
  | name :: path, _, entries =>
    match entries.lookup name with
    | none => do
      let origin := if dotted then Origin.dotted else .implied
      let inner ← update dotted f path origin []
      return entries ++ [(name, .table origin inner)]
    | some (.table origin inner) =>
      if dotted && origin = .header then none
      else do
        let inner ← update dotted f path origin inner
        return entries.replace name (.table origin inner)
    | some (.tables rows) => do
      let row ← rows.getLast?
      let inner ← update dotted f path .header row
      return entries.replace name (.tables (rows.dropLast ++ [inner]))
    | some _ => none

/-- A table with a value under a dotted key.  The last name must be free, and its table must be one
that dotted keys have made, unless the key has no dots. -/
def Entries.insert (entries : Entries) (key : List String) (v : Toml) : Option Entries := do
  let name ← key.getLast?
  let path := key.dropLast
  let put (origin : Origin) (inner : Entries) : Option Entries :=
    if path.isEmpty == decide (origin = .dotted) || (inner.lookup name).isSome then none
    else some (inner ++ [(name, v)])
  entries.update true put path .header

/-- A table with all listed values. -/
def Entries.insertAll (entries : Entries) (pairs : List (List String × Toml)) : Option Entries :=
  pairs.foldlM (fun entries (key, v) => entries.insert key v) entries

/-- What the values behind a header belong to. -/
inductive Place where
  /-- The whole document; there is no header before them. -/
  | document
  /-- The table with a name. -/
  | table (path : List String)
  /-- A further table in the array with a name. -/
  | row (path : List String)

/-- Put the values behind a header where they belong.  A table has one header only. -/
def Entries.settle (document : Entries) (place : Place) (pairs : List (List String × Toml)) :
    Option Entries :=
  match place with
  | .document => document.insertAll pairs
  | .table path => do
    let name ← path.getLast?
    let put (_ : Origin) (parent : Entries) : Option Entries :=
      match parent.lookup name with
      | none => do
        let entries ← Entries.insertAll [] pairs
        return parent ++ [(name, .table .header entries)]
      | some (.table .implied entries) => do
        let entries ← Entries.insertAll entries pairs
        return parent.replace name (.table .header entries)
      | some _ => none
    document.update false put path.dropLast .header
  | .row path => do
    let name ← path.getLast?
    let row ← Entries.insertAll [] pairs
    let put (_ : Origin) (parent : Entries) : Option Entries :=
      match parent.lookup name with
      | none => some (parent ++ [(name, .tables [row])])
      | some (.tables rows) => some (parent.replace name (.tables (rows ++ [row])))
      | some _ => none
    document.update false put path.dropLast .header

end Toml

end QuorumChain
