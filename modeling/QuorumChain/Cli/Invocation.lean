import QuorumChain.Config.Source

/-!
# The command line

A command line names a command and gives its options.  An option has a long name, and some have a
short one; its value follows it as the next argument or is attached to it.  Arguments behind `--`
are no options.  The option for the configuration file may stand before the command or behind it.
The first mistake decides, unless help was asked for before it.
-/

namespace QuorumChain

/-- Why a command line names nothing to be done. -/
inductive UsageError where
  /-- Help or the version is asked for. -/
  | help
  /-- The command line cannot be understood. -/
  | malformed
deriving DecidableEq, Repr

/-- What the operator asks for. -/
inductive Command where
  /-- Run a development network; options replace values of the configuration. -/
  | devnet (validators blocks roundTimeoutMs : Option Nat) (silent : List Nat)
  /-- Write a keystore with a development key or a fresh one. -/
  | keygen (output : String) (devIndex : Option Nat)
  /-- Show the address and the public key of a keystore. -/
  | inspect (path : String)
deriving DecidableEq, Repr

/-- A command and the file that holds the configuration, if one is named. -/
structure Invocation where
  config : Option String
  command : Command
deriving DecidableEq, Repr

namespace Cli

/-- An option. -/
structure Flag where
  long : String
  short : Option Char
  /-- Whether a text can be its value. -/
  takes : String → Bool
  /-- Whether it can be given again. -/
  repeats : Bool

/-- What may stand on one level of a command line: before the command, or behind it. -/
structure Level where
  flags : List Flag
  /-- The number of arguments that belong to no option. -/
  free : Nat
  /-- Whether a command ends the level. -/
  isTop : Bool

/-- An argument that has been understood. -/
inductive Item where
  /-- An option, by its long name, and its value. -/
  | option (long value : String)
  /-- An argument that belongs to no option. -/
  | free (value : String)
deriving DecidableEq

/-- The values of an option, in order. -/
def values (items : List Item) (long : String) : List String :=
  items.filterMap fun
    | .option name value => if name = long then some value else none
    | .free _ => none

/-- The arguments that belong to no option, in order. -/
def freeValues (items : List Item) : List String :=
  items.filterMap fun
    | .option .. => none
    | .free value => some value

/-- Whether an argument looks like an option; a lone hyphen does not. -/
def isFlag (argument : String) : Bool :=
  argument.startsWith "-" && argument != "-"

/-- The name of a file is not empty. -/
def path? (text : String) : Option String :=
  if text.isEmpty then none else some text

/-- What stands before the first equals sign, and what stands behind it if there is one. -/
def splitEquals (text : List Char) : String × Option String :=
  (String.ofList (text.takeWhile (· ≠ '=')),
    match text.dropWhile (· ≠ '=') with
    | _ :: value => some (String.ofList value)
    | [] => none)

/-- The option that an argument names, and the value attached to it. -/
def findFlag (level : Level) (argument : String) : Except UsageError (Flag × Option String) :=
  let found (asksHelp : Bool) (flag? : Option Flag) (value : Option String) :
      Except UsageError (Flag × Option String) :=
    match flag? with
    | some flag => .ok (flag, value)
    | none => .error (if asksHelp then .help else .malformed)
  match argument.toList with
  | '-' :: '-' :: text =>
    let (long, value) := splitEquals text
    let asksHelp := value.isNone && (long = "help" || level.isTop && long = "version")
    found asksHelp (level.flags.find? (·.long = long)) value
  | _ :: short :: text =>
    let value := match text with
      | [] => none
      | '=' :: value => some (String.ofList value)
      | value => some (String.ofList value)
    let asksHelp := short == 'h' || level.isTop && short == 'V'
    found asksHelp (level.flags.find? (·.short = some short)) value
  | _ => .error .malformed

/-- The value of an option: attached to it, or the next argument. -/
def takeValue (attached : Option String) (rest : List String) :
    Except UsageError (String × List String) :=
  match attached, rest with
  | some value, rest => .ok (value, rest)
  | none, value :: rest => if isFlag value then .error .malformed else .ok (value, rest)
  | none, [] => .error .malformed

/-- Take an option and its value. -/
def takeOption (level : Level) (done : List Item) (argument : String) (rest : List String) :
    Except UsageError (Item × List String) := do
  let (flag, attached) ← findFlag level argument
  let (value, rest) ← takeValue attached rest
  if !flag.takes value || !flag.repeats && !(values done flag.long).isEmpty then throw .malformed
  return (.option flag.long value, rest)

/-- The items of a level behind those that are done.  Once `--` has been seen, no argument is an
option.  Where a command ends the level, it and the arguments behind it come along.  `fuel` bounds
the number of arguments. -/
def items (level : Level) (escaped : Bool) (done : List Item) :
    Nat → List String → Except UsageError (List Item × List String)
  | 0, _ => .error .malformed
  | _, [] => .ok (done, [])
  | fuel + 1, argument :: rest => do
    if !escaped && argument = "--" then items level true done fuel rest
    else if !escaped && isFlag argument then
      let (item, rest) ← takeOption level done argument rest
      items level escaped (done ++ [item]) fuel rest
    else if !escaped && level.isTop then return (done, argument :: rest)
    else if (freeValues done).length < level.free && (path? argument).isSome then
      items level escaped (done ++ [.free argument]) fuel rest
    else throw .malformed

/-- Numbers with commas between them. -/
def numbers? (text : String) : Option (List Nat) :=
  (text.splitOn ",").mapM (Text.integer? Config.bound32)

/-- A word of 32 bits. -/
def word32? : String → Option Nat :=
  Text.integer? Config.bound32

/-- A word of 64 bits. -/
def word64? : String → Option Nat :=
  Text.natural? Config.bound64

/-- The option that may stand on every level. -/
def configFlag : Flag :=
  ⟨"config", some 'c', fun t => (path? t).isSome, false⟩

/-- What may stand before the command. -/
def topLevel : Level :=
  ⟨[configFlag], 0, true⟩

/-- What may stand behind the command with a name. -/
def levelOf? : String → Option Level
  | "devnet" => some ⟨[configFlag,
      ⟨"validators", some 'v', fun t => (word32? t).isSome, false⟩,
      ⟨"blocks", some 'b', fun t => (word64? t).isSome, false⟩,
      ⟨"silent", none, fun t => (numbers? t).isSome, true⟩,
      ⟨"round-timeout-ms", none, fun t => (word64? t).isSome, false⟩], 0, false⟩
  | "keygen" => some ⟨[configFlag,
      ⟨"output", some 'o', fun t => (path? t).isSome, false⟩,
      ⟨"dev-index", none, fun t => (word32? t).isSome, false⟩], 0, false⟩
  | "inspect" => some ⟨[configFlag], 1, false⟩
  | _ => none

/-- The value of an option that is given once at most, read by a function. -/
def value? {α : Type} (items : List Item) (long : String) (read : String → Option α) : Option α :=
  (values items long).head?.bind read

/-- The command with a name, given its items. -/
def command? (name : String) (items : List Item) : Option Command :=
  match name with
  | "devnet" => some (.devnet (value? items "validators" word32?) (value? items "blocks" word64?)
      (value? items "round-timeout-ms" word64?)
        ((values items "silent").filterMap numbers?).flatten)
  | "keygen" => (value? items "output" path?).map fun output =>
      .keygen output (value? items "dev-index" word32?)
  | "inspect" => (freeValues items).head?.map .inspect
  | _ => none

end Cli

namespace Invocation

/-- What the command `help` asks for, given the arguments behind it. -/
def help : List String → UsageError
  | [] => .help
  | [name] => if (Cli.levelOf? name).isSome || name = "help" then .help else .malformed
  | _ => .malformed

/-- What the arguments of a command line ask for.  A configuration that is named behind the command
wins over one that is named before it. -/
def parse (arguments : List String) : Except UsageError Invocation := do
  let fuel := arguments.length + 1
  let (outer, rest) ← Cli.items Cli.topLevel false [] fuel arguments
  match rest with
  | [] => throw .malformed
  | name :: rest =>
    if name = "help" then throw (help rest)
    match Cli.levelOf? name with
    | none => throw .malformed
    | some level =>
      let (inner, _) ← Cli.items level false [] fuel rest
      let config (items : List Cli.Item) := Cli.value? items "config" Cli.path?
      match Cli.command? name inner with
      | some command => return ⟨config inner <|> config outer, command⟩
      | none => throw .malformed

end Invocation

end QuorumChain
