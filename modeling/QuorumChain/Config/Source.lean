import QuorumChain.Config.Basic
import QuorumChain.Text.Blank
import QuorumChain.Text.Decimal
import QuorumChain.Text.Quoted
import QuorumChain.Toml.Document

/-!
# Where a configuration comes from

A configuration is read from a TOML document with a section for consensus and one for development
networks; names that mean nothing are ignored.  Environment variables then replace single values.
-/

namespace QuorumChain

/-- The wording of the complaint. -/
def ConfigError.message : ConfigError → String
  | .unreadable => "Failed to read config file"
  | .malformed => "Failed to parse config file"
  | .badVariable name value => "Invalid value " ++ Text.quoted value ++ " for " ++ name
  | .noTimeout => "Invalid configuration: round_timeout_base_ms must be positive"
  | .noMailbox => "Invalid configuration: mailbox_capacity must be positive"
  | .noValidators => "Invalid configuration: devnet needs at least one validator"
  | .unknownSilent index validators =>
    "Invalid configuration: silent validator " ++ toString index ++ " out of range 0.." ++
      toString validators

namespace Config

/-- A value in a section of type `σ`: its name, and how it is taken over. -/
structure Field (σ : Type) where
  name : String
  take : Toml → σ → Option σ

/-- A natural number below a bound. -/
def natural? (bound : Nat) : Toml → Option Nat
  | .integer n => if 0 ≤ n ∧ n < bound then some n.toNat else none
  | _ => none

/-- A field that holds a natural number below a bound. -/
def Field.natural {σ : Type} (name : String) (bound : Nat) (put : Nat → σ → σ) : Field σ :=
  ⟨name, fun v s => (natural? bound v).map (put · s)⟩

/-- A list of natural numbers below a bound. -/
def naturals? (bound : Nat) : Toml → Option (List Nat)
  | .array items => items.mapM (natural? bound)
  | _ => none

/-- The section with the values of a table.  An array gives the values in the order of the fields,
and a date gives none at all. -/
def readSection {σ : Type} (fields : List (Field σ)) (start : σ) : Toml → Option σ
  | .table _ entries | .inline entries =>
    entries.foldlM (fun s (name, v) =>
      match fields.find? (·.name = name) with
      | some field => field.take v s
      | none => some s) start
  | .array items => (fields.zip items).foldlM (fun s (field, v) => field.take v s) start
  | .moment _ => some start
  | _ => none

/-- Words of 64 bits are below this bound. -/
def bound64 : Nat :=
  18446744073709551616

/-- Words of 32 bits are below this bound. -/
def bound32 : Nat :=
  4294967296

/-- The fields of the section for consensus. -/
def consensusFields : List (Field Settings) :=
  [.natural "round_timeout_base_ms" bound64 fun n s => { s with roundTimeoutMs := n },
    .natural "mailbox_capacity" bound64 fun n s => { s with mailboxCapacity := n },
    .natural "future_message_limit" bound64 fun n s => { s with futureMessageLimit := n },
    .natural "future_height_window" bound64 fun n s => { s with futureHeightWindow := n },
    .natural "validator_cache_size" bound64 fun n s => { s with committeeCacheSize := n }]

/-- The fields of the section for development networks. -/
def devnetFields : List (Field DevnetSettings) :=
  [.natural "validators" bound32 fun n s => { s with validators := n },
    .natural "blocks" bound64 fun n s => { s with blocks := n },
    ⟨"silent", fun v s => (naturals? bound32 v).map fun l => { s with silent := l }⟩,
    .natural "timeout_secs" bound64 fun n s => { s with timeoutSecs := n }]

/-- The sections of a document. -/
def sections : List (Field Config) :=
  [⟨"consensus", fun v c =>
      (readSection consensusFields .standard v).map fun s => { c with consensus := s }⟩,
    ⟨"devnet", fun v c =>
      (readSection devnetFields .standard v).map fun s => { c with devnet := s }⟩]

/-- Read a document. -/
def ofText (text : String) : Except ConfigError Config :=
  match (Toml.ofText? text).bind fun entries =>
      readSection sections standard (.table .header entries) with
  | some c => .ok c
  | none => .error .malformed

/-- An environment variable that replaces a value. -/
structure Variable where
  name : String
  bound : Nat
  put : Nat → Config → Config

/-- The environment variables, in the order in which they are looked at. -/
def knownVariables : List Variable :=
  [⟨"ISTANBUL_ROUND_TIMEOUT_MS", bound64, fun n c => { c with consensus.roundTimeoutMs := n }⟩,
    ⟨"ISTANBUL_MAILBOX_CAPACITY", bound64, fun n c => { c with consensus.mailboxCapacity := n }⟩,
    ⟨"ISTANBUL_FUTURE_MESSAGE_LIMIT", bound64,
      fun n c => { c with consensus.futureMessageLimit := n }⟩,
    ⟨"ISTANBUL_FUTURE_HEIGHT_WINDOW", bound64,
      fun n c => { c with consensus.futureHeightWindow := n }⟩,
    ⟨"ISTANBUL_VALIDATOR_CACHE_SIZE", bound64,
      fun n c => { c with consensus.committeeCacheSize := n }⟩,
    ⟨"ISTANBUL_DEVNET_VALIDATORS", bound32, fun n c => { c with devnet.validators := n }⟩,
    ⟨"ISTANBUL_DEVNET_BLOCKS", bound64, fun n c => { c with devnet.blocks := n }⟩,
    ⟨"ISTANBUL_DEVNET_TIMEOUT_SECS", bound64, fun n c => { c with devnet.timeoutSecs := n }⟩]

/-- Replace values by those of variables, up to the first variable that is no number. -/
def replaceBy (environment : String → Option String) :
    List Variable → Config → Config × Option ConfigError
  | [], c => (c, none)
  | v :: rest, c =>
    match environment v.name with
    | none => replaceBy environment rest c
    | some value =>
      match Text.natural? v.bound (Text.trim value) with
      | some n => replaceBy environment rest (v.put n c)
      | none => (c, some (.badVariable v.name value))

/-- Replace values by those of the environment; what stands before a variable that is no number is
replaced all the same. -/
def override (c : Config) (environment : String → Option String) : Config × Option ConfigError :=
  replaceBy environment knownVariables c

/-- The configuration of a document, if there is one, and an environment. -/
def load (text : Option String) (environment : String → Option String) :
    Except ConfigError Config := do
  let c ← match text with
    | some text => ofText text
    | none => .ok standard
  match c.override environment with
  | (c, none) => .ok c
  | (_, some e) => .error e

end Config

end QuorumChain
