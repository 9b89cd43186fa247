import QuorumChain.Node.Setup

/-!
# Configuration

The configuration holds the settings of consensus and those of a development network.  Settings
that are not given have standard values.
-/

namespace QuorumChain

/-- The settings of a development network. -/
structure DevnetSettings where
  /-- The number of validators. -/
  validators : Nat
  /-- The number of blocks that all of them are to import. -/
  blocks : Nat
  /-- The numbers of validators from whom nobody hears anything. -/
  silent : List Nat
  /-- The number of seconds after which to give up. -/
  timeoutSecs : Nat
deriving DecidableEq, Repr

/-- The settings in force unless others are given. -/
def DevnetSettings.standard : DevnetSettings :=
  ⟨4, 10, [], 120⟩

/-- A configuration. -/
structure Config where
  consensus : Settings
  devnet : DevnetSettings
deriving DecidableEq, Repr

/-- What is wrong with a configuration. -/
inductive ConfigError where
  /-- The file cannot be read. -/
  | unreadable
  /-- The text is no configuration. -/
  | malformed
  /-- An environment variable has a value that is no number of the right size. -/
  | badVariable (name value : String)
  /-- Rounds would have no length. -/
  | noTimeout
  /-- No event could wait. -/
  | noMailbox
  /-- There would be no validators. -/
  | noValidators
  /-- A silent validator does not exist. -/
  | unknownSilent (index validators : Nat)
deriving DecidableEq, Repr

namespace Config

/-- The configuration in force unless another is given. -/
def standard : Config :=
  ⟨.standard, .standard⟩

/-- Refuse a configuration under which no network can run. -/
def check (c : Config) : Except ConfigError Unit := do
  if c.consensus.roundTimeoutMs = 0 then throw .noTimeout
  if c.consensus.mailboxCapacity = 0 then throw .noMailbox
  if c.devnet.validators = 0 then throw .noValidators
  match c.devnet.silent.find? (c.devnet.validators ≤ ·) with
  | some index => throw (.unknownSilent index c.devnet.validators)
  | none => return ()

end Config

end QuorumChain
