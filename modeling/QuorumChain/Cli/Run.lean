import QuorumChain.Cli.Invocation
import QuorumChain.Devnet.Run
import QuorumChain.Keys.Keystore

/-!
# Running commands

A command is given what it has to know of the world, the file it reads, the environment and a fresh
secret, and tells what is to be written.
-/

namespace QuorumChain

/-- What a command that has succeeded leaves behind. -/
structure Outcome where
  /-- The name and the contents of a file to be written first. -/
  file : Option (String × String)
  /-- The lines to be printed. -/
  lines : List String
deriving DecidableEq, Repr

namespace Outcome

/-- A text filled up with blanks on the right. -/
def padded (width : Nat) (text : String) : String :=
  text ++ String.ofList (List.replicate (width - text.length) ' ')

/-- A block above the first in a line. -/
def blockLine (H : HashFunction) (b : Block) (round : UInt32) : Except ExtraDataError String := do
  let digest ← b.header.digest H
  return "#" ++ padded 6 (toString b.header.number) ++ " round " ++ padded 3 (toString round) ++
    " digest " ++ digest.text

/-- The outcome of a run of a development network: a line for each block above the first. -/
def ofDevnet (H : HashFunction) (r : DevnetReport) : Except ExtraDataError Outcome := do
  let lines ← ((r.chain.drop 1).zip r.rounds).mapM fun (b, round) => blockLine H b round
  return ⟨none, lines⟩

/-- The outcome of the creation of a key. -/
def ofNewKey (path : String) (k : ValidatorKey) : Outcome :=
  ⟨some (path, (Keystore.ofKey k).write), [k.address.text]⟩

/-- The outcome of a look at a key. -/
def ofKey (k : ValidatorKey) : Outcome :=
  ⟨none, ["address:    " ++ k.address.text, "public key: " ++ k.pair.publicKey.octets.hex]⟩

end Outcome

namespace Invocation

/-- The file that a command reads. -/
def input? (i : Invocation) : Option String :=
  match i.command with
  | .devnet .. => i.config
  | .keygen .. => none
  | .inspect path => some path

/-- The configuration of a development network.  The contents of its file are `none` if it cannot
be read; they have to be in UTF-8. -/
def configuration (i : Invocation) (contents : Option Octets)
    (environment : String → Option String) : Except ConfigError Config :=
  match i.config with
  | none => Config.load none environment
  | some _ =>
    match contents.bind fun bytes => String.fromUTF8? (ByteArray.mk bytes.toArray) with
    | some text => Config.load (some text) environment
    | none => .error .unreadable

/-- Run a command.  A failure is told by its message. -/
def run (i : Invocation) (contents : Option Octets) (environment : String → Option String)
    (secret : Ed25519.Seed) : Except String Outcome := do
  match i.command with
  | .devnet validators blocks roundTimeoutMs silent =>
    let c ← (i.configuration contents environment).mapError ConfigError.message
    let c := { c with
      consensus.roundTimeoutMs := roundTimeoutMs.getD c.consensus.roundTimeoutMs
      devnet.validators := validators.getD c.devnet.validators
      devnet.blocks := blocks.getD c.devnet.blocks
      devnet.silent := if silent.isEmpty then c.devnet.silent else silent }
    let r ← (Devnet.run c).mapError DevnetError.message
    (Outcome.ofDevnet Blake3.hash r).mapError ExtraDataError.message
  | .keygen output devIndex =>
    return .ofNewKey output ((devIndex.map ValidatorKey.dev).getD (.ofSeed secret))
  | .inspect _ => return .ofKey (← (Keystore.load contents).mapError KeystoreError.message)

end Invocation

end QuorumChain
