import QuorumChain.Chain.ExtraData
import QuorumChain.Config.Source
import QuorumChain.Node.Engine

/-!
# Agreement of chains

The validators of a development network must end up with the same blocks.  It is enough to compare
every chain with one of the longest.
-/

namespace QuorumChain

/-- Why a development network gives no chain. -/
inductive DevnetError where
  /-- The configuration allows no network. -/
  | config (cause : ConfigError)
  /-- There is no first block. -/
  | genesis (cause : ExtraDataError)
  /-- An engine has failed. -/
  | engine (validator : Address) (cause : Fault)
  /-- The validators did not import enough blocks in time. -/
  | timeout (target seconds : Nat) (heights : List UInt64)
  /-- There are no chains to be compared. -/
  | noChains
  /-- A block has no digest. -/
  | unreadable (cause : ExtraDataError)
  /-- A validator has another block than the longest chain. -/
  | diverged (validator : Nat) (height : UInt64)
deriving DecidableEq

/-- The wording of the complaint. -/
def DevnetError.message : DevnetError → String
  | .config cause => cause.message
  | .genesis _ => "failed to build genesis"
  | .engine validator _ => "engine " ++ validator.text ++ " failed"
  | .timeout target seconds heights =>
    "devnet did not reach height " ++ toString target ++ " within " ++ toString seconds ++
      "s (heights: [" ++ ", ".intercalate (heights.map toString) ++ "])"
  | .noChains => "no chains to compare"
  | .unreadable cause => cause.message
  | .diverged validator height =>
    "validator " ++ toString validator ++ " diverged at height " ++ toString height

namespace Chain

/-- The last of the longest lists. -/
def longest? {α : Type} (chains : List (List α)) : Option (List α) :=
  chains.foldl (fun best chain =>
    match best with
    | none => some chain
    | some best => some (if best.length ≤ chain.length then chain else best)) none

/-- Whether a validator's chain has the same blocks as another one as far as both go. -/
def checkAgainst (H : HashFunction) (other : List Block) (validator : Nat) (chain : List Block) :
    Except DevnetError Unit :=
  (chain.zip other).forM fun (ours, theirs) => do
    let a ← (ours.header.digest H).mapError .unreadable
    let b ← (theirs.header.digest H).mapError .unreadable
    if a ≠ b then throw (.diverged validator ours.header.number)

/-- The longest of chains that agree with each other. -/
def agreed (H : HashFunction) (chains : List (List Block)) : Except DevnetError (List Block) := do
  match longest? chains with
  | none => throw .noChains
  | some longest =>
    chains.zipIdx.forM fun (chain, validator) => checkAgainst H longest validator chain
    return longest

end Chain

end QuorumChain
