import QuorumChain.Chain.Execution
import QuorumChain.Chain.Rules

/-!
# What stops a node

A message that breaks the rules is dropped.  Other failures are not survivable: a canonical chain
that breaks the rules, a signer whose signatures do not verify, or values that cannot be written.
-/

namespace QuorumChain

/-- What is wrong with a header of the canonical chain. -/
inductive ChainDefect where
  /-- The extra-data cannot be read. -/
  | extraData (cause : ExtraDataError)
  /-- The vote cannot be read. -/
  | vote (cause : VoteError)
  /-- The header breaks the rules for committed headers. -/
  | uncommitted (cause : HeaderError)
  /-- There is no header at all. -/
  | emptyChain
  /-- The first header is not that of a first block. -/
  | noGenesis
  /-- The header follows one that does not have the number below. -/
  | gap (below : UInt64)
  /-- The header does not name the one before as its parent. -/
  | unlinked
  /-- The block store does not have the header. -/
  | missing
deriving DecidableEq

/-- The wording of the complaint. -/
def ChainDefect.message : ChainDefect → String
  | .extraData cause => cause.message
  | .vote cause => cause.message
  | .uncommitted cause => cause.message
  | .emptyChain => "empty chain"
  | .noGenesis => "chain does not start at genesis"
  | .gap below => "follows #" ++ toString below
  | .unlinked => "parent hash does not link"
  | .missing => "missing from block store"

/-- A failure that stops a node. -/
inductive Fault where
  /-- A committee has to have a member. -/
  | emptyCommittee
  /-- A header of the canonical chain is wrong. -/
  | badChain (number : UInt64) (defect : ChainDefect)
  /-- Peers cannot verify what the local signer signs. -/
  | unusableSigner (a : Address)
  /-- A value cannot be written. -/
  | unwritable (cause : WireError)
  /-- Extra-data cannot be read or written. -/
  | extraData (cause : ExtraDataError)
  /-- A vote cannot be read. -/
  | vote (cause : VoteError)
  /-- The execution engine failed. -/
  | execution (cause : ExecutionError)
  /-- Nobody takes messages out of the mailbox any more. -/
  | mailboxClosed
deriving DecidableEq

/-- The wording of the complaint. -/
def Fault.message : Fault → String
  | .emptyCommittee => "Validator set cannot be empty"
  | .badChain number defect =>
    "Invalid canonical header #" ++ toString number ++ ": " ++ defect.message
  | .unusableSigner a => "Local signer " ++ a.text ++ " produced an unverifiable signature"
  | .unwritable cause => "Encoding error: Encoding error: " ++ cause.message
  | .extraData cause => "Extra data error: " ++ cause.message
  | .vote cause => "Header vote error: " ++ cause.message
  | .execution cause => "Execution error: " ++ cause.message
  | .mailboxClosed => "Engine mailbox closed"

end QuorumChain
