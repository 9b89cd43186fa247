import QuorumChain.Chain.ExtraData

/-!
# Execution

Consensus does not run transactions.  It asks an execution engine for a candidate block on top of a
parent, fills in the header fields of its own, and asks the engine to check what others propose.
The engine defined here makes empty blocks, one millisecond after each other.
-/

namespace QuorumChain

/-- What an execution engine complains about. -/
inductive ExecutionError where
  /-- No block could be built. -/
  | buildFailed (reason : String)
  /-- A block is not a valid successor of its parent. -/
  | invalidBlock (reason : String)
deriving DecidableEq, Repr

/-- The wording of the complaint. -/
def ExecutionError.message : ExecutionError → String
  | .buildFailed reason => "Block building failed: " ++ reason
  | .invalidBlock reason => "Invalid block: " ++ reason

/-- An execution engine. -/
structure Execution where
  /-- A candidate block on top of a parent. -/
  build : Header → Except ExecutionError Block
  /-- Whether a block is a valid successor of a parent. -/
  check : Header → Block → Except ExecutionError Unit

namespace Execution

/-- The wording of an engine's complaint that a body has no digest. -/
def unhashable (cause : WireError) : String :=
  "Encoding error: " ++ cause.message

/-- The empty block one millisecond after its parent, in the same state. -/
def emptyBlock (H : HashFunction) (parent : Header) : Except ExecutionError Block := do
  let bodyRoot ← (Body.empty.root H).mapError fun e => .buildFailed (unhashable e)
  return {
    header := { Header.blank with
      number := parent.number + 1
      timestamp := parent.timestamp + 1
      stateRoot := parent.stateRoot
      bodyRoot }
    body := .empty }

/-- A block must commit to its transactions and leave the state as it is. -/
def checkUnchanged (H : HashFunction) (parent : Header) (b : Block) :
    Except ExecutionError Unit := do
  let root ← (b.body.root H).mapError fun e => .invalidBlock (unhashable e)
  if root ≠ b.header.bodyRoot then throw (.invalidBlock "transactions root mismatch")
  if b.header.stateRoot ≠ parent.stateRoot then throw (.invalidBlock "unexpected state root")

/-- The engine that makes empty blocks. -/
def emptyBlocks (H : HashFunction) : Execution :=
  ⟨emptyBlock H, checkUnchanged H⟩

end Execution

end QuorumChain
