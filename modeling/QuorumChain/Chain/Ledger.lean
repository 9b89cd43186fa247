import QuorumChain.Chain.ExtraData

/-!
# The chain of blocks in memory

A ledger starts with a first block, which may have any number, and takes only blocks that extend
its head: the next number, and the head's digest as parent.
-/

namespace QuorumChain

/-- A chain of blocks. -/
structure Ledger where
  /-- The first block. -/
  genesis : Block
  /-- The blocks above it, in order. -/
  above : List Block
deriving DecidableEq

/-- Why a block is not taken into a ledger. -/
inductive ImportDefect where
  /-- The block does not have the number behind the head's. -/
  | gap (number head : UInt64)
  /-- The head has no digest. -/
  | unreadableHead (cause : ExtraDataError)
  /-- The block names another parent than the head. -/
  | otherParent (parent head : Digest)
  /-- Blocks above a limit are not taken. -/
  | limit
deriving DecidableEq

/-- The wording of the complaint. -/
def ImportDefect.message : ImportDefect → String
  | .gap number head =>
    "block #" ++ toString number ++ " does not extend head #" ++ toString head
  | .unreadableHead cause => cause.message
  | .otherParent parent head =>
    "parent hash " ++ parent.text ++ " does not match head " ++ head.text
  | .limit => "limit"

namespace Ledger

/-- The chain with nothing but a first block. -/
def new (genesis : Block) : Ledger :=
  ⟨genesis, []⟩

/-- All blocks, first one first. -/
def blocks (l : Ledger) : List Block :=
  l.genesis :: l.above

/-- The last block. -/
def head (l : Ledger) : Block :=
  l.above.getLast?.getD l.genesis

/-- The number of the last block. -/
def height (l : Ledger) : UInt64 :=
  l.head.header.number

/-- The block with a number.  The first block stands apart from those above it. -/
def block? (l : Ledger) (number : UInt64) : Option Block :=
  if number < l.genesis.header.number then none
  else if number = l.genesis.header.number then some l.genesis
  else l.above[number.toNat - l.genesis.header.number.toNat - 1]?

/-- Whether a block extends the head. -/
def checkLink (H : HashFunction) (head b : Block) : Except ImportDefect Unit := do
  if b.header.number ≠ head.header.number + 1 then
    throw (.gap b.header.number head.header.number)
  let digest ← (head.header.digest H).mapError .unreadableHead
  if b.header.parent ≠ digest then throw (.otherParent b.header.parent digest)

/-- The chain with a block appended. -/
def append (H : HashFunction) (l : Ledger) (b : Block) : Except ImportDefect Ledger := do
  checkLink H l.head b
  return { l with above := l.above ++ [b] }

end Ledger

end QuorumChain
