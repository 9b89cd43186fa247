import QuorumChain.Chain.Execution

/-!
# Execution engines for simulations

Variations of the engine that makes empty blocks: one fails to build, one refuses everything, and
others build blocks with an old time, with wrong header fields or with transactions.  Consensus
overwrites the header fields that are its own, so what they write there must not matter.
-/

namespace QuorumChain.Execution

/-- The engine that builds nothing. -/
def failing (H : HashFunction) : Execution :=
  { emptyBlocks H with build := fun _ => .error (.buildFailed "no state") }

/-- The engine that refuses every block. -/
def refusing (H : HashFunction) : Execution :=
  { emptyBlocks H with check := fun _ _ => .error (.invalidBlock "bad state") }

/-- The engine that changes the blocks it builds. -/
def adjusting (H : HashFunction) (change : Header → Block → Block) : Execution :=
  { emptyBlocks H with build := fun parent => (emptyBlock H parent).map (change parent) }

/-- The engine whose clock stands still at zero. -/
def timeless (H : HashFunction) : Execution :=
  adjusting H fun _ b => { b with header := { b.header with timestamp := 0 } }

/-- The engine that writes nonsense into the fields of consensus. -/
def careless (H : HashFunction) : Execution :=
  adjusting H fun _ b => { b with header := { b.header with
    number := 77
    nonce := 5
    coinbase := Fixed.replicate 20 7
    parent := H (Octets.ofText "junk")
    extra := [1, 2, 3] } }

/-- The engine whose blocks hold two transactions: the number of the parent in eight octets, and an
empty one. -/
def busy (H : HashFunction) : Execution :=
  { emptyBlocks H with build := fun parent => do
      let b ← emptyBlock H parent
      let body : Body := ⟨[Octets.ofNatLE 8 parent.number.toNat, []]⟩
      let bodyRoot ← (body.root H).mapError fun e => .buildFailed (unhashable e)
      return ⟨{ b.header with bodyRoot }, body⟩ }

end QuorumChain.Execution
