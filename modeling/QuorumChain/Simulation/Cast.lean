import QuorumChain.Keys.Basic
import QuorumChain.Simulation.Execution
import QuorumChain.Simulation.OpenScheme

/-!
# Who takes part in a simulation

The participants of a simulation are development validators or holders of addresses that sign
without secrets.  Not everybody's signatures have to be known to the others.
-/

namespace QuorumChain

/-- The participants of a simulation, by place. -/
structure Cast where
  /-- The hash function and the check of signatures. -/
  scheme : Scheme
  /-- The participants. -/
  signers : List Signer

namespace Cast

/-- The addresses of all participants. -/
def addresses (c : Cast) : List Address :=
  c.signers.map (·.address)

/-- The entries of a list at the given places. -/
def pick {α : Type} (items : List α) (places : List Nat) : List α :=
  places.filterMap fun i => items[i]?

/-- Development validators with the given numbers; `known` are the places of those whose signatures
verify. -/
def dev (numbers known : List Nat) : Cast :=
  let keys := numbers.map ValidatorKey.dev
  let registry := KeyRegistry.ofList ((pick keys known).map (·.pair.publicKey))
  ⟨registry.scheme, keys.map (·.signer)⟩

/-- Holders of the addresses that repeat the given octets, who sign without secrets. -/
def withoutSecrets (numbers known : List Nat) : Cast :=
  let all := numbers.map fun n => Fixed.replicate 20 (UInt8.ofNat n)
  ⟨OpenScheme.scheme Blake3.hash (pick all known), all.map (OpenScheme.signer Blake3.hash)⟩

end Cast

/-- The execution engine with a name. -/
def Execution.named? (H : HashFunction) : String → Option Execution
  | "empty" => some (emptyBlocks H)
  | "fail" => some (failing H)
  | "reject" => some (refusing H)
  | "past" => some (timeless H)
  | "junk" => some (careless H)
  | "txs" => some (busy H)
  | _ => none

end QuorumChain
