import QuorumChain.Chain.Creation
import QuorumChain.Devnet.Agreement
import QuorumChain.Keys.Basic
import QuorumChain.Simulation.Clock

/-!
# Development networks

A development network is a number of engines in one place, whose validators have development keys.
Messages take no time, so time passes only while all engines wait for a timer.  The run ends when
every validator has imported enough blocks, or when the time is up.
-/

namespace QuorumChain

/-- A validator of a development network. -/
structure Devnet.Member where
  setup : Setup
  engine : Engine
  /-- Whether nobody hears its messages. -/
  isSilent : Bool

/-- A development network. -/
abbrev Devnet := List Devnet.Member

/-- What came out of a run. -/
structure DevnetReport where
  validators : List Address
  /-- The height that each validator has reached. -/
  heights : List UInt64
  /-- The chain on which they agree. -/
  chain : List Block

namespace Devnet

/-- The keys of the validators. -/
def keys (c : Config) : List ValidatorKey :=
  (List.range c.devnet.validators).map ValidatorKey.dev

/-- The network of a configuration before it starts; no block above the target is imported. -/
def new (c : Config) (genesis : Block) : Devnet :=
  let keys := keys c
  let scheme := (KeyRegistry.ofList (keys.map (·.pair.publicKey))).scheme
  keys.zipIdx.map fun (key, i) =>
    ⟨⟨c.consensus, scheme, key.signer, .emptyBlocks scheme.hash⟩,
      Engine.new c.consensus (Ledger.new genesis) (some (UInt64.ofNat c.devnet.blocks)),
      c.devnet.silent.contains i⟩

/-- Start every engine behind its first block. -/
def start (d : Devnet) : Devnet :=
  d.map fun m =>
    { m with engine := (m.engine.start m.setup m.engine.ledger.head.header).settle m.setup }

/-- The messages that are to be delivered, with the numbers of their senders. -/
def outbox (d : Devnet) : List (Nat × Message) :=
  d.zipIdx.flatMap fun (m, i) =>
    if m.isSilent then [] else m.engine.journal.sent.map fun message => (i, message)

/-- Deliver messages to everybody but their senders. -/
def deliver (sent : List (Nat × Message)) (d : Devnet) : Devnet :=
  d.zipIdx.map fun (m, i) =>
    let inbox := sent.filter (·.1 ≠ i)
    let e := { m.engine with journal := .empty }
    let e := inbox.foldl (fun e (_, message) => (e.send (.message message)).toOption.getD e) e
    { m with engine := e.settle m.setup }

/-- Deliver messages until there are none, at most `fuel` times. -/
def exchange (fuel : Nat) (d : Devnet) : Devnet :=
  match fuel with
  | 0 => d
  | fuel + 1 =>
    let sent := outbox d
    if sent.isEmpty then d else exchange fuel (deliver sent d)

/-- A number of deliveries after which nothing is left to deliver: while no timer runs out, a
validator sends at most one message of each kind at each height. -/
def patience (target : Nat) (d : Devnet) : Nat :=
  4 * d.length * (target + 2) + 1

/-- The moment at which the next timer runs out. -/
def nextDue? (d : Devnet) : Option Nat :=
  (d.filterMap fun m => m.engine.timer.map (·.2)).min?

/-- Let time pass until the moment at which the next timer runs out. -/
def advance (moment : Nat) (d : Devnet) : Devnet :=
  d.map fun m => { m with engine := { m.engine with now := moment }.ring m.setup }

/-- The heights of the validators' chains. -/
def heights (d : Devnet) : List UInt64 :=
  d.map (·.engine.ledger.height)

/-- Whether every validator has reached a height. -/
def hasReached (target : Nat) (d : Devnet) : Bool :=
  (heights d).all (target ≤ ·.toNat)

/-- Run until every validator has reached a height, but not beyond a moment.  Every round takes
some time, so `fuel` bounds how often a timer runs out before the moment. -/
def runUntil (target deadline : Nat) (fuel : Nat) (d : Devnet) : Devnet :=
  match fuel, nextDue? d with
  | 0, _ => d
  | _, none => d
  | fuel + 1, some due =>
    if hasReached target d || deadline < due then d
    else runUntil target deadline fuel ((d.advance due).exchange (patience target d))

/-- The failure of an engine, if one has failed. -/
def failure? (d : Devnet) : Option DevnetError :=
  d.findSome? fun m =>
    match m.engine.ending with
    | some (.failed cause) => some (.engine m.setup.signer.address cause)
    | _ => none

/-- The result of a network that has run. -/
def result (c : Config) (d : Devnet) : Except DevnetError DevnetReport := do
  match failure? d with
  | some e => throw e
  | none =>
    if hasReached c.devnet.blocks d then
      let chain ← Chain.agreed Blake3.hash (d.map (·.engine.ledger.blocks))
      return ⟨d.map (·.setup.signer.address), heights d, chain⟩
    else throw (.timeout c.devnet.blocks c.devnet.timeoutSecs (heights d))

/-- Run the network of a configuration.  It is looked at once before it starts. -/
def run (c : Config) : Except DevnetError DevnetReport := do
  c.check.mapError DevnetError.config
  let genesis ← (genesis Blake3.hash ((keys c).map (·.address)) 0).mapError DevnetError.genesis
  let d := new c genesis
  if hasReached c.devnet.blocks d || c.devnet.timeoutSecs = 0 then result c d
  else
    let deadline := 1000 * c.devnet.timeoutSecs
    let d := exchange (patience c.devnet.blocks d) (start d)
    result c (runUntil c.devnet.blocks deadline (deadline + 1) d)

end Devnet

/-- The rounds in which the blocks above the first were decided. -/
def DevnetReport.rounds (r : DevnetReport) : List UInt32 :=
  (r.chain.drop 1).filterMap fun b => (b.header.extraData.toOption).map (·.round)

end QuorumChain
