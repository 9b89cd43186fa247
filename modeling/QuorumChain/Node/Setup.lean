import QuorumChain.Chain.Execution
import QuorumChain.Committee.Requests
import QuorumChain.Message.Signing
import QuorumChain.Round.Timeout

/-!
# What a node is made of and what it does

A node is given its settings, the shared cryptography, its own signer and an execution engine.
Its steps have no effects of their own: what is to be done is a list of actions.
-/

namespace QuorumChain

/-- The settings of consensus. -/
structure Settings where
  /-- The timeout of round zero in milliseconds. -/
  roundTimeoutMs : Nat
  /-- The number of events that wait for an engine. -/
  mailboxCapacity : Nat
  /-- The number of messages kept for later. -/
  futureMessageLimit : Nat
  /-- How many heights ahead a message may be. -/
  futureHeightWindow : Nat
  /-- The number of committees kept in memory. -/
  committeeCacheSize : Nat
deriving DecidableEq, Repr

/-- The settings in force unless others are given. -/
def Settings.standard : Settings :=
  ⟨2000, 1000, 1000, 10, 128⟩

/-- The timeout of round zero. -/
def Settings.baseTimeout (s : Settings) : Duration :=
  .ofMilliseconds s.roundTimeoutMs

/-- What a node works with. -/
structure Setup where
  settings : Settings
  scheme : Scheme
  signer : Signer
  execution : Execution

/-- What a node works with at one moment: its setup and the votes requested of it. -/
structure Context extends Setup where
  votes : VoteRequests

/-- What a node wants to be done. -/
inductive Action where
  /-- Send a message to every other validator. -/
  | broadcast (m : Message)
  /-- Set the timer, in place of one that runs. -/
  | startTimer (view : View) (after : Duration)
  /-- Stop the timer. -/
  | stopTimer
  /-- Append a committed block to the chain. -/
  | importBlock (b : Block)
deriving DecidableEq

end QuorumChain
