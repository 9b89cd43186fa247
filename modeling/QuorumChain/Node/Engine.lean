import QuorumChain.Chain.Ledger
import QuorumChain.Node.Basic

/-!
# The engine around a node

An engine feeds a node with the events of its mailbox, one at a time, and does what the node wants
to be done.  A block that the ledger has taken becomes the new head only when the mailbox is empty,
so events that wait already come before it.

The engine ends when it is told to, when the mailbox is empty and nobody can fill it any more, or
when the node fails.
-/

namespace QuorumChain

/-- How an engine ended. -/
inductive Ending where
  /-- There was nothing left to do, or it was told to stop. -/
  | stopped
  /-- The node failed. -/
  | failed (cause : Fault)
deriving DecidableEq

/-- What an engine has done. -/
structure Journal where
  /-- The messages it has sent. -/
  sent : List Message
  /-- The blocks it has offered to the ledger, and why they were not taken. -/
  imports : List (Block × Option ImportDefect)

/-- The journal without entries. -/
def Journal.empty : Journal :=
  ⟨[], []⟩

/-- The state of an engine. -/
structure Engine where
  /-- The node that it drives. -/
  node : Node
  /-- The chain. -/
  ledger : Ledger
  /-- The greatest number of a block that is taken into the chain, if there is one. -/
  limit : Option UInt64
  /-- The events that wait. -/
  mailbox : List Event
  /-- A block that was taken into the chain and that the node does not know of yet. -/
  pendingHead : Option Header
  /-- The time in milliseconds. -/
  now : Nat
  /-- The view whose timer is running, and the time at which it runs out. -/
  timer : Option (View × Nat)
  /-- Whether somebody can still fill the mailbox. -/
  isOpen : Bool
  /-- How the engine ended, if it has. -/
  ending : Option Ending
  /-- What it has done. -/
  journal : Journal

/-- The headers below a number, from number zero on. -/
def Ledger.headersBelow (l : Ledger) (number : UInt64) : Except Fault (List Header) :=
  let present :=
    if l.genesis.header.number = 0 then (l.blocks.take number.toNat).map (·.header) else []
  if present.length < number.toNat then
    .error (.badChain (UInt64.ofNat present.length) .missing)
  else .ok present

namespace Engine

/-- An engine that has not been started. -/
def new (s : Settings) (ledger : Ledger) (limit : Option UInt64) : Engine :=
  ⟨Node.new s, ledger, limit, [], none, 0, none, true, none, .empty⟩

/-- Put an event into the mailbox. -/
def post (e : Engine) (event : Event) : Engine :=
  { e with mailbox := e.mailbox ++ [event] }

/-- The chain with a block appended, unless the block is above the limit. -/
def grow (H : HashFunction) (e : Engine) (b : Block) : Except ImportDefect Ledger :=
  if e.limit.any (· < b.header.number) then .error .limit else e.ledger.append H b

/-- Do what the node wants to be done. -/
def perform (H : HashFunction) (e : Engine) : Action → Engine
  | .broadcast m => { e with journal.sent := e.journal.sent ++ [m] }
  | .startTimer view after => { e with timer := some (view, e.now + after.milliseconds) }
  | .stopTimer => { e with timer := none }
  | .importBlock b =>
    match e.grow H b with
    | .ok ledger =>
      { e with
        ledger
        pendingHead := some b.header
        journal.imports := e.journal.imports ++ [(b, none)] }
    | .error defect => { e with journal.imports := e.journal.imports ++ [(b, some defect)] }

/-- End; nothing is received from then on. -/
def finish (e : Engine) (ending : Ending) : Engine :=
  { e with ending := some ending, mailbox := [], timer := none }

/-- Take over a reaction of the node. -/
def follow (H : HashFunction) (e : Engine) (r : Reaction) : Engine :=
  let e := { e with node := r.node }
  match r.result with
  | .ok actions => actions.foldl (perform H) e
  | .error cause => e.finish (.failed cause)

/-- The event that comes next, and the engine without it. -/
def next? (e : Engine) : Option (Event × Engine) :=
  match e.mailbox, e.pendingHead with
  | event :: rest, _ => some (event, { e with mailbox := rest })
  | [], some h => some (.newHead h, { e with pendingHead := none })
  | [], none => none

/-- Handle an event. -/
def handle (s : Setup) (e : Engine) (event : Event) : Engine :=
  match event with
  | .shutdown => e.finish .stopped
  | event => e.follow s.scheme.hash (e.node.handle s event)

/-- Handle the events that wait, one after the other, but not more than `fuel` of them. -/
def drain (s : Setup) (fuel : Nat) (e : Engine) : Engine :=
  match fuel, e.ending with
  | _, some _ => e
  | 0, none => e
  | fuel + 1, none =>
    match e.next? with
    | some (event, e) => drain s fuel (e.handle s event)
    | none => if e.isOpen then e else e.finish .stopped

/-- The number of steps after which an engine is idle: every block that it appends brings one event,
and there are only so many blocks up to the limit. -/
def patience (e : Engine) : Nat :=
  e.mailbox.length + ((e.limit.getD 18446744073709551615).toNat - e.ledger.height.toNat) + 2

/-- Handle events until there are none. -/
def settle (s : Setup) (e : Engine) : Engine :=
  e.drain s e.patience

/-- Check the chain from its first block on and begin the height behind its head. -/
def start (s : Setup) (e : Engine) (head : Header) : Engine :=
  match e.ledger.headersBelow head.number with
  | .error cause => e.finish (.failed cause)
  | .ok below =>
    let e := e.follow s.scheme.hash (e.node.verifyChain s (below ++ [head]))
    if e.ending.isSome then e else e.follow s.scheme.hash (e.node.start s head)

/-- Put an event into the mailbox of a running engine. -/
def send (e : Engine) (event : Event) : Except Fault Engine :=
  if e.ending.isSome then .error .mailboxClosed else .ok (e.post event)

end Engine

end QuorumChain
