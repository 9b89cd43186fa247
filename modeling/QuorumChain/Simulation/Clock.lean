import QuorumChain.Node.Engine

/-!
# Engines under a virtual clock

Time passes only while an engine is idle.  A script tells what happens to the engine from outside;
every entry of it is followed by one millisecond.  Where an entry and a timer fall on the same
millisecond, the entry comes first.
-/

namespace QuorumChain

namespace Engine

/-- The timer sends its event if its time has come. -/
def ring (s : Setup) (e : Engine) : Engine :=
  match e.timer with
  | some (view, due) =>
    if due ≤ e.now then ({ e with timer := none }.post (.expiry view)).settle s else e
  | none => e

/-- Let time pass until a moment; timers that run out before it send their events.  A timer that
runs out at that very moment is still to come: whoever waited for the moment is first. -/
def advance (s : Setup) (moment : Nat) (fuel : Nat) (e : Engine) : Engine :=
  match fuel, e.timer with
  | 0, _ => { e with now := moment }
  | _, none => { e with now := moment }
  | fuel + 1, some (_, due) =>
    if moment ≤ due then { e with now := moment }
    else advance s moment fuel ({ e with now := due }.ring s)

/-- Let a number of milliseconds pass.  No two timers run out in the same one. -/
def wait (s : Setup) (ms : Nat) (e : Engine) : Engine :=
  (e.settle s).advance s (e.now + ms) (ms + 1)

/-- Give up the mailbox; the engine goes on until it is empty. -/
def release (e : Engine) : Engine :=
  { e with isOpen := false }

end Engine

/-- What happens to an engine from outside. -/
inductive Prompt where
  /-- Some milliseconds pass. -/
  | sleep (ms : Nat)
  /-- Nothing happens. -/
  | settle
  /-- The mailbox is given up. -/
  | release
  /-- An event is put into the mailbox. -/
  | send (e : Event)

/-- What becomes of a prompt. -/
inductive PromptResult where
  /-- The time has passed. -/
  | slept
  /-- The engine is idle. -/
  | settled
  /-- The mailbox is given up. -/
  | released
  /-- The event is in the mailbox. -/
  | sent
  /-- The mailbox was given up before. -/
  | unreachable
  /-- The mailbox does not take the event. -/
  | refused (cause : Fault)

/-- Do what a prompt says. -/
def Engine.obey (s : Setup) (e : Engine) : Prompt → PromptResult × Engine
  | .sleep ms => (.slept, e.wait s ms)
  | .settle => (.settled, e)
  | .release => (.released, e.release)
  | .send event =>
    if e.isOpen then
      match e.send event with
      | .ok e => (.sent, e)
      | .error cause => (.refused cause, e)
    else (.unreachable, e)

/-- One moment of a rehearsal: what became of the prompt, what the engine did since the moment
before, the height of the chain, and whether the mailbox is closed. -/
structure Moment where
  result : Option PromptResult
  journal : Journal
  height : UInt64
  isClosed : Bool

/-- Let a millisecond pass and look at the engine. -/
def Engine.observe (s : Setup) (e : Engine) (result : Option PromptResult) : Moment × Engine :=
  let e := e.wait s 1
  (⟨result, e.journal, e.ledger.height, e.ending.isSome || !e.isOpen⟩, { e with journal := .empty })

/-- What is seen of an engine that follows a script, and the engine at the end.  The engine starts
with the given events in its mailbox and with a header that is said to be the head of the chain. -/
def Engine.rehearse (s : Setup) (e : Engine) (head : Header) (early : List Event)
    (script : List Prompt) : List Moment × Engine :=
  let (first, e) := ((early.foldl post e).start s head).observe s none
  let (moments, e) := script.foldl (fun (seen, e) prompt =>
    let (result, e) := e.obey s prompt
    let (moment, e) := e.observe s (some result)
    (moment :: seen, e)) ([first], e)
  (moments.reverse, e.release.settle s)

end QuorumChain
