import QuorumChain.Node.Basic

/-!
# Networks of nodes

A network is a number of nodes and the copies of messages that are under way.  Nothing in it is
left to chance: a scenario tells which copy arrives next, which copies are lost, and what happens
to the nodes from outside.  Timers run out, all of them, whenever no copy is under way.
-/

namespace QuorumChain

/-- A node in a network, with its chain. -/
structure Station where
  setup : Setup
  node : Node
  /-- The chain, first block first. -/
  chain : List Block
  /-- The view whose timer is running. -/
  timer : Option View
  /-- Whether the station sends and receives. -/
  isAlive : Bool

/-- A copy of a message under way. -/
structure Parcel where
  sender : Nat
  receiver : Nat
  message : Message

/-- What makes a station act. -/
inductive Impulse where
  /-- It begins. -/
  | start
  /-- Something happens to it from outside. -/
  | outside
  /-- A block of another station's chain is handed to it. -/
  | sync (number : UInt64)
  /-- It has appended a block to its own chain. -/
  | head (number : UInt64)
  /-- The timer of a view runs out. -/
  | expiry (view : View)
  /-- A copy of a message arrives. -/
  | delivery (kind : MessageKind) (view : View) (sender : Nat)

/-- What a station did, and what made it act. -/
structure Episode where
  station : Nat
  impulse : Impulse
  result : Except Fault (List Action)

/-- Loses the copies that agree with it in every field that is given. -/
structure LossRule where
  kind : Option MessageKind
  height : Option Nat
  round : Option Nat
  sender : Option Nat
  receiver : Option Nat

/-- Whether a rule loses a copy. -/
def LossRule.loses (r : LossRule) (p : Parcel) : Bool :=
  r.kind.all (· = p.message.kind) && r.height.all (· = p.message.view.height.toNat) &&
    r.round.all (· = p.message.view.round.toNat) && r.sender.all (· = p.sender) &&
    r.receiver.all (· = p.receiver)

/-- What happens to a station from outside. -/
inductive Incident where
  /-- It stops sending and receiving. -/
  | kill
  /-- It sends and receives again. -/
  | revive
  /-- It fetches the blocks that another station has and it has not. -/
  | fetch (source : Nat)
  /-- An event reaches its node. -/
  | event (e : Event)

/-- An incident at a station before a step, or before the stations begin. -/
structure Occurrence where
  step : Option Nat
  station : Nat
  incident : Incident

/-- How a network runs. -/
structure Scenario where
  /-- The height that all stations are to reach. -/
  target : Nat
  /-- The greatest number of steps. -/
  maxSteps : Nat
  /-- Which copy under way arrives next, in turn. -/
  picks : List Nat
  /-- The copies that are lost, counted from one in the order in which they are sent. -/
  lost : List Nat
  rules : List LossRule
  /-- The stations that are not alive at first. -/
  dead : List Nat
  occurrences : List Occurrence

/-- The stations, the copies under way, and what has happened. -/
structure Network where
  stations : List Station
  queue : List Parcel
  /-- The number of copies that were sent, lost ones included. -/
  copies : Nat
  /-- The episodes, latest first. -/
  past : List Episode

namespace Network

/-- Stations that know nothing but a first block. -/
def new (setups : List Setup) (genesis : Block) : Network :=
  ⟨setups.map fun s => ⟨s, Node.new s.settings, [genesis], none, true⟩, [], 0, []⟩

/-- Change a station. -/
def update (n : Network) (i : Nat) (f : Station → Station) : Network :=
  { n with stations := n.stations.modify i f }

/-- The length of a station's chain, first block included. -/
def chainLength (n : Network) (i : Nat) : Nat :=
  (n.stations[i]?.map (·.chain.length)).getD 0

/-- Whether a station is alive. -/
def isAlive (n : Network) (i : Nat) : Bool :=
  n.stations[i]?.any (·.isAlive)

/-- Send a copy, which may be lost. -/
def post (c : Scenario) (n : Network) (p : Parcel) : Network :=
  let n := { n with copies := n.copies + 1 }
  if c.lost.contains n.copies || c.rules.any (·.loses p) then n
  else { n with queue := n.queue ++ [p] }

/-- Send a message to every other station that is alive. -/
def broadcast (c : Scenario) (n : Network) (sender : Nat) (m : Message) : Network :=
  let receivers := (List.range n.stations.length).filter fun i => i ≠ sender && n.isAlive i
  receivers.foldl (fun n i => n.post c ⟨sender, i, m⟩) n

/-- Do what the node of a station wants to be done. -/
def perform (c : Scenario) (i : Nat) (n : Network) : Action → Network
  | .broadcast m => n.broadcast c i m
  | .startTimer view _ => n.update i ({ · with timer := some view })
  | .stopTimer => n.update i ({ · with timer := none })
  | .importBlock b => n.update i fun s => { s with chain := s.chain ++ [b] }

/-- Follow the reaction of a station's node.  The station hears of the blocks that it has appended
while its chain is not longer than the target; each of them makes the chain longer, so `fuel`
bounds how often. -/
def follow (c : Scenario) (fuel : Nat) (i : Nat) (impulse : Impulse)
    (react : Setup → Node → Reaction) (n : Network) : Network :=
  match fuel, n.stations[i]? with
  | 0, _ => n
  | _, none => n
  | fuel + 1, some s =>
    let r := react s.setup s.node
    let n := { n.update i ({ · with node := r.node }) with
      past := ⟨i, impulse, r.result⟩ :: n.past }
    match r.result with
    | .error _ => n
    | .ok actions =>
      let appended := actions.filterMap fun
        | .importBlock b => some b.header
        | _ => none
      appended.foldl (fun n h =>
        if n.chainLength i ≤ c.target then
          follow c fuel i (.head h.number) (fun s node => node.handle s (.newHead h)) n
        else n) (actions.foldl (perform c i) n)

/-- Let a station act. -/
def act (c : Scenario) (i : Nat) (impulse : Impulse) (react : Setup → Node → Reaction)
    (n : Network) : Network :=
  n.follow c (c.target + 2) i impulse react

/-- Let an event reach a station. -/
def handle (c : Scenario) (i : Nat) (impulse : Impulse) (e : Event) (n : Network) : Network :=
  n.act c i impulse fun s node => node.handle s e

/-- Let a station begin behind its first block. -/
def begin (c : Scenario) (n : Network) (i : Nat) : Network :=
  match n.stations[i]?.bind (·.chain.head?) with
  | some genesis => n.act c i .start fun s node => node.start s genesis.header
  | none => n

/-- Hand a station the blocks that another one has and it has not, at most `fuel` of them. -/
def fetch (c : Scenario) (i source : Nat) (fuel : Nat) (n : Network) : Network :=
  match fuel, n.stations[source]?.bind (·.chain[n.chainLength i]?) with
  | fuel + 1, some b =>
    let n := n.update i fun s => { s with chain := s.chain ++ [b] }
    fetch c i source fuel (n.handle c i (.sync b.header.number) (.newHead b.header))
  | _, _ => n

/-- Let something happen to a station from outside. -/
def meet (c : Scenario) (n : Network) (o : Occurrence) : Network :=
  let i := o.station
  match o.incident with
  | .kill => n.update i ({ · with isAlive := false })
  | .revive =>
    let n := n.update i ({ · with isAlive := true })
    if n.stations[i]?.all (·.node.current.isSome) then n else n.begin c i
  | .fetch source => n.fetch c i source (n.chainLength source)
  | .event e => n.handle c i .outside e

/-- Let everything happen that is to happen at a moment. -/
def meetAll (c : Scenario) (moment : Option Nat) (n : Network) : Network :=
  (c.occurrences.filter (·.step = moment)).foldl (meet c) n

/-- The timer of a station that is alive runs out, if it is running. -/
def expire (c : Scenario) (n : Network) (i : Nat) : Network :=
  match n.stations[i]?.bind fun s => if s.isAlive then s.timer else none with
  | some view => n.handle c i (.expiry view) (.expiry view)
  | none => n

/-- Let a copy arrive. -/
def deliver (c : Scenario) (n : Network) (p : Parcel) : Network :=
  if n.isAlive p.receiver then
    n.handle c p.receiver (.delivery p.message.kind p.message.view p.sender) (.message p.message)
  else n

/-- The place in a queue of the copy that arrives in a step. -/
def pick (c : Scenario) (k size : Nat) : Nat :=
  (c.picks[k % c.picks.length]?).getD 0 % size

/-- One step: a copy arrives or, if there is none, the timers run out. -/
def step (c : Scenario) (k : Nat) (n : Network) : Network :=
  let n := n.meetAll c (some k)
  let place := pick c k n.queue.length
  match n.queue[place]? with
  | some p => { n with queue := n.queue.eraseIdx place }.deliver c p
  | none => (List.range n.stations.length).foldl (expire c) n

/-- Whether all stations that are alive have gone beyond the target. -/
def isDone (c : Scenario) (n : Network) : Bool :=
  n.stations.all fun s => !s.isAlive || c.target < s.chain.length

/-- Step from step `k` on until the network is done, at most `fuel` times; the number of the next
step comes first. -/
def stepsFrom (c : Scenario) (k fuel : Nat) (n : Network) : Nat × Network :=
  match fuel with
  | 0 => (k, n)
  | fuel + 1 => if n.isDone c then (k, n) else stepsFrom c (k + 1) fuel (n.step c k)

/-- Run a scenario from the beginning; the number of steps comes first. -/
def run (c : Scenario) (n : Network) : Nat × Network :=
  let n := c.dead.foldl (fun n i => n.update i ({ · with isAlive := false })) n
  let n := n.meetAll c none
  let n := (List.range n.stations.length).foldl
    (fun n i => if n.isAlive i then n.begin c i else n) n
  n.stepsFrom c 0 c.maxSteps

end Network

end QuorumChain
