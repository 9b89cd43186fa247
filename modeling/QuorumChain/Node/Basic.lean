import QuorumChain.Committee.Cache
import QuorumChain.Node.Instance

/-!
# A node

A node owns the instance of the height that is being decided.  It passes events to it, keeps
messages of upcoming heights, and starts the next height whenever the chain has grown by a block
that this node committed itself or that carries the seals of a quorum.

A fault may leave a step half done, so a reaction gives the node's state in either case.
-/

namespace QuorumChain

/-- What can happen to a node. -/
inductive Event where
  /-- A message of a peer has arrived. -/
  | message (m : Message)
  /-- The timer of a view has run out. -/
  | expiry (view : View)
  /-- A block was appended to the chain. -/
  | newHead (h : Header)
  /-- The operator asks for a vote. -/
  | requestVote (v : Vote)
  /-- The operator asks for no vote about somebody any more. -/
  | discardVote (subject : Address)
  /-- The operator asks the node to stop. -/
  | shutdown
deriving DecidableEq

/-- The state of a node. -/
structure Node where
  /-- The votes requested of it. -/
  votes : VoteRequests
  /-- The committees it has derived. -/
  committees : CommitteeCache
  /-- Messages of upcoming heights. -/
  early : Backlog UInt64 Message
  /-- The instance of the height being decided, once the node has been started. -/
  current : Option Instance
deriving DecidableEq

/-- The node after an event, and the actions to be done or a fault. -/
structure Reaction where
  node : Node
  result : Except Fault (List Action)

namespace Node

/-- A node that has not been started. -/
def new (s : Settings) : Node :=
  ⟨.empty, .empty s.committeeCacheSize, .empty s.futureMessageLimit, none⟩

/-- The view being decided. -/
def view? (n : Node) : Option View :=
  n.current.map (·.view)

/-- The committee of the height being decided. -/
def committee? (n : Node) : Option Committee :=
  n.current.map (·.committee)

/-- What the node's instance works with. -/
def context (s : Setup) (n : Node) : Context :=
  { s with votes := n.votes }

/-- The reaction that does nothing. -/
def ignore (n : Node) : Reaction :=
  ⟨n, .ok []⟩

/-- The reaction that fails and leaves a node behind. -/
def fail (n : Node) (e : Fault) : Reaction :=
  ⟨n, .error e⟩

/-- A step of the present instance as a reaction of the node.  What the step has changed lasts,
also if it breaks down. -/
def ofStep (n : Node) : Step Instance → Reaction
  | .ok (i, actions) => ⟨{ n with current := some i }, .ok actions⟩
  | .error b => fail { n with current := some b.state } b.cause

/-- The first steps of a new instance as a reaction of the node.  If they break down, the instance
before remains. -/
def ofOpening (n : Node) : Step Instance → Reaction
  | .ok (i, actions) => ⟨{ n with current := some i }, .ok actions⟩
  | .error b => n.fail b.cause

/-- Check a chain from the first header on. -/
def verifyChain (s : Setup) (n : Node) (headers : List Header) : Reaction :=
  let (checked, committees) := n.committees.audit s.scheme headers
  ⟨{ n with committees }, checked.map fun _ => []⟩

/-- Begin the height behind a header, and take up the messages that were kept for it. -/
def startHeight (s : Setup) (n : Node) (head : Header) : Reaction :=
  match head.digest s.scheme.hash with
  | .error e => n.fail (.badChain head.number (.extraData e))
  | .ok digest =>
    match n.committees.after s.scheme.hash head with
    | .error e => n.fail e
    | .ok (committee, committees) =>
      let n := { n with committees }
      let c := n.context s
      let fresh := Instance.new head digest committee s.signer.address
        s.settings.futureMessageLimit
      match fresh.start c with
      | .error b => n.fail b.cause
      | .ok (i, actions) =>
        let (kept, early) := (n.early.dropBelow i.height).take i.height
        let n := { n with early }
        n.ofOpening <| Step.andThen (.ok (i, actions)) (Step.forEach kept (Instance.receive c))

/-- Peers must be able to verify what the signer signs; a prepare for nothing is the sample. -/
def checkSigner (s : Setup) : Except Fault Unit := do
  let m ← Instance.written (s.signer.prepare s.scheme.hash ⟨0, 0⟩ .zero)
  let digest ← Instance.written (Payload.signingDigest s.scheme.hash m.payload)
  require (s.scheme.verify m.author digest m.signature) (.unusableSigner m.author)

/-- Begin deciding the block behind a header. -/
def start (s : Setup) (n : Node) (head : Header) : Reaction :=
  match n.committees.after s.scheme.hash head with
  | .error e => n.fail e
  | .ok (committee, committees) =>
    let n := { n with committees }
    if committee.contains s.signer.address then
      match checkSigner s with
      | .error e => n.fail e
      | .ok () => startHeight s n head
    else startHeight s n head

/-- Receive a message: pass it on, or keep it if its height is near enough. -/
def onMessage (s : Setup) (n : Node) (m : Message) : Reaction :=
  match n.current with
  | none => n.ignore
  | some i =>
    let height := m.view.height
    if height < i.height then n.ignore
    else if i.height < height then
      if s.settings.futureHeightWindow < height.toNat - i.height.toNat then n.ignore
      else ignore { n with early := n.early.push height m }
    else n.ofStep (i.receive (n.context s) m)

/-- The timer of a view has run out. -/
def onExpiry (s : Setup) (n : Node) (view : View) : Reaction :=
  match n.current with
  | none => n.ignore
  | some i => if i.height = view.height then n.ofStep (i.expire (n.context s) view) else n.ignore

/-- Whether a block may follow the one that the instance builds on: either the node has committed
it, or it names the same parent and carries the seals of a quorum. -/
def adopts (s : Setup) (i : Instance) (h : Header) : Bool :=
  h.number == i.height &&
    match h.digest s.scheme.hash with
    | .error _ => false
    | .ok digest =>
      i.committed? == some digest ||
        h.parent == i.parentDigest && (h.checkCommitted s.scheme i.committee).isOk

/-- The chain has a new head. -/
def onNewHead (s : Setup) (n : Node) (h : Header) : Reaction :=
  match n.current with
  | none => n.ignore
  | some i => if adopts s i h then startHeight s n h else n.ignore

/-- React to an event. -/
def handle (s : Setup) (n : Node) : Event → Reaction
  | .message m => onMessage s n m
  | .expiry view => onExpiry s n view
  | .newHead h => onNewHead s n h
  | .requestVote v => ignore { n with votes := n.votes.insert v }
  | .discardVote subject => ignore { n with votes := n.votes.discard subject }
  | .shutdown => n.ignore

end Node

end QuorumChain
