import QuorumChain.Chain.Fault

/-!
# Committees along the chain

Every header lists the committee that produced it.  The next height has that committee with the
header's vote applied; the first header casts no vote.  Committees once derived are remembered by
block digest, the most recently used ones first.
-/

namespace QuorumChain

/-- Committees that were derived, most recently used first. -/
structure CommitteeCache where
  /-- The greatest number of committees; there is always room for one. -/
  capacity : Nat
  /-- The committee behind each block. -/
  entries : List (Digest × Committee)
deriving DecidableEq

/-- The committee behind a header, from the header alone. -/
def Header.nextCommittee (h : Header) : Except Fault Committee := do
  let x ← h.extraData.mapError fun e => .badChain h.number (.extraData e)
  match Committee.ofList? x.validators with
  | none => throw .emptyCommittee
  | some recorded =>
    if h.number = 0 then return recorded
    else
      let vote ← h.carriedVote.mapError fun e => .badChain h.number (.vote e)
      return match vote with
        | some v => recorded.apply v
        | none => recorded

namespace CommitteeCache

/-- A cache with nothing in it. -/
def empty (capacity : Nat) : CommitteeCache :=
  ⟨max capacity 1, []⟩

/-- The committee behind a block, and the cache in which it is the most recently used one. -/
def find? (c : CommitteeCache) (d : Digest) : Option (Committee × CommitteeCache) :=
  (c.entries.find? (·.1 == d)).map fun e =>
    (e.2, { c with entries := e :: c.entries.filter (·.1 != d) })

/-- Remember the committee behind a block; the least recently used one may have to go. -/
def put (c : CommitteeCache) (d : Digest) (committee : Committee) : CommitteeCache :=
  { c with entries := ((d, committee) :: c.entries.filter (·.1 != d)).take c.capacity }

/-- The committee of the height behind a header. -/
def after (c : CommitteeCache) (H : HashFunction) (h : Header) :
    Except Fault (Committee × CommitteeCache) := do
  let digest ← (h.digest H).mapError fun e => .badChain h.number (.extraData e)
  match c.find? digest with
  | some found => return found
  | none => do
    let committee ← h.nextCommittee
    return (committee, c.put digest committee)

/-- Check that a header follows another one as a committed block of a committee. -/
def checkLink (scheme : Scheme) (committee : Committee) (parent h : Header) :
    Except Fault Unit := do
  require (h.number == parent.number + 1) (.badChain h.number (.gap parent.number))
  let digest ← (parent.digest scheme.hash).mapError fun e =>
    .badChain parent.number (.extraData e)
  require (h.parent == digest) (.badChain h.number .unlinked)
  let _ ← (h.checkCommitted scheme committee).mapError fun e =>
    .badChain h.number (.uncommitted e)

/-- Follow a chain of headers from a parent with the committee behind it. -/
def follow (scheme : Scheme) :
    CommitteeCache → Committee → Header → List Header → Except Fault (Committee × CommitteeCache)
  | c, committee, _, [] => .ok (committee, c)
  | c, committee, parent, h :: rest => do
    checkLink scheme committee parent h
    let (committee, c) ← c.after scheme.hash h
    follow scheme c committee h rest

/-- Check a chain of headers from the first one on; the answer is the committee behind the last,
and the cache that is left. -/
def replay (c : CommitteeCache) (scheme : Scheme) :
    List Header → Except Fault (Committee × CommitteeCache)
  | [] => .error (.badChain 0 .emptyChain)
  | first :: rest => do
    require (first.number == 0) (.badChain first.number .noGenesis)
    let (committee, c) ← c.after scheme.hash first
    follow scheme c committee first rest

/-- The committee behind a header, and the cache that is left; a failure does not change it. -/
def ask (c : CommitteeCache) (H : HashFunction) (h : Header) :
    Except Fault Committee × CommitteeCache :=
  match c.after H h with
  | .ok (committee, c') => (.ok committee, c')
  | .error e => (.error e, c)

/-- The same if a check passes. -/
def askIf (c : CommitteeCache) (H : HashFunction) (check : Except Fault Unit) (h : Header) :
    Except Fault Committee × CommitteeCache :=
  match check with
  | .ok () => c.ask H h
  | .error e => (.error e, c)

/-- Follow a chain from a parent; the cache that is left is given also when the chain is bad. -/
def walk (scheme : Scheme) :
    CommitteeCache → Committee → Header → List Header → Except Fault Committee × CommitteeCache
  | c, committee, _, [] => (.ok committee, c)
  | c, committee, parent, h :: rest =>
    match c.askIf scheme.hash (checkLink scheme committee parent h) h with
    | (.ok next, c') => walk scheme c' next h rest
    | (.error e, c') => (.error e, c')

/-- Check a chain from its first header on; the cache that is left is given also when it is bad. -/
def audit (c : CommitteeCache) (scheme : Scheme) :
    List Header → Except Fault Committee × CommitteeCache
  | [] => (.error (.badChain 0 .emptyChain), c)
  | first :: rest =>
    match c.askIf scheme.hash
        (require (first.number == 0) (.badChain first.number .noGenesis)) first with
    | (.ok committee, c') => walk scheme c' committee first rest
    | (.error e, c') => (.error e, c')

end CommitteeCache

end QuorumChain
