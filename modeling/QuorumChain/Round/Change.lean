import QuorumChain.Data.SortedMap
import QuorumChain.Message.Basic

/-!
# Requests to change the round

For every round of a height, one request of each member is kept.  A quorum of requests for a later
round moves the node there, and gives the proposer of that round the certificate it needs.
-/

namespace QuorumChain

/-- The requests for each round, by author. -/
structure RoundChanges where
  /-- The number of requests that decide. -/
  quorum : Nat
  /-- The requests. -/
  requests : SortedMap UInt32 (SortedMap Address (Signed RoundChange))
deriving DecidableEq

namespace RoundChanges

/-- No requests. -/
def empty (quorum : Nat) : RoundChanges :=
  ⟨quorum, .empty⟩

/-- The requests for a round, by author. -/
def forRound (t : RoundChanges) (round : UInt32) : SortedMap Address (Signed RoundChange) :=
  (t.requests.get? round).getD .empty

/-- Keep a request, unless its author has asked for the round already. -/
def add? (t : RoundChanges) (m : Signed RoundChange) : Option RoundChanges :=
  let round := m.payload.view.round
  ((t.forRound round).insertNew? m.author m).map fun byAuthor =>
    { t with requests := t.requests.insert round byAuthor }

/-- Keep a request if its author has not asked for the round yet. -/
def add (t : RoundChanges) (m : Signed RoundChange) : RoundChanges :=
  (t.add? m).getD t

/-- The number of members who asked for a round. -/
def count (t : RoundChanges) (round : UInt32) : Nat :=
  (t.forRound round).size

/-- Whether a quorum has asked for a round. -/
def hasQuorum (t : RoundChanges) (round : UInt32) : Bool :=
  t.quorum ≤ t.count round

/-- The certificate for a round that a quorum has asked for; its requests stand in the order of
their authors. -/
def certificate? (t : RoundChanges) (round : UInt32) : Option RoundChangeCertificate :=
  if t.hasQuorum round then
    (t.requests.get? round).map fun byAuthor => ⟨byAuthor.values⟩
  else none

/-- Forget the requests for rounds below a bound. -/
def dropBelow (t : RoundChanges) (bound : UInt32) : RoundChanges :=
  { t with requests := t.requests.dropBelow bound }

end RoundChanges

end QuorumChain
