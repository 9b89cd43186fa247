import QuorumChain.Committee.Basic
import QuorumChain.Data.SortedMap

/-!
# Requested votes

An operator asks the node to vote for adding or dropping validators.  There is one request for
each subject, the latest; a block that the node proposes carries the first request, in the order of
subjects, that asks for something not already so.
-/

namespace QuorumChain

/-- The requests in force. -/
structure VoteRequests where
  /-- The direction asked for each subject. -/
  wanted : SortedMap Address VoteKind
deriving DecidableEq

namespace VoteRequests

/-- No requests. -/
def empty : VoteRequests :=
  ⟨.empty⟩

/-- Ask for a vote, in place of an earlier request about the same subject. -/
def insert (r : VoteRequests) (v : Vote) : VoteRequests :=
  ⟨r.wanted.insert v.subject v.kind⟩

/-- Ask for no vote about a subject any more. -/
def discard (r : VoteRequests) (subject : Address) : VoteRequests :=
  ⟨r.wanted.erase subject⟩

/-- The requests as votes, in the order of their subjects. -/
def toList (r : VoteRequests) : List Vote :=
  r.wanted.entries.map fun e => ⟨e.1, e.2⟩

/-- The vote to cast in a block of a committee. -/
def offer (r : VoteRequests) (c : Committee) : Option Vote :=
  r.toList.find? fun v => !c.isRedundant v

/-- The number of requests. -/
def size (r : VoteRequests) : Nat :=
  r.wanted.size

end VoteRequests

end QuorumChain
