import QuorumChain.Committee.Basic
import QuorumChain.Message.View

/-!
# Who proposes

Height and round together rotate through the committee, so a failed proposer is followed by the
next member in the next round, and need not lead the next height.
-/

namespace QuorumChain.Committee

/-- The place of the proposer of a view. -/
def proposerIndex (c : Committee) (v : View) : Nat :=
  (v.height.toNat + v.round.toNat) % c.size

theorem proposerIndex_lt (c : Committee) (v : View) : c.proposerIndex v < c.members.length :=
  Nat.mod_lt _ c.size_pos

/-- The proposer of a view. -/
def proposer (c : Committee) (v : View) : Address :=
  c.members.get ⟨c.proposerIndex v, c.proposerIndex_lt v⟩

end QuorumChain.Committee
