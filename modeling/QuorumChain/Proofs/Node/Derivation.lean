import QuorumChain.Proofs.Committee.Evolution
import QuorumChain.Proofs.Message.Capacity
import QuorumChain.Proofs.Node.Four
import QuorumChain.Proofs.Node.Record

/-!
# What a height rests on

A node decides a height with the committee behind the head of its chain.  That committee comes from
the extra-data of a header with that digest, so it is not larger than what extra-data can list.
-/

namespace QuorumChain

open Wire

theorem Committee.size_heed_le (c : Committee) (vote : Option Vote) :
    (c.heed vote).size ≤ c.size + 1 := by
  rw [size, size]
  cases c.shifts_heed vote with
  | stays h =>
      rw [h]
      exact Nat.le_succ _
  | joins a _ h => rw [h, List.length_append, List.length_singleton]
  | leaves a _ h =>
      rw [h]
      exact (List.length_erase_le).trans (Nat.le_succ _)

namespace Header

variable {H : HashFunction} {h : Header} {d : Digest} {committee : Committee}

/-- A header that has a digest lists a committee that leaves room for one member more. -/
theorem length_validators_lt
    {x : ExtraData} (hx : h.extraData = .ok x) (hd : h.digest H = .ok d) :
    x.validators.length < maxLength := by
  have hlength := (exists_digest_iff H hx).mp ⟨d, hd⟩
  rw [ExtraData.length_write] at hlength
  have hsame : x.identity.validators = x.validators := rfl
  rw [hsame] at hlength
  omega

/-- The committee behind a header that has a digest can be listed in extra-data. -/
theorem size_nextCommittee_le
    (hd : h.digest H = .ok d) (hnext : h.nextCommittee = .ok committee) :
    committee.size ≤ maxLength := by
  obtain ⟨x, hx, hnext⟩ := bind_eq_ok.mp hnext
  have hextra := mapError_eq_ok.mp hx
  have hlisted := length_validators_lt hextra hd
  split at hnext
  · contradiction
  · rename_i recorded hrecorded
    have hsize : recorded.size < maxLength := by
      rwa [Committee.size, Committee.members_of_ofList? (extraData_validators hextra).2.1 hrecorded]
    split at hnext
    · obtain rfl := pure_eq_ok.mp hnext
      exact hsize.le
    · obtain ⟨vote, -, hnext⟩ := bind_eq_ok.mp hnext
      have hheed : committee = recorded.heed vote := by
        rw [← pure_eq_ok.mp hnext]
        cases vote <;> rfl
      rw [hheed]
      exact (recorded.size_heed_le vote).trans hsize

end Header

/-- The committee is the one behind a header with the digest of the block below.  A node decides
with no other. -/
def Base.Derived (H : HashFunction) (b : Base) : Prop :=
  ∃ h : Header, h.digest H = .ok b.parentDigest ∧ h.nextCommittee = .ok b.committee

theorem Base.Derived.size_le
    {H : HashFunction} {b : Base} (h : b.Derived H) : b.committee.size ≤ maxLength := by
  obtain ⟨header, hd, hnext⟩ := h
  exact Header.size_nextCommittee_le hd hnext

end QuorumChain
