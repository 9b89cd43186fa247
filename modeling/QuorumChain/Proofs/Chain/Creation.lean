import QuorumChain.Proofs.Admission.Message
import QuorumChain.Proofs.Committee.Requests
import QuorumChain.Proofs.Message.Capacity
import QuorumChain.Proofs.Message.Layout
import QuorumChain.Proofs.Node.Four

/-!
# Whether a created block can be proposed

Consensus writes the fields of its own into whatever candidate the execution engine comes up
with. The result keeps every rule for proposed headers, whatever the candidate had in those
fields, but for one case: the coinbase that names the zero address casts no vote, so a request
about the zero address is recorded in the extra-data and lost from the header fields, and nobody
can take the block.
-/

namespace QuorumChain

open Wire

/-- A vote about somebody; the zero address stands for nobody. -/
def Vote.Named (v : Vote) : Prop :=
  v.subject ≠ Address.zero

/-- The nonce of a direction gives that direction. -/
@[simp] theorem VoteKind.ofNonce?_nonce (kind : VoteKind) : ofNonce? kind.nonce = some kind := by
  cases kind <;> rfl

namespace Header

variable {h : Header} {vote : Option Vote}

/-- Votes about somebody are read back from the header fields. -/
theorem carriedVote_withVote
    (hnamed : ∀ v, vote = some v → v.Named) : (h.withVote vote).carriedVote = .ok vote := by
  cases vote with
  | none => rfl
  | some v =>
      have hsubject : v.subject ≠ Address.zero := hnamed v rfl
      simp [carriedVote, withVote, hsubject]

/-- A vote about nobody is lost from the header fields. -/
theorem carriedVote_withVote_of_zero
    {v : Vote} (hzero : ¬v.Named) : (h.withVote (some v)).carriedVote = .ok none := by
  have hsubject : v.subject = Address.zero := not_not.mp hzero
  simp [carriedVote, withVote, hsubject]

/-- A header that extends the parent for a round, not before the parent, can be proposed. -/
theorem Proposed.check
    {parent : Header} {parentDigest : Digest} {committee : Committee} {x : ExtraData}
    (hx : h.Proposed parent parentDigest committee x) (htime : parent.timestamp ≤ h.timestamp) :
    h.checkProposed parent parentDigest committee x.round = .ok x := by
  simp only [checkProposed, bind_eq_ok, require_eq_ok, mapError_eq_ok, pure_eq_ok, beq_iff_eq,
    decide_eq_true_eq, List.isEmpty_iff]
  exact ⟨(), hx.number, (), hx.parent, (), htime, x, hx.extraData, (), hx.validators, (), rfl, (),
    hx.seals, (), hx.vote, rfl⟩

end Header

/-! ## Stamped blocks -/

namespace Block

variable {b stamped : Block} {parent : Header} {parentDigest : Digest} {round : UInt32}
  {committee : Committee} {vote : Option Vote}

theorem timestamp_stamp
    (h : b.stamp parent parentDigest round committee vote = .ok stamped) :
    parent.timestamp ≤ stamped.header.timestamp := by
  simp only [stamp, bind_eq_ok, pure_eq_ok] at h
  obtain ⟨bytes, -, rfl⟩ := h
  have hmax : parent.timestamp ≤ max b.header.timestamp parent.timestamp := by
    show _ ≤ if _ then _ else _
    split
    · exact UInt64.le_refl _
    · rename_i hlater
      exact Std.le_of_not_ge hlater
  cases vote <;> exact hmax

/-- The header fields of a stamped block carry the vote as they were given it. -/
theorem carriedVote_stamp
    (h : b.stamp parent parentDigest round committee vote = .ok stamped) :
    stamped.header.carriedVote = (b.header.withVote vote).carriedVote := by
  simp only [stamp, bind_eq_ok, pure_eq_ok] at h
  obtain ⟨bytes, -, rfl⟩ := h
  cases vote <;> rfl

/-- A stamped block can be proposed exactly if its vote is about somebody. -/
theorem checkProposed_stamp
    (h : b.stamp parent parentDigest round committee vote = .ok stamped) :
    (∃ x, stamped.header.checkProposed parent parentDigest committee round = .ok x) ↔
      ∀ v, vote = some v → v.Named := by
  have hextra := extraData_stamp h
  have hcarried := carriedVote_stamp h
  constructor
  · rintro ⟨x, hx⟩ v rfl
    have hproposed := Header.proposed_of_check hx
    have hvote := Header.checkVote_eq_ok.mp hproposed.vote
    obtain rfl := Except.ok.inj (hextra.symm.trans hproposed.extraData)
    by_contra hzero
    rw [hcarried, Header.carriedVote_withVote_of_zero hzero] at hvote
    exact absurd hvote (by simp)
  · intro hnamed
    have hvote : stamped.header.checkVote ⟨committee.members, vote, round, []⟩ = .ok () := by
      rw [Header.checkVote_eq_ok, hcarried, Header.carriedVote_withVote hnamed]
    have hproposed : stamped.header.Proposed parent parentDigest committee
        ⟨committee.members, vote, round, []⟩ :=
      ⟨number_stamp h, parent_stamp h, hextra, rfl, rfl, hvote⟩
    exact ⟨_, hproposed.check (timestamp_stamp h)⟩

end Block

/-! ## Created blocks -/

namespace Execution

/-- Whatever the engine's candidate and whatever was requested: the created block lists the
committee and the vote that is offered, and it can be proposed exactly if that vote is about
somebody. -/
theorem created_passes_iff
    (e : Execution) (orders : List VoteRequests.Order) (parent : Header) (parentDigest : Digest)
    (round : UInt32) (committee : Committee) :
    let vote := (VoteRequests.after orders).offer committee
    ((∃ b, e.createBlock parent parentDigest round committee vote = .ok b) ↔
      (∃ candidate, e.build parent = .ok candidate) ∧ committee.size ≤ maxLength) ∧
    ∀ b, e.createBlock parent parentDigest round committee vote = .ok b →
      b.header.extraData = .ok ⟨committee.members, vote, round, []⟩ ∧
      ((∃ x, b.header.checkProposed parent parentDigest committee round = .ok x) ↔
        ∀ v, vote = some v → v.subject ≠ Address.zero) := by
  intro vote
  constructor
  · simp only [createBlock_eq_ok]
    constructor
    · rintro ⟨b, candidate, hbuild, hstamp⟩
      exact ⟨⟨candidate, hbuild⟩, Block.exists_stamp_iff.mp ⟨b, hstamp⟩⟩
    · rintro ⟨⟨candidate, hbuild⟩, hsize⟩
      obtain ⟨b, hstamp⟩ := Block.exists_stamp_iff.mpr hsize
      exact ⟨b, candidate, hbuild, hstamp⟩
  · intro b hb
    obtain ⟨candidate, -, hstamp⟩ := createBlock_eq_ok.mp hb
    exact ⟨Block.extraData_stamp hstamp, Block.checkProposed_stamp hstamp⟩

/-- Asked to add a member and somebody who is none, four members propose the latter. -/
theorem created_passes_of_four :
    let orders := [.insert ⟨Four.address 2, .add⟩, .insert ⟨Four.newcomer, .drop⟩,
      .insert ⟨Four.newcomer, .add⟩]
    (VoteRequests.after orders).offer Four.committee = some ⟨Four.newcomer, .add⟩ ∧
      Four.inviting.header.extraData =
        .ok ⟨Four.committee.members, some ⟨Four.newcomer, .add⟩, 0, []⟩ ∧
      ∃ x, Four.inviting.header.checkProposed Four.base.parent Four.base.parentDigest
        Four.committee 0 = .ok x := by
  intro orders
  have hoffer : (VoteRequests.after orders).offer Four.committee =
      some ⟨Four.newcomer, .add⟩ := by
    decide
  have hcreated : (emptyBlocks Four.hash).createBlock Four.base.parent Four.base.parentDigest 0
      Four.committee ((VoteRequests.after orders).offer Four.committee) = .ok Four.inviting := by
    rw [hoffer]
    decide +kernel
  obtain ⟨hextra, hpasses⟩ := (created_passes_iff (emptyBlocks Four.hash) orders Four.base.parent
    Four.base.parentDigest 0 Four.committee).2 _ hcreated
  rw [hoffer] at hextra hpasses
  refine ⟨hoffer, hextra, hpasses.mpr ?_⟩
  rintro v ⟨⟩
  decide

/-- Asked to add the zero address, a member that is alone creates a block that nobody can take. -/
theorem created_fails_of_zero :
    (VoteRequests.after [.insert ⟨.zero, .add⟩]).offer VoteRequests.lone = some ⟨.zero, .add⟩ ∧
      ∃ b, (emptyBlocks Four.hash).createBlock Four.base.parent Four.base.parentDigest 0
          VoteRequests.lone (some ⟨.zero, .add⟩) = .ok b ∧
        b.header.checkProposed Four.base.parent Four.base.parentDigest VoteRequests.lone 0 =
          .error (.vote (.disagreement (some ⟨.zero, .add⟩) none)) := by
  refine ⟨by decide, _, rfl, ?_⟩
  decide +kernel

end Execution

end QuorumChain
