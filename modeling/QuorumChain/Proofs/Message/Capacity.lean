import QuorumChain.Proofs.Message.Writing

/-!
# What fits into a message

No sequence that is written has more than `Wire.maxLength` items, the octets of extra-data among
them. A block that has been written can be proposed again in any round: its extra-data lose
their seals and gain nothing.  A fresh block can be written if the extra-data that list its
committee and its transactions can.
-/

namespace QuorumChain

open Wire Wire.Format

/-! ## Extra-data -/

/-- Without its seals, extra-data is not longer than with them. -/
theorem ExtraData.length_unsealed_le (x : ExtraData) (round : UInt32) :
    (ExtraData.format.write { x with round, seals := [] }).length ≤
      (ExtraData.format.write x).length := by
  rw [length_write, length_write]
  have hcount := length_writeCount x.seals.length
  have hnone : (writeCount ([] : List Signature).length).length = 1 := rfl
  dsimp only
  rw [hnone, List.length_nil]
  omega

/-- Extra-data that list a committee can stand in a header. -/
def Committee.Listable (c : Committee) : Prop :=
  ∀ vote round, (ExtraData.format.write ⟨c.members, vote, round, []⟩).length ≤ maxLength

namespace Committee

variable {c : Committee}

theorem Listable.size_le (h : c.Listable) : c.size ≤ maxLength := by
  have hlength := h none 0
  rw [ExtraData.length_write] at hlength
  rw [size]
  dsimp only at hlength
  omega

end Committee

/-! ## Blocks -/

/-- A block that can be proposed: it can be written, and its extra-data can be read. -/
structure Block.Sendable (b : Block) : Prop where
  writable : Block.format.excess b = none
  readable : ∃ x, b.header.extraData = .ok x

/-- No sequence in a block is too long. -/
structure Block.Fits (b : Block) : Prop where
  extra : b.header.extra.length ≤ maxLength
  transactions : b.body.transactions.length ≤ maxLength
  transaction : ∀ t ∈ b.body.transactions, t.length ≤ maxLength

theorem Block.excess_eq_none
    {b : Block} :
    Block.format.excess b = none ↔
      b.header.extra.length ≤ maxLength ∧ Body.format.excess b.body = none := by
  rw [← Header.excess_eq_none]
  exact pair_excess_eq_none

theorem Body.excess_eq_none
    {b : Body} :
    Body.format.excess b = none ↔
      b.transactions.length ≤ maxLength ∧ ∀ t ∈ b.transactions, t.length ≤ maxLength := by
  show (list octets).excess b.transactions = none ↔ _
  rw [list_excess_eq_none]
  have hitem : ∀ t : Octets, octets.excess t = none ↔ t.length ≤ maxLength := by
    intro t
    show (if t.length ≤ maxLength then none else some t.length) = none ↔ _
    simp
  simp only [hitem]

theorem Block.fits_iff {b : Block} : Block.format.excess b = none ↔ b.Fits := by
  rw [Block.excess_eq_none, Body.excess_eq_none]
  constructor
  · rintro ⟨hextra, hlength, hitems⟩
    exact ⟨hextra, hlength, hitems⟩
  · rintro ⟨hextra, hlength, hitems⟩
    exact ⟨hextra, hlength, hitems⟩

/-- A proposal can be written if its block can. -/
theorem Proposal.writable_iff
    {p : Proposal} : Payload.Writable p ↔ Block.format.excess p.block = none :=
  Iff.rfl

/-- A header whose extra-data can be read has a digest, unless it is too long to be written. -/
theorem Header.exists_digest
    {h : Header} (hreadable : ∃ x, h.extraData = .ok x) (hextra : h.extra.length ≤ maxLength)
    (H : HashFunction) : ∃ d, h.digest H = .ok d := by
  obtain ⟨x, hx⟩ := hreadable
  obtain ⟨hbytes, -⟩ := ExtraData.decode_eq_ok.mp hx
  rw [hbytes] at hextra
  exact (Header.exists_digest_iff H hx).mpr ((x.length_unsealed_le 0).trans hextra)

namespace Block.Sendable

variable {b : Block}

theorem exists_digest (h : b.Sendable) (H : HashFunction) : ∃ d, b.header.digest H = .ok d :=
  Header.exists_digest h.readable (Block.excess_eq_none.mp h.writable).1 H

theorem exists_withRound
    (h : b.Sendable) (round : UInt32) :
    ∃ header, b.header.withRound round = .ok header ∧ Block.Sendable { b with header } := by
  obtain ⟨x, hx⟩ := h.readable
  obtain ⟨hextra, hbody⟩ := Block.excess_eq_none.mp h.writable
  obtain ⟨hbytes, -⟩ := ExtraData.decode_eq_ok.mp hx
  obtain ⟨hlisted, hnodup, -⟩ := Header.extraData_validators hx
  obtain ⟨header, hheader⟩ := Header.exists_withRound hx round
  obtain ⟨x', bytes, hx', hencode, rfl⟩ := Header.withRound_eq_ok hheader
  rw [hx] at hx'
  cases hx'
  refine ⟨_, hheader, Block.excess_eq_none.mpr ⟨?_, hbody⟩, _,
    ExtraData.decode_encode hencode hlisted hnodup⟩
  obtain ⟨-, rfl⟩ := ExtraData.encode_eq_ok.mp hencode
  rw [hbytes] at hextra
  exact (x.length_unsealed_le round).trans hextra

theorem exists_proposal
    (h : b.Sendable) (s : Signer) (H : HashFunction) (view : View)
    (justification : Option RoundChangeCertificate) :
    ∃ m, s.proposal H view b justification = .ok m :=
  ⟨_, bind_eq_ok.mpr ⟨_, Signer.signed_eq_ok.mpr ⟨Proposal.writable_iff.mpr h.writable, rfl⟩, rfl⟩⟩

end Block.Sendable

/-- A request that carries no certificate or one that can be written can be signed. -/
theorem Signer.exists_roundChange
    (s : Signer) (H : HashFunction) (view : View) {prepared : Option PreparedCertificate}
    (h : ∀ c, prepared = some c → c.block.Sendable ∧ c.prepares.length ≤ maxLength) :
    ∃ m, s.roundChange H view prepared = .ok m := by
  refine ⟨_, Signer.signed_eq_ok.mpr ⟨?_, rfl⟩⟩
  show (option PreparedCertificate.format).excess prepared = none
  cases prepared with
  | none => rfl
  | some c =>
      obtain ⟨hblock, hlength⟩ := h c rfl
      show (pair _ _).excess (c.proposal, c.prepares) = none
      rw [pair_excess_eq_none, list_excess_eq_none]
      refine ⟨?_, hlength, fun _ _ => rfl⟩
      show (pair Proposal.format _).excess _ = none
      exact pair_excess_eq_none.mpr ⟨Proposal.writable_iff.mpr hblock.writable, rfl⟩

/-! ## Fresh blocks -/

namespace Block

variable {b : Block} {parent : Header} {parentDigest : Digest} {round : UInt32}
  {committee : Committee} {vote : Option Vote}

/-- Every committee that can be written can be stamped on a block. -/
theorem exists_stamp_iff :
    (∃ stamped, b.stamp parent parentDigest round committee vote = .ok stamped) ↔
      committee.size ≤ maxLength := by
  have hencode : (∃ bytes, ExtraData.encode ⟨committee.members, vote, round, []⟩ = .ok bytes) ↔
      committee.size ≤ maxLength := by
    simp [ExtraData.encode_eq_ok, ExtraData.excess_eq_none, Committee.size]
  rw [← hencode]
  simp only [stamp, bind_eq_ok, pure_eq_ok]
  constructor
  · rintro ⟨stamped, bytes, hbytes, -⟩
    exact ⟨bytes, hbytes⟩
  · rintro ⟨bytes, hbytes⟩
    exact ⟨_, bytes, hbytes, rfl⟩

end Block

namespace Execution

/-- Whatever block is made at a height, for any view and with any vote, the proposal of it is within
the limits of the encoding. -/
def ProposalsFit (e : Execution) (parent : Header) (parentDigest : Digest) (committee : Committee) :
    Prop :=
  ∀ (view : View) vote block,
    e.createBlock parent parentDigest view.round committee vote = .ok block →
      Payload.Writable (Proposal.mk view block)

variable {e : Execution} {parent : Header} {parentDigest : Digest} {committee : Committee}

/-- Within the limits, the engine's candidate becomes a block that can be proposed. -/
theorem ProposalsFit.exists_createBlock
    {candidate : Block} (h : e.ProposalsFit parent parentDigest committee)
    (hsize : committee.size ≤ maxLength) (hbuild : e.build parent = .ok candidate) (round : UInt32)
    (vote : Option Vote) :
    ∃ block, e.createBlock parent parentDigest round committee vote = .ok block ∧
      block.Sendable := by
  obtain ⟨block, hstamp⟩ := Block.exists_stamp_iff.mpr hsize
  have hcreate : e.createBlock parent parentDigest round committee vote = .ok block :=
    createBlock_eq_ok.mpr ⟨candidate, hbuild, hstamp⟩
  have hwritable : Block.format.excess block = none := h ⟨0, round⟩ vote block hcreate
  exact ⟨block, hcreate, hwritable, _, extraData_createBlock hcreate⟩

end Execution

end QuorumChain
