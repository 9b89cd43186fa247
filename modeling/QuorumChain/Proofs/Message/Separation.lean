import QuorumChain.Proofs.Admission.Message
import QuorumChain.Proofs.Committee.Quorum
import QuorumChain.Proofs.Message.Canonical
import QuorumChain.Proofs.Message.Layout
import QuorumChain.Proofs.Node.Four

/-!
# Seals that are signatures

A member signs the payloads of its messages behind the number of their kind, but the digest of a
block as it is, and both with the same key.  So a seal is a signature of a message as well, if the
header it seals is written as a payload is.  A header can be: the number of the kind and the view
stand where it names its parent, and the header of a proposed block, which is laid out in the same
way thirteen octets later, ends inside the list of validators.

For this the header has to list more validators than the block in the payload.  What the members of
a committee accept as proposals and requests is not written as a header that lists the committee.
-/

namespace QuorumChain

open Wire Wire.Format

/-! ## Payloads that are no headers -/

/-- A header that lists no more validators than another one is hardly longer, and not even by a vote
if it lists fewer. -/
theorem Header.length_writing_cases
    {h g : Header} {x y : ExtraData} (hx : h.extraData = .ok x) (hy : g.extraData = .ok y)
    (hvalidators : x.validators.length ≤ y.validators.length) :
    (x.validators.length = y.validators.length ∧
      h.writing.length ≤ (Header.format.write g).length + 25) ∨
    h.writing.length ≤ (Header.format.write g).length + 5 := by
  have hxgroups := length_writeCount (ExtraData.format.write x.identity).length
  have hygroups := length_writeCount (ExtraData.format.write y).length
  rw [Header.writing_eq hx, Header.length_write, Header.length_write,
    (ExtraData.decode_eq_ok.mp hy).1]
  dsimp only
  rcases ExtraData.length_identity_cases hvalidators with ⟨hsame, -, -, hlength⟩ | hlength
  · exact .inl ⟨hsame, by omega⟩
  · exact .inr (by omega)

variable {h : Header} {x : ExtraData}

theorem Proposal.writing_ne_header_of_lt
    {p : Proposal} {y : ExtraData} (hx : h.extraData = .ok x)
    (hy : p.block.header.extraData = .ok y)
    (hvalidators : x.validators.length < y.validators.length) : Payload.writing p ≠ h.writing := by
  intro heq
  have hlength := Proposal.length_writing p
  have hbody := length_writeCount p.block.body.transactions.length
  have hheader := Header.length_writing_cases hx hy hvalidators.le
  rw [heq] at hlength
  omega

/-! ## Seals that are no signatures -/

/-- The block in a payload, if it holds one, lists no fewer validators than a header; and if a
proposal lists as many, the votes of both are good.  A request may instead carry at least half as
many prepares. -/
def MessageKind.Outlists (h : Header) (x : ExtraData) : (k : MessageKind) → k.Content → Prop
  | .proposal, p =>
    ∃ y, p.block.header.extraData = .ok y ∧
      (x.validators.length < y.validators.length ∨
        x.validators.length = y.validators.length ∧
          h.checkVote x = .ok () ∧ p.block.header.checkVote y = .ok ())
  | .prepare, _ => True
  | .commit, _ => True
  | .roundChange, p =>
    ∀ c, p.prepared = some c →
      x.validators.length ≤ 2 * c.prepares.length ∨
        ∃ y, c.block.header.extraData = .ok y ∧ x.validators.length ≤ y.validators.length

/-- A proposal that is accepted at a height outlists every header that is good at it. -/
theorem MessageKind.outlists_of_passes
    {m : JustifiedProposal} {scheme : Scheme} {parent : Header} {parentDigest d : Digest}
    {committee : Committee} (hh : h.Proposed parent parentDigest committee x)
    (hm : m.Passes scheme parent parentDigest committee d) :
    MessageKind.proposal.Outlists h x m.signed.payload := by
  obtain ⟨y, hy⟩ := hm.header
  have hsame : x.validators.length = y.validators.length := by
    rw [hh.validators, hy.validators]
  exact ⟨y, hy.extraData, .inr ⟨hsame, hh.vote, hy.vote⟩⟩

/-- A request that carries a quorum of prepares, if any, outlists every header that lists the
committee. -/
theorem MessageKind.outlists_of_quorum
    {p : RoundChange} {committee : Committee} (hx : x.validators = committee.members)
    (hp : ∀ c, p.prepared = some c → committee.quorum ≤ c.prepares.length) :
    MessageKind.roundChange.Outlists h x p := by
  intro c hc
  left
  have hquorum := hp c hc
  have hsize : x.validators.length = committee.size := by rw [hx]; rfl
  have hmany := committee.size_add_maxFaulty_lt
  omega

theorem MessageKind.writing_ne_header
    {k : MessageKind} {p : k.Content} (hx : h.extraData = .ok x) (hp : k.Outlists h x p) :
    Payload.writing p ≠ h.writing := by
  cases k with
  | proposal =>
      obtain ⟨y, hy, hmore | ⟨hsame, hvote, hblockVote⟩⟩ := hp
      · exact Proposal.writing_ne_header_of_lt hx hy hmore
      · exact Proposal.writing_ne_header hx hvote hy hblockVote hsame.le
  | prepare => exact Prepare.writing_ne_header hx
  | commit => exact Commit.writing_ne_header hx
  | roundChange =>
      apply RoundChange.writing_ne_header_of_lt hx
      intro c hc
      rcases hp c hc with hmany | ⟨y, hy, hvalidators⟩
      · exact PreparedCertificate.length_writing_lt hx hmany
      · have hheader := Header.length_writing_cases hx hy hvalidators
        have hcertificate := PreparedCertificate.length_write c
        omega

/-- A payload that outlists a header is not hashed as the header is.  Over a hash that tells the two
strings apart, what seals of the block are over is not what signatures of the payload are over. -/
theorem MessageKind.digest_ne_signingDigest
    {k : MessageKind} {p : k.Content} (hx : h.extraData = .ok x) (hp : k.Outlists h x p) :
    Payload.writing p ≠ h.writing ∧
      ∀ (H : HashFunction) (d e : Digest), Set.InjOn H {Payload.writing p, h.writing} →
        h.digest H = .ok d → Payload.signingDigest H p = .ok e →
          d = H h.writing ∧ e = H (Payload.writing p) ∧ d ≠ e := by
  have hwriting := MessageKind.writing_ne_header hx hp
  refine ⟨hwriting, ?_⟩
  intro H d e hfree hd he
  obtain ⟨-, rfl⟩ := Header.digest_eq_ok hd
  obtain ⟨-, rfl⟩ := Payload.signingDigest_eq_ok.mp he
  refine ⟨rfl, rfl, ?_⟩
  intro hsame
  exact hwriting (hfree (Set.mem_insert _ _) (Set.mem_insert_of_mem _ rfl) hsame.symm)

/-- The first block with its seals, and the proposal it was sealed after. -/
theorem MessageKind.digest_ne_signingDigest_of_four :
    let p : Proposal := ⟨⟨1, 0⟩, Four.fresh 0⟩
    ∃ x d e, Four.head.extraData = .ok x ∧ MessageKind.proposal.Outlists Four.head x p ∧
      Set.InjOn Four.hash {Payload.writing p, Four.head.writing} ∧
        Four.head.digest Four.hash = .ok d ∧ Payload.signingDigest Four.hash p = .ok e ∧
          Payload.writing p ≠ Four.head.writing ∧ d ≠ e := by
  intro p
  have hx : Four.head.extraData = .ok ⟨Four.committee.members, none, 0,
      [0, 1, 2].map fun k => (Four.signer k).sign (Four.digest (Four.fresh 0))⟩ := by
    decide +kernel
  have hy : p.block.header.extraData = .ok ⟨Four.committee.members, none, 0, []⟩ := by
    decide +kernel
  have hp : MessageKind.proposal.Outlists Four.head _ p :=
    ⟨_, hy, .inr ⟨rfl, by decide +kernel, by decide +kernel⟩⟩
  have hhash : Four.hash (Payload.writing p) ≠ Four.hash Four.head.writing := by
    decide +kernel
  have hfree : Set.InjOn Four.hash {Payload.writing p, Four.head.writing} := by
    rw [Set.injOn_pair]
    exact fun h => absurd h hhash
  have hd : Four.head.digest Four.hash = .ok (Four.digest (Four.fresh 0)) := by
    decide +kernel
  have hwritable : Payload.Writable p := by
    show Proposal.format.excess p = none
    decide +kernel
  have he : Payload.signingDigest Four.hash p = .ok (Four.hash (Payload.writing p)) :=
    Payload.signingDigest_eq_ok.mpr ⟨hwritable, rfl⟩
  obtain ⟨hwriting, hdigests⟩ := MessageKind.digest_ne_signingDigest (k := .proposal) hx hp
  obtain ⟨-, -, hdistinct⟩ := hdigests _ _ _ hfree hd he
  exact ⟨_, _, _, hx, hp, hfree, hd, he, hwriting, hdistinct⟩

/-! ## A seal that is a signature -/

namespace Overlap

/-- Its octets stand where the proposal has the length of its extra-data and the number of its
validators. -/
def first : Address :=
  ⟨List.replicate 11 0 ++ [27, 1] ++ List.replicate 7 0, by decide⟩

/-- Its last octet stands where the proposal has the number of its transactions. -/
def second : Address :=
  ⟨List.replicate 19 0 ++ [6], by decide⟩

/-- A header of the first height that lists two validators.  The parent begins with the number of
proposals and their view. -/
def header : Header where
  parent := ⟨[0, 1] ++ List.replicate 30 0, by decide⟩
  number := 1
  timestamp := 0x10000000000
  coinbase := .zero
  nonce := dropNonce
  stateRoot := .zero
  bodyRoot := .zero
  extra := ExtraData.format.write ⟨[first, second], none, 0, []⟩

/-- A proposal at the first height of a block that lists one validator. -/
def proposal : Proposal where
  view := ⟨1, 0⟩
  block.header.parent := ⟨List.replicate 19 0 ++ [1] ++ List.replicate 12 0, by decide⟩
  block.header.number := 1
  block.header.timestamp := 0
  block.header.coinbase := .zero
  block.header.nonce := dropNonce
  block.header.stateRoot := .zero
  block.header.bodyRoot := ⟨List.replicate 19 0 ++ [47, 2] ++ List.replicate 11 0, by decide⟩
  block.header.extra := ExtraData.format.write ⟨[.zero], none, 0, []⟩
  block.body.transactions := List.replicate 6 []

theorem writing_eq : Payload.writing proposal = header.writing := by
  decide +kernel

/-- Whoever commits to the block of the header has signed the proposal, whatever the hash is. -/
theorem seal_is_signature :
    (∃ x, header.extraData = .ok x ∧ header.checkVote x = .ok ()) ∧
      (∃ y, proposal.block.header.extraData = .ok y ∧
        proposal.block.header.checkVote y = .ok ()) ∧
      ∀ (H : HashFunction) (s : Signer) (view : View), ∃ d c,
        header.digest H = .ok d ∧ s.commit H view d = .ok c ∧
          Payload.signingDigest H proposal = .ok d ∧
            s.signed H proposal = .ok ⟨proposal, s.address, c.payload.committedSeal⟩ := by
  have hx : header.extraData = .ok ⟨[first, second], none, 0, []⟩ := by
    decide +kernel
  have hy : proposal.block.header.extraData = .ok ⟨[.zero], none, 0, []⟩ := by
    decide +kernel
  have hwritable : Payload.Writable proposal := by
    show Proposal.format.excess proposal = none
    decide +kernel
  refine ⟨⟨_, hx, by decide +kernel⟩, ⟨_, hy, by decide +kernel⟩, ?_⟩
  intro H s view
  obtain ⟨d, hd⟩ := (Header.exists_digest_iff H hx).mpr (by decide +kernel)
  have hsame : d = H (Payload.writing proposal) := by
    rw [writing_eq]
    exact (Header.digest_eq_ok hd).2
  have hcommit : s.commit H view d = .ok ⟨⟨view, d, s.sign d⟩, s.address, _⟩ :=
    Signer.signed_eq_ok.mpr ⟨rfl, rfl⟩
  refine ⟨d, _, hd, hcommit, Payload.signingDigest_eq_ok.mpr ⟨hwritable, hsame⟩, ?_⟩
  rw [Signer.signed_eq_ok, ← hsame]
  exact ⟨hwritable, rfl⟩

end Overlap

end QuorumChain
