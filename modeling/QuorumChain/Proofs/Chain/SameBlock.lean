import QuorumChain.Proofs.Chain.Identity
import QuorumChain.Proofs.Node.Four

/-!
# Headers of one block

Two headers are headers of one block if they agree in everything but the round and the seals
that their extra-data record.  Over a hash without collisions the digest tells exactly this: the
digest is the hash of a writing, and the writing contains every other field of the header and,
inside the extra-data, the validators and the vote.  The one exception is a header whose
extra-data, even without seals, are too long for a sequence: it has no digest at all.
-/

namespace QuorumChain

open Wire Wire.Format

namespace Header

/-! ## What the digest identifies -/

/-- Headers of one block, given what their extra-data say. -/
structure SameBlock (h g : Header) (x y : ExtraData) : Prop where
  parent : h.parent = g.parent
  number : h.number = g.number
  timestamp : h.timestamp = g.timestamp
  coinbase : h.coinbase = g.coinbase
  nonce : h.nonce = g.nonce
  stateRoot : h.stateRoot = g.stateRoot
  bodyRoot : h.bodyRoot = g.bodyRoot
  validators : x.validators = y.validators
  vote : x.vote = y.vote

variable {H : HashFunction} {h g : Header} {x y : ExtraData}

theorem SameBlock.identity (hsame : h.SameBlock g x y) : x.identity = y.identity := by
  rw [ExtraData.identity, ExtraData.identity, hsame.validators, hsame.vote]

theorem SameBlock.withExtra (hsame : h.SameBlock g x y) (bytes : Octets) :
    { h with extra := bytes } = { g with extra := bytes } := by
  rw [hsame.parent, hsame.number, hsame.timestamp, hsame.coinbase, hsame.nonce, hsame.stateRoot,
    hsame.bodyRoot]

/-- Headers of one block have the same digest, or none for the same reason. -/
theorem SameBlock.digest_eq
    (H : HashFunction) (hx : h.extraData = .ok x) (hy : g.extraData = .ok y)
    (hsame : h.SameBlock g x y) : h.digest H = g.digest H := by
  simp only [digest, hx, hy, bind, Except.bind, hsame.identity, digestWith, hsame.withExtra]

/-- Headers whose digests are taken over one writing are headers of one block. -/
theorem sameBlock_of_writing
    {d e : Digest} (hx : h.extraData = .ok x) (hy : g.extraData = .ok y)
    (hd : h.digest H = .ok d) (he : g.digest H = .ok e) (hwriting : h.writing = g.writing) :
    h.SameBlock g x y := by
  obtain ⟨x', y', hx', hy', hidentity, hfields⟩ := agree_of_writing hd he hwriting
  rw [hx] at hx'
  rw [hy] at hy'
  cases hx'
  cases hy'
  have hheader := hfields []
  simp only [Header.mk.injEq, and_true] at hheader
  obtain ⟨hparent, hnumber, htimestamp, hcoinbase, hnonce, hstateRoot, hbodyRoot⟩ := hheader
  simp only [ExtraData.identity, ExtraData.mk.injEq, and_true] at hidentity
  obtain ⟨hvalidators, hvote⟩ := hidentity
  exact {
    parent := hparent
    number := hnumber
    timestamp := htimestamp
    coinbase := hcoinbase
    nonce := hnonce
    stateRoot := hstateRoot
    bodyRoot := hbodyRoot
    validators := hvalidators
    vote := hvote }

/-! ## Rewriting the round and the seals -/

/-- A header whose extra-data can be read can be proposed in any round; it stays the same block. -/
theorem exists_withRound_same
    (H : HashFunction) (hx : h.extraData = .ok x) (round : UInt32) :
    ∃ k, h.withRound round = .ok k ∧ k.digest H = h.digest H ∧
      k.extraData = .ok { x with round, seals := [] } := by
  obtain ⟨k, hk⟩ := exists_withRound hx round
  refine ⟨k, hk, digest_withRound H hk, ?_⟩
  obtain ⟨x', bytes, hx', hencode, rfl⟩ := withRound_eq_ok hk
  rw [hx] at hx'
  cases hx'
  obtain ⟨hlisted, hnodup, -⟩ := extraData_validators hx
  exact ExtraData.decode_encode hencode hlisted hnodup

/-- A header whose extra-data can be read can be sealed; it stays the same block. -/
theorem exists_withSeals_same
    (H : HashFunction) (hx : h.extraData = .ok x) {seals : List Signature}
    (hlength : seals.length ≤ maxLength) :
    ∃ k, h.withSeals seals = .ok k ∧ k.digest H = h.digest H ∧
      k.extraData = .ok { x with seals } := by
  obtain ⟨k, hk⟩ := exists_withSeals hx hlength
  refine ⟨k, hk, digest_withSeals H hk, ?_⟩
  obtain ⟨x', hx', hread⟩ := extraData_withSeals hk
  rw [hx] at hx'
  cases hx'
  exact hread

/-! ## The digest as the identity of a block -/

/-- If no two of the strings hashed for two headers collide, the headers have one digest exactly if
they are headers of one block; every other round and all seals that can be written give headers of
the block.  A header has a digest as long as what is hashed for it can be written. -/
theorem digest_eq_iff_sameBlock
    (hx : h.extraData = .ok x) (hy : g.extraData = .ok y)
    (hfree : Set.InjOn H {h.writing, g.writing}) :
    ((∃ d, h.digest H = .ok d) ↔ (ExtraData.format.write x.identity).length ≤ maxLength) ∧
    (∀ d, h.digest H = .ok d → (g.digest H = .ok d ↔ h.SameBlock g x y)) ∧
    (h.SameBlock g x y → h.digest H = g.digest H) ∧
    (∀ round, ∃ k, h.withRound round = .ok k ∧ k.digest H = h.digest H ∧
      k.extraData = .ok { x with round, seals := [] }) ∧
    ∀ seals, seals.length ≤ maxLength →
      ∃ k, h.withSeals seals = .ok k ∧ k.digest H = h.digest H ∧
        k.extraData = .ok { x with seals } := by
  refine ⟨exists_digest_iff H hx, ?_, SameBlock.digest_eq H hx hy, exists_withRound_same H hx,
    fun seals => exists_withSeals_same H hx⟩
  intro d hd
  constructor
  · intro he
    apply sameBlock_of_writing hx hy hd he
    apply hfree (Set.mem_insert _ _) (Set.mem_insert_of_mem _ rfl)
    rw [← (digest_eq_ok hd).2, ← (digest_eq_ok he).2]
  · intro hsame
    rw [← hsame.digest_eq H hx hy]
    exact hd

/-- The first block with a quorum of seals, and another block of the same height. -/
theorem digest_eq_iff_sameBlock_of_odd :
    ∃ x y, Four.head.extraData = .ok x ∧ Four.odd.header.extraData = .ok y ∧
      Set.InjOn Four.hash {Four.head.writing, Four.odd.header.writing} ∧
      ∀ d, Four.head.digest Four.hash = .ok d →
        (Four.odd.header.digest Four.hash = .ok d ↔ Four.head.SameBlock Four.odd.header x y) := by
  let seals := [0, 1, 2].map fun k => (Four.signer k).sign (Four.digest (Four.fresh 0))
  have hx : Four.head.extraData = .ok ⟨Four.committee.members, none, 0, seals⟩ := by
    decide +kernel
  have hy : Four.odd.header.extraData = .ok ⟨Four.committee.members, none, 0, []⟩ := by
    decide +kernel
  have hdistinct : Four.hash Four.head.writing ≠ Four.hash Four.odd.header.writing := by
    decide +kernel
  have hfree : Set.InjOn Four.hash {Four.head.writing, Four.odd.header.writing} := by
    rw [Set.injOn_pair]
    exact fun hhash => absurd hhash hdistinct
  obtain ⟨-, hidentifies, -⟩ := digest_eq_iff_sameBlock hx hy hfree
  exact ⟨_, _, hx, hy, hfree, hidentifies⟩

end Header

end QuorumChain
