import QuorumChain.Proofs.Node.Endurance
import QuorumChain.Proofs.Node.Import

/-!
# Links to the parent

A block is linked to what a height is built on if it has the number of the height and names the
digest of the parent.  A fresh block is linked by the way it is made, and a proposal that is
heard is checked for it.  The check of a certificate does not look at the parent, so a block
that is proposed again is linked only as long as the certificates that are heard hold linked
blocks.  Then the block that a node hands out extends the parent.
-/

namespace QuorumChain

/-- A header may stand on top of what a height is built on. -/
structure Header.LinksTo (h : Header) (b : Base) : Prop where
  number : h.number = b.height
  parent : h.parent = b.parentDigest

namespace Header

variable {h g : Header} {b : Base}

theorem linksTo_of_check
    {round : UInt32} {x : ExtraData}
    (hx : h.checkProposed b.parent b.parentDigest b.committee round = .ok x) : h.LinksTo b :=
  ⟨(proposed_of_check hx).number, (proposed_of_check hx).parent⟩

theorem LinksTo.withRound
    {round : UInt32} (hlinks : h.LinksTo b) (hg : h.withRound round = .ok g) : g.LinksTo b := by
  obtain ⟨x, bytes, -, -, rfl⟩ := withRound_eq_ok hg
  exact ⟨hlinks.number, hlinks.parent⟩

theorem LinksTo.withSeals
    {seals : List Signature} (hlinks : h.LinksTo b) (hg : h.withSeals seals = .ok g) :
    g.LinksTo b := by
  obtain ⟨x, bytes, -, -, rfl⟩ := withSeals_eq_ok hg
  exact ⟨hlinks.number, hlinks.parent⟩

end Header

namespace Record

/-- All blocks that an instance may propose again or hand out are linked. -/
structure Linked (b : Base) (i : Instance) : Prop where
  accepted : ∀ m d, i.round.accepted = some (m, d) → m.signed.payload.block.header.LinksTo b
  prepared : ∀ c, i.prepared = some c → c.block.header.LinksTo b
  changes : ∀ round, ∀ x ∈ (i.changes.forRound round).entries, ∀ c,
    x.2.payload.prepared = some c → c.block.header.LinksTo b

/-- The certificates that requests have brought hold linked blocks if they pass their check. -/
def HearsLinked (s : Setup) (b : Base) (heard : List Input) : Prop :=
  ∀ q c d, .message (.roundChange q) ∈ heard → q.payload.prepared = some c →
    c.check s.scheme b.committee b.height = .ok d → c.block.header.LinksTo b

variable {s : Setup} {b : Base} {r : Record} {moment : Setup.Moment} {actions : List Action}
  {i j : Instance}

theorem HearsLinked.tail
    {input : Input} {heard : List Input} (h : HearsLinked s b (input :: heard)) :
    HearsLinked s b heard :=
  fun q c d hq => h q c d (List.mem_cons_of_mem _ hq)

theorem linked_fresh (s : Setup) (b : Base) : Linked b (b.fresh s) where
  accepted m d hm := by contradiction
  prepared c hc := by contradiction
  changes round x hx := absurd hx List.not_mem_nil

theorem Framed.base (h : Framed s b i) : i.base = b := by
  rw [Instance.base, h.parent, h.parentDigest, h.committee]

/-! ## One move -/

theorem Linked.candidate
    {block : Block} {certificate : Option RoundChangeCertificate} (h : Linked b i)
    (hframed : Framed s b i)
    (hcandidate : Instance.Candidate (s.context moment) i block certificate) :
    block.header.LinksTo b := by
  have hfresh : ∀ {block : Block},
      Instance.freshBlock (s.context moment) i = .ok (some block) → block.header.LinksTo b := by
    intro block hblock
    obtain ⟨hnumber, hparent⟩ := Instance.freshBlock_extends hblock
    rw [← hframed.base]
    exact ⟨hnumber, hparent⟩
  cases hcandidate with
  | first _ hblock => exact hfresh hblock
  | fresh _ _ _ hblock => exact hfresh hblock
  | again _ hrc hp hheader =>
      obtain ⟨q, hq, hprepared⟩ := RoundChangeCertificate.exists_of_latestPrepared hp
      rw [(RoundChanges.certificate?_eq_some hrc).1] at hq
      obtain ⟨k, hk⟩ := SortedMap.mem_values.mp hq
      exact (h.changes _ _ hk _ hprepared).withRound hheader

theorem Linked.move
    (h : Linked b r.now) (hframed : Framed s b r.now) (hheard : HearsLinked s b r.heard)
    (hmove : Instance.Move (s.context moment) r.heard r.now actions j) : Linked b j where
  accepted m d hj := by
    rcases hmove.of_accepted hj with hold | ⟨-, -, hcheck⟩ | hsent
    · exact h.accepted m d hold
    · rw [hframed.parent, hframed.parentDigest, hframed.committee] at hcheck
      obtain ⟨⟨x, hx⟩, -⟩ := JustifiedProposal.check_eq_ok.mp hcheck
      exact Header.linksTo_of_check hx
    · obtain ⟨block, certificate, _, _, -, -, hcandidate, -, hsigned, -⟩ := hmove.of_proposal hsent
      obtain ⟨-, hpayload, -⟩ := Signer.proposal_eq_ok hsigned
      rw [hpayload]
      exact h.candidate hframed (Instance.candidate_eq_ok.mp hcandidate)
  prepared c hc := by
    rcases hmove.of_prepared hc with hold | ⟨m, d, haccepted, -, -, rfl⟩
    · exact h.prepared c hold
    · exact h.accepted m d haccepted
  changes round x hx c hc := by
    rcases hmove.of_requested hx with hold | ⟨q, rfl, rfl, ⟨hq, hadmitted⟩ | hsent⟩
    · exact h.changes round x hold c hc
    · obtain ⟨-, hpayload, hheight⟩ := Message.admitted_request hadmitted
      rw [hframed.position_committee] at hpayload
      obtain ⟨-, d, hcheck⟩ := RoundChange.check_eq_ok.mp hpayload c hc
      rw [hheight.trans hframed.height] at hcheck
      exact hheard q c d hq hc hcheck
    · -- The node's own request carries the certificate that it holds.
      obtain ⟨target, -, -, -, hsigned, -⟩ := hmove.of_request hsent
      obtain ⟨-, hpayload, -⟩ := Signer.roundChange_eq_ok hsigned
      rw [hpayload] at hc
      exact h.prepared c hc

/-! ## All runs -/

theorem Attainable.linked (hr : Attainable s b r) (hheard : HearsLinked s b r.heard) :
    Linked b r.now := by
  induction hr with
  | idle => exact linked_fresh s b
  | opened moment => exact linked_fresh s b
  | hear input _ ih => exact ih hheard.tail
  | move hr hmove ih => exact (ih hheard).move hr.framed hheard hmove
  | reset hr hlast _ hdeparts ih =>
      rw [hr.eq_entering hlast hdeparts]
      refine ⟨fun m d hm => by contradiction, (ih hheard).prepared, fun round x hx => ?_⟩
      exact (ih hheard).changes round x (RoundChanges.mem_forRound_dropBelow hx)

/-- Either nothing was handed out and the round is open, or it is committed and one block was handed
out, which is linked and has the digest that the round is committed to. -/
theorem Attainable.open_or_hands_linked
    (hr : Attainable s b r) (hheard : HearsLinked s b r.heard) :
    (r.now.round.phase ≠ .committed ∧ r.imported = []) ∨
      (r.now.round.phase = .committed ∧ ∃ block d, r.imported = [block] ∧
        block.header.LinksTo b ∧ block.header.digest s.scheme.hash = .ok d ∧
          r.now.committed? = some d) := by
  rcases hr.open_or_hands with hopen | ⟨hcommitted, block, himported, r₀, m, d, header, -, hlasts,
    haccepted, -, hheader, rfl⟩
  · exact .inl hopen
  · have hnow := hlasts.accepted _ haccepted
    refine .inr ⟨hcommitted, _, d, himported, ?_, ?_, ?_⟩
    · exact ((hr.linked hheard).accepted m d hnow).withSeals hheader
    · exact (Header.digest_withSeals _ hheader).trans (hr.sound.accepted m d hnow).2.digest
    · rw [Instance.committed?, if_pos hcommitted]
      exact Round.digest_eq_some.mpr ⟨m, hnow⟩

end Record

end QuorumChain
