import QuorumChain.Proofs.Assembly.Authenticity
import QuorumChain.Proofs.Node.Equivocation

/-!
# Locking

Once a quorum has committed a digest in a view, no quorum prepares another one in that view or a
later one.  In the same view, a member of both quorums would have prepared two digests.  In a later
view, a proposal needs a quorum of requests; one of them comes from a member that has committed, so
it carries a certificate of the view committed or of one behind it, and the latest certificate among
the requests decides what is proposed.
-/

namespace QuorumChain.Assembly

variable {ι : Type} [DecidableEq ι] {N : Assembly ι} {run : List (Happening ι)} {x y : ι}
  {a : Address} {v w : View} {d d' : Digest}

/-! ## One member -/

section Member

variable (hnever : N.NeverResets run)

include hnever

theorem node_unique
    {m : Message} (hm : .broadcast m ∈ (N.record run x).made)
    (haddress : N.address x = N.address y) :
    x = y :=
  N.distinct x y ((hnever.reachable x).authored hm).member haddress

/-- Nobody prepares two digests in one view. -/
theorem prepared_unique (h : N.Prepared run a v d) (h' : N.Prepared run a v d') : d = d' := by
  obtain ⟨x, p, rfl, hp, hpayload⟩ := h
  obtain ⟨y, p', haddress, hp', hpayload'⟩ := h'
  obtain rfl := node_unique hnever hp' haddress
  have hsame := (hnever.reachable y).consistent.prepares p p' hp hp' (by rw [hpayload, hpayload'])
  rwa [hpayload, hpayload'] at hsame

/-- What somebody has committed he has prepared. -/
theorem prepared_of_committed (h : N.Committed run a v d) : N.Prepared run a v d := by
  obtain ⟨x, p, haddress, hp, rfl, rfl⟩ := h
  obtain ⟨-, -, ⟨p', hp', hsame⟩, -⟩ := (hnever.reachable x).logged.commits p hp
  exact ⟨x, p', haddress, hp', hsame⟩

/-- Whoever has committed asks for later views with a certificate that is not earlier. -/
theorem asked_of_committed
    {prepared : Option PreparedCertificate} (h : N.Committed run a v d)
    (hasked : N.Asked run a w prepared) (hlater : v.round < w.round) :
    ∃ c, prepared = some c ∧ v.round ≤ c.view.round := by
  obtain ⟨x, p, rfl, hp, rfl, rfl⟩ := h
  obtain ⟨y, q, haddress, hq, hpayload⟩ := hasked
  obtain rfl := node_unique hnever hq haddress
  have hlock := ((hnever.reachable y).logged.requests q hq).2.2 p hp
  rw [hpayload] at hlock
  exact hlock hlater

end Member

/-! ## Quorums -/

section Quorums

variable (hrun : N.Run run) (hnever : N.NeverResets run) (hfree : N.CollisionFree run)

include hrun hnever hfree

theorem quorate_of_committed
    (h : N.Committed run a v d) :
    N.base.committee.Quorate fun a => a ∉ N.faulty → N.Prepared run a v d := by
  obtain ⟨x, p, -, hp, rfl, rfl⟩ := h
  obtain ⟨-, -, -, c, hview, hsupports⟩ := (hnever.reachable x).logged.commits p hp
  rw [← hview]
  exact quorate_of_supports hrun hnever hfree hsupports

/-- What decides a digest is a quorum that has committed it. -/
theorem quorate_of_decides
    (hheight : v.height = N.base.height) (h : (N.record run x).Decides (N.setup x) N.base v d) :
    N.base.committee.Quorate fun a => a ∉ N.faulty → N.Committed run a v d := by
  obtain ⟨commits, hnodup, hquorum, hcommits⟩ := h
  refine Committee.quorate_of_votes hnodup (fun p hp => ?_) hquorum
  obtain ⟨hview, hdigest, hcredits⟩ := hcommits p hp
  refine ⟨hcredits.1, ?_⟩
  intro hhonest
  have hcommitted := committed_of_credits hrun hnever hfree hcredits (hview ▸ hheight) hhonest
  rwa [hview, hdigest] at hcommitted

/-- What somebody prepares above round zero rests on a quorum of requests; if one of them carries a
certificate, a quorum has prepared the same digest in the latest view among those. -/
theorem justified_of_prepared
    (h : N.Prepared run a v d) (hround : v.round ≠ 0) :
    ∃ c : RoundChangeCertificate,
      (N.base.committee.Quorate fun a => a ∉ N.faulty →
        ∃ q ∈ c.requests, N.Asked run a v q.payload.prepared) ∧
      ∀ q ∈ c.requests, ∀ p, q.payload.prepared = some p →
        ∃ best : PreparedCertificate, best.view.height = v.height ∧
          p.view.round ≤ best.view.round ∧ best.view.round < v.round ∧
            N.base.committee.Quorate fun a => a ∉ N.faulty → N.Prepared run a best.view d := by
  obtain ⟨x, p, -, hp, hpayload⟩ := h
  obtain ⟨⟨⟨hheight, -⟩, -⟩, m, hview, hgrounds⟩ := (hnever.reachable x).logged.prepares p hp
  rw [hpayload] at hheight hview hgrounds
  dsimp only at hheight hview hgrounds
  rw [← hview] at hround
  obtain ⟨c, hc, hjustifies, -⟩ := hgrounds.justified hround
  refine ⟨c, Committee.quorate_of_votes hjustifies.nodup (fun q hq => ?_) hjustifies.quorum, ?_⟩
  · have hupholds := hjustifies.credible q hq
    refine ⟨hupholds.1.1, fun hhonest => ⟨q, hq, ?_⟩⟩
    have hview' := (hjustifies.view q hq).trans hview
    have hasked := asked_of_upholds hrun hnever hfree hupholds (hview' ▸ hheight) hhonest
    rwa [hview'] at hasked
  · intro q hq b hb
    have hcarried := Record.height_of_justifies hjustifies
    cases hlatest : c.latestPrepared with
    | none =>
        rw [RoundChangeCertificate.prepared_eq_none hcarried hlatest hq] at hb
        contradiction
    | some best =>
        obtain ⟨-, hle⟩ := RoundChangeCertificate.latestPrepared_eq_some hcarried hlatest
        obtain ⟨hearlier, hsupports⟩ :=
          hgrounds.supports_latest (by rw [hview, hheight]) hround hc hlatest
        rw [hview] at hearlier
        exact ⟨best, hsupports.height.trans hheight.symm, hle q hq b hb, hearlier,
          quorate_of_supports hrun hnever hfree hsupports⟩

/-- A digest that a quorum has committed locks its view and all later ones of the height. -/
theorem locked
    (hcommitted : N.base.committee.Quorate fun a => a ∉ N.faulty → N.Committed run a v d)
    (hheight : w.height = v.height) (hle : v.round ≤ w.round)
    (hprepared : N.base.committee.Quorate fun a => a ∉ N.faulty → N.Prepared run a w d') :
    d' = d := by
  obtain ⟨n, hn⟩ : ∃ n, w.round.toNat = n := ⟨_, rfl⟩
  induction n using Nat.strongRecOn generalizing w d' with
  | ind n ih =>
      by_cases hsame : w.round = v.round
      · obtain rfl := View.eq_of_eq hheight hsame
        obtain ⟨a, -, hhonest, hprepares, hcommits⟩ :=
          hprepared.exists_common hcommitted N.few
        exact prepared_unique hnever (hprepares hhonest)
          (prepared_of_committed hnever (hcommits hhonest))
      · have hlater : v.round < w.round := by
          refine UInt32.lt_of_le_of_ne hle fun heq => hsame heq.symm
        have hround : w.round ≠ 0 := by
          intro hzero
          rw [hzero] at hlater
          exact UInt32.not_lt_zero hlater
        obtain ⟨b, -, hb, hprepares⟩ := hprepared.exists_honest N.few
        obtain ⟨c, hrequests, hcarried⟩ :=
          justified_of_prepared hrun hnever hfree (hprepares hb) hround
        -- Some member has committed in the earlier view and asked for the later one.
        obtain ⟨a, -, ha, hcommits, hasks⟩ := hcommitted.exists_common hrequests N.few
        obtain ⟨q, hq, hasked⟩ := hasks ha
        obtain ⟨p, hp, hlocked⟩ := asked_of_committed hnever (hcommits ha) hasked hlater
        obtain ⟨best, hbestHeight, hbestLe, hearlier, hquorate⟩ := hcarried q hq p hp
        refine ih _ ?_ (hbestHeight.trans hheight) (UInt32.le_trans hlocked hbestLe) hquorate rfl
        rw [← hn]
        exact hearlier

/-- Of two digests that quorums have committed, both are the same. -/
theorem committed_unique
    (h : N.base.committee.Quorate fun a => a ∉ N.faulty → N.Committed run a v d)
    (h' : N.base.committee.Quorate fun a => a ∉ N.faulty → N.Committed run a w d')
    (hheight : w.height = v.height) : d' = d := by
  obtain ⟨b, -, hb, hcommits⟩ := h.exists_honest N.few
  obtain ⟨b', -, hb', hcommits'⟩ := h'.exists_honest N.few
  rcases UInt32.le_total v.round w.round with hle | hle
  · exact locked hrun hnever hfree h hheight hle
      (quorate_of_committed hrun hnever hfree (hcommits' hb'))
  · exact (locked hrun hnever hfree h' hheight.symm hle
      (quorate_of_committed hrun hnever hfree (hcommits hb))).symm

end Quorums

end QuorumChain.Assembly
