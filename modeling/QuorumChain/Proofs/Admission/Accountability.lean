import QuorumChain.Proofs.Admission.Message
import QuorumChain.Proofs.Committee.Quorum
import QuorumChain.Proofs.Node.Four

/-!
# Conflicting certificates give the guilty away

A prepared certificate shows who has prepared its block: the check leaves only prepares that verify
for distinct members, and these are a quorum.  So two certificates of one round for different blocks
name, between them, more members than may be faulty, each with a prepare for either block.
-/

namespace QuorumChain.PreparedCertificate

variable {scheme : Scheme} {committee : Committee} {height : UInt64}
  {c c' : PreparedCertificate} {d d' : Digest}

/-- A certificate holds a member's prepare for a digest in the round of the certificate, with a
signature that is the member's. -/
structure Shows (c : PreparedCertificate) (scheme : Scheme) (d : Digest) (a : Address)
    (p : Signed Prepare) : Prop where
  held : p ∈ c.prepares
  author : p.author = a
  payload : p.payload = ⟨c.view, d⟩
  genuine : ∃ e, Payload.signingDigest scheme.hash p.payload = .ok e ∧
    scheme.verify a e p.signature = true

/-- A quorum has prepared the block of a certificate that passes its check, and the certificate
shows it. -/
theorem quorate_of_check (h : c.check scheme committee height = .ok d) :
    committee.Quorate fun a => ∃ p, c.Shows scheme d a p := by
  have hbacks := backs_of_check h
  refine Committee.quorate_of_votes hbacks.nodup (fun p hp => ?_) hbacks.quorum
  obtain ⟨hwritable, hverify, hmember⟩ := Signed.check_eq_ok.mp (hbacks.credible p hp)
  exact ⟨hmember, p, hp, rfl, hbacks.payload p hp, _,
    Payload.signingDigest_eq_ok.mpr ⟨hwritable, rfl⟩, hverify⟩

/-- If two certificates of one height and round pass their checks and are for different digests,
more members than may be faulty have prepared both digests in this round, one in each
certificate. -/
theorem conflict_accountable
    (h : c.check scheme committee height = .ok d) (h' : c'.check scheme committee height = .ok d')
    (hround : c.view.round = c'.view.round) (hne : d ≠ d') :
    ∃ culprits : List Address, culprits.Nodup ∧ committee.maxFaulty < culprits.length ∧
      ∀ a ∈ culprits, a ∈ committee.members ∧
        ∃ p p', c.Shows scheme d a p ∧ c'.Shows scheme d' a p' ∧
          p.payload.view = p'.payload.view ∧ p.payload.digest ≠ p'.payload.digest := by
  obtain ⟨culprits, hnodup, hculprits, hmany⟩ :=
    (quorate_of_check h).exists_shared (quorate_of_check h')
  refine ⟨culprits, hnodup, hmany, fun a ha => ?_⟩
  obtain ⟨hmember, ⟨p, hp⟩, p', hp'⟩ := hculprits a ha
  have hview : c.view = c'.view :=
    View.eq_of_eq ((backs_of_check h).height.trans (backs_of_check h').height.symm) hround
  refine ⟨hmember, p, p', hp, hp', ?_, ?_⟩
  · rw [hp.payload, hp'.payload, hview]
  · rw [hp.payload, hp'.payload]
    exact hne

/-- The first proposer of four has signed two blocks and the others have prepared both: two of
them at least are guilty. -/
theorem conflict_accountable_of_four :
    ∃ c c' : PreparedCertificate,
      c.check (Four.setup 0).scheme Four.committee Four.base.height =
        .ok (Four.digest (Four.fresh 0)) ∧
      c'.check (Four.setup 0).scheme Four.committee Four.base.height =
        .ok (Four.digest Four.odd) ∧
      c.view.round = c'.view.round ∧ Four.digest (Four.fresh 0) ≠ Four.digest Four.odd ∧
      ∃ culprits : List Address, culprits.Nodup ∧ 2 ≤ culprits.length ∧
        ∀ a ∈ culprits, a ∈ Four.committee.members ∧
          ∃ p p', c.Shows (Four.setup 0).scheme (Four.digest (Four.fresh 0)) a p ∧
            c'.Shows (Four.setup 0).scheme (Four.digest Four.odd) a p' ∧
            p.payload.view = p'.payload.view ∧ p.payload.digest ≠ p'.payload.digest := by
  have hpasses : ∀ b ∈ [Four.fresh 0, Four.odd], ∃ c ∈ (Four.prepared b).toOption.toList,
      c.check (Four.setup 0).scheme Four.committee Four.base.height = .ok (Four.digest b) ∧
        c.view.round = 0 := by
    decide +kernel
  obtain ⟨c, -, hcheck, hround⟩ := hpasses (Four.fresh 0) (by simp)
  obtain ⟨c', -, hcheck', hround'⟩ := hpasses Four.odd (by simp)
  have hsame : c.view.round = c'.view.round := hround.trans hround'.symm
  have hne : Four.digest (Four.fresh 0) ≠ Four.digest Four.odd := by decide +kernel
  obtain ⟨culprits, hnodup, hmany, hculprits⟩ :=
    conflict_accountable hcheck hcheck' hsame hne
  exact ⟨c, c', hcheck, hcheck', hsame, hne, culprits, hnodup, hmany, hculprits⟩

end QuorumChain.PreparedCertificate
