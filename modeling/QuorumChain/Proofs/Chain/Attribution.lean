import Mathlib.Data.List.Perm.Basic
import QuorumChain.Proofs.Chain.Sealing
import QuorumChain.Proofs.Node.Four

/-!
# Which headers count as committed

The seals of a header are taken one by one.  Each is attributed to the first member for whom it
verifies, and nobody may be met again.  If no signature over one digest is good for two members,
this search comes to a plain condition: every seal is some member's, nobody has sealed twice,
and the seals are a quorum.  The condition looks neither at the order of the seals nor at the
round.
-/

namespace QuorumChain

/-! ## Lists of makers -/

section Makers

variable {α β : Type} {R : α → β → Prop} {makers : List α} {items : List β}

theorem exists_made (h : List.Forall₂ R makers items) {a : α} (ha : a ∈ makers) :
    ∃ b ∈ items, R a b :=
  exists_maker (R := fun b a => R a b) h.flip ha

/-- Where everything has one maker, a list of distinct makers can be given exactly if everything
has a maker and nobody has made two of the items. -/
theorem exists_nodup_makers_iff
    (hunique : ∀ b a a', R a b → R a' b → a = a') :
    (∃ makers : List α, makers.Nodup ∧ List.Forall₂ R makers items) ↔
      (∀ b ∈ items, ∃ a, R a b) ∧ items.Pairwise fun b b' => ∀ a, ¬(R a b ∧ R a b') := by
  constructor
  · rintro ⟨makers, hnodup, hmakers⟩
    refine ⟨fun b hb => ?_, ?_⟩
    · obtain ⟨a, -, hmade⟩ := exists_maker hmakers hb
      exact ⟨a, hmade⟩
    · induction hmakers with
      | nil => exact .nil
      | @cons a b makers items hfirst hrest ih =>
          obtain ⟨hnew, hnodup⟩ := List.nodup_cons.mp hnodup
          refine List.pairwise_cons.mpr ⟨?_, ih hnodup⟩
          rintro b' hb' a' ⟨hmade, hmade'⟩
          -- the maker of the first item would be that of a later one
          obtain ⟨a'', ha'', hlater⟩ := exists_maker hrest hb'
          obtain rfl := hunique b a' a hmade hfirst
          obtain rfl := hunique b' a'' a' hlater hmade'
          exact hnew ha''
  · rintro ⟨hmade, hsingle⟩
    induction items with
    | nil => exact ⟨[], .nil, .nil⟩
    | cons b rest ih =>
        obtain ⟨hfirst, hrest⟩ := List.forall_mem_cons.mp hmade
        obtain ⟨hothers, hsingle⟩ := List.pairwise_cons.mp hsingle
        obtain ⟨a, ha⟩ := hfirst
        obtain ⟨makers, hnodup, hmakers⟩ := ih hrest hsingle
        refine ⟨a :: makers, List.nodup_cons.mpr ⟨fun hmem => ?_, hnodup⟩, .cons ha hmakers⟩
        obtain ⟨b', hb', ha'⟩ := exists_made hmakers hmem
        exact hothers b' hb' a ⟨ha, ha'⟩

end Makers

namespace Header

variable {scheme : Scheme} {committee : Committee} {h g : Header} {x y : ExtraData} {d : Digest}
  {seals : List Signature} {signers : List Address}

/-! ## What the check of a committed header amounts to -/

/-- Distinct members have made some seals, one each and in this order. -/
structure SealedBy (scheme : Scheme) (committee : Committee) (d : Digest)
    (seals : List Signature) (signers : List Address) : Prop where
  nodup : signers.Nodup
  made : List.Forall₂ (fun a mark => a ∈ committee.members ∧ scheme.verify a d mark = true)
    signers seals

/-- A header with a digest lists the committee and the vote of its fields, and is sealed by members,
none of them twice and enough for a quorum. -/
structure Committed (h : Header) (scheme : Scheme) (committee : Committee) (x : ExtraData)
    (d : Digest) : Prop where
  extraData : h.extraData = .ok x
  digest : h.digest scheme.hash = .ok d
  lists : x.validators = committee.members
  vote : h.carriedVote = .ok x.vote
  genuine : ∀ mark ∈ x.seals, ∃ a ∈ committee.members, scheme.verify a d mark = true
  single : x.seals.Pairwise fun mark mark' => ∀ a ∈ committee.members,
    ¬(scheme.verify a d mark = true ∧ scheme.verify a d mark' = true)
  quorum : committee.quorum ≤ x.seals.length

section Unique

variable (hunique : ∀ d mark, ∀ a ∈ committee.members, ∀ a' ∈ committee.members,
  scheme.verify a d mark = true → scheme.verify a' d mark = true → a = a')

include hunique

/-- The seals are attributed to those who made them. -/
theorem attributeSeals_iff_sealedBy :
    attributeSeals scheme committee d 0 [] seals = .ok signers ↔
      SealedBy scheme committee d seals signers := by
  simp only [attributeSeals_eq_ok_iff, find?_verify_eq_some (hunique d _), List.not_mem_nil,
    not_false_eq_true, implies_true, and_true]
  exact ⟨fun ⟨hmade, hnodup⟩ => ⟨hnodup, hmade⟩, fun hsealed => ⟨hsealed.made, hsealed.nodup⟩⟩

theorem exists_sealedBy_iff :
    (∃ signers, SealedBy scheme committee d seals signers) ↔
      (∀ mark ∈ seals, ∃ a ∈ committee.members, scheme.verify a d mark = true) ∧
        seals.Pairwise fun mark mark' => ∀ a ∈ committee.members,
          ¬(scheme.verify a d mark = true ∧ scheme.verify a d mark' = true) := by
  have hmakers := @exists_nodup_makers_iff _ _
    (fun a mark => a ∈ committee.members ∧ scheme.verify a d mark = true) seals
    fun mark a a' ⟨ha, hverify⟩ ⟨ha', hverify'⟩ => hunique d mark a ha a' ha' hverify hverify'
  have hpairs : ∀ mark mark' : Signature,
      (∀ a, ¬((a ∈ committee.members ∧ scheme.verify a d mark = true) ∧
        a ∈ committee.members ∧ scheme.verify a d mark' = true)) ↔
      ∀ a ∈ committee.members,
        ¬(scheme.verify a d mark = true ∧ scheme.verify a d mark' = true) := by
    intro mark mark'
    exact forall_congr' fun a => by tauto
  simp only [hpairs] at hmakers
  rw [← hmakers]
  exact exists_congr fun signers => ⟨fun hsealed => ⟨hsealed.nodup, hsealed.made⟩,
    fun ⟨hnodup, hmade⟩ => ⟨hnodup, hmade⟩⟩

theorem exists_checkCommitted_iff :
    (∃ signers, h.checkCommitted scheme committee = .ok signers) ↔
      ∃ x d, h.Committed scheme committee x d := by
  simp only [checkCommitted_eq_ok, attributeSeals_iff_sealedBy hunique]
  constructor
  · rintro ⟨signers, x, d, hx, hd, hlists, hvote, hsealed, hquorum⟩
    obtain ⟨hgenuine, hsingle⟩ := (exists_sealedBy_iff hunique).mp ⟨signers, hsealed⟩
    rw [hsealed.made.length_eq] at hquorum
    exact ⟨x, d, hx, hd, hlists, hvote, hgenuine, hsingle, hquorum⟩
  · rintro ⟨x, d, hcommitted⟩
    obtain ⟨signers, hsealed⟩ :=
      (exists_sealedBy_iff hunique).mpr ⟨hcommitted.genuine, hcommitted.single⟩
    have hquorum := hcommitted.quorum
    rw [← hsealed.made.length_eq] at hquorum
    exact ⟨signers, x, d, hcommitted.extraData, hcommitted.digest, hcommitted.lists,
      hcommitted.vote, hsealed, hquorum⟩

end Unique

/-! ## Reordered seals and other rounds -/

/-- Seals in another order are attributed to the same members in that order. -/
theorem attributeSeals_perm
    {marks : List Signature} (hperm : marks.Perm seals)
    (hseals : attributeSeals scheme committee d 0 [] seals = .ok signers) :
    ∃ signers', signers'.Perm signers ∧
      attributeSeals scheme committee d 0 [] marks = .ok signers' := by
  obtain ⟨hfound, hnodup, hnew⟩ := attributeSeals_eq_ok_iff.mp hseals
  obtain ⟨signers', hfound', hperm'⟩ := List.perm_comp_forall₂ hperm hfound.flip
  refine ⟨signers', hperm', attributeSeals_eq_ok_iff.mpr ⟨hfound'.flip, ?_, ?_⟩⟩
  · exact hperm'.nodup_iff.mpr hnodup
  · exact fun a ha => hnew a (hperm'.mem_iff.mp ha)

/-- A header of the same block with the same seals in another order is committed as well. -/
theorem checkCommitted_perm
    (hx : h.extraData = .ok x) (hy : g.extraData = .ok y)
    (hdigest : g.digest scheme.hash = h.digest scheme.hash)
    (hcarried : g.carriedVote = h.carriedVote) (hidentity : y.identity = x.identity)
    (hperm : y.seals.Perm x.seals) (hcheck : h.checkCommitted scheme committee = .ok signers) :
    ∃ signers', signers'.Perm signers ∧ g.checkCommitted scheme committee = .ok signers' := by
  obtain ⟨x', d, hx', hd, hlists, hvote, hseals, hquorum⟩ := checkCommitted_eq_ok.mp hcheck
  obtain rfl := Except.ok.inj (hx.symm.trans hx')
  simp only [ExtraData.identity, ExtraData.mk.injEq, and_true] at hidentity
  obtain ⟨hvalidators, hsame⟩ := hidentity
  obtain ⟨signers', hsigners, hseals'⟩ := attributeSeals_perm hperm hseals
  refine ⟨signers', hsigners, checkCommitted_eq_ok.mpr
    ⟨y, d, hy, hdigest.trans hd, hvalidators.trans hlists, ?_, hseals', ?_⟩⟩
  · rw [hcarried, hvote, hsame]
  · rw [hsigners.length_eq]
    exact hquorum

/-- With its seals in any order and any other round, a header can be written, and it is committed
exactly if it was, by the same members. -/
theorem exists_reordered
    (scheme : Scheme) (committee : Committee) (hx : h.extraData = .ok x) (round : UInt32)
    {marks : List Signature} (hperm : marks.Perm x.seals) :
    ∃ g, h.withExtraData { x with round, seals := marks } = .ok g ∧
      (∀ signers, h.checkCommitted scheme committee = .ok signers →
        ∃ signers', signers'.Perm signers ∧ g.checkCommitted scheme committee = .ok signers') ∧
      ∀ signers', g.checkCommitted scheme committee = .ok signers' →
        ∃ signers, signers.Perm signers' ∧ h.checkCommitted scheme committee = .ok signers := by
  obtain ⟨-, hexcess, hlisted, hnodup⟩ := ExtraData.decode_eq_ok.mp hx
  have hfits : ExtraData.format.excess { x with round, seals := marks } = none := by
    obtain ⟨hvalidators, hseals⟩ := ExtraData.excess_eq_none.mp hexcess
    exact ExtraData.excess_eq_none.mpr ⟨hvalidators, hperm.length_eq.trans_le hseals⟩
  have hencode := ExtraData.encode_eq_ok.mpr ⟨hfits, rfl⟩
  obtain ⟨g, hg⟩ : ∃ g, h.withExtraData { x with round, seals := marks } = .ok g := by
    rw [withExtraData, hencode]
    exact ⟨_, rfl⟩
  have hy := extraData_withExtraData hg hlisted hnodup
  have hdigest := digest_withExtraData scheme.hash hx hg rfl
  have hcarried : g.carriedVote = h.carriedVote := by
    obtain ⟨bytes, -, rfl⟩ := withExtraData_eq_ok hg
    rfl
  refine ⟨g, hg, fun signers hcheck => ?_, fun signers' hcheck => ?_⟩
  · exact checkCommitted_perm hx hy hdigest hcarried rfl hperm hcheck
  · exact checkCommitted_perm hy hx hdigest.symm hcarried.symm rfl hperm.symm hcheck

/-! ## The check is exact -/

/-- If no signature over one digest is good for two members, a header passes the check exactly if it
counts as committed; the answer is the list of those who made the seals, in the order of these; and
neither the order of the seals nor the round makes a difference. -/
theorem committed_exact
    (h : Header)
    (hunique : ∀ d mark, ∀ a ∈ committee.members, ∀ a' ∈ committee.members,
      scheme.verify a d mark = true → scheme.verify a' d mark = true → a = a') :
    ((∃ signers, h.checkCommitted scheme committee = .ok signers) ↔
      ∃ x d, h.Committed scheme committee x d) ∧
    (∀ signers, h.checkCommitted scheme committee = .ok signers →
      ∃ x d, h.extraData = .ok x ∧ h.digest scheme.hash = .ok d ∧
        SealedBy scheme committee d x.seals signers) ∧
    ∀ x, h.extraData = .ok x → ∀ round marks, marks.Perm x.seals →
      ∃ g, h.withExtraData { x with round, seals := marks } = .ok g ∧
        ((∃ signers, g.checkCommitted scheme committee = .ok signers) ↔
          ∃ signers, h.checkCommitted scheme committee = .ok signers) := by
  refine ⟨exists_checkCommitted_iff hunique, fun signers hcheck => ?_,
    fun x hx round marks hperm => ?_⟩
  · obtain ⟨x, d, hx, hd, -, -, hseals, -⟩ := checkCommitted_eq_ok.mp hcheck
    exact ⟨x, d, hx, hd, (attributeSeals_iff_sealedBy hunique).mp hseals⟩
  · obtain ⟨g, hg, hforth, hback⟩ := exists_reordered scheme committee hx round hperm
    refine ⟨g, hg, ⟨?_, ?_⟩⟩
    · rintro ⟨signers', hcheck⟩
      obtain ⟨signers, -, hchecked⟩ := hback signers' hcheck
      exact ⟨signers, hchecked⟩
    · rintro ⟨signers, hcheck⟩
      obtain ⟨signers', -, hchecked⟩ := hforth signers hcheck
      exact ⟨signers', hchecked⟩

/-- Three of four members have sealed the first block; with the seals turned round and another
round in its extra-data it is still committed. -/
theorem committed_exact_of_four :
    let scheme := (Four.setup 0).scheme
    (∀ d mark, ∀ a ∈ Four.committee.members, ∀ a' ∈ Four.committee.members,
      scheme.verify a d mark = true → scheme.verify a' d mark = true → a = a') ∧
    ∃ x d, Four.head.Committed scheme Four.committee x d ∧
      SealedBy scheme Four.committee d x.seals [Four.address 0, Four.address 1, Four.address 2] ∧
      ∃ g, Four.head.withExtraData { x with round := 5, seals := x.seals.reverse } = .ok g ∧
        ∃ signers, g.checkCommitted scheme Four.committee = .ok signers := by
  intro scheme
  have hunique : ∀ d mark, ∀ a ∈ Four.committee.members, ∀ a' ∈ Four.committee.members,
      scheme.verify a d mark = true → scheme.verify a' d mark = true → a = a' :=
    fun _ _ _ _ _ _ hverify hverify' => Four.verify_unique hverify hverify'
  have hcheck : Four.head.checkCommitted scheme Four.committee =
      .ok [Four.address 0, Four.address 1, Four.address 2] := by
    decide +kernel
  obtain ⟨hiff, hmade, hreordered⟩ := committed_exact Four.head hunique
  obtain ⟨x, d, hcommitted⟩ := hiff.mp ⟨_, hcheck⟩
  obtain ⟨x', d', hx, hd, hsealed⟩ := hmade _ hcheck
  obtain rfl := Except.ok.inj (hx.symm.trans hcommitted.extraData)
  obtain rfl := Except.ok.inj (hd.symm.trans hcommitted.digest)
  obtain ⟨g, hg, hsame⟩ := hreordered _ hx 5 _ (List.reverse_perm _)
  exact ⟨hunique, _, _, hcommitted, hsealed, g, hg, hsame.mpr ⟨_, hcheck⟩⟩

end Header

end QuorumChain
