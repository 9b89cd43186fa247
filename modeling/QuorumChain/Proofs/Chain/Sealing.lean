import Mathlib.Data.List.Forall2
import QuorumChain.Proofs.Chain.Identity
import QuorumChain.Proofs.Committee.Quorum
import QuorumChain.Proofs.Message.Layout

/-!
# Those who sealed a header

Each seal of a committed header is attributed to a member, no member is counted twice, and there are
enough of them for a quorum.
-/

namespace QuorumChain

variable {scheme : Scheme} {committee : Committee}

/-- What comes with a list of makers, one each, has a maker in the list. -/
theorem exists_maker
    {α β : Type} {R : α → β → Prop} {makers : List α} {items : List β}
    (h : List.Forall₂ R makers items) {b : β} (hb : b ∈ items) : ∃ a ∈ makers, R a b := by
  induction h with
  | nil => exact absurd hb List.not_mem_nil
  | cons hfirst _ ih =>
      rcases List.mem_cons.mp hb with rfl | hb
      · exact ⟨_, List.mem_cons_self, hfirst⟩
      · obtain ⟨a, ha, hmade⟩ := ih hb
        exact ⟨a, List.mem_cons_of_mem _ ha, hmade⟩

/-- If a seal verifies for one member only, that is the first one for whom it does. -/
theorem Header.find?_verify_eq_some
    {d : Digest} {mark : Signature} {a : Address}
    (hunique : ∀ a ∈ committee.members, ∀ a' ∈ committee.members,
      scheme.verify a d mark = true → scheme.verify a' d mark = true → a = a') :
    committee.members.find? (scheme.verify · d mark) = some a ↔
      a ∈ committee.members ∧ scheme.verify a d mark = true := by
  constructor
  · intro hfind
    exact ⟨List.mem_of_find?_eq_some hfind,
      List.find?_some (p := (scheme.verify · d mark)) hfind⟩
  · rintro ⟨hmember, hverify⟩
    have hsome : (committee.members.find? (scheme.verify · d mark)).isSome :=
      List.find?_isSome.mpr ⟨a, hmember, hverify⟩
    obtain ⟨a', hfind⟩ := Option.isSome_iff_exists.mp hsome
    rw [hfind, hunique a' (List.mem_of_find?_eq_some hfind) a hmember
      (List.find?_some (p := (scheme.verify · d mark)) hfind) hverify]

/-- Each seal is attributed to the first member for whom it verifies; these are distinct, and
not known yet. -/
theorem Header.attributeSeals_eq_ok_iff
    {d : Digest} {index : ℕ} {known signers : List Address} {seals : List Signature} :
    attributeSeals scheme committee d index known seals = .ok signers ↔
      List.Forall₂ (fun a mark => committee.members.find? (scheme.verify · d mark) = some a)
        signers seals ∧ signers.Nodup ∧ ∀ a ∈ signers, a ∉ known := by
  induction seals generalizing index known signers with
  | nil =>
      rw [attributeSeals, List.forall₂_nil_right_iff, Except.ok.injEq]
      constructor
      · rintro rfl
        exact ⟨rfl, .nil, fun a ha => absurd ha List.not_mem_nil⟩
      · rintro ⟨rfl, -⟩
        rfl
  | cons mark rest ih =>
      rw [attributeSeals, List.forall₂_cons_right_iff]
      cases hfind : committee.members.find? (scheme.verify · d mark) with
      | none => simp
      | some a =>
          simp only [bind_eq_ok, require_eq_ok, pure_eq_ok, Bool.not_eq_true',
            List.contains_eq_mem, decide_eq_false_iff_not, ih, Option.some.injEq]
          constructor
          · rintro ⟨_, hnew, others, ⟨hfound, hnodup, hothers⟩, rfl⟩
            refine ⟨⟨a, others, rfl, hfound, rfl⟩, List.nodup_cons.mpr ⟨?_, hnodup⟩, ?_⟩
            · exact fun ha => hothers a ha List.mem_cons_self
            · refine List.forall_mem_cons.mpr ⟨hnew, fun b hb hknown => ?_⟩
              exact hothers b hb (List.mem_cons_of_mem a hknown)
          · rintro ⟨⟨_, others, rfl, hfound, rfl⟩, hnodup, hnew⟩
            obtain ⟨hfirst, hnodup⟩ := List.nodup_cons.mp hnodup
            obtain ⟨hnewFirst, hnewRest⟩ := List.forall_mem_cons.mp hnew
            refine ⟨(), hnewFirst, others, ⟨hfound, hnodup, fun b hb hknown => ?_⟩, rfl⟩
            rcases List.mem_cons.mp hknown with rfl | hknown
            · exact hfirst hb
            · exact hnewRest b hb hknown

/-- Seals are attributed to distinct members who are not known yet and whose seals verify. -/
theorem Header.attributeSeals_eq_ok
    {d : Digest} {index : ℕ} {known signers : List Address} {seals : List Signature}
    (h : attributeSeals scheme committee d index known seals = .ok signers) :
    signers.Nodup ∧ ∀ a ∈ signers, a ∉ known ∧ a ∈ committee.members ∧
      ∃ signature ∈ seals, scheme.verify a d signature = true := by
  obtain ⟨hfound, hnodup, hnew⟩ := attributeSeals_eq_ok_iff.mp h
  refine ⟨hnodup, fun a ha => ?_⟩
  obtain ⟨mark, hmark, hfind⟩ := exists_maker hfound.flip ha
  exact ⟨hnew a ha, List.mem_of_find?_eq_some hfind, mark, hmark,
    List.find?_some (p := (scheme.verify · d mark)) hfind⟩

/-- Seals in the order of their makers are attributed to these, if no seal verifies for two
members. -/
theorem Header.attributeSeals_filterMap
    {d : Digest} {mark? : Address → Option Signature} {index : ℕ} {known makers : List Address}
    (hunique : ∀ mark, ∀ a ∈ committee.members, ∀ a' ∈ committee.members,
      scheme.verify a d mark = true → scheme.verify a' d mark = true → a = a')
    (hmakers : ∀ a ∈ makers, a ∈ committee.members ∧ a ∉ known) (hnodup : makers.Nodup)
    (hmarks : ∀ a ∈ makers, ∀ mark, mark? a = some mark → scheme.verify a d mark = true) :
    attributeSeals scheme committee d index known (makers.filterMap mark?) =
      .ok (makers.filter fun a => (mark? a).isSome) := by
  refine attributeSeals_eq_ok_iff.mpr ⟨?_, hnodup.filter _, fun a ha => ?_⟩
  · clear hnodup
    induction makers with
    | nil => exact .nil
    | cons a rest ih =>
        obtain ⟨⟨hmember, -⟩, hrest⟩ := List.forall_mem_cons.mp hmakers
        obtain ⟨hfirst, hmarks⟩ := List.forall_mem_cons.mp hmarks
        cases hmark : mark? a with
        | none =>
            rw [List.filterMap_cons_none hmark, List.filter_cons_of_neg (by simp [hmark])]
            exact ih hrest hmarks
        | some mark =>
            rw [List.filterMap_cons_some hmark, List.filter_cons_of_pos (by simp [hmark])]
            exact .cons ((find?_verify_eq_some (hunique mark)).mpr ⟨hmember, hfirst mark hmark⟩)
              (ih hrest hmarks)
  · exact (hmakers a (List.mem_filter.mp ha).1).2

/-- A header passes the check of committed headers exactly if its extra-data list the committee
and record the vote of its fields, and its seals are attributed to enough members. -/
theorem Header.checkCommitted_eq_ok
    {h : Header} {signers : List Address} :
    h.checkCommitted scheme committee = .ok signers ↔
      ∃ x d, h.extraData = .ok x ∧ h.digest scheme.hash = .ok d ∧
        x.validators = committee.members ∧ h.carriedVote = .ok x.vote ∧
        attributeSeals scheme committee d 0 [] x.seals = .ok signers ∧
        committee.quorum ≤ signers.length := by
  simp only [checkCommitted, Header.signers, bind_eq_ok, mapError_eq_ok, require_eq_ok, pure_eq_ok,
    decide_eq_true_eq, beq_iff_eq]
  constructor
  · rintro ⟨x, hx, _, hlists, _, hvote, attributed, ⟨x', hx', d, hd, hseals⟩, _, hquorum, rfl⟩
    obtain rfl := Except.ok.inj (hx.symm.trans hx')
    exact ⟨x, d, hx, hd, hlists, checkVote_eq_ok.mp hvote, hseals, hquorum⟩
  · rintro ⟨x, d, hx, hd, hlists, hvote, hseals, hquorum⟩
    exact ⟨x, hx, (), hlists, (), checkVote_eq_ok.mpr hvote, signers, ⟨x, hx, d, hd, hseals⟩, (),
      hquorum, rfl⟩

/-- A committed header has a digest, and a quorum has sealed it. -/
theorem Header.quorate_of_checkCommitted
    {h : Header} {signers : List Address}
    (hcheck : h.checkCommitted scheme committee = .ok signers) :
    ∃ x d, h.extraData = .ok x ∧ h.digest scheme.hash = .ok d ∧
      committee.Quorate fun a => ∃ signature ∈ x.seals, scheme.verify a d signature = true := by
  obtain ⟨x, d, hx, hd, -, -, hseals, hquorum⟩ := checkCommitted_eq_ok.mp hcheck
  obtain ⟨hnodup, hsigners⟩ := attributeSeals_eq_ok hseals
  exact ⟨x, d, hx, hd, signers, hnodup, fun a ha => (hsigners a ha).2, hquorum⟩

end QuorumChain
