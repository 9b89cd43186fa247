import Mathlib.Data.Finset.Card
import Mathlib.Data.Finset.Dedup
import Mathlib.Data.List.Lattice
import QuorumChain.Committee.Basic

/-!
# Quorums

A quorum is more than two thirds of the members, and less than a third of them are faulty.  So two
quorums share a member that is not faulty, and those who are not faulty are a quorum.  No threshold
allows both for more faulty members.
-/

namespace QuorumChain.Committee

/-- Distinct members, enough for a quorum, have a property. -/
def Quorate (c : Committee) (p : Address → Prop) : Prop :=
  ∃ voters : List Address,
    voters.Nodup ∧ (∀ a ∈ voters, a ∈ c.members ∧ p a) ∧ c.quorum ≤ voters.length

variable {c : Committee} {p q : Address → Prop} {faulty : Finset Address}

theorem Quorate.mono
    (h : c.Quorate p) (hpq : ∀ a ∈ c.members, p a → q a) : c.Quorate q := by
  obtain ⟨voters, hnodup, hvoters, hsize⟩ := h
  refine ⟨voters, hnodup, ?_, hsize⟩
  intro a ha
  obtain ⟨hmember, hpa⟩ := hvoters a ha
  exact ⟨hmember, hpq a hmember hpa⟩

/-- Votes of distinct members, enough of them, are those of a quorum. -/
theorem quorate_of_votes
    {α : Type} {author : α → Address} {votes : List α} (hnodup : (votes.map author).Nodup)
    (hvotes : ∀ v ∈ votes, author v ∈ c.members ∧ p (author v))
    (hsize : c.quorum ≤ votes.length) : c.Quorate p := by
  refine ⟨votes.map author, hnodup, ?_, by rwa [List.length_map]⟩
  intro a ha
  obtain ⟨v, hv, rfl⟩ := List.mem_map.mp ha
  exact hvotes v hv

/-- If a quorum has voted, there are enough votes. -/
theorem Quorate.le_length
    {α : Type} {author : α → Address} {votes : List α}
    (h : c.Quorate fun a => ∃ v ∈ votes, author v = a) : c.quorum ≤ votes.length := by
  obtain ⟨voters, hnodup, hvoters, hsize⟩ := h
  have hsub : voters ⊆ votes.map author := by
    intro a ha
    obtain ⟨v, hv, rfl⟩ := (hvoters a ha).2
    exact List.mem_map_of_mem hv
  have hle := (hnodup.subperm hsub).length_le
  rw [List.length_map] at hle
  exact Nat.le_trans hsize hle

/-- A property is that of a quorum exactly if enough members have it. -/
theorem quorate_iff [DecidablePred p] : c.Quorate p ↔ c.quorum ≤ (c.members.filter p).length := by
  constructor
  · rintro ⟨voters, hnodup, hvoters, hsize⟩
    have hsub : voters ⊆ c.members.filter p := by
      intro a ha
      simpa using hvoters a ha
    exact Nat.le_trans hsize (hnodup.subperm hsub).length_le
  · intro hsize
    exact ⟨c.members.filter p, c.nodup.filter _, fun a ha => by simpa using ha, hsize⟩

/-! ## The two numbers -/

/-- So many members may be faulty exactly if they are less than a third. -/
theorem le_maxFaulty_iff {k : ℕ} : k ≤ c.maxFaulty ↔ 3 * k < c.size := by
  have hpos := c.size_pos
  rw [maxFaulty]
  omega

/-- A quorum is all members but as many as may be faulty. -/
theorem quorum_add_maxFaulty (c : Committee) : c.quorum + c.maxFaulty = c.size := by
  have hpos := c.size_pos
  rw [quorum, maxFaulty]
  omega

theorem three_mul_maxFaulty_lt_size (c : Committee) : 3 * c.maxFaulty < c.size :=
  le_maxFaulty_iff.mp le_rfl

theorem size_add_maxFaulty_lt (c : Committee) : c.size + c.maxFaulty < 2 * c.quorum := by
  have hquorum := c.quorum_add_maxFaulty
  have hthird := c.three_mul_maxFaulty_lt_size
  omega

/-! ## Members in common and members left -/

variable {a : Address} {t k : ℕ} {xs ys absent : List Address}

/-- The members who are not in a list. -/
def without (c : Committee) (absent : List Address) : List Address :=
  c.members.filter fun a => !absent.contains a

theorem mem_without : a ∈ c.without absent ↔ a ∈ c.members ∧ a ∉ absent := by
  simp [without]

theorem nodup_without (c : Committee) (absent : List Address) : (c.without absent).Nodup :=
  c.nodup.filter _

theorem without_subset (c : Committee) (absent : List Address) : c.without absent ⊆ c.members :=
  fun _ ha => (mem_without.mp ha).1

theorem without_inter_without_subset :
    c.without xs ∩ c.without ys ⊆ c.without (xs ++ ys) := by
  intro a ha
  simp only [List.mem_inter_iff, mem_without, List.mem_append, not_or] at ha ⊢
  exact ⟨ha.1.1, ha.1.2, ha.2.2⟩

/-- Each member is in a list of members or is left without it. -/
theorem length_add_length_without
    (habsent : absent.Nodup) (hmembers : absent ⊆ c.members) :
    absent.length + (c.without absent).length = c.size := by
  have hperm : (c.members.filter absent.contains).Perm absent := by
    apply (List.perm_ext_iff_of_nodup (c.nodup.filter _) habsent).mpr
    intro a
    simpa using fun ha => hmembers ha
  have hsplit := List.length_eq_length_filter_add (l := c.members) absent.contains
  rw [hperm.length_eq] at hsplit
  exact hsplit.symm

theorem card_members : c.members.toFinset.card = c.size :=
  List.toFinset_card_of_nodup c.nodup

/-- What two lists of distinct members hold beyond the size of the committee they have in common. -/
theorem length_add_length_le
    (hxs : xs.Nodup) (hys : ys.Nodup) (hxmembers : xs ⊆ c.members) (hymembers : ys ⊆ c.members) :
    xs.length + ys.length ≤ c.size + (xs ∩ ys).length := by
  have hunion : (xs.toFinset ∪ ys.toFinset).card ≤ c.size := by
    rw [← card_members]
    apply Finset.card_le_card
    intro a ha
    rw [List.mem_toFinset]
    rcases Finset.mem_union.mp ha with ha | ha
    · exact hxmembers (List.mem_toFinset.mp ha)
    · exact hymembers (List.mem_toFinset.mp ha)
  have hcount := Finset.card_union_add_card_inter xs.toFinset ys.toFinset
  rw [← List.toFinset_inter, List.toFinset_card_of_nodup hxs, List.toFinset_card_of_nodup hys,
    List.toFinset_card_of_nodup (hxs.inter ys)] at hcount
  omega

/-! ## Thresholds -/

/-- Any two lists of distinct members, `t` in each or more, share more than `k`. -/
def Overlaps (c : Committee) (t k : ℕ) : Prop :=
  ∀ xs ys : List Address, xs.Nodup → ys.Nodup → xs ⊆ c.members → ys ⊆ c.members →
    t ≤ xs.length → t ≤ ys.length → k < (xs ∩ ys).length

/-- Without any `k` members, or fewer, at least `t` are left. -/
def Survives (c : Committee) (t k : ℕ) : Prop :=
  ∀ absent : List Address, absent.Nodup → absent ⊆ c.members → absent.length ≤ k →
    t ≤ (c.without absent).length

theorem overlaps_of_lt (h : c.size + k < 2 * t) : c.Overlaps t k := by
  intro xs ys hxs hys hxmembers hymembers hxsize hysize
  have hshared := length_add_length_le hxs hys hxmembers hymembers
  omega

theorem survives_of_le (h : t + k ≤ c.size) : c.Survives t k := by
  intro absent habsent hmembers hfew
  have hsplit := length_add_length_without habsent hmembers
  omega

/-- A threshold has both properties only for less than a third of the members. -/
theorem three_mul_lt_size
    (hoverlaps : c.Overlaps t k) (hsurvives : c.Survives t k) : 3 * k < c.size := by
  -- a first group and a second one are absent in turn; who is present both times is in neither
  let first := c.members.take k
  let second := (c.members.drop k).take k
  have hfirst : first.Sublist c.members := List.take_sublist k _
  have hsecond : second.Sublist c.members := (List.take_sublist k _).trans (List.drop_sublist k _)
  have hshared : k < (c.without first ∩ c.without second).length := by
    apply hoverlaps _ _ (c.nodup_without _) (c.nodup_without _) (c.without_subset _)
      (c.without_subset _)
    · exact hsurvives first (c.nodup.sublist hfirst) hfirst.subset (List.length_take_le k _)
    · exact hsurvives second (c.nodup.sublist hsecond) hsecond.subset (List.length_take_le k _)
  have hneither : (c.without first ∩ c.without second).length ≤
      (c.without (first ++ second)).length :=
    (((c.nodup_without first).inter _).subperm without_inter_without_subset).length_le
  have hgroups : first ++ second = c.members.take (k + k) := List.take_add.symm
  have hlength : (first ++ second).length = min (k + k) c.size := by
    rw [hgroups]
    exact List.length_take
  have hsplit : (first ++ second).length + (c.without (first ++ second)).length = c.size := by
    rw [hgroups]
    exact length_add_length_without (c.nodup.sublist (List.take_sublist _ _)) (List.take_subset _ _)
  omega

theorem overlaps_quorum (c : Committee) : c.Overlaps c.quorum c.maxFaulty :=
  overlaps_of_lt c.size_add_maxFaulty_lt

theorem quorate_without_iff
    (habsent : absent.Nodup) (hmembers : absent ⊆ c.members) :
    c.Quorate (· ∉ absent) ↔ absent.length ≤ c.maxFaulty := by
  have hpresent : c.members.filter (· ∉ absent) = c.without absent := by simp [without]
  have hquorum := c.quorum_add_maxFaulty
  have hsplit := length_add_length_without habsent hmembers
  rw [quorate_iff, hpresent]
  omega

/-- Two quorums share more members than may be faulty, and a quorum is left when as many as may
be faulty are absent.  So the others alone are enough for every certificate, and they are not
when more are absent.  No threshold has both properties for more faulty members. -/
theorem tolerance_exact (c : Committee) :
    c.Overlaps c.quorum c.maxFaulty ∧ c.Survives c.quorum c.maxFaulty ∧
      (∀ absent : List Address, absent.Nodup → absent ⊆ c.members →
        (c.Quorate (· ∉ absent) ↔ absent.length ≤ c.maxFaulty)) ∧
      ∀ t k, c.Overlaps t k → c.Survives t k → k ≤ c.maxFaulty := by
  refine ⟨c.overlaps_quorum, survives_of_le c.quorum_add_maxFaulty.le, ?_, ?_⟩
  · intro absent habsent hmembers
    exact quorate_without_iff habsent hmembers
  · intro t k hoverlaps hsurvives
    exact le_maxFaulty_iff.mpr (three_mul_lt_size hoverlaps hsurvives)

/-- Of seven members, two lists of five share three, and five are left when two are absent.  A
threshold of six has both properties for one faulty member. -/
theorem tolerance_exact_of_seven :
    let member : Fin 7 → Address := fun k => Fixed.replicate 20 (UInt8.ofNat k.val)
    let c : Committee := ⟨List.ofFn member, by decide, by decide⟩
    let xs := [0, 1, 2, 3, 4].map member
    let ys := [6, 5, 4, 3, 2].map member
    let absent := [1, 5].map member
    (xs.Nodup ∧ xs ⊆ c.members ∧ c.quorum ≤ xs.length) ∧
      (ys.Nodup ∧ ys ⊆ c.members ∧ c.quorum ≤ ys.length) ∧
      (absent.Nodup ∧ absent ⊆ c.members ∧ absent.length = c.maxFaulty) ∧
      c.maxFaulty < (xs ∩ ys).length ∧ c.quorum ≤ (c.without absent).length ∧
      c.Quorate (· ∉ absent) ∧ c.Overlaps 6 1 ∧ c.Survives 6 1 ∧ 1 ≤ c.maxFaulty := by
  intro member c xs ys absent
  have hxs : xs.Nodup ∧ xs ⊆ c.members ∧ c.quorum ≤ xs.length := by decide
  have hys : ys.Nodup ∧ ys ⊆ c.members ∧ c.quorum ≤ ys.length := by decide
  have habsent : absent.Nodup ∧ absent ⊆ c.members ∧ absent.length = c.maxFaulty := by decide
  have hoverlaps : c.Overlaps 6 1 := overlaps_of_lt (by decide)
  have hsurvives : c.Survives 6 1 := survives_of_le (by decide)
  obtain ⟨hshared, hleft, hothers, hbest⟩ := tolerance_exact c
  refine ⟨hxs, hys, habsent, ?_, ?_, ?_, hoverlaps, hsurvives, hbest 6 1 hoverlaps hsurvives⟩
  · exact hshared xs ys hxs.1 hys.1 hxs.2.1 hys.2.1 hxs.2.2 hys.2.2
  · exact hleft absent habsent.1 habsent.2.1 habsent.2.2.le
  · exact (hothers absent habsent.1 habsent.2.1).mpr habsent.2.2.le

/-! ## Faulty members -/

/-- Two quorums share more members than may be faulty. -/
theorem Quorate.exists_shared
    (hp : c.Quorate p) (hq : c.Quorate q) :
    ∃ shared : List Address, shared.Nodup ∧ (∀ a ∈ shared, a ∈ c.members ∧ p a ∧ q a) ∧
      c.maxFaulty < shared.length := by
  obtain ⟨ps, hps, hpvoters, hpsize⟩ := hp
  obtain ⟨qs, hqs, hqvoters, hqsize⟩ := hq
  refine ⟨ps ∩ qs, hps.inter qs, ?_, ?_⟩
  · intro a ha
    obtain ⟨hpa, hqa⟩ := List.mem_inter_iff.mp ha
    obtain ⟨hmember, hpa⟩ := hpvoters a hpa
    exact ⟨hmember, hpa, (hqvoters a hqa).2⟩
  · exact c.overlaps_quorum ps qs hps hqs (fun a ha => (hpvoters a ha).1)
      (fun a ha => (hqvoters a ha).1) hpsize hqsize

/-- Two quorums share a member that is not faulty. -/
theorem Quorate.exists_common
    (hp : c.Quorate p) (hq : c.Quorate q) (hfaulty : faulty.card ≤ c.maxFaulty) :
    ∃ a ∈ c.members, a ∉ faulty ∧ p a ∧ q a := by
  obtain ⟨shared, hnodup, hshared, hmany⟩ := hp.exists_shared hq
  have hcard : faulty.card < shared.toFinset.card := by
    rw [List.toFinset_card_of_nodup hnodup]
    exact hfaulty.trans_lt hmany
  obtain ⟨a, ha, hhonest⟩ := Finset.exists_mem_notMem_of_card_lt_card hcard
  obtain ⟨hmember, hpa, hqa⟩ := hshared a (List.mem_toFinset.mp ha)
  exact ⟨a, hmember, hhonest, hpa, hqa⟩

theorem Quorate.exists_honest
    (hp : c.Quorate p) (hfaulty : faulty.card ≤ c.maxFaulty) :
    ∃ a ∈ c.members, a ∉ faulty ∧ p a := by
  obtain ⟨a, hmember, hhonest, hpa, -⟩ := hp.exists_common hp hfaulty
  exact ⟨a, hmember, hhonest, hpa⟩

/-- Those who are not faulty are a quorum. -/
theorem quorate_honest (hfaulty : faulty.card ≤ c.maxFaulty) : c.Quorate (· ∉ faulty) := by
  let absent := c.members.filter (· ∈ faulty)
  have hnodup : absent.Nodup := c.nodup.filter _
  have hmem : ∀ a, a ∈ absent ↔ a ∈ c.members ∧ a ∈ faulty := fun a => by simp [absent]
  have hfew : absent.length ≤ faulty.card := by
    rw [← List.toFinset_card_of_nodup hnodup]
    exact Finset.card_le_card fun a ha => ((hmem a).mp (List.mem_toFinset.mp ha)).2
  have hquorate := (quorate_without_iff hnodup fun a ha => ((hmem a).mp ha).1).mpr
    (hfew.trans hfaulty)
  exact hquorate.mono fun a hmember hpresent hfault => hpresent ((hmem a).mpr ⟨hmember, hfault⟩)

end QuorumChain.Committee
