import Mathlib.Data.Finset.Card
import Mathlib.Data.Nat.ModEq
import QuorumChain.Committee.Election
import QuorumChain.Proofs.Committee.Quorum
import QuorumChain.Proofs.Node.Four

/-!
# A fair rotation

Whose turn it is depends on the sum of height and round, modulo the size of the committee.  Of as
many consecutive turns as there are members each member has one, whether the rounds of a height or
the heights of a round go on.  So rounds that are more than the faulty members are not all led by
these.
-/

namespace QuorumChain

/-- The turn of a view: its height and its round taken together. -/
def View.turn (v : View) : ℕ :=
  v.height.toNat + v.round.toNat

namespace Committee

variable {c : Committee} {v w : View} {a : Address}

theorem proposer_eq_getElem_iff
    {k : ℕ} (hk : k < c.members.length) :
    c.proposer v = c.members[k] ↔ v.turn % c.size = k := by
  rw [proposer, List.get_eq_getElem, c.nodup.getElem_inj_iff]
  rfl

/-- Views are led by one member exactly if their turns are congruent. -/
theorem proposer_eq_iff : c.proposer v = c.proposer w ↔ v.turn ≡ w.turn [MOD c.size] :=
  proposer_eq_getElem_iff (c.proposerIndex_lt w)

/-! ## Consecutive turns -/

/-- Among as many consecutive turns as a modulus, no two leave the same remainder. -/
theorem turn_unique
    {start k s t n : ℕ} (hs : start ≤ s ∧ s < start + n) (ht : start ≤ t ∧ t < start + n)
    (hsk : s % n = k) (htk : t % n = k) : s = t := by
  have hdiff : ∀ x y, x < start + n → start ≤ y → x % n = y % n → x ≤ y := by
    intro x y hx hy hmod
    by_contra hlt
    have hdvd : n ∣ x - y := Nat.dvd_of_mod_eq_zero (Nat.sub_mod_eq_zero_of_mod_eq hmod)
    have hle := Nat.le_of_dvd (by omega) hdvd
    omega
  exact le_antisymm (hdiff s t hs.2 ht.1 (hsk.trans htk.symm))
    (hdiff t s ht.2 hs.1 (htk.trans hsk.symm))

/-- Among as many consecutive turns as a modulus, one leaves a given remainder. -/
theorem exists_turn
    {k n : ℕ} (start : ℕ) (hk : k < n) : ∃ t, (start ≤ t ∧ t < start + n) ∧ t % n = k := by
  have hpos : 0 < n := by omega
  have hlt := Nat.mod_lt start hpos
  refine ⟨start + (k + n - start % n) % n, ⟨Nat.le_add_right _ _, ?_⟩, ?_⟩
  · exact Nat.add_lt_add_left (Nat.mod_lt _ hpos) start
  · calc (start + (k + n - start % n) % n) % n
        = (start % n + (k + n - start % n)) % n := by rw [Nat.add_mod_mod, Nat.mod_add_mod]
      _ = (k + n) % n := by rw [Nat.add_sub_cancel' (by omega)]
      _ = k := by rw [Nat.add_mod_right, Nat.mod_eq_of_lt hk]

/-- In a family of views with consecutive turns each member leads exactly one view. -/
theorem existsUnique_leads
    {ι : Type} (view : ι → View) (start : ℕ) (ha : a ∈ c.members)
    (hcovers : ∀ t, start ≤ t ∧ t < start + c.size → ∃ i, (view i).turn = t)
    (hinjective : ∀ i j, (view i).turn = (view j).turn → i = j) :
    ∃! i, (start ≤ (view i).turn ∧ (view i).turn < start + c.size) ∧ c.proposer (view i) = a := by
  obtain ⟨k, hk, rfl⟩ := List.getElem_of_mem ha
  simp only [proposer_eq_getElem_iff hk]
  obtain ⟨t, hwindow, ht⟩ := exists_turn start hk
  obtain ⟨i, rfl⟩ := hcovers t hwindow
  refine ⟨i, ⟨hwindow, ht⟩, ?_⟩
  rintro j ⟨hwindow', hj⟩
  exact hinjective j i (turn_unique hwindow' hwindow hj ht)

/-- Of more views with consecutive turns than there are faulty members, one is led by somebody
else. -/
theorem exists_leader_notMem
    {faulty : Finset Address} {k : ℕ} (view : ℕ → View) (start : ℕ) (hk : k ≤ c.size)
    (hview : ∀ i < k, (view i).turn = start + i) (hfaulty : faulty.card < k) :
    ∃ i < k, c.proposer (view i) ∉ faulty := by
  have hwindow : ∀ i < k, start ≤ start + i ∧ start + i < start + c.size :=
    fun i hi => ⟨Nat.le_add_right _ _, Nat.add_lt_add_left (hi.trans_le hk) start⟩
  by_contra hall
  push Not at hall
  obtain ⟨i, hi, j, hj, hne, hsame⟩ := Finset.exists_ne_map_eq_of_card_lt_of_maps_to
    (s := Finset.range k) (t := faulty) (f := fun i => c.proposer (view i))
    (by rwa [Finset.card_range]) (fun i hi => hall i (Finset.mem_range.mp hi))
  rw [Finset.mem_range] at hi hj
  have hmod := proposer_eq_iff.mp hsame
  rw [hview i hi, hview j hj] at hmod
  exact hne (Nat.add_left_cancel (turn_unique (hwindow i hi) (hwindow j hj) rfl hmod.symm))

theorem maxFaulty_lt_size (c : Committee) : c.maxFaulty < c.size := by
  have hthird := c.three_mul_maxFaulty_lt_size
  omega

/-! ## Rounds and heights -/

/-- As many consecutive rounds of a height as there are members are led by all of them, each leading
exactly one, and so are as many consecutive heights in one round; the numbers of rounds and heights
have 32 and 64 bits and must not be used up before.  Of one round more than members may be faulty, a
member outside of any set of so many leads one. -/
theorem rotation_fair
    (c : Committee) (height : UInt64) (round : UInt32) :
    (round.toNat + c.size ≤ 2 ^ 32 → ∀ a ∈ c.members,
        ∃! r : UInt32, (round.toNat ≤ r.toNat ∧ r.toNat < round.toNat + c.size) ∧
          c.proposer ⟨height, r⟩ = a) ∧
      (height.toNat + c.size ≤ 2 ^ 64 → ∀ a ∈ c.members,
        ∃! h : UInt64, (height.toNat ≤ h.toNat ∧ h.toNat < height.toNat + c.size) ∧
          c.proposer ⟨h, round⟩ = a) ∧
      (round.toNat + c.maxFaulty < 2 ^ 32 →
        ∀ faulty : Finset Address, faulty.card ≤ c.maxFaulty →
          ∃ r : UInt32, (round.toNat ≤ r.toNat ∧ r.toNat ≤ round.toNat + c.maxFaulty) ∧
            c.proposer ⟨height, r⟩ ∈ c.members ∧ c.proposer ⟨height, r⟩ ∉ faulty) := by
  refine ⟨fun hroom a ha => ?_, fun hroom a ha => ?_, fun hroom faulty hfaulty => ?_⟩
  · have hunique := existsUnique_leads (fun r => ⟨height, r⟩) (height.toNat + round.toNat) ha
      (fun t ht => ⟨.ofNat (t - height.toNat), ?_⟩)
      (fun i j h => UInt32.toNat_inj.mp (Nat.add_left_cancel h))
    · simpa only [View.turn, Nat.add_assoc, Nat.add_le_add_iff_left, Nat.add_lt_add_iff_left]
        using hunique
    · have hfits : t - height.toNat < 2 ^ 32 := by omega
      show height.toNat + (UInt32.ofNat (t - height.toNat)).toNat = t
      rw [UInt32.toNat_ofNat_of_lt' hfits]
      omega
  · have hunique := existsUnique_leads (fun h => ⟨h, round⟩) (height.toNat + round.toNat) ha
      (fun t ht => ⟨.ofNat (t - round.toNat), ?_⟩)
      (fun i j h => UInt64.toNat_inj.mp (Nat.add_right_cancel h))
    · simpa only [View.turn, Nat.add_right_comm _ round.toNat, Nat.add_le_add_iff_right,
        Nat.add_lt_add_iff_right] using hunique
    · have hfits : t - round.toNat < 2 ^ 64 := by omega
      show (UInt64.ofNat (t - round.toNat)).toNat + round.toNat = t
      rw [UInt64.toNat_ofNat_of_lt' hfits]
      omega
  · have hround : ∀ i ≤ c.maxFaulty, (UInt32.ofNat (round.toNat + i)).toNat = round.toNat + i := by
      intro i hi
      have hfits : round.toNat + i < 2 ^ 32 := by omega
      exact UInt32.toNat_ofNat_of_lt' hfits
    have hturn : ∀ i < c.maxFaulty + 1,
        View.turn ⟨height, .ofNat (round.toNat + i)⟩ = height.toNat + round.toNat + i := by
      intro i hi
      rw [View.turn, hround i (Nat.le_of_lt_succ hi), Nat.add_assoc]
    obtain ⟨i, hi, hother⟩ := exists_leader_notMem _ _ c.maxFaulty_lt_size hturn
      (Nat.lt_succ_of_le hfaulty)
    have hplace := hround i (Nat.le_of_lt_succ hi)
    exact ⟨.ofNat (round.toNat + i), by omega, List.get_mem _ _, hother⟩

/-- At the last heights and in the last rounds that have numbers, four members lead one each, and
two rounds are not both led by the second member. -/
theorem rotation_fair_of_four :
    let c := Four.committee
    let height : UInt64 := 18446744073709551612
    let round : UInt32 := 4294967292
    round.toNat + c.size = 2 ^ 32 ∧ height.toNat + c.size = 2 ^ 64 ∧ c.maxFaulty = 1 ∧
      (∃! r : UInt32, (round.toNat ≤ r.toNat ∧ r.toNat < round.toNat + c.size) ∧
        c.proposer ⟨height, r⟩ = Four.address 2) ∧
      (∃! h : UInt64, (height.toNat ≤ h.toNat ∧ h.toNat < height.toNat + c.size) ∧
        c.proposer ⟨h, round⟩ = Four.address 2) ∧
      ∃ r : UInt32, (round.toNat ≤ r.toNat ∧ r.toNat ≤ round.toNat + c.maxFaulty) ∧
        c.proposer ⟨height, r⟩ ∈ c.members ∧
          c.proposer ⟨height, r⟩ ∉ ({Four.address 1} : Finset Address) := by
  intro c height round
  have hrounds : round.toNat + c.size = 2 ^ 32 := by decide +kernel
  have hheights : height.toNat + c.size = 2 ^ 64 := by decide +kernel
  have hfaulty : c.maxFaulty = 1 := by decide +kernel
  have hmember : Four.address 2 ∈ c.members := by decide +kernel
  obtain ⟨hround, hheight, hother⟩ := rotation_fair c height round
  refine ⟨hrounds, hheights, hfaulty, hround hrounds.le _ hmember,
    hheight hheights.le _ hmember, ?_⟩
  exact hother (by rw [hfaulty]; decide +kernel) {Four.address 1} (by rw [hfaulty]; rfl)

end Committee

end QuorumChain
