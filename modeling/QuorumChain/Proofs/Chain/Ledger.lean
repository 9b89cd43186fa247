import Mathlib.Data.List.Chain
import QuorumChain.Chain.Ledger
import QuorumChain.Proofs.Node.Four

/-!
# Ledgers are chains

Whatever blocks are offered to a ledger, those that it holds form a chain: each one has the number
behind that of the block below and names its digest as its parent.  The number of a block therefore
tells how far it is from the first block, and looking a number up finds the one block that has it.
A block is taken exactly if it goes on from the head; otherwise nothing changes.
-/

namespace QuorumChain

/-- A block goes on from another one: it has the next number and names the other one's digest, for
which the other one's extra-data must be readable. -/
structure Block.GoesOnFrom (H : HashFunction) (b below : Block) : Prop where
  number : b.header.number.toNat = below.header.number.toNat + 1
  readable : ∃ x, below.header.extraData = .ok x
  parent : below.header.digest H = .ok b.header.parent

/-- There is a number behind that of a block. -/
def Block.HasRoom (b : Block) : Prop :=
  b.header.number.toNat + 1 < 2 ^ 64

instance (b : Block) : Decidable b.HasRoom :=
  inferInstanceAs (Decidable (_ < _))

namespace Ledger

variable {H : HashFunction} {l l' : Ledger} {b : Block}

/-- The ledger after a block was offered to it: the same as before if the block was refused. -/
def offer (H : HashFunction) (l : Ledger) (b : Block) : Ledger :=
  (l.append H b).toOption.getD l

/-- The ledger that began with a first block, after other blocks were offered to it. -/
def grown (H : HashFunction) (genesis : Block) (offered : List Block) : Ledger :=
  offered.foldl (offer H) (new genesis)

/-! ## One block -/

theorem getLast?_blocks (l : Ledger) : l.blocks.getLast? = some l.head := by
  rw [blocks, List.getLast?_cons, head]

theorem head_mem_blocks (l : Ledger) : l.head ∈ l.blocks :=
  List.mem_of_getLast? l.getLast?_blocks

theorem checkLink_eq_ok
    {below : Block} (hroom : below.HasRoom) :
    checkLink H below b = .ok () ↔ b.GoesOnFrom H below := by
  have hnext : b.header.number = below.header.number + 1 ↔
      b.header.number.toNat = below.header.number.toNat + 1 := by
    rw [← UInt64.toNat_inj, UInt64.toNat_add]
    rw [UInt64.toNat_one, Nat.mod_eq_of_lt hroom]
  constructor
  · intro h
    rw [checkLink] at h
    split at h
    · exact absurd h throw_ne_ok
    · rename_i hnumber
      obtain ⟨d, hd, h⟩ := bind_eq_ok.mp h
      have hdigest := mapError_eq_ok.mp hd
      split at h
      · exact absurd h throw_ne_ok
      · rename_i hparent
        rw [← not_not.mp hparent] at hdigest
        exact ⟨hnext.mp (not_not.mp hnumber), (Header.digest_eq_ok hdigest).1, hdigest⟩
  · rintro ⟨hnumber, -, hparent⟩
    simp [checkLink, hnext.mpr hnumber, hparent, mapError_ok, bind, Except.bind, pure, Except.pure]

/-- A ledger takes exactly the blocks that go on from its head, and puts them on top. -/
theorem append_eq_ok
    (hroom : l.head.HasRoom) :
    l.append H b = .ok l' ↔ b.GoesOnFrom H l.head ∧ l' = { l with above := l.above ++ [b] } := by
  simp only [append, bind_eq_ok, pure_eq_ok]
  constructor
  · rintro ⟨⟨⟩, hlink, rfl⟩
    exact ⟨(checkLink_eq_ok hroom).mp hlink, rfl⟩
  · rintro ⟨hlink, rfl⟩
    exact ⟨(), (checkLink_eq_ok hroom).mpr hlink, rfl⟩

theorem offer_of_goesOn
    (hroom : l.head.HasRoom) (hlink : b.GoesOnFrom H l.head) :
    l.offer H b = { l with above := l.above ++ [b] } := by
  rw [offer, (append_eq_ok hroom).mpr ⟨hlink, rfl⟩]
  rfl

theorem offer_of_not_goesOn
    (hroom : l.head.HasRoom) (hlink : ¬b.GoesOnFrom H l.head) : l.offer H b = l := by
  cases happend : l.append H b with
  | error e =>
      rw [offer, happend]
      rfl
  | ok l' => exact absurd ((append_eq_ok hroom).mp happend).1 hlink

/-! ## The whole chain -/

/-- Each block of a ledger goes on from the one below. -/
def Linked (H : HashFunction) (l : Ledger) : Prop :=
  l.blocks.IsChain fun below b => b.GoesOnFrom H below

theorem linked_new (H : HashFunction) (genesis : Block) : (new genesis).Linked H :=
  .singleton genesis

theorem Linked.above_append
    (h : l.Linked H) (hlink : b.GoesOnFrom H l.head) :
    Linked H { l with above := l.above ++ [b] } := by
  refine List.IsChain.append h (.singleton b) ?_
  intro below hbelow b' hb'
  obtain rfl := Option.some.inj (l.getLast?_blocks.symm.trans hbelow)
  obtain rfl := Option.some.inj hb'
  exact hlink

/-- A ledger stays a chain, and holds no other blocks than before and the one offered to it. -/
theorem Linked.offer
    (h : l.Linked H) (hroom : l.head.HasRoom) (b : Block) :
    (l.offer H b).Linked H ∧ (l.offer H b).genesis = l.genesis ∧
      ∀ b' ∈ (l.offer H b).blocks, b' ∈ l.blocks ∨ b' = b := by
  by_cases hlink : b.GoesOnFrom H l.head
  · rw [offer_of_goesOn hroom hlink]
    refine ⟨h.above_append hlink, rfl, fun b' hb' => ?_⟩
    rw [blocks, ← List.cons_append, List.mem_append, List.mem_singleton] at hb'
    exact hb'
  · rw [offer_of_not_goesOn hroom hlink]
    exact ⟨h, rfl, fun b' hb' => .inl hb'⟩

theorem linked_grown
    {genesis : Block} {offered : List Block} (hroom : ∀ b ∈ genesis :: offered, b.HasRoom) :
    (grown H genesis offered).Linked H ∧ (grown H genesis offered).genesis = genesis ∧
      ∀ b ∈ (grown H genesis offered).blocks, b ∈ genesis :: offered := by
  induction offered using List.reverseRecOn with
  | nil => exact ⟨linked_new H genesis, rfl, fun b hb => hb⟩
  | append_singleton offered last ih =>
      have hsub : genesis :: offered ⊆ genesis :: (offered ++ [last]) :=
        List.cons_subset_cons _ (List.subset_append_left _ _)
      obtain ⟨hlinked, hgenesis, hheld⟩ := ih fun b hb => hroom b (hsub hb)
      have hhead : (grown H genesis offered).head.HasRoom :=
        hroom _ (hsub (hheld _ (head_mem_blocks _)))
      obtain ⟨hlinked', hgenesis', hheld'⟩ := hlinked.offer hhead last
      rw [grown, List.foldl_append]
      refine ⟨hlinked', hgenesis'.trans hgenesis, fun b hb => ?_⟩
      rcases hheld' b hb with hb | rfl
      · exact hsub (hheld b hb)
      · simp

/-- The number of a block tells how far it is from the first one. -/
theorem Linked.number
    (h : l.Linked H) (i : ℕ) (hi : i < l.blocks.length) :
    l.blocks[i].header.number.toNat = l.genesis.header.number.toNat + i := by
  induction i with
  | zero => rfl
  | succ i ih =>
      have hlink := List.isChain_iff_getElem.mp h i hi
      rw [hlink.number, ih (Nat.lt_of_succ_lt hi), Nat.add_assoc]

/-! ## Looking a number up -/

/-- Although the first block stands apart, a number is looked up among all blocks. -/
theorem block?_eq_getElem?
    (l : Ledger) {k : UInt64} (hk : l.genesis.header.number.toNat ≤ k.toNat) :
    l.block? k = l.blocks[k.toNat - l.genesis.header.number.toNat]? := by
  rw [block?, if_neg (by rwa [UInt64.lt_iff_toNat_lt, not_lt])]
  split
  · rename_i hfirst
    rw [hfirst, Nat.sub_self]
    rfl
  · rename_i hother
    rw [← UInt64.toNat_inj] at hother
    obtain ⟨i, hi⟩ : ∃ i, k.toNat - l.genesis.header.number.toNat = i + 1 :=
      Nat.exists_eq_add_one.mpr (by omega)
    rw [hi, Nat.add_sub_cancel, blocks, List.getElem?_cons_succ]

theorem Linked.block?_eq_some_iff
    (h : l.Linked H) {k : UInt64} :
    l.block? k = some b ↔ b ∈ l.blocks ∧ b.header.number = k := by
  by_cases hk : l.genesis.header.number.toNat ≤ k.toNat
  · rw [l.block?_eq_getElem? hk, List.getElem?_eq_some_iff]
    constructor
    · rintro ⟨hi, rfl⟩
      refine ⟨List.getElem_mem hi, UInt64.toNat_inj.mp ?_⟩
      rw [h.number _ hi]
      omega
    · rintro ⟨hb, rfl⟩
      obtain ⟨i, hi, rfl⟩ := List.getElem_of_mem hb
      have hplace := h.number i hi
      have hindex : l.blocks[i].header.number.toNat - l.genesis.header.number.toNat = i := by omega
      exact ⟨by rwa [hindex], by simp only [hindex]⟩
  · refine iff_of_false ?_ ?_
    · rw [block?, if_pos (by rwa [UInt64.lt_iff_toNat_lt, ← not_le])]
      exact Option.some_ne_none b ∘ Eq.symm
    · rintro ⟨hb, rfl⟩
      obtain ⟨i, hi, rfl⟩ := List.getElem_of_mem hb
      exact hk (h.number i hi ▸ Nat.le_add_right _ _)

/-- What those who read a ledger rely on. -/
structure Indexed (H : HashFunction) (genesis : Block) (l : Ledger) : Prop where
  /-- The chain begins with its first block. -/
  first : l.blocks.head? = some genesis
  /-- Numbers are consecutive from that of the first block. -/
  numbers : ∀ i (hi : i < l.blocks.length),
    l.blocks[i].header.number.toNat = genesis.header.number.toNat + i
  /-- Each block names the digest of the one below. -/
  parents : ∀ i (hi : i + 1 < l.blocks.length),
    l.blocks[i].header.digest H = .ok l.blocks[i + 1].header.parent
  /-- Looking a number up finds the block that has it. -/
  found : ∀ k b, l.block? k = some b ↔ b ∈ l.blocks ∧ b.header.number = k
  /-- The head is the last block. -/
  last : l.blocks.getLast? = some l.head
  /-- The height is the number of the last block. -/
  top : l.height = l.head.header.number

theorem Linked.indexed
    (h : l.Linked H) : l.Indexed H l.genesis where
  first := rfl
  numbers := h.number
  parents i hi := (List.isChain_iff_getElem.mp h i hi).parent
  found _ _ := h.block?_eq_some_iff
  last := l.getLast?_blocks
  top := rfl

/-- Let no block have the last number of 64 bits.  After any blocks were offered to a ledger it is
an indexed chain behind the block that it began with.  It takes a block exactly if that goes on from
its head; then it holds this block more, on top, and otherwise it stays the same. -/
theorem grown_indexed
    (H : HashFunction) (genesis : Block) (offered : List Block)
    (hroom : ∀ b ∈ genesis :: offered, b.HasRoom) :
    (grown H genesis offered).Indexed H genesis ∧
      ∀ b, ((∃ l, (grown H genesis offered).append H b = .ok l) ↔
          b.GoesOnFrom H (grown H genesis offered).head) ∧
        (∀ l, (grown H genesis offered).append H b = .ok l →
          (grown H genesis offered).offer H b = l ∧
            l.blocks = (grown H genesis offered).blocks ++ [b]) ∧
        ∀ cause, (grown H genesis offered).append H b = .error cause →
          (grown H genesis offered).offer H b = grown H genesis offered := by
  obtain ⟨hlinked, hgenesis, hheld⟩ := linked_grown (H := H) hroom
  have hhead := hroom _ (hheld _ (head_mem_blocks _))
  have hindexed := hlinked.indexed
  rw [hgenesis] at hindexed
  refine ⟨hindexed, fun b => ⟨?_, ?_, ?_⟩⟩
  · constructor
    · rintro ⟨l, happend⟩
      exact ((append_eq_ok hhead).mp happend).1
    · intro hlink
      exact ⟨_, (append_eq_ok hhead).mpr ⟨hlink, rfl⟩⟩
  · intro l happend
    obtain ⟨-, rfl⟩ := (append_eq_ok hhead).mp happend
    refine ⟨?_, rfl⟩
    rw [offer, happend]
    rfl
  · intro cause happend
    rw [offer, happend]
    rfl

/-- A chain that begins at number seven takes two blocks out of four: the first one comes too early,
and the third one comes again. -/
theorem grown_indexed_of_four :
    let placed (b : Block) (number : UInt64) (parent : Digest) : Block :=
      { b with header := { b.header with number, parent } }
    let first := placed Four.first 7 .zero
    let second := placed (Four.fresh 0) 8 (Four.digest first)
    let third := placed (Four.fresh 0) 9 (Four.digest second)
    let l := grown Four.hash first [third, second, second, third]
    (∀ b ∈ [first, third, second, second, third], b.HasRoom) ∧ l.blocks = [first, second, third] ∧
      l.block? 8 = some second ∧ l.block? 10 = none ∧ l.Indexed Four.hash first ∧
        ¬third.GoesOnFrom Four.hash l.head := by
  intro placed first second third l
  have hroom : ∀ b ∈ [first, third, second, second, third], b.HasRoom := by decide +kernel
  have hblocks : l.blocks = [first, second, third] := by decide +kernel
  have hlookups : l.block? 8 = some second ∧ l.block? 10 = none := by decide +kernel
  have hrefused : (l.append Four.hash third).toOption = none := by decide +kernel
  obtain ⟨hindexed, hoffers⟩ :=
    grown_indexed Four.hash first [third, second, second, third] hroom
  refine ⟨hroom, hblocks, hlookups.1, hlookups.2, hindexed, fun hlink => ?_⟩
  obtain ⟨l', happend⟩ := (hoffers third).1.mpr hlink
  rw [show l.append Four.hash third = .ok l' from happend] at hrefused
  contradiction

end Ledger

end QuorumChain
