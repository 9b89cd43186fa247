import Mathlib.Data.List.Pairwise
import QuorumChain.Devnet.Agreement
import QuorumChain.Proofs.Message.Capacity
import QuorumChain.Proofs.Node.Four

/-!
# Agreement of all chains

The chains of a development network are compared with one of the longest only.  That is enough: at
every place at which two of them have a block, the longest has one too, and both blocks have its
digest.  Every block is compared with one of the longest chain, so all blocks have digests.
-/

namespace QuorumChain.Chain

variable {H : HashFunction} {chains : List (List Block)} {c p q : List Block}

/-- Two chains agree: wherever both have a block, the two blocks have one digest. -/
def Agree (H : HashFunction) (p q : List Block) : Prop :=
  ∀ (i : ℕ) (a b : Block), p[i]? = some a → q[i]? = some b →
    ∃ d, a.header.digest H = .ok d ∧ b.header.digest H = .ok d

/-- Two chains coincide: wherever both have a block, asking for the digests of the two blocks gives
the same answer. -/
def Coincide (H : HashFunction) (p q : List Block) : Prop :=
  ∀ (i : ℕ) (a b : Block), p[i]? = some a → q[i]? = some b →
    a.header.digest H = b.header.digest H

instance : Std.Symm (Coincide H) :=
  ⟨fun _ _ h i a b ha hb => (h i b a hb ha).symm⟩

/-! ## The longest chain -/

theorem longest?_append_singleton
    {α : Type} (chains : List (List α)) (last : List α) :
    longest? (chains ++ [last]) =
      match longest? chains with
      | none => some last
      | some best => some (if best.length ≤ last.length then last else best) := by
  rw [longest?, List.foldl_append]
  rfl

theorem longest?_eq_none
    {α : Type} {chains : List (List α)} : longest? chains = none ↔ chains = [] := by
  induction chains using List.reverseRecOn with
  | nil => exact iff_of_true rfl rfl
  | append_singleton chains last _ =>
      rw [longest?_append_singleton]
      refine iff_of_false ?_ (by simp)
      cases longest? chains <;> simp

/-- Of several longest chains the last one is chosen. -/
theorem longest?_eq_some
    {α : Type} {chains : List (List α)} {c : List α} (h : longest? chains = some c) :
    ∃ front back, chains = front ++ c :: back ∧ (∀ p ∈ front, p.length ≤ c.length) ∧
      ∀ p ∈ back, p.length < c.length := by
  induction chains using List.reverseRecOn generalizing c with
  | nil => contradiction
  | append_singleton chains last ih =>
      rw [longest?_append_singleton] at h
      cases hbest : longest? chains with
      | none =>
          rw [hbest] at h
          obtain rfl := Option.some.inj h
          rw [longest?_eq_none.mp hbest]
          exact ⟨[], [], rfl, by simp, by simp⟩
      | some best =>
          obtain ⟨front, back, rfl, hfront, hback⟩ := ih hbest
          simp only [hbest, Option.some.injEq] at h
          split at h
          · rename_i hle
            subst h
            refine ⟨front ++ best :: back, [], rfl, fun p hp => ?_, by simp⟩
            rcases List.mem_append.mp hp with hp | hp
            · exact (hfront p hp).trans hle
            · rcases List.mem_cons.mp hp with rfl | hp
              · exact hle
              · exact (hback p hp).le.trans hle
          · rename_i hlt
            subst h
            refine ⟨front, back ++ [last], by simp, hfront, fun p hp => ?_⟩
            rcases List.mem_append.mp hp with hp | hp
            · exact hback p hp
            · rw [List.mem_singleton.mp hp]
              exact not_le.mp hlt

theorem length_le_of_longest?
    {α : Type} {chains : List (List α)} {c : List α} (h : longest? chains = some c) :
    c ∈ chains ∧ ∀ p ∈ chains, p.length ≤ c.length := by
  obtain ⟨front, back, rfl, hfront, hback⟩ := longest?_eq_some h
  refine ⟨by simp, fun p hp => ?_⟩
  rcases List.mem_append.mp hp with hp | hp
  · exact hfront p hp
  · rcases List.mem_cons.mp hp with rfl | hp
    · exact le_rfl
    · exact (hback p hp).le

/-! ## Comparisons -/

/-- A chain passes the comparison with another one exactly if the two agree. -/
theorem checkAgainst_eq_ok
    {validator : ℕ} : checkAgainst H q validator p = .ok () ↔ Agree H p q := by
  rw [checkAgainst, forM_eq_ok]
  constructor
  · intro h i a b ha hb
    have hpair := h (a, b)
      (List.mem_iff_getElem?.mpr ⟨i, List.getElem?_zip_eq_some.mpr ⟨ha, hb⟩⟩)
    obtain ⟨d, hd, hpair⟩ := bind_eq_ok.mp hpair
    obtain ⟨e, he, hpair⟩ := bind_eq_ok.mp hpair
    split at hpair
    · exact absurd hpair throw_ne_ok
    · rename_i hsame
      rw [← not_not.mp hsame] at he
      exact ⟨d, mapError_eq_ok.mp hd, mapError_eq_ok.mp he⟩
  · rintro h ⟨a, b⟩ hpair
    obtain ⟨i, hi⟩ := List.mem_iff_getElem?.mp hpair
    obtain ⟨ha, hb⟩ := List.getElem?_zip_eq_some.mp hi
    obtain ⟨d, had, hbd⟩ := h i a b ha hb
    simp [had, hbd, mapError_ok, bind, Except.bind, pure, Except.pure]

/-- The check succeeds exactly if all chains agree with the longest. -/
theorem agreed_eq_ok :
    agreed H chains = .ok c ↔ longest? chains = some c ∧ ∀ p ∈ chains, Agree H p c := by
  rw [agreed]
  cases hlongest : longest? chains with
  | none => exact iff_of_false throw_ne_ok (by simp)
  | some best =>
      simp only [bind_eq_ok, pure_eq_ok, Option.some.injEq]
      constructor
      · rintro ⟨⟨⟩, hall, rfl⟩
        refine ⟨rfl, fun p hp => ?_⟩
        obtain ⟨validator, hplace⟩ := List.mem_iff_getElem?.mp hp
        exact checkAgainst_eq_ok.mp
          (forM_eq_ok.mp hall (p, validator) (List.mk_mem_zipIdx_iff_getElem?.mpr hplace))
      · rintro ⟨rfl, hall⟩
        refine ⟨(), forM_eq_ok.mpr fun x hx => ?_, rfl⟩
        exact checkAgainst_eq_ok.mpr (hall x.1 (List.fst_mem_of_mem_zipIdx hx))

/-- Chains agree if both agree with a third one that has a block wherever the first has one. -/
theorem Agree.of_longer
    (hp : Agree H p c) (hq : Agree H q c) (hlength : p.length ≤ c.length) : Agree H p q := by
  intro i a b ha hb
  have hi : i < c.length := (List.getElem?_eq_some_iff.mp ha).1.trans_le hlength
  obtain ⟨d, had, hcd⟩ := hp i a _ ha (List.getElem?_eq_getElem hi)
  obtain ⟨e, hbe, hce⟩ := hq i b _ hb (List.getElem?_eq_getElem hi)
  obtain rfl := Except.ok.inj (hcd.symm.trans hce)
  exact ⟨d, had, hbe⟩

theorem exists_agreed_iff :
    (∃ c, agreed H chains = .ok c) ↔
      chains ≠ [] ∧ ∀ p ∈ chains, ∀ q ∈ chains, Agree H p q := by
  constructor
  · rintro ⟨c, hc⟩
    obtain ⟨hlongest, hall⟩ := agreed_eq_ok.mp hc
    obtain ⟨hmem, hlength⟩ := length_le_of_longest? hlongest
    exact ⟨List.ne_nil_of_mem hmem,
      fun p hp q hq => (hall p hp).of_longer (hall q hq) (hlength p hp)⟩
  · rintro ⟨hsome, hall⟩
    obtain ⟨c, hlongest⟩ := Option.ne_none_iff_exists'.mp (mt longest?_eq_none.mp hsome)
    have hmem := (length_le_of_longest? hlongest).1
    exact ⟨c, agreed_eq_ok.mpr ⟨hlongest, fun p hp => hall p hp c hmem⟩⟩

/-- Every block of a chain that agrees with itself can be read. -/
theorem Agree.readable
    (h : Agree H p p) {b : Block} (hb : b ∈ p) : ∃ x, b.header.extraData = .ok x := by
  obtain ⟨i, hi⟩ := List.mem_iff_getElem?.mp hb
  obtain ⟨d, hd, -⟩ := h i b b hi hi
  exact (Header.digest_eq_ok hd).1

theorem Agree.coincide (h : Agree H p q) : Coincide H p q := by
  intro i a b ha hb
  obtain ⟨d, had, hbd⟩ := h i a b ha hb
  rw [had, hbd]

theorem Coincide.agree
    (h : Coincide H p q) (hp : ∀ b ∈ p, ∃ d, b.header.digest H = .ok d) : Agree H p q := by
  intro i a b ha hb
  obtain ⟨d, hd⟩ := hp a (List.mem_iff_getElem?.mpr ⟨i, ha⟩)
  exact ⟨d, hd, h i a b ha hb ▸ hd⟩

/-- If all blocks have digests, it is enough that different chains coincide. -/
theorem agree_of_pairwise
    (hdigests : ∀ p ∈ chains, ∀ b ∈ p, ∃ d, b.header.digest H = .ok d)
    (hpairs : chains.Pairwise (Coincide H)) :
    ∀ p ∈ chains, ∀ q ∈ chains, Agree H p q := by
  intro p hp q hq
  have hsame : ∀ p ∈ chains, Coincide H p p := by
    intro p _ i a b ha hb
    rw [Option.some.inj (ha.symm.trans hb)]
  exact (hpairs.forall_of_forall hsame hp hq).agree (hdigests p hp)

/-- The check gives one of the longest chains.  It succeeds exactly if there are chains, the
extra-data of all their blocks can be read, and any two of them agree, each one with itself too.  A
block whose header is too long to be written has no digest and agrees with none; if there is no such
block, it is enough that any two different chains coincide. -/
theorem agreed_iff_pairwise
    (H : HashFunction) (chains : List (List Block)) :
    (∀ c, agreed H chains = .ok c → c ∈ chains ∧ ∀ p ∈ chains, p.length ≤ c.length) ∧
      ((∃ c, agreed H chains = .ok c) ↔
        chains ≠ [] ∧ (∀ p ∈ chains, ∀ b ∈ p, ∃ x, b.header.extraData = .ok x) ∧
          ∀ p ∈ chains, ∀ q ∈ chains, Agree H p q) ∧
      ((∀ p ∈ chains, ∀ b ∈ p, b.header.extra.length ≤ Wire.maxLength) →
        ((∃ c, agreed H chains = .ok c) ↔
          chains ≠ [] ∧ (∀ p ∈ chains, ∀ b ∈ p, ∃ x, b.header.extraData = .ok x) ∧
            chains.Pairwise (Coincide H))) := by
  refine ⟨fun c hc => ?_, ?_, fun hwritable => ?_⟩
  · exact length_le_of_longest? (agreed_eq_ok.mp hc).1
  · rw [exists_agreed_iff]
    constructor
    · rintro ⟨hsome, hall⟩
      exact ⟨hsome, fun p hp b hb => (hall p hp p hp).readable hb, hall⟩
    · rintro ⟨hsome, -, hall⟩
      exact ⟨hsome, hall⟩
  · rw [exists_agreed_iff]
    constructor
    · rintro ⟨hsome, hall⟩
      refine ⟨hsome, fun p hp b hb => (hall p hp p hp).readable hb, ?_⟩
      exact List.pairwise_of_forall_mem_list fun p hp q hq => (hall p hp q hq).coincide
    · rintro ⟨hsome, hreadable, hpairs⟩
      refine ⟨hsome, agree_of_pairwise (fun p hp b hb => ?_) hpairs⟩
      exact Header.exists_digest (hreadable p hp b hb) (hwritable p hp b hb) H

/-- A block that others have sealed otherwise is the same block, and a third validator may lag
behind; with another block in its place the chains are refused. -/
theorem agreed_iff_pairwise_of_four :
    let sealed (ks : List (Fin 4)) : Block :=
      { Four.fresh 0 with header := Four.sealed (Four.fresh 0) ks }
    let chains := [[Four.first, sealed [0, 1, 2]], [Four.first],
      [Four.first, sealed [1, 2, 3], Four.next]]
    let forked := [Four.first, Four.odd] :: chains
    (∀ p ∈ chains, ∀ b ∈ p, b.header.extra.length ≤ Wire.maxLength) ∧
      (∃ c, agreed Four.hash chains = .ok c) ∧ chains.Pairwise (Coincide Four.hash) ∧
        ¬∃ c, agreed Four.hash forked = .ok c := by
  intro sealed chains forked
  have hwritable : ∀ p ∈ chains, ∀ b ∈ p, b.header.extra.length ≤ Wire.maxLength := by
    decide +kernel
  have hagreed :
      (agreed Four.hash chains).isOk = true ∧ (agreed Four.hash forked).isOk = false := by
    decide +kernel
  obtain ⟨c, hc⟩ := isOk_eq_true.mp hagreed.1
  obtain ⟨-, -, hiff⟩ := agreed_iff_pairwise Four.hash chains
  refine ⟨hwritable, ⟨c, hc⟩, ((hiff hwritable).mp ⟨c, hc⟩).2.2, fun hforked => ?_⟩
  rw [isOk_eq_true.mpr hforked] at hagreed
  exact absurd hagreed.2 (by decide)

end QuorumChain.Chain
