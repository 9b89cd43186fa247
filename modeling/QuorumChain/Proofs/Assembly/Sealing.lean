import QuorumChain.Node.Basic
import QuorumChain.Proofs.Assembly.Agreement
import QuorumChain.Proofs.Chain.Sealing

/-!
# Sealed headers

A seal is over the digest of a block and names no round.  Headers for which the seals of some quorum
stem from one round agree with each other and with all blocks that nodes hand out, and no node moves
onto any other.  Seals of several rounds, however, may be pooled to seal another block.
-/

namespace QuorumChain.Assembly

section Seals

variable {ι : Type} [DecidableEq ι] (N : Assembly ι) (run : List (Happening ι))

/-- Somebody has committed in a view with a seal. -/
def Released (v : View) (t : Attestation) : Prop :=
  ∃ y p, .broadcast (.commit p) ∈ (N.record run y).made ∧ Commit.sealing p = t ∧
    p.payload.view = v

/-- The seals in a header that verify for members who are not faulty were taken from their commits
in certain views. -/
def Taken (s : Scheme) (h : Header) (views : View → Prop) : Prop :=
  ∀ x d, h.extraData = .ok x → h.digest s.hash = .ok d →
    ∀ a ∈ N.base.committee.members, a ∉ N.faulty →
      ∀ mark ∈ x.seals, s.verify a d mark = true → ∃ v, N.Released run v ⟨a, d, mark⟩ ∧ views v

/-- The seals in a header that are those of some quorum were taken, as far as its members are not
faulty, from commits in one view. -/
def SealedInOneView (s : Scheme) (h : Header) : Prop :=
  ∃ v, ∀ x d, h.extraData = .ok x → h.digest s.hash = .ok d →
    N.base.committee.Quorate fun a => ∃ mark ∈ x.seals,
      s.verify a d mark = true ∧ (a ∉ N.faulty → N.Released run v ⟨a, d, mark⟩)

variable {N run}

/-- A committed header is sealed in one view if all its seals were taken in it. -/
theorem Taken.sealedInOneView
    {s : Scheme} {h : Header} {v : View} (htaken : N.Taken run s h (· = v))
    (hok : (h.checkCommitted s N.base.committee).isOk = true) : N.SealedInOneView run s h := by
  refine ⟨v, ?_⟩
  intro x d hx hd
  cases hcheck : h.checkCommitted s N.base.committee with
  | error e =>
      rw [hcheck] at hok
      contradiction
  | ok signers =>
      obtain ⟨x', d', hx', hd', hquorate⟩ := Header.quorate_of_checkCommitted hcheck
      cases hx.symm.trans hx'
      cases hd.symm.trans hd'
      apply hquorate.mono
      rintro a hmember ⟨mark, hmark, hverify⟩
      refine ⟨mark, hmark, hverify, ?_⟩
      intro hhonest
      obtain ⟨_, hreleased, rfl⟩ := htaken x d hx hd a hmember hhonest mark hmark hverify
      exact hreleased

end Seals

section Check

variable {n : ℕ} {N : Assembly (Fin n)}

/-- Whether the seals in a header were taken from commits in certain views. -/
def takes (N : Assembly (Fin n)) (r : Fin n → Record) (s : Scheme) (h : Header)
    (views : View → Bool) : Bool :=
  match h.extraData, h.digest s.hash with
  | .ok x, .ok d =>
    N.base.committee.members.all fun a => decide (a ∈ N.faulty) ||
      x.seals.all fun mark => !s.verify a d mark ||
        (List.finRange n).any fun y => (r y).sent.any fun
          | .commit p => Commit.sealing p == ⟨a, d, mark⟩ && views p.payload.view
          | _ => false
  | _, _ => false

theorem taken_of_takes
    {run : List (Happening (Fin n))} {s : Scheme} {h : Header} {views : View → Bool}
    (htakes : N.takes (N.record run) s h views = true) :
    N.Taken run s h (views · = true) := by
  intro x d hx hd a hmember hhonest mark hmark hverify
  simp only [takes, hx, hd, List.all_eq_true, Bool.or_eq_true, decide_eq_true_eq,
    List.any_eq_true] at htakes
  rcases htakes a hmember with hfaulty | hseals
  · exact absurd hfaulty hhonest
  · rcases hseals mark hmark with hnot | ⟨y, -, m, hm, hp⟩
    · rw [hverify] at hnot
      contradiction
    · cases m with
      | commit p =>
          rw [Bool.and_eq_true, beq_iff_eq] at hp
          exact ⟨_, ⟨y, p, Record.mem_sent.mp hm, hp.1, rfl⟩, hp.2⟩
      | _ => contradiction

end Check

section General

variable {ι : Type} [DecidableEq ι] {N : Assembly ι} {run : List (Happening ι)}

/-- The digest of a committed header that is sealed in one view is decided. -/
theorem decided_of_sealed
    {s : Scheme} {h : Header} (hnever : N.NeverResets run) (hhash : s.hash = N.hash)
    (hok : (h.checkCommitted s N.base.committee).isOk = true)
    (honce : N.SealedInOneView run s h) : ∃ d, h.digest N.hash = .ok d ∧ N.Decided run d := by
  obtain ⟨v, hsealed⟩ := honce
  cases hcheck : h.checkCommitted s N.base.committee with
  | error e =>
      rw [hcheck] at hok
      contradiction
  | ok signers =>
      obtain ⟨x, d, hx, hd, -⟩ := Header.quorate_of_checkCommitted hcheck
      have hcommitted : N.base.committee.Quorate fun a => a ∉ N.faulty → N.Committed run a v d := by
        apply (hsealed x d hx hd).mono
        rintro a - ⟨mark, -, -, hreleased⟩ hhonest
        obtain ⟨y, p, hp, hsealing, hview⟩ := hreleased hhonest
        have hauthor : p.author = a := congrArg Attestation.author hsealing
        refine ⟨y, p, ?_, hp, hview, congrArg Attestation.digest hsealing⟩
        rw [← hauthor]
        exact ((hnever.reachable y).authored hp).author.symm
      obtain ⟨a, -, hhonest, hcommits⟩ := hcommitted.exists_honest N.few
      obtain ⟨y, p, -, hp, rfl, -⟩ := hcommits hhonest
      rw [hhash] at hd
      exact ⟨d, hd, _, ((hnever.reachable y).logged.commits p hp).1.1.1, hcommitted⟩

variable (hrun : N.Run run) (hfree : N.CollisionFree run)

include hrun hfree

/-- The digest of a head that a node moves onto is decided: it is the block that the node has handed
out, or a committed header. -/
theorem decided_of_adopts
    {x : ι} {h : Header} (hnever : N.NeverResets run)
    (hadopts : Node.adopts (N.setup x) (N.record run x).now h = true)
    (honce : (h.checkCommitted (N.setup x).scheme N.base.committee).isOk = true →
      N.SealedInOneView run (N.setup x).scheme h) :
    ∃ d, h.digest N.hash = .ok d ∧ N.Decided run d := by
  have hreachable := hnever.reachable x
  rw [Node.adopts, Bool.and_eq_true, N.hash_eq x] at hadopts
  obtain ⟨-, hadopts⟩ := hadopts
  cases hd : h.digest N.hash with
  | error e =>
      rw [hd] at hadopts
      contradiction
  | ok d =>
      simp only [hd, Bool.or_eq_true, Bool.and_eq_true, beq_iff_eq] at hadopts
      rcases hadopts with hown | ⟨-, hcheck⟩
      · rw [Instance.committed?] at hown
        split at hown
        · rename_i hphase
          obtain ⟨d', block, hdigest, hblock, hd'⟩ := hreachable.imported hphase
          rw [N.hash_eq x] at hd'
          rw [hdigest] at hown
          cases hown
          obtain ⟨d', hsame, hdecided⟩ := decided_of_import hrun hnever hfree hblock
          rw [hd'] at hsame
          cases hsame
          exact ⟨d, rfl, hdecided⟩
        · contradiction
      · rw [hreachable.sound.framed.committee] at hcheck
        have hdecided := decided_of_sealed hnever (N.hash_eq x) hcheck (honce hcheck)
        rwa [hd] at hdecided

/-- All blocks that nodes hand out, all committed headers that are sealed in one view and all
heads that nodes move onto, as long as those with seals are sealed in one view, have one digest. -/
theorem sealed_agree (hbelow : N.Below run) :
    ∃ d,
      (∀ x block, .importBlock block ∈ (N.record run x).made →
        block.header.digest N.hash = .ok d) ∧
      (∀ s h, s.hash = N.hash → (h.checkCommitted s N.base.committee).isOk = true →
        N.SealedInOneView run s h → h.digest N.hash = .ok d) ∧
      ∀ x h, Node.adopts (N.setup x) (N.record run x).now h = true →
        ((h.checkCommitted (N.setup x).scheme N.base.committee).isOk = true →
          N.SealedInOneView run (N.setup x).scheme h) → h.digest N.hash = .ok d := by
  have hnever := hbelow.neverResets
  obtain ⟨d, hunique⟩ := decided_unique hrun hnever hfree
  have hsame : ∀ {h : Header}, (∃ d', h.digest N.hash = .ok d' ∧ N.Decided run d') →
      h.digest N.hash = .ok d := by
    rintro h ⟨d', hdigest, hd'⟩
    rw [hdigest, hunique d' hd']
  refine ⟨d, ?_, ?_, ?_⟩
  · intro x block hblock
    exact hsame (decided_of_import hrun hnever hfree hblock)
  · intro s h hhash hok honce
    exact hsame (decided_of_sealed hnever hhash hok honce)
  · intro x h hadopts honce
    exact hsame (decided_of_adopts hrun hfree hnever hadopts honce)

end General

/-- One of three members hands out the block of round zero, and another one, who has heard nothing,
moves onto a header with the seals of that round. -/
theorem sealed_agree_of_three :
    ∃ run, (Four.assembly 3).Run run ∧ (Four.assembly 3).CollisionFree run ∧
      (Four.assembly 3).Below run ∧
        ∃ d,
          (∃ block, .importBlock block ∈ ((Four.assembly 3).record run 0).made ∧
            block.header.digest Four.hash = .ok d) ∧
          Node.adopts (Four.setup 2) ((Four.assembly 3).record run 2).now
              (Four.sealed (Four.fresh 0) [0, 1, 3]) = true ∧
            (Four.sealed (Four.fresh 0) [0, 1, 3]).digest Four.hash = .ok d := by
  have hperforms : (Four.assembly 3).performs
      [.pass 0 1 0, .pass 0 1 1, .hand 0 (Four.prepare 3 0 (Four.fresh 0)),
        .pass 1 0 0, .hand 1 (Four.prepare 3 0 (Four.fresh 0)),
        .pass 0 1 2, .hand 0 (Four.commit 3 0 (Four.fresh 0))]
      (fun r => !(r 0).imported.isEmpty &&
        (Node.adopts (Four.setup 2) (r 2).now (Four.sealed (Four.fresh 0) [0, 1, 3]) &&
          takes (Four.assembly 3) r (Four.setup 2).scheme (Four.sealed (Four.fresh 0) [0, 1, 3])
            (· == ⟨1, 0⟩))) = true := by
    decide +kernel
  obtain ⟨run, hrun, -, hbelow, hfree, hend⟩ := exists_run_of_performs rfl hperforms
  rw [Bool.and_eq_true, Bool.and_eq_true, Bool.not_eq_true'] at hend
  obtain ⟨himported, hadopts, htakes⟩ := hend
  obtain ⟨block, hblock⟩ := List.exists_mem_of_ne_nil _ (List.isEmpty_eq_false_iff.mp himported)
  have hblock := Record.mem_imported.mp hblock
  have honce : (Four.assembly 3).SealedInOneView run (Four.setup 2).scheme
      (Four.sealed (Four.fresh 0) [0, 1, 3]) := by
    have htaken := taken_of_takes htakes
    simp only [beq_iff_eq] at htaken
    exact htaken.sealedInOneView (by decide +kernel)
  obtain ⟨d, himports, -, hheads⟩ := sealed_agree hrun hfree hbelow
  exact ⟨run, hrun, hfree, hbelow, d, ⟨block, hblock, himports 0 block hblock⟩, hadopts,
    hheads 2 _ hadopts fun _ => honce⟩

/-- A faulty proposer has his block prepared by one member in round zero and by another in round
two, while a third member has the usual block prepared in round one.  The latter is handed out in
round three, but by then the commits of rounds zero and two seal the former, and somebody moves
onto it. -/
theorem pooled_seals_disagree :
    ∃ run, (Four.assembly 1).Run run ∧ (Four.assembly 1).CollisionFree run ∧
      (Four.assembly 1).Below run ∧
        ∃ h : Header, h.number = Four.base.height ∧ h.parent = Four.base.parentDigest ∧
          (h.checkCommitted (Four.setup 3).scheme Four.committee).isOk = true ∧
          (Four.assembly 1).Taken run (Four.setup 3).scheme h (fun _ => True) ∧
          Node.adopts (Four.setup 3) ((Four.assembly 1).record run 2).now h = true ∧
          ∃ block, .importBlock block ∈ ((Four.assembly 1).record run 0).made ∧
            block.header.digest Four.hash ≠ h.digest Four.hash := by
  have hperforms : (Four.assembly 1).performs
      [ -- Round zero: member 0 has the odd block prepared.
        .hand 0 (Four.propose 1 0 Four.odd), .hand 1 (Four.propose 1 0 Four.odd),
        .pass 0 1 0, .hand 0 (Four.prepare 1 0 Four.odd),
        .ring 0 ⟨1, 0⟩, .ring 1 ⟨1, 0⟩, .ring 2 ⟨1, 0⟩,
        -- Round one: member 2 has a fresh block prepared.
        .pass 1 2 0, .hand 1 (Four.request 1 1),
        .pass 2 1 2, .pass 1 2 1, .hand 1 (Four.prepare 1 1 (Four.fresh 1)),
        .ring 0 ⟨1, 1⟩, .ring 1 ⟨1, 1⟩, .ring 2 ⟨1, 1⟩,
        -- Round two: member 3 has the odd block prepared.
        .pass 2 0 3, .hand 2 (Four.request 1 2),
        .pass 0 2 3, .pass 2 0 4, .hand 2 (Four.prepare 1 2 Four.odd),
        .ring 0 ⟨1, 2⟩, .ring 1 ⟨1, 2⟩,
        -- Round three: member 0 hands out the fresh block.
        .pass 0 1 6, .hand 0 (Four.request 1 3),
        .pass 1 0 6, .pass 0 1 7, .hand 0 (Four.prepare 1 3 (Four.fresh 1)),
        .pass 1 0 7, .hand 1 (Four.prepare 1 3 (Four.fresh 1)),
        .pass 0 1 8, .hand 0 (Four.commit 1 3 (Four.fresh 1))]
      (fun r => (r 0).imported.any (fun b => decide (b.header.digest Four.hash ≠
          (Four.sealed Four.odd [0, 1, 3]).digest Four.hash)) &&
        (Node.adopts (Four.setup 3) (r 2).now (Four.sealed Four.odd [0, 1, 3]) &&
          takes (Four.assembly 1) r (Four.setup 3).scheme (Four.sealed Four.odd [0, 1, 3])
            (fun _ => true))) = true := by
    decide +kernel
  obtain ⟨run, hrun, -, hbelow, hfree, hend⟩ := exists_run_of_performs rfl hperforms
  rw [Bool.and_eq_true, Bool.and_eq_true, List.any_eq_true] at hend
  obtain ⟨⟨block, hblock, hother⟩, hadopts, htakes⟩ := hend
  have htaken := taken_of_takes htakes
  simp only at htaken
  exact ⟨run, hrun, hfree, hbelow, Four.sealed Four.odd [0, 1, 3], by decide +kernel,
    by decide +kernel, by decide +kernel, htaken, hadopts, block, Record.mem_imported.mp hblock,
    of_decide_eq_true hother⟩

end QuorumChain.Assembly
