import QuorumChain.Proofs.Chain.Sealing
import QuorumChain.Proofs.Node.Certification
import QuorumChain.Proofs.Node.Continuity
import QuorumChain.Proofs.Node.Four

/-!
# Handing out the block

A node hands out one block at most, for a committed round is never left.  The block is the one
of the proposal in force, and its seals are those of the commits for it, in the order of the
committee.  As long as the node's own signatures verify and no signature is good for two
members, whoever attributes the seals finds a quorum of distinct members.
-/

namespace QuorumChain

/-! ## Seals of a round -/

namespace Round

/-- The seal that a member has given for the block proposed. -/
def seal? (r : Round) (a : Address) : Option Signature :=
  (r.commits.get? a).bind fun m =>
    if some m.payload.digest = r.digest then some m.payload.committedSeal else none

theorem sealsFor_eq (r : Round) (committee : Committee) :
    r.sealsFor committee = committee.members.filterMap r.seal? :=
  List.filterMap_filterMap

theorem seal?_eq_some
    {r : Round} {a : Address} {mark : Signature} :
    r.seal? a = some mark ↔
      ∃ m, (a, m) ∈ r.commits.entries ∧ some m.payload.digest = r.digest ∧
        m.payload.committedSeal = mark := by
  rw [seal?, Option.bind_eq_some_iff]
  constructor
  · rintro ⟨m, hm, hmark⟩
    split at hmark
    · rename_i hdigest
      exact ⟨m, SortedMap.get?_eq_some.mp hm, hdigest, Option.some.inj hmark⟩
    · contradiction
  · rintro ⟨m, hm, hdigest, rfl⟩
    exact ⟨m, SortedMap.get?_eq_some.mpr hm, if_pos hdigest⟩

end Round

namespace Record

/-- A block has the number of the height and the digest of the proposal in force, and its seals are
attributed to a quorum of members in their order. -/
structure WellSealed (s : Setup) (b : Base) (r : Record) (block : Block) : Prop where
  number : block.header.number = b.height
  digest : ∃ d, block.header.digest s.scheme.hash = .ok d ∧ r.now.round.digest = some d
  signers : ∃ l, block.header.signers s.scheme b.committee = .ok l ∧
    l.Sublist b.committee.members ∧ l.Nodup ∧ b.committee.quorum ≤ l.length

/-- Either nothing was handed out and the round is open, or it is committed and one block was handed
out, the sealed one of the proposal in force. -/
def Delivers (s : Setup) (b : Base) (r : Record) : Prop :=
  (r.now.round.phase ≠ .committed ∧ r.imported = []) ∨
    (r.now.round.phase = .committed ∧ ∃ block, r.imported = [block] ∧ r.WellSealed s b block)

variable {s : Setup} {b : Base} {r : Record} {moment : Setup.Moment} {turns : List Turn}
  {actions : List Action} {j : Instance}

theorem imported_moved (r : Record) (j : Instance) (actions : List Action) :
    (r.moved j actions).imported = r.imported ++ actions.filterMap Action.imported? :=
  List.filterMap_append

theorem WellSealed.lasts
    {r' : Record} {block : Block} (h : r.WellSealed s b block) (hlasts : r.now.Lasts r'.now) :
    r'.WellSealed s b block := by
  obtain ⟨d, hd, hdigest⟩ := h.digest
  exact ⟨h.number, ⟨d, hd, hlasts.digest hdigest⟩, h.signers⟩

/-! ## One block at most -/

/-- A block was handed out when a quorum had committed the proposal in force, in the round that
still goes on. -/
def Hands (s : Setup) (b : Base) (r : Record) (block : Block) : Prop :=
  ∃ r₀ m d header, Attainable s b r₀ ∧ r₀.now.Lasts r.now ∧
    r₀.now.round.accepted = some (m, d) ∧ r₀.now.round.hasCommitQuorum = true ∧
      m.signed.payload.block.header.withSeals (r₀.now.round.sealsFor r₀.now.committee) =
        .ok header ∧
        block = { m.signed.payload.block with header }

/-- Either nothing was handed out and the round is open, or it is committed and one block was
handed out: a committed round is never left. -/
theorem Attainable.open_or_hands (hr : Attainable s b r) :
    (r.now.round.phase ≠ .committed ∧ r.imported = []) ∨
      (r.now.round.phase = .committed ∧ ∃ block, r.imported = [block] ∧ r.Hands s b block) := by
  induction hr with
  | idle => exact .inl ⟨Phase.noConfusion, rfl⟩
  | opened moment => exact .inl ⟨Phase.noConfusion, rfl⟩
  | hear input _ ih => exact ih
  | @move r moment actions j hr hmove ih =>
      have hall := imported_moved r j actions
      rw [moved] at hall
      rw [hall]
      rcases hmove.imports_or_decides with ⟨hnone, hphase⟩ |
        ⟨m, d, header, haccepted, hquorum, hheader, hone, rfl⟩
      · rw [hnone, List.append_nil]
        rcases ih with ⟨hopen, himported⟩ | ⟨hcommitted, block, himported, r₀, m, d, header, hr₀,
          hlasts₀, hhanded⟩
        · exact .inl ⟨fun hj => hopen (hphase.mp hj), himported⟩
        · -- The proposal in force stays, for a round that is entered is not committed yet.
          rcases hmove.lasts_or_rises with hlasts | hrises
          · exact .inr ⟨hlasts.committed hcommitted, block, himported, r₀, m, d, header, hr₀,
              hlasts₀.trans hlasts, hhanded⟩
          · have hopen := hrises.phase
            rw [hphase.mpr hcommitted] at hopen
            contradiction
      · -- A block is handed out when the round commits, so none was before.
        have hopen : r.now.round.phase ≠ .committed := by
          rw [Round.hasCommitQuorum, Bool.and_eq_true, Bool.and_eq_true, bne_iff_ne] at hquorum
          exact hquorum.1.1
        rcases ih with ⟨-, himported⟩ | ⟨hcommitted, -⟩
        · refine .inr ⟨rfl, _, ?_, r, m, d, header, hr, ?_, haccepted, hquorum, hheader, rfl⟩
          · rw [himported, hone]
            rfl
          · exact ⟨rfl, fun _ ha => ha, fun _ hx => hx, fun _ hx => hx, fun _ => Phase.noConfusion,
              fun _ => rfl⟩
        · exact absurd hcommitted hopen
  | @reset r _ actions j _ _ hopen hdeparts ih =>
      obtain ⟨hnone, hphase⟩ := hdeparts.imports_nothing
      rcases ih with ⟨-, himported⟩ | ⟨hcommitted, -⟩
      · refine .inl ⟨?_, ?_⟩
        · dsimp only
          rw [hphase]
          exact Phase.noConfusion
        · have hall := imported_moved r j actions
          rw [himported, hnone] at hall
          exact hall
      · exact absurd hcommitted hopen

/-! ## Seals verify -/

/-- At least as many members have sealed the block proposed as there are commits for it. -/
theorem Sound.length_matchingCommits_le (hsound : Sound s b r) :
    r.now.round.matchingCommits.length ≤
      (b.committee.members.filter fun a => (r.now.round.seal? a).isSome).length := by
  have hsubset : r.now.round.matchingCommits.map (·.author) ⊆
      b.committee.members.filter fun a => (r.now.round.seal? a).isSome := by
    intro a ha
    obtain ⟨p, hp, rfl⟩ := List.mem_map.mp ha
    obtain ⟨hentry, hfor, -, hmember, -⟩ := hsound.of_matchingCommits hp
    have hseal := Round.seal?_eq_some.mpr ⟨p, hentry, hfor, rfl⟩
    exact List.mem_filter.mpr ⟨hmember, Option.isSome_iff_exists.mpr ⟨_, hseal⟩⟩
  have hlength := (List.subperm_of_subset hsound.nodup_matchingCommits hsubset).length_le
  rwa [List.length_map] at hlength

section Own

variable (hown : ∀ d, s.scheme.verify s.signer.address d (s.signer.sign d) = true)

include hown

theorem Attainable.verify_seal
    (hr : Attainable s b r) {x : Address × Signed Commit} (hx : x ∈ r.now.round.commits.entries) :
    s.scheme.verify x.2.author x.2.payload.digest x.2.payload.committedSeal = true := by
  induction hr with
  | idle => exact absurd hx List.not_mem_nil
  | opened moment => exact absurd hx List.not_mem_nil
  | hear input _ ih => exact ih hx
  | move hr hmove ih =>
      obtain ⟨-, hold | ⟨m, rfl, ⟨-, hadmitted⟩ | hsent⟩⟩ := hmove.of_committed hx
      · exact ih hold
      · obtain ⟨-, -, -, hcontent⟩ := Message.triage_eq_accept hadmitted
        simp only [Message.checkContent, bind_eq_ok, require_eq_ok] at hcontent
        obtain ⟨_, -, hverify⟩ := hcontent
        exact hverify
      · obtain ⟨_, d, -, -, -, hsigned, -⟩ := hmove.of_commit hsent
        obtain ⟨-, hpayload, hauthor, -⟩ := Signer.commit_eq_ok hsigned
        dsimp only
        rw [hpayload, hauthor]
        exact hown d
  | reset _ _ _ hdeparts _ =>
      cases hdeparts with
      | silently => exact absurd hx List.not_mem_nil
      | announced => exact absurd hx List.not_mem_nil

variable (hunique : ∀ d mark, ∀ a ∈ b.committee.members, ∀ a' ∈ b.committee.members,
  s.scheme.verify a d mark = true → s.scheme.verify a' d mark = true → a = a')

include hunique

/-- The block of a quorum of commits is well sealed. -/
theorem Attainable.wellSealed
    (hr : Attainable s b r) {m : JustifiedProposal} {d : Digest} {header : Header}
    (haccepted : r.now.round.accepted = some (m, d))
    (hquorum : r.now.round.hasCommitQuorum = true)
    (hheader : m.signed.payload.block.header.withSeals (r.now.round.sealsFor r.now.committee) =
      .ok header) :
    r.WellSealed s b { m.signed.payload.block with header } := by
  have hsound := hr.sound
  have hdigest : r.now.round.digest = some d := Round.digest_eq_some.mpr ⟨m, haccepted⟩
  have hd : header.digest s.scheme.hash = .ok d :=
    (Header.digest_withSeals _ hheader).trans (hsound.accepted m d haccepted).2.digest
  rw [hsound.framed.committee, Round.sealsFor_eq] at hheader
  refine ⟨?_, ⟨d, hd, hdigest⟩, ?_⟩
  · obtain ⟨_, _, -, -, rfl⟩ := Header.withSeals_eq_ok hheader
    exact ((hr.presentable hown).accepted m d haccepted).2.2
  · have hmarks : ∀ a ∈ b.committee.members, ∀ mark, r.now.round.seal? a = some mark →
        s.scheme.verify a d mark = true := by
      intro a _ mark hmark
      obtain ⟨p, hentry, hfor, rfl⟩ := Round.seal?_eq_some.mp hmark
      have hverify := hr.verify_seal hown hentry
      rw [hdigest, Option.some.injEq] at hfor
      rw [← (hsound.commits _ hentry).1, hfor] at hverify
      exact hverify
    have hattributed : Header.attributeSeals s.scheme b.committee d 0 []
        (b.committee.members.filterMap r.now.round.seal?) =
          .ok (b.committee.members.filter fun a => (r.now.round.seal? a).isSome) :=
      Header.attributeSeals_filterMap (hunique d) (fun a ha => ⟨ha, List.not_mem_nil⟩)
        b.committee.nodup hmarks
    obtain ⟨x, -, hx⟩ := Header.extraData_withSeals hheader
    refine ⟨b.committee.members.filter fun a => (r.now.round.seal? a).isSome, ?_,
      List.filter_sublist, b.committee.nodup.filter _, ?_⟩
    · simp only [Header.signers, bind_eq_ok, mapError_eq_ok]
      exact ⟨_, hx, d, hd, hattributed⟩
    · rw [Round.hasCommitQuorum, Bool.and_eq_true, decide_eq_true_eq, hsound.framed.roundQuorum]
        at hquorum
      exact Nat.le_trans hquorum.2 (hsound.length_matchingCommits_le)

theorem Attainable.delivers (hr : Attainable s b r) : r.Delivers s b := by
  rcases hr.open_or_hands with hopen | ⟨hcommitted, block, himported, r₀, m, d, header, hr₀, hlasts,
    haccepted, hquorum, hheader, rfl⟩
  · exact .inl hopen
  · have hsealed := hr₀.wellSealed hown hunique haccepted hquorum hheader
    exact .inr ⟨hcommitted, _, himported, hsealed.lasts hlasts⟩

/-- A node hands out one block at most in a run.  The block has the number of the height and the
digest of the proposal in force, and its seals are those of a quorum of members, in their order. -/
theorem delivers_run (moment : Setup.Moment) (turns : List Turn) :
    (run s b moment turns).imported.length ≤ 1 ∧
      ∀ block ∈ (run s b moment turns).imported, (run s b moment turns).WellSealed s b block := by
  rcases (attainable_run s b moment turns).delivers hown hunique with
    ⟨-, himported⟩ | ⟨-, block, himported, hsealed⟩
  · rw [himported]
    exact ⟨Nat.zero_le 1, fun block hb => absurd hb List.not_mem_nil⟩
  · rw [himported]
    refine ⟨Nat.le_refl 1, ?_⟩
    intro block' hb
    rw [List.mem_singleton.mp hb]
    exact hsealed

end Own

/-- A member that hears a block proposed, prepared and committed by others hands it out. -/
theorem delivers_run_of_member :
    ∃ turns block, (run (Four.setup 2) Four.base Four.moment turns).imported = [block] ∧
      (run (Four.setup 2) Four.base Four.moment turns).WellSealed (Four.setup 2) Four.base
        block := by
  obtain ⟨turns, hends⟩ :
      ∃ turns, (run (Four.setup 2) Four.base Four.moment turns).imported ≠ [] :=
    ⟨Four.hears [Four.propose 1 0 (Four.fresh 0), Four.prepare 0 0 (Four.fresh 0),
      Four.prepare 1 0 (Four.fresh 0), Four.commit 0 0 (Four.fresh 0),
      Four.commit 1 0 (Four.fresh 0)], by decide +kernel⟩
  obtain ⟨hone, hsealed⟩ :=
    delivers_run (s := Four.setup 2) (b := Four.base) (Four.verify_sign 2 2)
      (fun _ _ _ _ _ _ h h' => Four.verify_unique h h') Four.moment turns
  obtain ⟨block, rest, himported⟩ := List.exists_cons_of_ne_nil hends
  rw [himported, List.length_cons] at hone
  obtain rfl : rest = [] := List.eq_nil_of_length_eq_zero (by omega)
  refine ⟨turns, block, himported, hsealed block ?_⟩
  rw [himported]
  exact List.mem_cons_self

end Record

end QuorumChain
