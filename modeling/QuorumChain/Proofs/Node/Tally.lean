import QuorumChain.Proofs.Committee.Quorum
import QuorumChain.Proofs.Node.Equivocation

/-!
# What stands behind the state of a round

The proposal in force was checked or is the node's own; the node counts its own votes; a member that
is prepared has committed; and nobody leaves round zero unless a timer ends or a quorum asks for
another round.
-/

namespace QuorumChain.Record

variable {s : Setup} {b : Base} {r : Record}

/-- A proposal was heard from the proposer of its view and passed all checks. -/
structure Vetted (s : Setup) (b : Base) (r : Record) (m : JustifiedProposal) (d : Digest) :
    Prop where
  heard : .message (.proposal m) ∈ r.heard
  signed : m.signed.check s.scheme b.committee = .ok ()
  author : b.committee.proposer m.signed.payload.view = m.signed.author
  passes : m.Passes s.scheme b.parent b.parentDigest b.committee d

/-- A request for a round of the height was heard and passed all checks. -/
structure Heeded (s : Setup) (b : Base) (r : Record) (q : Signed RoundChange) : Prop where
  heard : .message (.roundChange q) ∈ r.heard
  signed : q.check s.scheme b.committee = .ok ()
  payload : q.payload.check s.scheme b.committee = .ok ()
  height : q.payload.view.height = b.height

/-- A quorum of distinct members was heard asking for some round. -/
def Pressed (s : Setup) (b : Base) (r : Record) : Prop :=
  ∃ requests : List (Signed RoundChange),
    (requests.map (·.author)).Nodup ∧ b.committee.quorum ≤ requests.length ∧
      ∀ q ∈ requests, r.Heeded s b q

theorem Vetted.mono
    {r' : Record} {m : JustifiedProposal} {d : Digest} (h : r.Vetted s b m d)
    (hle : r.Extends r') : r'.Vetted s b m d :=
  ⟨hle.heard _ h.heard, h.signed, h.author, h.passes⟩

theorem Heeded.mono
    {r' : Record} {q : Signed RoundChange} (h : r.Heeded s b q) (hle : r.Extends r') :
    r'.Heeded s b q :=
  ⟨hle.heard _ h.heard, h.signed, h.payload, h.height⟩

theorem Pressed.mono {r' : Record} (h : r.Pressed s b) (hle : r.Extends r') : r'.Pressed s b := by
  obtain ⟨requests, hnodup, hquorum, hall⟩ := h
  exact ⟨requests, hnodup, hquorum, fun q hq => (hall q hq).mono hle⟩

/-- Whether a node is pressed depends on what it has heard only. -/
theorem Pressed.of_heard
    {r' : Record} (h : r.Pressed s b) (hheard : r'.heard = r.heard) : r'.Pressed s b := by
  obtain ⟨requests, hnodup, hquorum, hall⟩ := h
  refine ⟨requests, hnodup, hquorum, fun q hq => ?_⟩
  exact { hall q hq with heard := hheard ▸ (hall q hq).heard }

theorem Pressed.exists_honest
    {faulty : Finset Address} (h : r.Pressed s b) (hfew : faulty.card ≤ b.committee.maxFaulty) :
    ∃ q : Signed RoundChange, q.author ∉ faulty ∧ r.Heeded s b q := by
  obtain ⟨requests, hnodup, hquorum, hall⟩ := h
  have hquorate : b.committee.Quorate fun a => ∃ q ∈ requests, q.author = a :=
    Committee.quorate_of_votes hnodup
      (fun q hq => ⟨(Signed.check_eq_ok.mp (hall q hq).signed).2.2, q, hq, rfl⟩) hquorum
  obtain ⟨a, -, hhonest, q, hq, rfl⟩ := hquorate.exists_honest hfew
  exact ⟨q, hhonest, hall q hq⟩

theorem extends_hear (r : Record) (input : Input) :
    r.Extends { r with heard := input :: r.heard } :=
  ⟨fun _ hx => List.mem_cons_of_mem _ hx, fun _ ha => ha⟩

/-! ## The proposal in force -/

/-- The proposal in force was vetted or is the node's own. -/
theorem Reachable.vetted
    (hr : Reachable s b r) {m : JustifiedProposal} {d : Digest}
    (haccepted : r.now.round.accepted = some (m, d)) :
    .broadcast (.proposal m) ∈ r.made ∨ r.Vetted s b m d := by
  induction hr with
  | idle => contradiction
  | opened moment => contradiction
  | hear input _ ih => exact (ih haccepted).imp id fun h => h.mono (extends_hear _ input)
  | @move r moment actions j hr hmove ih =>
      have hle := r.extends_moved j actions
      rcases hmove.of_accepted haccepted with hold | ⟨hheard, hadmitted, hcheck⟩ | hown
      · exact (ih hold).imp (hle.made _) fun h => h.mono hle
      · obtain ⟨hauthor, horigin, -, -⟩ := Message.triage_eq_accept hadmitted
        have hframed := hr.sound.framed
        rw [hframed.position_committee] at hauthor horigin
        rw [hframed.parent, hframed.parentDigest, hframed.committee] at hcheck
        simp only [Message.checkOrigin, bind_eq_ok, require_eq_ok, beq_iff_eq] at horigin
        obtain ⟨_, hproposer, -⟩ := horigin
        exact .inr ⟨hheard, hauthor, hproposer, JustifiedProposal.passes_of_check hcheck⟩
      · exact .inl (List.mem_append_right _ hown)

/-- A node makes proposals only for views that it leads. -/
theorem Reachable.leads
    (hr : Reachable s b r) {m : JustifiedProposal} (hm : .broadcast (.proposal m) ∈ r.made) :
    b.committee.proposer m.signed.payload.view = s.signer.address := by
  induction hr with
  | idle => exact absurd hm List.not_mem_nil
  | opened moment => simp [Instance.startTimer] at hm
  | hear input _ ih => exact ih hm
  | @move r moment actions j hr hmove ih =>
      rcases List.mem_append.mp hm with hm | hm
      · exact ih hm
      · obtain ⟨block, certificate, d, p, hproposer, -, -, -, hsigned, -⟩ := hmove.of_proposal hm
        obtain ⟨-, hpayload, -⟩ := Signer.proposal_eq_ok hsigned
        rw [Instance.isProposer, Bool.and_eq_true, beq_iff_eq, hr.sound.framed.committee,
          hr.sound.framed.self] at hproposer
        rw [hpayload]
        exact hproposer.2

/-! ## Own votes -/

/-- The node's own prepare of the present view is counted, unless another one of its author is. -/
theorem Reachable.counts_own_prepare
    (hr : Reachable s b r) {p : Signed Prepare} (hp : .broadcast (.prepare p) ∈ r.made)
    (hview : p.payload.view = r.now.view) :
    ∃ q, (p.author, q) ∈ r.now.round.prepares.entries := by
  induction hr with
  | idle => exact absurd hp List.not_mem_nil
  | opened moment => simp [Instance.startTimer] at hp
  | hear input _ ih => exact ih hp hview
  | @move r moment actions j hr hmove ih =>
      rcases List.mem_append.mp hp with hp | hp
      · change p.payload.view = j.view at hview
        rcases hmove.lasts_or_rises with hlasts | hrises
        · obtain ⟨q, hq⟩ := ih hp (hview.trans hlasts.view)
          exact ⟨q, hlasts.prepares _ hq⟩
        · exact absurd hview ((hr.logged.prepares p hp).1.1.ne_of_rises hrises)
      · obtain ⟨m, d, -, -, -, rfl⟩ := hmove.of_prepare hp
        exact SortedMap.exists_mem_keepFirst _ _ _

theorem Reachable.counts_own_commit
    (hr : Reachable s b r) {p : Signed Commit} (hp : .broadcast (.commit p) ∈ r.made)
    (hview : p.payload.view = r.now.view) :
    ∃ q, (p.author, q) ∈ r.now.round.commits.entries := by
  induction hr with
  | idle => exact absurd hp List.not_mem_nil
  | opened moment => simp [Instance.startTimer] at hp
  | hear input _ ih => exact ih hp hview
  | @move r moment actions j hr hmove ih =>
      rcases List.mem_append.mp hp with hp | hp
      · change p.payload.view = j.view at hview
        rcases hmove.lasts_or_rises with hlasts | hrises
        · obtain ⟨q, hq⟩ := ih hp (hview.trans hlasts.view)
          exact ⟨q, hlasts.commits _ hq⟩
        · exact absurd hview ((hr.logged.commits p hp).1.1.ne_of_rises hrises)
      · obtain ⟨m, d, -, -, -, -, rfl⟩ := hmove.of_commit hp
        exact SortedMap.exists_mem_keepFirst _ _ _

/-- A member that is prepared has committed the block in force. -/
theorem Reachable.committed_of_prepared
    (hr : Reachable s b r) (hmember : r.now.isMember = true)
    (hphase : r.now.round.phase = .prepared) :
    ∃ p, .broadcast (.commit p) ∈ r.made ∧ p.payload.view = r.now.view ∧
      r.now.round.digest = some p.payload.digest := by
  induction hr with
  | idle => contradiction
  | opened moment => contradiction
  | hear input _ ih => exact ih hmember hphase
  | @move r moment actions j hr hmove ih =>
      have hbefore : r.now.isMember = true := by
        obtain ⟨-, -, hcommittee, hself⟩ := hmove.base
        rwa [Instance.isMember, hcommittee, hself] at hmember
      -- A prepared round has a proposal, so a move that takes one is impossible.
      have htaken : r.now.round.phase = .prepared → r.now.round.accepted ≠ none := by
        intro hphase hfree
        obtain ⟨p, -, -, hdigest⟩ := ih hbefore hphase
        rw [Round.digest, hfree] at hdigest
        contradiction
      cases hmove with
      | certify d m p haccepted _ _ hp =>
          obtain ⟨-, hpayload, -⟩ := Signer.commit_eq_ok hp
          refine ⟨p, List.mem_append_right _ List.mem_cons_self, ?_, ?_⟩
          · rw [hpayload]
            rfl
          · rw [hpayload]
            exact Round.digest_eq_some.mpr ⟨m, haccepted⟩
      | follow _ _ _ _ hobserver =>
          rw [hbefore] at hobserver
          contradiction
      | observe _ _ _ _ hfree => exact absurd hfree (htaken hphase)
      | take _ _ _ _ _ hfree => exact absurd hfree (htaken hphase)
      | lead _ _ _ _ _ _ hfree => exact absurd hfree (htaken hphase)
      | decide => contradiction
      | leave => contradiction
      | depart => contradiction
      | _ =>
          obtain ⟨p, hp, hview, hdigest⟩ := ih hbefore hphase
          exact ⟨p, List.mem_append_left _ hp, hview, hdigest⟩

/-! ## Leaving round zero -/

/-- The node is in round zero, has asked for no other round, and counts only requests that it has
heard and checked. -/
structure Unmoved (s : Setup) (b : Base) (r : Record) : Prop where
  view : r.now.view = ⟨b.height, 0⟩
  silent : ∀ q, .broadcast (.roundChange q) ∉ r.made
  requests : ∀ round, ∀ x ∈ (r.now.changes.forRound round).entries, r.Heeded s b x.2

theorem Unmoved.pressed
    {round : UInt32} (h : r.Unmoved s b) (hsound : r.Sound s b)
    (hquorum : r.now.changes.hasQuorum round = true) : r.Pressed s b := by
  refine ⟨(r.now.changes.forRound round).values, ?_, ?_, ?_⟩
  · exact SortedMap.nodup_map_values fun x hx => (hsound.changes round x hx).1
  · rw [RoundChanges.hasQuorum, decide_eq_true_eq, hsound.framed.changesQuorum] at hquorum
    rw [SortedMap.values, List.length_map]
    exact hquorum
  · intro q hq
    obtain ⟨k, hentry⟩ := SortedMap.mem_values.mp hq
    exact h.requests round _ hentry

/-- A move that leaves round zero, without a timer, shows that the node is pressed. -/
theorem Unmoved.move
    {moment : Setup.Moment} {actions : List Action} {j : Instance} (h : r.Unmoved s b)
    (hsound : r.Sound s b) (hquiet : ∀ view, .expiry view ∉ r.heard)
    (hmove : Instance.Move (s.context moment) r.heard r.now actions j) :
    (r.moved j actions).Pressed s b ∨ (r.moved j actions).Unmoved s b := by
  have hpressed : ∀ round,
      r.now.changes.hasQuorum round = true ∨ .expiry r.now.view ∈ r.heard →
        (r.moved j actions).Pressed s b := by
    rintro round (hquorum | hexpiry)
    · exact (h.pressed hsound hquorum).mono (r.extends_moved j actions)
    · exact absurd hexpiry (hquiet _)
  by_cases hsilent : ∀ q, .broadcast (.roundChange q) ∉ actions
  · rcases hmove.lasts_or_rises with hlasts | hrises
    · refine .inr ⟨hlasts.view.trans h.view, ?_, ?_⟩
      · intro q hq
        rcases List.mem_append.mp hq with hq | hq
        · exact h.silent q hq
        · exact hsilent q hq
      · intro round x hx
        rcases hmove.of_requested hx with hx | ⟨q, rfl, -, ⟨hheard, hadmitted⟩ | hown⟩
        · exact (h.requests round x hx).mono (r.extends_moved j actions)
        · obtain ⟨hcheck, hpayload, hheight⟩ := Message.admitted_request hadmitted
          rw [hsound.framed.position_committee] at hcheck hpayload
          exact ⟨hheard, hcheck, hpayload, hheight.trans hsound.framed.height⟩
        · exact absurd hown (hsilent q)
    · left
      cases hmove with
      | leave round _ hreason => exact hpressed round hreason
      | depart round _ _ hreason => exact hpressed round hreason
      | _ => exact absurd hrises.later (UInt32.lt_irrefl _)
  · left
    rw [not_forall] at hsilent
    obtain ⟨q, hq⟩ := hsilent
    obtain ⟨round, -, -, hreason, -⟩ := hmove.of_request (not_not.mp hq)
    exact hpressed round hreason

/-- A node that no timer has reached is in round zero, unless it was pressed. -/
theorem Reachable.pressed_or_unmoved
    (hr : Reachable s b r) (hquiet : ∀ view, .expiry view ∉ r.heard) :
    r.Pressed s b ∨ r.Unmoved s b := by
  induction hr with
  | idle =>
    exact .inr ⟨rfl, fun q => List.not_mem_nil, fun round x hx => absurd hx List.not_mem_nil⟩
  | opened moment =>
      refine .inr ⟨rfl, ?_, fun round x hx => absurd hx List.not_mem_nil⟩
      intro q hq
      simp [Instance.startTimer] at hq
  | @hear r input _ ih =>
      have hle := extends_hear r input
      apply (ih fun view hv => hquiet view (hle.heard _ hv)).imp (fun h => h.mono hle)
      intro h
      exact ⟨h.view, h.silent, fun round x hx => (h.requests round x hx).mono hle⟩
  | @move r moment actions j hr hmove ih =>
      rcases ih hquiet with hpressed | hunmoved
      · exact .inl (hpressed.mono (r.extends_moved j actions))
      · exact hunmoved.move hr.sound hquiet hmove

/-- A node that no timer has reached and that is not pressed counts no quorum for any round. -/
theorem Reachable.hasQuorum_eq_false
    (hr : Reachable s b r) (hquiet : ∀ view, .expiry view ∉ r.heard) (hfew : ¬r.Pressed s b)
    (round : UInt32) : r.now.changes.hasQuorum round = false := by
  by_contra hquorum
  rw [Bool.not_eq_false] at hquorum
  have hunmoved := (hr.pressed_or_unmoved hquiet).resolve_left hfew
  exact hfew (hunmoved.pressed hr.sound hquorum)

end QuorumChain.Record
