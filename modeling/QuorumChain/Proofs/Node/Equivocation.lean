import QuorumChain.Proofs.Node.Log

/-!
# Nobody contradicts himself

Whatever messages and timers reach a node, in each round it makes at most one proposal, prepares at
most one digest and commits only that one; and it enters each round at most once.

There is one exception.  The last round has no successor, so a timer that ends in it while it is
undecided enters the same round again and forgets what was settled.  The main result is that a run
is free of contradictions exactly if this does not happen.
-/

namespace QuorumChain

/-! ## A round over time -/

/-- How far a phase has come. -/
def Phase.rank : Phase → Nat
  | .newRound => 0
  | .prepared => 1
  | .committed => 2

/-- The state of a round after another one of the same height: it is that of a later round, or the
round has kept the proposal in force and all votes, and its phase has not fallen. -/
def Round.Leads (before after : Round) : Prop :=
  before.view.round < after.view.round ∨
    (after.view = before.view ∧
      (∀ a, before.accepted = some a → after.accepted = some a) ∧
        (∀ x ∈ before.prepares.entries, x ∈ after.prepares.entries) ∧
          (∀ x ∈ before.commits.entries, x ∈ after.commits.entries) ∧
            before.phase.rank ≤ after.phase.rank)

theorem Round.Leads.refl (r : Round) : r.Leads r :=
  .inr ⟨rfl, fun _ ha => ha, fun _ hx => hx, fun _ hx => hx, Nat.le_refl _⟩

theorem Round.Leads.trans
    {r r' r'' : Round} (h : r.Leads r') (h' : r'.Leads r'') : r.Leads r'' := by
  rcases h with hlater | ⟨hview, haccepted, hprepares, hcommits, hphase⟩
  · rcases h' with hlater' | ⟨hview', -⟩
    · exact .inl (UInt32.lt_trans hlater hlater')
    · left
      rw [hview']
      exact hlater
  · rcases h' with hlater' | ⟨hview', haccepted', hprepares', hcommits', hphase'⟩
    · left
      rw [← hview]
      exact hlater'
    · exact .inr ⟨hview'.trans hview, fun a ha => haccepted' a (haccepted a ha),
        fun x hx => hprepares' x (hprepares x hx), fun x hx => hcommits' x (hcommits x hx),
        Nat.le_trans hphase hphase'⟩

theorem Round.Leads.kept
    {r r' : Round} (h : r.Leads r') (hview : r'.view = r.view) :
    (∀ a, r.accepted = some a → r'.accepted = some a) ∧
      (∀ x ∈ r.prepares.entries, x ∈ r'.prepares.entries) ∧
        ∀ x ∈ r.commits.entries, x ∈ r'.commits.entries := by
  rcases h with hlater | ⟨-, haccepted, hprepares, hcommits, -⟩
  · rw [hview] at hlater
    exact absurd hlater (UInt32.lt_irrefl _)
  · exact ⟨haccepted, hprepares, hcommits⟩

namespace Instance

variable {c : Context} {heard : List Input} {i j : Instance} {actions : List Action}

theorem Lasts.leads (h : i.Lasts j) : i.round.Leads j.round := by
  refine .inr ⟨h.view, h.accepted, h.prepares, h.commits, ?_⟩
  have hphase := h.phase
  have hcommitted := h.committed
  cases hi : i.round.phase with
  | newRound => exact Nat.zero_le _
  | prepared =>
      cases hj : j.round.phase with
      | newRound => exact absurd hj (hphase (by simp [hi]))
      | prepared => exact Nat.le_refl _
      | committed => exact Nat.le_succ _
  | committed =>
      rw [hcommitted hi]

theorem Moves.leads (h : Moves c heard i actions j) : i.round.Leads j.round := by
  induction h with
  | refl i => exact .refl _
  | head hmove _ ih =>
      refine Round.Leads.trans ?_ ih
      rcases hmove.lasts_or_rises with hlasts | hrises
      · exact hlasts.leads
      · exact .inl hrises.later

/-- Resetting the last round starts its timer once more. -/
theorem startTimer_of_resets
    {view : View} (hresets : i.Resets view) (hrepeat : i.CanRepeat c) :
    (expire c i view).Ends fun actions _ => startTimer c i.view ∈ actions := by
  obtain ⟨rfl, hlast, hphase⟩ := hresets
  obtain ⟨j, first, hannounce⟩ := hrepeat
  have hpresent : ¬(i.view ≠ i.view ∨ i.round.phase = .committed) := by simp [hphase]
  have hview : i.viewIn View.lastRound = i.view := View.eq_of_eq rfl hlast.symm
  rw [← hview] at hannounce
  rw [expire, if_neg hpresent, View.successor, if_pos hlast, moveTo_of_announce hannounce, hview]
  exact Step.ends_emit_andThen
    (List.mem_append_left _ (List.mem_append_right _ List.mem_cons_self))

end Instance

namespace Record

variable {s : Setup} {b : Base} {r : Record} {moment : Setup.Moment} {turns : List Turn}

/-! ## What a node has said in each round -/

/-- In each round there is at most one proposal, one digest prepared and one digest committed, and
the round was entered at most once. -/
structure Consistent (r : Record) : Prop where
  proposals : (r.made.filterMap Action.proposed?).Nodup
  prepares : ∀ p p', .broadcast (.prepare p) ∈ r.made → .broadcast (.prepare p') ∈ r.made →
    p.payload.view = p'.payload.view → p.payload.digest = p'.payload.digest
  commits : ∀ p p', .broadcast (.commit p) ∈ r.made → .broadcast (.commit p') ∈ r.made →
    p.payload.view = p'.payload.view → p.payload.digest = p'.payload.digest
  entered : (r.made.filterMap Action.entered?).Nodup

theorem proposed_of_mem
    {v : View} {made : List Action} (hv : v ∈ made.filterMap Action.proposed?) :
    ∃ m, .broadcast (.proposal m) ∈ made ∧ m.signed.payload.view = v := by
  obtain ⟨a, ha, hv⟩ := List.mem_filterMap.mp hv
  cases a with
  | broadcast m =>
      cases m with
      | proposal m => exact ⟨m, ha, by simpa [Action.proposed?] using hv⟩
      | _ => contradiction
  | _ => contradiction

theorem entered_of_mem
    {v : View} {made : List Action} :
    v ∈ made.filterMap Action.entered? ↔ ∃ after, .startTimer v after ∈ made := by
  constructor
  · intro hv
    obtain ⟨a, ha, hv⟩ := List.mem_filterMap.mp hv
    cases a with
    | startTimer view after =>
        obtain rfl : view = v := by simpa [Action.entered?] using hv
        exact ⟨after, ha⟩
    | _ => contradiction
  · rintro ⟨after, ha⟩
    exact List.mem_filterMap.mpr ⟨_, ha, rfl⟩

/-- The timers that were started are those of the rounds up to the present one, which has had its
own unless it is round zero. -/
structure Timed (r : Record) : Prop where
  past : ∀ v ∈ r.made.filterMap Action.entered?, v.round ≤ r.now.view.round
  present : r.now.view.round ≠ 0 → r.now.view ∈ r.made.filterMap Action.entered?

theorem Reachable.timed (hr : Reachable s b r) : r.Timed := by
  induction hr with
  | idle => exact ⟨by simp, fun h => absurd rfl h⟩
  | opened moment =>
      refine ⟨?_, fun h => absurd rfl h⟩
      intro v hv
      obtain ⟨after, ha⟩ := entered_of_mem.mp hv
      obtain ⟨rfl, -⟩ : v = (b.fresh s).view ∧ _ := by
        simpa [Instance.startTimer] using ha
      exact UInt32.le_refl _
  | hear input _ ih => exact ⟨ih.past, ih.present⟩
  | move _ hmove ih =>
      rcases hmove.lasts_or_enters with ⟨hlasts, hnone⟩ | ⟨hrises, hone⟩
      · constructor
        · intro v hv
          rw [List.filterMap_append, hnone, List.append_nil] at hv
          dsimp only
          rw [hlasts.view]
          exact ih.past v hv
        · intro hround
          rw [List.filterMap_append, hnone, List.append_nil]
          dsimp only at hround ⊢
          rw [hlasts.view] at hround ⊢
          exact ih.present hround
      · constructor
        · intro v hv
          rw [List.filterMap_append, hone] at hv
          rcases List.mem_append.mp hv with hv | hv
          · exact UInt32.le_trans (ih.past v hv) (UInt32.le_of_lt hrises.later)
          · rw [List.mem_singleton.mp hv]
            exact UInt32.le_refl _
        · intro _
          rw [List.filterMap_append, hone]
          exact List.mem_append_right _ List.mem_cons_self

section Move

variable {actions : List Action} {j : Instance} (hr : Reachable s b r) (h : r.Consistent)
  (hmove : Instance.Move (s.context moment) r.heard r.now actions j)

include hr h hmove

theorem Consistent.proposals_moved :
    ((r.moved j actions).made.filterMap Action.proposed?).Nodup := by
  show ((r.made ++ actions).filterMap Action.proposed?).Nodup
  rw [List.filterMap_append]
  rcases hmove.proposed with hnone | ⟨hone, hfree⟩
  · rw [hnone, List.append_nil]
    exact h.proposals
  · -- A proposal of the present view would be in force.
    rw [hone, List.nodup_append]
    refine ⟨h.proposals, List.nodup_singleton _, ?_⟩
    intro v hv w hw heq
    obtain ⟨m, hm, hview⟩ := proposed_of_mem hv
    obtain ⟨d, hsettled, -⟩ := hr.logged.proposals m hm
    have hdigest := hsettled.2 (by rw [hview, heq, List.mem_singleton.mp hw])
    obtain ⟨m', hm'⟩ := Round.digest_eq_some.mp hdigest
    rw [hfree] at hm'
    contradiction

theorem Consistent.prepares_moved :
    ∀ p p', .broadcast (.prepare p) ∈ (r.moved j actions).made →
      .broadcast (.prepare p') ∈ (r.moved j actions).made →
        p.payload.view = p'.payload.view → p.payload.digest = p'.payload.digest := by
  intro p p' hp hp' hview
  have hlogged := hr.logged.move hr.sound hmove
  have hsettled := (hlogged.prepares p hp).1
  have hsettled' := (hlogged.prepares p' hp').1
  rw [← hview] at hsettled'
  -- A new prepare is of the present view, in which only one digest is settled.
  have hpresent : ∀ q, .broadcast (.prepare q) ∈ actions → q.payload.view = j.view := by
    intro q hq
    obtain ⟨m, d, -, -, hsigned, rfl⟩ := hmove.of_prepare hq
    rw [(Signer.prepare_eq_ok hsigned).2.1]
    rfl
  rcases List.mem_append.mp hp with hold | hnew
  · rcases List.mem_append.mp hp' with hold' | hnew'
    · exact h.prepares p p' hold hold' hview
    · exact hsettled.unique hsettled' (hview.trans (hpresent p' hnew'))
  · exact hsettled.unique hsettled' (hpresent p hnew)

theorem Consistent.commits_moved :
    ∀ p p', .broadcast (.commit p) ∈ (r.moved j actions).made →
      .broadcast (.commit p') ∈ (r.moved j actions).made →
        p.payload.view = p'.payload.view → p.payload.digest = p'.payload.digest := by
  intro p p' hp hp' hview
  have hlogged := hr.logged.move hr.sound hmove
  have hsettled := (hlogged.commits p hp).1
  have hsettled' := (hlogged.commits p' hp').1
  rw [← hview] at hsettled'
  have hpresent : ∀ q, .broadcast (.commit q) ∈ actions → q.payload.view = j.view := by
    intro q hq
    obtain ⟨m, d, -, -, -, hsigned, rfl⟩ := hmove.of_commit hq
    rw [(Signer.commit_eq_ok hsigned).2.1]
    rfl
  rcases List.mem_append.mp hp with hold | hnew
  · rcases List.mem_append.mp hp' with hold' | hnew'
    · exact h.commits p p' hold hold' hview
    · exact hsettled.unique hsettled' (hview.trans (hpresent p' hnew'))
  · exact hsettled.unique hsettled' (hpresent p hnew)

theorem Consistent.entered_moved :
    ((r.moved j actions).made.filterMap Action.entered?).Nodup := by
  show ((r.made ++ actions).filterMap Action.entered?).Nodup
  rw [List.filterMap_append]
  rcases hmove.lasts_or_enters with ⟨-, hnone⟩ | ⟨hrises, hone⟩
  · rw [hnone, List.append_nil]
    exact h.entered
  · rw [hone, List.nodup_append]
    refine ⟨h.entered, List.nodup_singleton _, ?_⟩
    intro v hv w hw heq
    have hle := hr.timed.past v hv
    rw [heq, List.mem_singleton.mp hw] at hle
    exact absurd hrises.later (UInt32.not_lt.mpr hle)

end Move

/-- No reachable record contradicts itself. -/
theorem Reachable.consistent (hr : Reachable s b r) : r.Consistent := by
  induction hr with
  | idle => exact ⟨List.nodup_nil, by simp, by simp, List.nodup_nil⟩
  | opened moment =>
      exact ⟨List.nodup_nil, by simp [Instance.startTimer], by simp [Instance.startTimer],
        List.nodup_singleton _⟩
  | hear input _ ih => exact ⟨ih.proposals, ih.prepares, ih.commits, ih.entered⟩
  | move hr hmove ih =>
      exact ⟨ih.proposals_moved hr hmove, ih.prepares_moved hr hmove, ih.commits_moved hr hmove,
        ih.entered_moved hr hmove⟩

/-! ## Whole runs -/

/-- A run that enters no round twice does not reset the last round. -/
theorem sober_of_entered
    (h : ((run s b moment turns).made.filterMap Action.entered?).Nodup) :
    Sober s b moment turns := by
  induction turns using List.reverseRecOn with
  | nil =>
      intro earlier t later heq
      simp at heq
  | append_singleton turns t ih =>
      rw [run_append_singleton] at h
      have hearlier : Sober s b moment turns := by
        obtain ⟨actions, hdone⟩ := exists_made_turn s (run s b moment turns) t
        rw [hdone, List.filterMap_append, List.nodup_append] at h
        exact ih h.1
      refine sober_append_singleton.mpr ⟨hearlier, ?_⟩
      rintro ⟨view, hinput, hresets, hrepeat⟩
      have htimed := (reachable_run hearlier).timed
      have hpresent := htimed.present (by rw [hresets.2.1]; decide)
      have hagain : Instance.startTimer (s.context t.moment) (run s b moment turns).now.view ∈
          (run s b moment turns).asked s t := by
        rw [asked, answer, hinput]
        exact Instance.startTimer_of_resets hresets hrepeat
      rw [made_turn, List.filterMap_append, List.nodup_append] at h
      exact h.2.2 _ hpresent _ (entered_of_mem.mpr ⟨_, hagain⟩) rfl

/-- Without resets the round only goes on or gives way to a later one. -/
theorem leads_of_sober
    {earlier later : List Turn} (h : Sober s b moment (earlier ++ later)) :
    (run s b moment earlier).now.round.Leads (run s b moment (earlier ++ later)).now.round := by
  induction later using List.reverseRecOn with
  | nil =>
      rw [List.append_nil]
      exact .refl _
  | append_singleton later t ih =>
      rw [← List.append_assoc] at h ⊢
      obtain ⟨hbefore, ht⟩ := sober_append_singleton.mp h
      rw [run_append_singleton]
      exact (ih hbefore).trans ((reachable_run hbefore).turn_moves ht).leads

/-- A run in which the node nowhere contradicts itself: in each round it makes at most one proposal,
prepares at most one digest and commits only what it has prepared; it enters no round twice, and a
round that goes on forgets nothing. -/
structure Unequivocal (s : Setup) (b : Base) (moment : Setup.Moment) (turns : List Turn) :
    Prop where
  proposals : ((run s b moment turns).made.filterMap Action.proposed?).Nodup
  prepares : ∀ p p', .broadcast (.prepare p) ∈ (run s b moment turns).made →
    .broadcast (.prepare p') ∈ (run s b moment turns).made →
      p.payload.view = p'.payload.view → p.payload.digest = p'.payload.digest
  commits : ∀ p p', .broadcast (.commit p) ∈ (run s b moment turns).made →
    .broadcast (.commit p') ∈ (run s b moment turns).made →
      p.payload.view = p'.payload.view → p.payload.digest = p'.payload.digest
  prepared : ∀ p, .broadcast (.commit p) ∈ (run s b moment turns).made →
    ∃ p', .broadcast (.prepare p') ∈ (run s b moment turns).made ∧
      p'.payload = ⟨p.payload.view, p.payload.digest⟩
  entered : ((run s b moment turns).made.filterMap Action.entered?).Nodup
  kept : ∀ earlier later, turns = earlier ++ later →
    (run s b moment earlier).now.round.Leads (run s b moment turns).now.round

/-- A node contradicts itself nowhere exactly if it does not reset the last round. -/
theorem unequivocal_iff_sober
    (s : Setup) (b : Base) (moment : Setup.Moment) (turns : List Turn) :
    Unequivocal s b moment turns ↔ Sober s b moment turns := by
  constructor
  · exact fun h => sober_of_entered h.entered
  · intro h
    have hreachable := reachable_run h
    have hconsistent := hreachable.consistent
    exact {
      proposals := hconsistent.proposals
      prepares := hconsistent.prepares
      commits := hconsistent.commits
      prepared := fun p hp => (hreachable.logged.commits p hp).2.2.1
      entered := hconsistent.entered
      kept := fun earlier later heq => by
        subst heq
        exact leads_of_sober h }

end Record

end QuorumChain
