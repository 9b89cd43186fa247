import QuorumChain.Proofs.Life.Basic
import QuorumChain.Proofs.Node.Four

/-!
# Where a node stands

A node leaves its view for a reason only: its timer has run out, a quorum of members has asked for a
later round, or the chain has grown by a block that the node has committed or that a quorum has
sealed.  The invariant behind it is that a node's own requests are never for rounds to come, so that
all requests for such rounds were received and checked.  Heights are counted in 64 bits, so a node
that adopts the last one of them begins again at the lowest.
-/

namespace QuorumChain

namespace Instance

variable {c : Context} {heard : List Input} {i j : Instance} {actions : List Action}

/-- A quorum of members has asked for the present round; their requests are there, are their own and
carry nothing but certificates that pass the check. -/
def Demanded (scheme : Scheme) (i : Instance) : Prop :=
  ∃ requests : List (Signed RoundChange),
    (requests.map (·.author)).Nodup ∧ i.committee.quorum ≤ requests.length ∧
      ∀ q ∈ requests, (q.author, q) ∈ (i.changes.forRound i.view.round).entries ∧
        q.author ∈ i.committee.members ∧ q.payload.view = i.view ∧
          q.check scheme i.committee = .ok () ∧ q.payload.check scheme i.committee = .ok ()

/-- The view is of the height that is decided, and every request for a round to come was checked. -/
structure Vetted (scheme : Scheme) (i : Instance) : Prop where
  height : i.view.height = i.height
  quorum : i.changes.quorum = i.committee.quorum
  later : ∀ round, i.view.round < round → ∀ x ∈ (i.changes.forRound round).entries,
    x.1 = x.2.author ∧ x.2.payload.view = i.viewIn round ∧
      x.2.check scheme i.committee = .ok () ∧ x.2.payload.check scheme i.committee = .ok ()

/-! ## Moves -/

theorem Move.changes_quorum (h : Move c heard i actions j) :
    j.changes.quorum = i.changes.quorum := by
  cases h with
  | request m => exact RoundChanges.quorum_add _ m
  | depart round m => exact RoundChanges.quorum_add _ m
  | _ => rfl

theorem Move.view_rises (h : Move c heard i actions j) :
    j.view.height = i.view.height ∧ i.view.round ≤ j.view.round := by
  rcases h.lasts_or_rises with hlasts | hrises
  · rw [hlasts.view]
    exact ⟨rfl, UInt32.le_refl _⟩
  · exact ⟨hrises.height, UInt32.le_of_lt hrises.later⟩

theorem Vetted.move
    (hi : i.Vetted c.scheme) (h : Move c heard i actions j) : j.Vetted c.scheme := by
  obtain ⟨hparent, -, hcommittee, -⟩ := h.base
  obtain ⟨hheight, hround⟩ := h.view_rises
  refine ⟨?_, ?_, ?_⟩
  · show j.view.height = j.parent.number + 1
    rw [hheight, hi.height, hparent]
    rfl
  · rw [h.changes_quorum, hi.quorum, hcommittee]
  · intro round hlater x hx
    have hsame : j.viewIn round = i.viewIn round := View.eq_of_eq hheight rfl
    rw [hcommittee, hsame]
    rcases h.of_requested hx with hold | ⟨m, rfl, rfl, ⟨-, hadmitted⟩ | hown⟩
    · exact hi.later round (UInt32.lt_of_le_of_lt hround hlater) x hold
    · obtain ⟨hcheck, hpayload, hview⟩ := Message.admitted_request hadmitted
      exact ⟨rfl, View.eq_of_eq hview rfl, hcheck, hpayload⟩
    · -- A node's own request is for the round that it enters.
      obtain ⟨target, -, -, -, hm, rfl⟩ := h.of_request hown
      obtain ⟨-, hpayload, -⟩ := Signer.roundChange_eq_ok hm
      rw [hpayload] at hlater
      exact absurd hlater (UInt32.lt_irrefl _)

theorem Vetted.stays
    (hi : i.Vetted c.scheme) (h : Stays c heard i actions j) : j.Vetted c.scheme :=
  h.moves.preserves (p := fun k => k.Vetted c.scheme) (fun hmove hk => hk.move hmove) hi

theorem Vetted.departs
    {round : UInt32} (hi : i.Vetted c.scheme) (hround : i.view.round ≤ round)
    (h : Departs c i round actions j) : j.Vetted c.scheme := by
  have hlater : ∀ target, round < target → ∀ x ∈ (i.changes.forRound target).entries,
      x.1 = x.2.author ∧ x.2.payload.view = i.viewIn target ∧
        x.2.check c.scheme i.committee = .ok () ∧ x.2.payload.check c.scheme i.committee = .ok () :=
    fun target hlt => hi.later target (UInt32.lt_of_le_of_lt hround hlt)
  cases h with
  | silently =>
      refine ⟨hi.height, hi.quorum, ?_⟩
      intro target hlt x hx
      exact hlater target hlt x (RoundChanges.mem_forRound_dropBelow hx)
  | announced m _ hm =>
      refine ⟨hi.height, (RoundChanges.quorum_add _ m).trans hi.quorum, ?_⟩
      intro target hlt x hx
      rcases RoundChanges.mem_forRound_add (RoundChanges.mem_forRound_dropBelow hx) with
        hold | ⟨heq, -⟩
      · exact hlater target hlt x hold
      · obtain ⟨-, hpayload, -⟩ := Signer.roundChange_eq_ok hm
        rw [hpayload] at heq
        rw [heq] at hlt
        exact absurd hlt (UInt32.lt_irrefl _)

/-- A round that a quorum has asked for is demanded when it is entered. -/
theorem Vetted.demanded
    {round : UInt32} (hi : i.Vetted c.scheme) (hlater : i.view.round < round)
    (hquorum : i.changes.hasQuorum round = true) (h : Departs c i round actions j) :
    j.Demanded c.scheme := by
  have hcommittee : j.committee = i.committee := h.base.1
  have hview : j.view = i.viewIn round := h.view
  refine ⟨(i.changes.forRound round).values, ?_, ?_, ?_⟩
  · exact SortedMap.nodup_map_values fun x hx => (hi.later round hlater x hx).1
  · rw [RoundChanges.hasQuorum, decide_eq_true_eq, hi.quorum] at hquorum
    rw [hcommittee, SortedMap.values, List.length_map]
    exact hquorum
  · intro q hq
    obtain ⟨k, hentry⟩ := SortedMap.mem_values.mp hq
    obtain ⟨hkey, hpresent, hcheck, hpayload⟩ := hi.later round hlater _ hentry
    dsimp only at hkey
    subst hkey
    rw [hcommittee, hview]
    exact ⟨h.keeps_request hentry, (Signed.check_eq_ok.mp hcheck).2.2, hpresent, hcheck, hpayload⟩

theorem Demanded.stays
    {scheme : Scheme} (hi : i.Demanded scheme) (h : Stays c heard i actions j) :
    j.Demanded scheme := by
  obtain ⟨requests, hnodup, hquorum, hall⟩ := hi
  refine ⟨requests, hnodup, ?_, ?_⟩
  · rwa [h.moves.committee]
  · intro q hq
    rw [h.moves.committee, h.lasts.view]
    obtain ⟨hentry, hrest⟩ := hall q hq
    exact ⟨h.keeps_request hentry, hrest⟩

/-! ## Steps -/

/-- Within a step, the round goes on, or one that is demanded begins. -/
inductive Proceeds (scheme : Scheme) (i j : Instance) : Prop
  | same (hview : j.view = i.view) (hdemanded : i.Demanded scheme → j.Demanded scheme)
  | later (hheight : j.view.height = i.view.height) (hround : i.view.round < j.view.round)
      (hdemanded : j.Demanded scheme)

theorem Vetted.receive
    (hi : i.Vetted c.scheme) (m : Message) :
    (i.receive c m).Ends fun _ j => j.Vetted c.scheme ∧ Proceeds c.scheme i j := by
  obtain ⟨heard, hnone, hcourse⟩ := exists_receive_course c i m
  refine hcourse.imp fun _ j hcourse => ?_
  cases hcourse with
  | stay hstays => exact ⟨hi.stays hstays, .same hstays.lasts.view fun hd => hd.stays hstays⟩
  | leave hcounts _ _ hlater hreason hdeparts hstays =>
      have hquorum := hreason.resolve_right (hnone _)
      have hvetted := hi.stays hcounts
      refine ⟨(hvetted.departs (UInt32.le_of_lt hlater) hdeparts).stays hstays, ?_⟩
      have hview := hstays.lasts.view.trans hdeparts.view
      refine .later ?_ ?_ ((hvetted.demanded hlater hquorum hdeparts).stays hstays)
      · have hheight := congrArg View.height hcounts.lasts.view
        rw [hview]
        exact hheight
      · rw [hview, ← hcounts.lasts.view]
        exact hlater
  | reset hagain => exact absurd hagain id

theorem le_successor (round : UInt32) : round ≤ View.successor round := by
  by_cases hlast : round = View.lastRound
  · rw [View.successor, if_pos hlast, hlast]
    exact UInt32.le_refl _
  · exact UInt32.le_of_lt (lt_successor hlast)

/-- The end of a timer moves the node to the next round, if it is the timer of the present view
and the round is undecided. -/
theorem Vetted.expire
    (hi : i.Vetted c.scheme) (view : View) :
    (i.expire c view).Ends fun _ j => j.Vetted c.scheme ∧
      (j.view = i.view ∨
        (view = i.view ∧ i.round.phase ≠ .committed ∧ j.view = i.view.next)) := by
  rw [Instance.expire]
  split
  · exact Step.ends_done ⟨hi, .inl rfl⟩
  · rename_i hpresent
    rw [not_or, not_not] at hpresent
    obtain ⟨rfl, hopen⟩ := hpresent
    obtain ⟨heard, hkeeps, -⟩ := i.exists_keepsHeard
    refine (moveTo_ends hkeeps).imp ?_
    rintro _ k (⟨rfl, -⟩ | ⟨-, first, j, rest, hdeparts, hstays, -⟩)
    · exact ⟨hi, .inl rfl⟩
    · exact ⟨(hi.departs (le_successor _) hdeparts).stays hstays,
        .inr ⟨rfl, hopen, hstays.lasts.view.trans hdeparts.view⟩⟩

theorem vetted_fresh (s : Setup) (b : Base) : (b.fresh s).Vetted s.scheme :=
  ⟨rfl, rfl, fun _ _ _ hx => absurd hx List.not_mem_nil⟩

theorem vetted_start
    (s : Setup) (b : Base) (moment : Setup.Moment) :
    ((b.fresh s).start (s.context moment)).Ends fun _ i =>
      i.Vetted s.scheme ∧ i.view = ⟨b.height, 0⟩ :=
  (start_stays []).imp fun _ _ ⟨_, _, hstays⟩ =>
    ⟨Vetted.stays (c := s.context moment) (vetted_fresh s b) hstays, hstays.lasts.view⟩

/-- The messages that have waited for a height leave the first round only for one that is demanded.
-/
theorem Vetted.forEach
    {kept : List Message} (hi : i.Vetted c.scheme)
    (hround : i.view.round = 0 ∨ i.Demanded c.scheme) :
    (Step.forEach kept (Instance.receive c) i).Ends fun _ j =>
      j.Vetted c.scheme ∧ j.view.height = i.view.height ∧
        (j.view.round = 0 ∨ j.Demanded c.scheme) := by
  refine forEach_ends (p := fun j => j.Vetted c.scheme ∧ j.view.height = i.view.height ∧
    (j.view.round = 0 ∨ j.Demanded c.scheme)) ?_ ⟨hi, rfl, hround⟩
  rintro k m ⟨hk, hheight, hround⟩
  refine (hk.receive m).imp ?_
  rintro _ l ⟨hl, hproceeds⟩
  cases hproceeds with
  | same hview hdemanded =>
      rw [hview]
      exact ⟨hl, hheight, hround.imp_right hdemanded⟩
  | later hsame _ hdemanded => exact ⟨hl, hsame.trans hheight, .inr hdemanded⟩

end Instance

namespace Node

variable {s : Setup} {n n' : Node} {e : Event} {i j : Instance} {actions : List Action}

theorem lasting_vetted (s : Setup) : Lasting s fun i => i.Vetted s.scheme where
  begins b moment := (Instance.vetted_start s b moment).imp fun _ _ h => h.1
  receives moment m hi :=
    (Instance.Vetted.receive (c := s.context moment) hi m).imp fun _ _ h => h.1
  expires moment view hi :=
    (Instance.Vetted.expire (c := s.context moment) hi view).imp fun _ _ h => h.1

/-- Why a node may be elsewhere after an event than before. -/
inductive Advances (scheme : Scheme) (e : Event) (i j : Instance) : Prop
  /-- It is not. -/
  | stays (hview : j.view = i.view)
  /-- The timer of the present view has run out, and the round was undecided. -/
  | expired (hevent : e = .expiry i.view) (hopen : i.round.phase ≠ .committed)
      (hview : j.view = i.view.next)
  /-- A quorum of members has asked for a later round. -/
  | demanded (hheight : j.view.height = i.view.height) (hround : i.view.round < j.view.round)
      (hdemanded : j.Demanded scheme)
  /-- The chain has grown by a block that the node has committed or that a quorum has sealed. -/
  | grown (head : Header) (digest : Digest)
      (hevent : e = .newHead head) (hnumber : head.number = i.view.height)
      (hdigest : head.digest scheme.hash = .ok digest)
      (hcertified : i.committed? = some digest ∨
        (head.parent = i.parentDigest ∧
          ∃ seals, head.checkCommitted scheme i.committee = .ok seals))
      (hheight : j.view.height.toNat = i.view.height.toNat + 1)
      (hround : j.view.round = 0 ∨ j.Demanded scheme)

theorem adopts_eq_true
    {head : Header} (h : adopts s i head = true) :
    head.number = i.height ∧ ∃ digest, head.digest s.scheme.hash = .ok digest ∧
      (i.committed? = some digest ∨
        (head.parent = i.parentDigest ∧
          ∃ seals, head.checkCommitted s.scheme i.committee = .ok seals)) := by
  rw [adopts, Bool.and_eq_true, beq_iff_eq] at h
  obtain ⟨hnumber, h⟩ := h
  refine ⟨hnumber, ?_⟩
  cases hdigest : head.digest s.scheme.hash with
  | error e =>
      rw [hdigest] at h
      contradiction
  | ok digest =>
      rw [hdigest] at h
      refine ⟨digest, rfl, ?_⟩
      dsimp only at h
      rw [Bool.or_eq_true, Bool.and_eq_true, beq_iff_eq, beq_iff_eq] at h
      exact h.imp_right (And.imp_right isOk_eq_true.mp)

theorem startHeight_view
    {head : Header} (h : startHeight s n head = ⟨n', .ok actions⟩) :
    ∃ j, n'.current = some j ∧ j.view.height = head.number + 1 ∧
      (j.view.round = 0 ∨ j.Demanded s.scheme) := by
  obtain ⟨b, committees, i, first, j, rest, hopens, hrest, -, rfl⟩ := startHeight_eq_ok h
  obtain ⟨hvetted, hview⟩ := (Instance.vetted_start s b ⟨n.votes, s.execution⟩).of_ok hopens.start
  obtain ⟨-, hheight, hround⟩ := (Instance.Vetted.forEach (c := n.context s) hvetted
    (.inl (congrArg View.round hview))).of_ok hrest
  refine ⟨j, rfl, ?_, hround⟩
  rw [hheight, hview, ← hopens.parent]
  rfl

/-- A step of the instance, and what is behind it. -/
theorem ofStep_advances
    {step : Step Instance} (h : n.ofStep step = ⟨n', .ok actions⟩)
    (hstep : ∀ j, step = .ok (j, actions) → Advances s.scheme e i j) :
    ∃ j, n'.current = some j ∧ Advances s.scheme e i j := by
  obtain ⟨j, hj, rfl⟩ := ofStep_eq_ok.mp h
  exact ⟨j, rfl, hstep j hj⟩

theorem advances_of_handle
    (hvetted : i.Vetted s.scheme) (hi : n.current = some i)
    (hlast : ∀ head, e = .newHead head → head.number.toNat + 1 < 2 ^ 64)
    (h : n.handle s e = ⟨n', .ok actions⟩) :
    ∃ j, n'.current = some j ∧ Advances s.scheme e i j := by
  have hcases := handle_cases s n e
  generalize n.handle s e = reaction at h hcases
  cases hcases with
  | passes votes =>
      cases h
      exact ⟨i, hi, .stays rfl⟩
  | defers hdefers =>
      cases h
      exact ⟨i, hi, .stays rfl⟩
  | @receives m i' hi' hheight =>
      cases hi.symm.trans hi'
      refine ofStep_advances h fun j hreceive => ?_
      obtain ⟨-, hproceeds⟩ :=
        (Instance.Vetted.receive (c := n.context s) hvetted m).of_ok hreceive
      cases hproceeds with
      | same hview => exact .stays hview
      | later hheight hround hdemanded => exact .demanded hheight hround hdemanded
  | @expires view i' hi' hheight =>
      cases hi.symm.trans hi'
      refine ofStep_advances h fun j hexpire => ?_
      obtain ⟨-, hsame | ⟨rfl, hopen, hview⟩⟩ :=
        (Instance.Vetted.expire (c := n.context s) hvetted view).of_ok hexpire
      · exact .stays hsame
      · exact .expired rfl hopen hview
  | @adopts head i' hi' hadopts =>
      cases hi.symm.trans hi'
      obtain ⟨hnumber, digest, hdigest, hcertified⟩ := adopts_eq_true hadopts
      obtain ⟨j, hj, hheight, hround⟩ := startHeight_view h
      refine ⟨j, hj, .grown head digest rfl ?_ hdigest hcertified ?_ hround⟩
      · rw [hnumber, hvetted.height]
      · rw [hheight, hvetted.height, ← hnumber, UInt64.toNat_add]
        exact Nat.mod_eq_of_lt (hlast head rfl)

/-- No node goes back. -/
theorem Advances.not_gt {scheme : Scheme} (h : Advances scheme e i j) :
    compare i.view j.view ≠ .gt := by
  have hwithin : j.view.height = i.view.height → i.view.round ≤ j.view.round →
      compare i.view j.view ≠ .gt := by
    intro hheight hround hgt
    rw [View.compare_eq_gt hheight.symm] at hgt
    exact UInt32.not_lt.mpr hround hgt
  cases h with
  | stays hview =>
    exact hwithin (congrArg View.height hview) (by rw [hview]; exact UInt32.le_refl _)
  | expired _ _ hview =>
      have hheight : j.view.height = i.view.next.height := congrArg View.height hview
      refine hwithin hheight ?_
      rw [hview]
      exact Instance.le_successor _
  | demanded hheight hround => exact hwithin hheight (UInt32.le_of_lt hround)
  | grown _ _ _ _ _ _ hheight =>
      have hlt : i.view.height < j.view.height := by
        rw [UInt64.lt_iff_toNat_lt, hheight]
        exact Nat.lt_succ_self _
      show (compare i.view.height j.view.height).then (compare i.view.round j.view.round) ≠ .gt
      rw [Std.compare_eq_lt.mpr hlt]
      exact Ordering.noConfusion

/-- Below the last height, a node is where it was before it has answered an event, or it has been
moved for a reason and forward. -/
theorem position_justified
    (s : Setup) (headers : List Header) (head : Header) (occasions : List Occasion) (o : Occasion)
    {n' : Node} {i : Instance} {actions : List Action}
    (hi : ((launch s headers head).node.after s occasions).current = some i)
    (hlast : ∀ h, o.event = .newHead h → h.number.toNat + 1 < 2 ^ 64)
    (h : ((launch s headers head).node.after s occasions).meet s o = ⟨n', .ok actions⟩) :
    ∃ j, n'.current = some j ∧ compare i.view j.view ≠ .gt ∧
      Advances s.scheme o.event i j := by
  have hvetted := (lasting_vetted s).life hi
  obtain ⟨j, hj, hadvances⟩ :=
    advances_of_handle (s := { s with execution := o.execution }) hvetted hi hlast h
  exact ⟨j, hj, hadvances.not_gt, hadvances⟩

/-- A node at the first height moves to the second one when a sealed block appears. -/
theorem position_justified_of_sealed :
    ∃ i j, (launch (Four.setup 0) [] Four.first.header).node.current = some i ∧
      i.view = ⟨1, 0⟩ ∧ j.view = ⟨2, 0⟩ ∧
        Advances (Four.setup 0).scheme (.newHead Four.head) i j := by
  let o : Occasion := ⟨(Four.setup 0).execution, .newHead Four.head⟩
  obtain ⟨n, hn⟩ :
      ∃ n, n = (launch (Four.setup 0) [] Four.first.header).node.after (Four.setup 0) [] :=
    ⟨_, rfl⟩
  obtain ⟨r, hr⟩ : ∃ r, r = n.meet (Four.setup 0) o := ⟨_, rfl⟩
  have hfirst : n.view? = some ⟨1, 0⟩ := by
    rw [hn]
    decide +kernel
  have hsecond : r.node.view? = some ⟨2, 0⟩ := by
    rw [hr, hn]
    decide +kernel
  have hok : r.result.toOption.isSome = true := by
    rw [hr, hn]
    decide +kernel
  have hlast : ∀ h, o.event = .newHead h → h.number.toNat + 1 < 2 ^ 64 := by
    intro h heq
    rw [← Event.newHead.inj heq]
    decide +kernel
  obtain ⟨i, hi, hview⟩ := Option.map_eq_some_iff.mp hfirst
  obtain ⟨j, hj, hview'⟩ := Option.map_eq_some_iff.mp hsecond
  obtain ⟨n', result⟩ := r
  cases result with
  | error e => contradiction
  | ok actions =>
      rw [hn] at hi hr
      obtain ⟨j', hj', -, hadvances⟩ := position_justified (Four.setup 0) [] Four.first.header [] o
        hi hlast hr.symm
      obtain rfl : j = j' := Option.some.inj (hj.symm.trans hj')
      rw [after_nil] at hi
      exact ⟨i, j, hi, hview, hview', hadvances⟩

/-- A node at the last height that adopts its block has no height to go to: it answers and is at the
lowest one. -/
theorem last_height_wraps :
    let s := Four.setup 0
    let n := (launch s [] Four.late).node
    n.view? = some ⟨18446744073709551615, 0⟩ ∧ Four.latest.number = 18446744073709551615 ∧
      ((n.handle s (.newHead Four.latest)).result.toOption.isSome = true) ∧
        (n.handle s (.newHead Four.latest)).node.view? = some ⟨0, 0⟩ := by
  decide +kernel

end Node

end QuorumChain
