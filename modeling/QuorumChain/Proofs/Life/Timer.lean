import QuorumChain.Proofs.Life.Survival

/-!
# The timer of a node

A node has one timer.  Starting it replaces what runs, stopping it clears it, and nothing else
touches it.  So the actions asked for so far, in their order, say what the timer holds: the present
view of a round that is not decided, with the timeout of that round, and nothing otherwise.

Every elementary move of an instance agrees with this, since only deciding and leaving a round do
anything to the timer or to what it should hold.
-/

namespace QuorumChain

/-- What an action makes of the timer. -/
def Action.setTimer (slot : Option (View × Duration)) : Action → Option (View × Duration)
  | .startTimer view after => some (view, after)
  | .stopTimer => none
  | .broadcast _ => slot
  | .importBlock _ => slot

/-- The timer behind some actions; before them there is none. -/
def Action.timer (actions : List Action) : Option (View × Duration) :=
  actions.foldl Action.setTimer none

namespace Instance

/-! ## Steps of an instance -/

/-- What the timer should hold for an instance. -/
def guard (t : Settings) (i : Instance) : Option (View × Duration) :=
  if i.round.phase = .committed then none
  else some (i.view, roundTimeout t.baseTimeout i.view.round)

variable {c : Context} {heard : List Input} {i j : Instance} {actions : List Action}

theorem guard_of_open
    (t : Settings) (hopen : i.round.phase ≠ .committed) :
    i.guard t = some (i.view, roundTimeout t.baseTimeout i.view.round) :=
  if_neg hopen

theorem Departs.setTimer
    {round : UInt32} {slot : Option (View × Duration)} (h : Departs c i round actions j) :
    actions.foldl Action.setTimer slot = j.guard c.settings := by
  cases h <;> rfl

/-- One move makes of the timer what the new instance needs. -/
theorem Move.setTimer
    (h : Move c heard i actions j) :
    actions.foldl Action.setTimer (i.guard c.settings) = j.guard c.settings := by
  have hopen : ∀ {r : Round}, r.hasPreparedQuorum = true → r.phase ≠ .committed := by
    intro r hquorum hphase
    rw [Round.hasPreparedQuorum, hphase] at hquorum
    exact Bool.noConfusion hquorum
  cases h with
  | follow digest m haccepted hquorum =>
      exact guard_of_open _ (hopen hquorum)
  | certify digest m p haccepted hquorum =>
      exact guard_of_open _ (hopen hquorum)
  | decide => rfl
  | leave round hlater hreason hmember =>
      exact (Departs.silently hmember).setTimer
  | depart round m hlater hreason hmember hm =>
      exact (Departs.announced m hmember hm).setTimer
  | _ => rfl

theorem Moves.setTimer
    (h : Moves c heard i actions j) :
    actions.foldl Action.setTimer (i.guard c.settings) = j.guard c.settings := by
  induction h with
  | refl i => rfl
  | head hfirst _ ih => rw [List.foldl_append, hfirst.setTimer, ih]

theorem Course.setTimer
    {again : Prop} (h : Course c heard again i actions j) :
    actions.foldl Action.setTimer (i.guard c.settings) = j.guard c.settings := by
  cases h with
  | stay hstays => exact hstays.moves.setTimer
  | leave _ _ _ _ _ hdeparts hstays =>
      rw [List.foldl_append, hdeparts.setTimer, hstays.moves.setTimer]
  | reset _ _ _ hdeparts hstays =>
      rw [List.foldl_append, hdeparts.setTimer, hstays.moves.setTimer]

theorem receive_setTimer
    {m : Message} (h : i.receive c m = .ok (j, actions)) :
    actions.foldl Action.setTimer (i.guard c.settings) = j.guard c.settings := by
  obtain ⟨heard, -, hcourse⟩ := exists_receive_course c i m
  exact (hcourse.of_ok h).setTimer

theorem expire_setTimer
    {view : View} (h : i.expire c view = .ok (j, actions)) :
    actions.foldl Action.setTimer (i.guard c.settings) = j.guard c.settings := by
  obtain ⟨heard, hkeeps, -⟩ := i.exists_keepsHeard
  have hkeeps' : i.KeepsHeard (.expiry view :: heard) :=
    fun m hm => List.mem_cons_of_mem _ (hkeeps m hm)
  exact ((expire_course hkeeps' List.mem_cons_self).of_ok h).setTimer

/-- A height that is opened starts the timer, whatever the timer held before. -/
theorem start_setTimer
    {slot : Option (View × Duration)} (hphase : i.round.phase ≠ .committed)
    (h : i.start c = .ok (j, actions)) :
    actions.foldl Action.setTimer slot = j.guard c.settings := by
  obtain ⟨rest, rfl, hstays⟩ := (start_stays []).of_ok h
  rw [List.foldl_cons, startTimer, Action.setTimer, ← guard_of_open c.settings hphase]
  exact hstays.moves.setTimer

theorem forEach_setTimer
    {kept : List Message} (h : Step.forEach kept (receive c) i = .ok (j, actions)) :
    actions.foldl Action.setTimer (i.guard c.settings) = j.guard c.settings := by
  induction kept generalizing i actions with
  | nil =>
      obtain ⟨rfl, rfl⟩ := Step.done_eq_ok.mp h
      rfl
  | cons m rest ih =>
      rw [Step.forEach_cons] at h
      obtain ⟨k, first, second, hfirst, hrest, rfl⟩ := Step.andThen_eq_ok.mp h
      rw [List.foldl_append, receive_setTimer hfirst, ih hrest]

end Instance

namespace Node

/-! ## The life of a node -/

variable {s : Setup} {n : Node} {e : Event} {head : Header}

/-- What an answer asks for; a fault asks for nothing. -/
def demands (answer : Except Fault (List Action)) : List Action :=
  answer.toOption.getD []

/-- All that a node asks for on some occasions, in order. -/
def asked (s : Setup) (n : Node) (occasions : List Occasion) : List Action :=
  (n.answers s occasions).flatMap demands

theorem asked_cons (s : Setup) (n : Node) (o : Occasion) (rest : List Occasion) :
    n.asked s (o :: rest) = demands (n.meet s o).result ++ (n.meet s o).node.asked s rest :=
  List.flatMap_cons

/-- Whatever comes to a node on some occasions and is no new head is answered; or it comes at a time
when the votes and the blocks that the node may make are within the limits of the encoding. -/
def Copes (s : Setup) : Node → List Occasion → Prop
  | _, [] => True
  | n, o :: rest =>
    ((∀ head, o.event ≠ .newHead head) →
      (∃ actions, (n.meet s o).result = .ok actions) ∨
        n.Listed s o.event ∧ n.ProposalsFit { s with execution := o.execution } o.event) ∧
      Copes s (n.meet s o).node rest

/-- The timer holds what the present instance needs. -/
def Guarded (s : Setup) (n : Node) (slot : Option (View × Duration)) : Prop :=
  ∃ i, n.current = some i ∧ slot = i.guard s.settings

theorem guarded_ofStep
    {slot : Option (View × Duration)} {step : Step Instance} {n' : Node} {actions : List Action}
    (h : n.ofStep step = ⟨n', .ok actions⟩)
    (hstep : ∀ j, step = .ok (j, actions) →
      actions.foldl Action.setTimer slot = j.guard s.settings) :
    Guarded s n' (actions.foldl Action.setTimer slot) := by
  obtain ⟨j, hj, rfl⟩ := ofStep_eq_ok.mp h
  exact ⟨j, rfl, hstep j hj⟩

/-- A height that is opened starts the timer before anything else is done to it. -/
theorem Opens.setTimer
    {b : Base} {committees : CommitteeCache} {i j : Instance} {first rest : List Action}
    {kept : List Message} (h : Opens s n head b committees i first)
    (hrest : Step.forEach kept (Instance.receive (n.context s)) i = .ok (j, rest))
    (slot : Option (View × Duration)) :
    (first ++ rest).foldl Action.setTimer slot = j.guard s.settings := by
  rw [List.foldl_append, Instance.start_setTimer Phase.noConfusion h.start]
  exact Instance.forEach_setTimer hrest

/-- A height that is begun has the timer it needs, whatever the timer held before. -/
theorem guarded_startHeight
    {n' : Node} {actions : List Action} (h : startHeight s n head = ⟨n', .ok actions⟩)
    (slot : Option (View × Duration)) : Guarded s n' (actions.foldl Action.setTimer slot) := by
  obtain ⟨b, _, i, _, j, rest, hopens, hrest, rfl, rfl⟩ := startHeight_eq_ok h
  exact ⟨j, rfl, hopens.setTimer hrest slot⟩

/-- Answering an event keeps the timer in accord with the present instance. -/
theorem Guarded.answer
    {slot : Option (View × Duration)} {n' : Node} {actions : List Action} (hn : Guarded s n slot)
    (h : n.handle s e = ⟨n', .ok actions⟩) : Guarded s n' (actions.foldl Action.setTimer slot) := by
  obtain ⟨i, hi, hslot⟩ := hn
  have hcases := handle_cases s n e
  generalize n.handle s e = reaction at h hcases
  cases hcases with
  | passes votes =>
      cases h
      exact ⟨i, hi, hslot⟩
  | defers hdefers =>
      cases h
      exact ⟨i, hi, hslot⟩
  | receives hi' hheight =>
      cases hi.symm.trans hi'
      refine guarded_ofStep h fun j hstep => ?_
      rw [hslot]
      exact Instance.receive_setTimer (c := n.context s) hstep
  | expires hi' hheight =>
      cases hi.symm.trans hi'
      refine guarded_ofStep h fun j hstep => ?_
      rw [hslot]
      exact Instance.expire_setTimer (c := n.context s) hstep
  | adopts hi' hadopts => exact guarded_startHeight h slot

/-- A height that cannot be begun leaves a node its instance. -/
theorem current_startHeight_of_error
    {fault : Fault} (h : (startHeight s n head).result = .error fault) :
    (startHeight s n head).node.current = n.current := by
  rcases startHeight_cases s n head with ⟨committees, e, -, hfails⟩ |
    ⟨b, committees, k, first, -, hopened⟩
  · rw [hfails n.early]
    rfl
  · rw [hopened n.early] at h ⊢
    cases hstep : Step.andThen (.ok (k, first))
      (Step.forEach (n.early.release b.height).1 (Instance.receive (n.context s))) with
    | error broken => rfl
    | ok result =>
        rw [hstep] at h
        contradiction

/-- A new head that makes a node fail leaves it its instance. -/
theorem current_newHead_of_error
    {fault : Fault} (h : (n.handle s (.newHead head)).result = .error fault) :
    (n.handle s (.newHead head)).node.current = n.current := by
  have hcases := handle_cases s n (.newHead head)
  generalize n.handle s (.newHead head) = reaction at h hcases ⊢
  cases hcases with
  | passes votes => contradiction
  | adopts hi hadopts => exact current_startHeight_of_error h

/-- Handling an event keeps the timer in accord with the present instance: a fault that could
break a step off halfway cannot occur. -/
theorem Guarded.handle
    {slot : Option (View × Duration)} (hn : Guarded s n slot)
    (hrobust : ∀ i, n.current = some i → i.Robust s.signer.address)
    (hcopes : (∀ head, e ≠ .newHead head) →
      (∃ actions, (n.handle s e).result = .ok actions) ∨ n.Listed s e ∧ n.ProposalsFit s e) :
    Guarded s (n.handle s e).node
      ((demands (n.handle s e).result).foldl Action.setTimer slot) := by
  cases hanswer : (n.handle s e).result with
  | ok actions => exact hn.answer (congrArg (Reaction.mk _) hanswer)
  | error fault =>
      have hsame : (n.handle s e).node.current = n.current := by
        by_cases hhead : ∀ head, e ≠ .newHead head
        · have hanswered : ∃ actions, (n.handle s e).result = .ok actions :=
            (hcopes hhead).elim id fun ⟨hlisted, hfits⟩ =>
              (survives_handle hrobust hlisted hfits).answered hhead
          obtain ⟨actions, hok⟩ := hanswered
          rw [hanswer] at hok
          contradiction
        · simp only [ne_eq, not_forall, not_not] at hhead
          obtain ⟨head, rfl⟩ := hhead
          exact current_newHead_of_error hanswer
      obtain ⟨i, hi, hslot⟩ := hn
      exact ⟨i, hsame.trans hi, hslot⟩

theorem Guarded.after
    {slot : Option (View × Duration)} {occasions : List Occasion} (hn : Guarded s n slot)
    (hrobust : ∀ i, n.current = some i → i.Robust s.signer.address)
    (hcopes : n.Copes s occasions) :
    Guarded s (n.after s occasions) ((n.asked s occasions).foldl Action.setTimer slot) := by
  induction occasions generalizing n slot with
  | nil => exact hn
  | cons o rest ih =>
      have hnext := Guarded.handle (s := { s with execution := o.execution }) hn hrobust hcopes.1
      rw [asked_cons, List.foldl_append]
      exact ih hnext (((lasting_robust s).asking o.execution).handle hrobust o.event) hcopes.2

end Node

end QuorumChain
