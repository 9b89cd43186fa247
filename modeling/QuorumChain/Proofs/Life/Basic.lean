import QuorumChain.Node.Basic
import QuorumChain.Proofs.Committee.Cache
import QuorumChain.Proofs.Data.Backlog
import QuorumChain.Proofs.Node.Continuity
import QuorumChain.Proofs.Node.Invariant

/-!
# The life of a node

A node is launched with a chain to check and a head to build on; then it handles one event after
the other, and may ask another execution engine each time.  Handling an event may open a height,
makes one step of the present instance, or leaves the instance as it is.  So whatever holds of an
instance at its start and is kept by its steps, finished or not, holds of the present instance all
along; and the instance is always that of an attainable record.
-/

namespace QuorumChain

/-- An event, and the execution engine that the node may ask while it handles it. -/
structure Occasion where
  execution : Execution
  event : Event

/-- The occasions on which some events arrive and the same engine can be asked. -/
def Execution.during (x : Execution) (events : List Event) : List Occasion :=
  events.map fun e => ⟨x, e⟩

namespace Node

/-- A new node that has checked a chain and begins the height behind a head. -/
def launch (s : Setup) (headers : List Header) (head : Header) : Reaction :=
  ((new s.settings).verifyChain s headers).node.start s head

/-- React to an event on some occasion. -/
def meet (s : Setup) (n : Node) (o : Occasion) : Reaction :=
  n.handle { s with execution := o.execution } o.event

/-- The node behind some occasions. -/
def after (s : Setup) (n : Node) (occasions : List Occasion) : Node :=
  occasions.foldl (fun n o => (n.meet s o).node) n

/-- How a node answers on some occasions, one after the other. -/
def answers (s : Setup) : Node → List Occasion → List (Except Fault (List Action))
  | _, [] => []
  | n, o :: rest => (n.meet s o).result :: answers s (n.meet s o).node rest

variable {s : Setup} {n : Node} {e : Event} {head : Header}

@[simp] theorem after_nil (s : Setup) (n : Node) : n.after s [] = n := rfl

@[simp] theorem after_cons (s : Setup) (n : Node) (o : Occasion) (rest : List Occasion) :
    n.after s (o :: rest) = (n.meet s o).node.after s rest := rfl

/-! ## Opening a height -/

/-- The height behind a head can be opened: its instance has entered round zero. -/
structure Opens (s : Setup) (n : Node) (head : Header) (b : Base) (committees : CommitteeCache)
    (i : Instance) (first : List Action) : Prop where
  parent : b.parent = head
  digest : head.digest s.scheme.hash = .ok b.parentDigest
  committee : n.committees.after s.scheme.hash head = .ok (b.committee, committees)
  start : (b.fresh s).start (n.context s) = .ok (i, first)

theorem Opens.height
    {b : Base} {committees : CommitteeCache} {i : Instance} {first : List Action}
    (h : Opens s n head b committees i first) : i.height = b.height :=
  Instance.start_height.of_ok h.start

/-- Whatever waits for a height that can be opened is taken up by its instance. -/
theorem Opens.reaction
    {b : Base} {committees : CommitteeCache} {i : Instance} {first : List Action}
    (h : Opens s n head b committees i first) (early : Backlog UInt64 Message) :
    startHeight s { n with early } head =
      ofOpening { n with committees, early := (early.release b.height).2 }
        (Step.andThen (.ok (i, first))
          (Step.forEach (early.release b.height).1 (Instance.receive (n.context s)))) := by
  have hstart : (Instance.new head b.parentDigest b.committee s.signer.address
      s.settings.futureMessageLimit).start (context s { n with committees, early }) =
        .ok (i, first) := by
    rw [← h.parent]
    exact h.start
  rw [startHeight, h.digest]
  dsimp only
  rw [h.committee]
  dsimp only
  rw [hstart, ← h.height]
  rfl

/-- Starting a height fails before anything but the committees has changed, or the height is
opened and its instance takes up what has waited for it.  Which of both happens is not a matter
of what waits. -/
theorem startHeight_cases (s : Setup) (n : Node) (head : Header) :
    (∃ committees e,
      (committees = n.committees ∨
        ∃ committee, n.committees.after s.scheme.hash head = .ok (committee, committees)) ∧
      ∀ early, startHeight s { n with early } head = fail { n with committees, early } e) ∨
      ∃ b committees i first, Opens s n head b committees i first ∧ ∀ early,
        startHeight s { n with early } head =
          ofOpening { n with committees, early := (early.release b.height).2 }
            (Step.andThen (.ok (i, first))
              (Step.forEach (early.release b.height).1 (Instance.receive (n.context s)))) := by
  cases hdigest : head.digest s.scheme.hash with
  | error e =>
      refine .inl ⟨n.committees, .badChain head.number (.extraData e), .inl rfl, fun early => ?_⟩
      rw [startHeight, hdigest]
  | ok digest =>
      cases hafter : n.committees.after s.scheme.hash head with
      | error e =>
          refine .inl ⟨n.committees, e, .inl rfl, fun early => ?_⟩
          rw [startHeight, hdigest]
          dsimp only
          rw [hafter]
      | ok found =>
          obtain ⟨committee, committees⟩ := found
          let b : Base := ⟨head, digest, committee⟩
          have hstarts : ∀ early, (Instance.new head digest committee s.signer.address
              s.settings.futureMessageLimit).start (context s { n with committees, early }) =
                (b.fresh s).start (n.context s) := fun _ => rfl
          cases hstart : (b.fresh s).start (n.context s) with
          | error broken =>
              refine .inl ⟨committees, broken.cause, .inr ⟨committee, rfl⟩, fun early => ?_⟩
              rw [startHeight, hdigest]
              dsimp only
              rw [hafter]
              dsimp only
              rw [hstarts, hstart]
          | ok result =>
              obtain ⟨i, first⟩ := result
              have hopens : Opens s n head b committees i first := ⟨rfl, hdigest, hafter, hstart⟩
              exact .inr ⟨b, committees, i, first, hopens, hopens.reaction⟩

/-- What a step has changed lasts, whether it is finished or breaks down. -/
theorem current_ofStep (n : Node) (step : Step Instance) :
    (n.ofStep step).node.current = some step.outcome.1 := by
  cases step <;> rfl

/-- The first steps of a new instance are made or leave the instance before. -/
theorem current_ofOpening
    {step : Step Instance} {j : Instance} (h : (n.ofOpening step).node.current = some j) :
    n.current = some j ∨ ∃ actions, step = .ok (j, actions) := by
  cases step with
  | error broken => exact .inl h
  | ok result =>
      obtain ⟨k, actions⟩ := result
      cases h
      exact .inr ⟨actions, rfl⟩

theorem ofStep_eq_ok
    {step : Step Instance} {n' : Node} {actions : List Action} :
    n.ofStep step = ⟨n', .ok actions⟩ ↔
      ∃ j, step = .ok (j, actions) ∧ n' = { n with current := some j } := by
  cases step with
  | error broken => simp [ofStep, fail]
  | ok result =>
      obtain ⟨j, asked⟩ := result
      simp [ofStep, eq_comm, and_comm]

theorem ofOpening_eq_ok
    {step : Step Instance} {n' : Node} {actions : List Action} :
    n.ofOpening step = ⟨n', .ok actions⟩ ↔
      ∃ j, step = .ok (j, actions) ∧ n' = { n with current := some j } := by
  cases step with
  | error broken => simp [ofOpening, fail]
  | ok result =>
      obtain ⟨j, asked⟩ := result
      simp [ofOpening, eq_comm, and_comm]

/-- A height is begun if it can be opened and its instance takes up whatever has waited for it. -/
theorem startHeight_eq_ok
    {n' : Node} {actions : List Action} (h : startHeight s n head = ⟨n', .ok actions⟩) :
    ∃ b committees i first j rest, Opens s n head b committees i first ∧
      Step.forEach (n.early.release b.height).1 (Instance.receive (n.context s)) i =
        .ok (j, rest) ∧
      actions = first ++ rest ∧
      n' = { n with committees, early := (n.early.release b.height).2, current := some j } := by
  rcases startHeight_cases s n head with ⟨committees, e, -, hfails⟩ | ⟨b, committees, i, first,
    hopens, hopened⟩
  · cases (hfails n.early).symm.trans h
  · obtain ⟨j, hstep, rfl⟩ := ofOpening_eq_ok.mp ((hopened n.early).symm.trans h)
    obtain ⟨k, _, rest, hfirst, hrest, rfl⟩ := Step.andThen_eq_ok.mp hstep
    cases hfirst
    exact ⟨b, committees, i, first, j, rest, hopens, hrest, rfl, rfl⟩

/-- A node that can be started begins the height behind the head. -/
theorem startHeight_of_start
    {n' : Node} {actions : List Action} (h : start s n head = ⟨n', .ok actions⟩) :
    ∃ committees, startHeight s { n with committees } head = ⟨n', .ok actions⟩ := by
  rw [start] at h
  split at h
  · cases h
  · dsimp only at h
    split at h
    · split at h
      · cases h
      · exact ⟨_, h⟩
    · exact ⟨_, h⟩

/-! ## Hearing a message -/

/-- A message is of a height that the node has not reached, and near enough to be kept. -/
def Defers (s : Setup) (n : Node) (m : Message) : Prop :=
  ∃ i, n.current = some i ∧ i.height < m.view.height ∧
    m.view.height.toNat - i.height.toNat ≤ s.settings.futureHeightWindow

theorem onMessage_of_defers
    {m : Message} (h : n.Defers s m) :
    onMessage s n m = ignore { n with early := n.early.push m.view.height m } := by
  obtain ⟨i, hi, hlt, hnear⟩ := h
  rw [onMessage, hi]
  dsimp only
  rw [if_neg (UInt64.not_lt.mpr (UInt64.le_of_lt hlt)), if_pos hlt, if_neg (Nat.not_lt.mpr hnear)]

theorem onMessage_of_height
    {m : Message} {i : Instance} (hi : n.current = some i) (hheight : i.height = m.view.height) :
    onMessage s n m = n.ofStep (i.receive (n.context s) m) := by
  rw [onMessage, hi]
  dsimp only
  rw [hheight, if_neg (UInt64.lt_irrefl _), if_neg (UInt64.lt_irrefl _)]

theorem onMessage_of_other
    {m : Message} (hfar : ¬n.Defers s m)
    (hother : ∀ i, n.current = some i → i.height ≠ m.view.height) : onMessage s n m = n.ignore := by
  rw [onMessage]
  split
  · rfl
  · rename_i i hi
    dsimp only
    split
    · rfl
    · rename_i hlow
      split
      · rename_i hlt
        rw [if_pos]
        exact Nat.lt_of_not_le fun hnear => hfar ⟨i, hi, hlt, hnear⟩
      · rename_i hhigh
        have hheight := UInt64.le_antisymm (UInt64.not_lt.mp hlow) (UInt64.not_lt.mp hhigh)
        exact absurd hheight (hother i hi)

/-- A message is kept for its height, passed on or ignored. -/
theorem onMessage_cases (s : Setup) (n : Node) (m : Message) :
    n.Defers s m ∨ (∃ i, n.current = some i ∧ i.height = m.view.height) ∨
      (¬n.Defers s m ∧ (∀ i, n.current = some i → i.height ≠ m.view.height) ∧
        onMessage s n m = n.ignore) := by
  by_cases hdefers : n.Defers s m
  · exact .inl hdefers
  · by_cases hheight : ∃ i, n.current = some i ∧ i.height = m.view.height
    · exact .inr (.inl hheight)
    · have hother : ∀ i, n.current = some i → i.height ≠ m.view.height :=
        fun i hi heq => hheight ⟨i, hi, heq⟩
      exact .inr (.inr ⟨hdefers, hother, onMessage_of_other hdefers hother⟩)

/-! ## Handling an event -/

/-- What comes of an event: the present instance takes it, or makes way for the next height, or
has nothing to do with it. -/
inductive Handles (s : Setup) (n : Node) : Event → Reaction → Prop
  /-- The event is of no height that matters, or the operator's: at most a request is noted. -/
  | passes (e : Event) (votes : VoteRequests) : Handles s n e (ignore { n with votes })
  /-- A message is kept for its height. -/
  | defers {m : Message} (hdefers : n.Defers s m) :
    Handles s n (.message m) (ignore { n with early := n.early.push m.view.height m })
  /-- A message is passed on to the instance of its height. -/
  | receives {m : Message} {i : Instance} (hi : n.current = some i)
    (hheight : i.height = m.view.height) :
    Handles s n (.message m) (n.ofStep (i.receive (n.context s) m))
  /-- The end of a timer is passed on to the instance of its height. -/
  | expires {view : View} {i : Instance} (hi : n.current = some i)
    (hheight : i.height = view.height) :
    Handles s n (.expiry view) (n.ofStep (i.expire (n.context s) view))
  /-- The height behind a head is begun. -/
  | adopts {head : Header} {i : Instance} (hi : n.current = some i)
    (hadopts : adopts s i head = true) : Handles s n (.newHead head) (startHeight s n head)

/-- Handling an event has no other outcome. -/
theorem handle_cases (s : Setup) (n : Node) (e : Event) : n.Handles s e (n.handle s e) := by
  cases e with
  | message m =>
      rw [handle]
      rcases onMessage_cases s n m with hdefers | ⟨i, hi, hheight⟩ | ⟨-, -, hignore⟩
      · rw [onMessage_of_defers hdefers]
        exact .defers hdefers
      · rw [onMessage_of_height hi hheight]
        exact .receives hi hheight
      · rw [hignore]
        exact .passes _ n.votes
  | expiry view =>
      rw [handle, onExpiry]
      split
      · exact .passes _ n.votes
      · rename_i i hi
        split
        · rename_i hheight
          exact .expires hi hheight
        · exact .passes _ n.votes
  | newHead head =>
      rw [handle, onNewHead]
      split
      · exact .passes _ n.votes
      · rename_i i hi
        split
        · rename_i hadopts
          exact .adopts hi hadopts
        · exact .passes _ n.votes
  | requestVote v => exact .passes _ _
  | discardVote subject => exact .passes _ _
  | shutdown => exact .passes _ n.votes

/-! ## What lasts -/

/-- A property of instances that holds when a height is opened and that every step keeps, also if it
breaks down. -/
structure Lasting (s : Setup) (p : Instance → Prop) : Prop where
  begins : ∀ (b : Base) (moment : Setup.Moment),
    ((b.fresh s).start (s.context moment)).Ends fun _ => p
  receives : ∀ {i : Instance} (moment : Setup.Moment) (m : Message),
    p i → (i.receive (s.context moment) m).Ends fun _ => p
  expires : ∀ {i : Instance} (moment : Setup.Moment) (view : View),
    p i → (i.expire (s.context moment) view).Ends fun _ => p

variable {p : Instance → Prop}

/-- What lasts holds of an instance that has entered round zero and taken up what has waited for it.
-/
theorem Lasting.opens
    {b : Base} {committees : CommitteeCache} {i j : Instance} {first rest : List Action}
    {kept : List Message} (h : Lasting s p) (hopens : Opens s n head b committees i first)
    (hrest : Step.forEach kept (Instance.receive (n.context s)) i = .ok (j, rest)) : p j := by
  have hi : p i := (h.begins b ⟨n.votes, s.execution⟩).of_ok hopens.start
  exact (Instance.forEach_ends (fun k m => h.receives ⟨n.votes, s.execution⟩ m) hi).of_ok hrest

theorem Lasting.startHeight
    (h : Lasting s p) (hn : ∀ i, n.current = some i → p i) (head : Header) :
    ∀ i, (startHeight s n head).node.current = some i → p i := by
  intro j hj
  rcases startHeight_cases s n head with ⟨committees, e, -, hfails⟩ | ⟨b, committees, i, first,
    hopens, hopened⟩
  · rw [hfails n.early] at hj
    exact hn j hj
  · rw [hopened n.early] at hj
    rcases current_ofOpening hj with hj | ⟨actions, hstep⟩
    · exact hn j hj
    · obtain ⟨k, _, second, hfirst, hrest, -⟩ := Step.andThen_eq_ok.mp hstep
      cases hfirst
      exact h.opens hopens hrest

/-- What lasts holds of the instance with which a node has been started. -/
theorem Lasting.started
    {n' : Node} {first : List Action} (h : Lasting s p)
    (hstart : start s n head = ⟨n', .ok first⟩) :
    ∀ i, n'.current = some i → p i := by
  obtain ⟨committees, hstart⟩ := startHeight_of_start hstart
  obtain ⟨b, _, i, _, j, rest, hopens, hrest, -, rfl⟩ := startHeight_eq_ok hstart
  intro k hk
  cases hk
  exact h.opens hopens hrest

theorem Lasting.handle
    (h : Lasting s p) (hn : ∀ i, n.current = some i → p i) (e : Event) :
    ∀ i, (n.handle s e).node.current = some i → p i := by
  have hcases := handle_cases s n e
  generalize n.handle s e = reaction at hcases ⊢
  cases hcases with
  | passes votes => exact hn
  | defers hdefers => exact hn
  | @receives m i hi hheight =>
      intro j hj
      rw [current_ofStep] at hj
      cases hj
      exact h.receives ⟨n.votes, s.execution⟩ m (hn i hi)
  | @expires view i hi hheight =>
      intro j hj
      rw [current_ofStep] at hj
      cases hj
      exact h.expires ⟨n.votes, s.execution⟩ view (hn i hi)
  | adopts hi hadopts => exact h.startHeight hn _

theorem Lasting.start
    (h : Lasting s p) (hn : ∀ i, n.current = some i → p i) (head : Header) :
    ∀ i, (start s n head).node.current = some i → p i := by
  rw [Node.start]
  split
  · exact hn
  · rename_i committee committees _
    dsimp only
    split
    · split
      · exact hn
      · exact h.startHeight (n := { n with committees }) hn head
    · exact h.startHeight (n := { n with committees }) hn head

/-- What lasts does not depend on the engine. -/
theorem Lasting.asking (h : Lasting s p) (x : Execution) : Lasting { s with execution := x } p :=
  ⟨h.begins, h.receives, h.expires⟩

theorem Lasting.after
    (h : Lasting s p) (hn : ∀ i, n.current = some i → p i) (occasions : List Occasion) :
    ∀ i, (n.after s occasions).current = some i → p i := by
  induction occasions generalizing n with
  | nil => exact hn
  | cons o rest ih => exact ih ((h.asking o.execution).handle hn o.event)

/-- A chain that passes the check, or does not, leaves nothing behind but committees. -/
theorem verifyChain_cases (s : Setup) (n : Node) (headers : List Header) :
    (∃ last committees, n.committees.replay s.scheme headers = .ok (last, committees) ∧
      n.verifyChain s headers = ⟨{ n with committees }, .ok []⟩) ∨
      ∃ committees cause, n.committees.replay s.scheme headers = .error cause ∧
        n.verifyChain s headers = fail { n with committees } cause := by
  rw [CommitteeCache.replay_eq_audit, verifyChain]
  rcases n.committees.audit s.scheme headers with ⟨cause | last, committees⟩
  · exact .inr ⟨committees, cause, rfl, rfl⟩
  · exact .inl ⟨last, committees, rfl, rfl⟩

theorem current_verifyChain (s : Setup) (n : Node) (headers : List Header) :
    (n.verifyChain s headers).node.current = n.current := rfl

/-- What lasts holds of the present instance throughout the life of a node. -/
theorem Lasting.life
    (h : Lasting s p) {headers : List Header} {occasions : List Occasion} {i : Instance}
    (hi : ((launch s headers head).node.after s occasions).current = some i) : p i := by
  refine h.after (h.start ?_ head) occasions i hi
  intro j hj
  rw [current_verifyChain] at hj
  contradiction

/-- The present instance is that of an attainable record. -/
theorem lasting_attainable (s : Setup) :
    Lasting s fun i => ∃ b r, Record.Attainable s b r ∧ r.now = i where
  begins b moment := ⟨b, Record.begin s b moment, Record.attainable_begin s b moment, rfl⟩
  receives moment m hi := by
    obtain ⟨b, r, hr, rfl⟩ := hi
    exact ⟨b, _, hr.receive moment m, rfl⟩
  expires moment view hi := by
    obtain ⟨b, r, hr, rfl⟩ := hi
    exact ⟨b, _, hr.expire moment view, rfl⟩

/-! ## Early messages -/

theorem early_ofStep (n : Node) (step : Step Instance) : (n.ofStep step).node.early = n.early := by
  cases step <;> rfl

theorem early_ofOpening (n : Node) (step : Step Instance) :
    (n.ofOpening step).node.early = n.early := by
  cases step <;> rfl

theorem early_startHeight (s : Setup) (n : Node) (head : Header) :
    (startHeight s n head).node.early = n.early ∨
      ∃ height, (startHeight s n head).node.early = (n.early.release height).2 := by
  rcases startHeight_cases s n head with ⟨committees, e, -, hfails⟩ | ⟨b, committees, i, first,
    -, hopened⟩
  · rw [hfails n.early]
    exact .inl rfl
  · refine .inr ⟨b.height, ?_⟩
    rw [hopened n.early]
    exact early_ofOpening _ _

/-- The backlog of early messages is left alone, takes a message or gives those of a height out. -/
theorem early_handle (s : Setup) (n : Node) (e : Event) :
    (n.handle s e).node.early = n.early ∨
      (∃ m : Message, (n.handle s e).node.early = n.early.push m.view.height m) ∨
        ∃ height, (n.handle s e).node.early = (n.early.release height).2 := by
  have hcases := handle_cases s n e
  generalize n.handle s e = reaction at hcases ⊢
  cases hcases with
  | passes votes => exact .inl rfl
  | @defers m hdefers => exact .inr (.inl ⟨m, rfl⟩)
  | receives hi hheight => exact .inl (early_ofStep _ _)
  | expires hi hheight => exact .inl (early_ofStep _ _)
  | adopts hi hadopts => exact (early_startHeight s n _).imp id .inr

theorem tidy_handle (h : n.early.Tidy) (e : Event) : (n.handle s e).node.early.Tidy := by
  rcases early_handle s n e with hsame | ⟨m, hpush⟩ | ⟨height, hrelease⟩
  · rw [hsame]
    exact h
  · rw [hpush]
    exact h.push _ m
  · rw [hrelease]
    exact h.release height

theorem tidy_after
    (h : n.early.Tidy) (occasions : List Occasion) : (n.after s occasions).early.Tidy := by
  induction occasions generalizing n with
  | nil => exact h
  | cons o rest ih => exact ih (tidy_handle h o.event)

theorem tidy_start (h : n.early.Tidy) (head : Header) : (start s n head).node.early.Tidy := by
  have hheight : ∀ committees, (startHeight s { n with committees } head).node.early.Tidy := by
    intro committees
    rcases early_startHeight s { n with committees } head with hsame | ⟨height, hrelease⟩
    · rw [hsame]
      exact h
    · rw [hrelease]
      exact h.release height
  rw [start]
  split
  · exact h
  · dsimp only
    split
    · split
      · exact h
      · exact hheight _
    · exact hheight _

/-- The backlog of early messages is tidy throughout the life of a node. -/
theorem tidy_life
    (s : Setup) (headers : List Header) (head : Header) (occasions : List Occasion) :
    ((launch s headers head).node.after s occasions).early.Tidy := by
  apply tidy_after
  apply tidy_start
  exact Backlog.tidy_empty _

end Node

end QuorumChain
