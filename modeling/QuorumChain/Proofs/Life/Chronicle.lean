import QuorumChain.Proofs.Life.Basic

/-!
# The record of the present height

The present instance of a node is that of a record: all that was done since the height was begun
follows from moves, and nothing was heard but what has reached the node.  An event that the node
answers lengthens the record, and a new head that is adopted begins another one.
-/

namespace QuorumChain

namespace Record

variable {s : Setup} {b : Base} {r : Record} {moment : Setup.Moment} {actions : List Action}
  {j : Instance}

/-- An instance that takes up some messages hears nothing else. -/
theorem Attainable.forEach
    {kept : List Message} (hr : Attainable s b r)
    (h : Step.forEach kept (Instance.receive (s.context moment)) r.now = .ok (j, actions)) :
    ∃ heard, Attainable s b ⟨j, heard, r.made ++ actions⟩ ∧
      ∀ input ∈ heard, input ∈ r.heard ∨ ∃ m ∈ kept, input = .message m := by
  induction kept generalizing r actions with
  | nil =>
      obtain ⟨rfl, rfl⟩ := Step.done_eq_ok.mp h
      rw [List.append_nil]
      exact ⟨r.heard, hr, fun input hinput => .inl hinput⟩
  | cons m rest ih =>
      rw [Step.forEach_cons] at h
      obtain ⟨i, first, second, hfirst, hrest, rfl⟩ := Step.andThen_eq_ok.mp h
      have hnext := hr.receive moment m
      rw [hfirst] at hnext
      obtain ⟨heard, hheard, hsource⟩ := ih hnext hrest
      rw [← List.append_assoc]
      refine ⟨heard, hheard, ?_⟩
      intro input hinput
      rcases hsource input hinput with hmem | ⟨m', hm', rfl⟩
      · rcases List.mem_cons.mp hmem with rfl | hmem
        · exact .inr ⟨m, List.mem_cons_self, rfl⟩
        · exact .inl hmem
      · exact .inr ⟨m', List.mem_cons_of_mem m hm', rfl⟩

end Record

namespace Node

/-- The present instance of a node is that of a record, and whatever was heard in it or waits for a
later height is among some events. -/
structure Recorded (s : Setup) (n : Node) (events : List Event) (b : Base) (r : Record) : Prop where
  attainable : Record.Attainable s b r
  current : n.current = some r.now
  heard : ∀ m, .message m ∈ r.heard → .message m ∈ events
  early : ∀ m, n.early.Holds m → .message m ∈ events

variable {s : Setup} {n n' : Node} {e : Event} {events : List Event} {b : Base} {r : Record}
  {head : Header} {actions : List Action}

/-- A node with the same instance has the same record. -/
theorem Recorded.replace
    (h : n.Recorded s events b r) (hcurrent : n'.current = n.current)
    (hearly : ∀ m, n'.early.Holds m → .message m ∈ events) : n'.Recorded s events b r :=
  ⟨h.attainable, hcurrent.trans h.current, h.heard, hearly⟩

theorem Recorded.mono
    {events' : List Event} (h : n.Recorded s events b r) (hle : ∀ e ∈ events, e ∈ events') :
    n.Recorded s events' b r :=
  ⟨h.attainable, h.current, fun m hm => hle _ (h.heard m hm), fun m hm => hle _ (h.early m hm)⟩

theorem Recorded.receive
    {m : Message} {x : Execution} {j : Instance} (h : n.Recorded s events b r)
    (hm : .message m ∈ events)
    (hreceive : r.now.receive (n.context { s with execution := x }) m = .ok (j, actions)) :
    Recorded s { n with current := some j } events b
      ⟨j, .message m :: r.heard, r.made ++ actions⟩ := by
  have hattainable := h.attainable.receive ⟨n.votes, x⟩ m
  rw [show s.context ⟨n.votes, x⟩ = n.context { s with execution := x } from rfl, hreceive]
    at hattainable
  refine ⟨hattainable, rfl, ?_, h.early⟩
  intro m' hm'
  rcases List.mem_cons.mp hm' with heq | hm'
  · cases heq
    exact hm
  · exact h.heard m' hm'

theorem Recorded.expire
    {view : View} {x : Execution} {j : Instance} (h : n.Recorded s events b r)
    (hexpire : r.now.expire (n.context { s with execution := x }) view = .ok (j, actions)) :
    Recorded s { n with current := some j } events b
      ⟨j, .expiry view :: r.heard, r.made ++ actions⟩ := by
  have hattainable := h.attainable.expire ⟨n.votes, x⟩ view
  rw [show s.context ⟨n.votes, x⟩ = n.context { s with execution := x } from rfl, hexpire]
    at hattainable
  refine ⟨hattainable, rfl, ?_, h.early⟩
  intro m hm
  rcases List.mem_cons.mp hm with heq | hm
  · contradiction
  · exact h.heard m hm

/-- Unless it is a new head, an event lengthens the record by what the node answers. -/
theorem Recorded.handle
    {x : Execution} (h : n.Recorded s events b r)
    (he : ∀ m, e = .message m → .message m ∈ events) (hhead : ∀ head, e ≠ .newHead head)
    (hok : n.handle { s with execution := x } e = ⟨n', .ok actions⟩) :
    ∃ r', n'.Recorded s events b r' ∧ r'.made = r.made ++ actions := by
  have hcases := handle_cases { s with execution := x } n e
  generalize n.handle { s with execution := x } e = reaction at hok hcases
  cases hcases with
  | passes votes =>
      cases hok
      exact ⟨r, h.replace rfl h.early, (List.append_nil _).symm⟩
  | @defers m hdefers =>
      cases hok
      refine ⟨r, h.replace rfl ?_, (List.append_nil _).symm⟩
      intro m' hm'
      rcases Backlog.holds_push hm' with rfl | hm'
      · exact he _ rfl
      · exact h.early m' hm'
  | @receives m i hi hheight =>
      obtain ⟨j, hreceive, rfl⟩ := ofStep_eq_ok.mp hok
      cases h.current.symm.trans hi
      exact ⟨_, h.receive (he m rfl) hreceive, rfl⟩
  | @expires view i hi hheight =>
      obtain ⟨j, hexpire, rfl⟩ := ofStep_eq_ok.mp hok
      cases h.current.symm.trans hi
      exact ⟨_, h.expire hexpire, rfl⟩
  | @adopts head i hi hadopts => exact absurd rfl (hhead head)

/-- A height that is begun has a record of all that the node answers. -/
theorem recorded_startHeight
    {x : Execution} (hok : startHeight { s with execution := x } n head = ⟨n', .ok actions⟩)
    (hearly : ∀ m, n.early.Holds m → .message m ∈ events) :
    ∃ b r, b.parent = head ∧ head.digest s.scheme.hash = .ok b.parentDigest ∧
      n'.Recorded s events b r ∧ r.made = actions := by
  obtain ⟨b, committees, i, first, j, rest, hopens, hrest, rfl, rfl⟩ := startHeight_eq_ok hok
  have hstart : (b.fresh s).start (s.context ⟨n.votes, x⟩) = .ok (i, first) := hopens.start
  have hkept : Step.forEach (n.early.release b.height).1
      (Instance.receive (s.context ⟨n.votes, x⟩)) i = .ok (j, rest) := hrest
  obtain ⟨heard, hattainable, hsource⟩ := (Record.attainable_start hstart).forEach hkept
  refine ⟨b, _, hopens.parent, hopens.digest, ⟨hattainable, rfl, ?_, ?_⟩, rfl⟩
  · intro m hm
    rcases hsource _ hm with hnone | ⟨m', hm', heq⟩
    · contradiction
    · cases heq
      exact hearly m (Backlog.holds_of_holds_dropBelow (Backlog.holds_of_mem_take hm'))
  · intro m hm
    exact hearly m (Backlog.holds_of_holds_dropBelow (Backlog.holds_of_holds_take hm))

end Node

end QuorumChain
