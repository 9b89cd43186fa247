import QuorumChain.Proofs.Life.Position
import QuorumChain.Proofs.Node.Later

/-!
# Messages that come early

A message of the next height waits until that height begins, and a message of a later round waits
until its round is entered.  As long as there is room, it makes no difference whether messages come
early or right after the event that they wait for: the node ends in the same state and asks for the
same actions in the same order, or it meets the same fault.
-/

namespace QuorumChain

/-- A reaction as a step of a node. -/
def Reaction.toStep (r : Reaction) : Step Node :=
  match r.result with
  | .ok actions => .ok (r.node, actions)
  | .error cause => .error ⟨r.node, [], cause⟩

namespace Step

variable {σ α β : Type}

theorem forEach_map
    (f : β → α) (items : List β) (next : σ → α → Step σ) (s : σ) :
    forEach (items.map f) next s = forEach items (fun s b => next s (f b)) s := by
  rw [forEach, List.foldl_map]
  rfl

/-- If each item of a list can be put off until after a last step, all of them can. -/
theorem forEach_swap
    {next : σ → α → Step σ} {last : σ → Step σ} {p : σ → List α → Prop}
    (hnext : ∀ {s a rest}, p s (a :: rest) → ∃ t, (next s a).result = .ok (t, []) ∧ p t rest ∧
      (last t).result = ((last s).andThen fun u => next u a).result)
    {items : List α} {s : σ} (h : p s items) :
    ((forEach items next s).andThen last).result =
      ((last s).andThen (forEach items next)).result := by
  induction items generalizing s with
  | nil =>
      show ((done s).andThen last).result = ((last s).andThen done).result
      rw [done_andThen, andThen_done]
  | cons a rest ih =>
      obtain ⟨t, hfirst, ht, hlast⟩ := hnext h
      have hfirst : next s a = done t := result_eq_ok.mp hfirst
      have hcons : forEach (a :: rest) next = fun u => (next u a).andThen (forEach rest next) :=
        funext fun u => forEach_cons a rest next u
      rw [forEach_cons, hfirst, done_andThen, ih ht, hcons, ← andThen_assoc]
      exact result_andThen_congr hlast fun _ _ _ => rfl

end Step

namespace Node

variable {s : Setup} {n n' : Node} {i j : Instance} {m : Message} {head : Header} {e : Event}
  {ms : List Message} {round : UInt32} {actions : List Action}

/-- Handling some events one after the other, until there is a fault. -/
def play (s : Setup) (n : Node) (events : List Event) : Step Node :=
  Step.forEach events (fun n e => (n.handle s e).toStep) n

theorem play_messages
    (s : Setup) (n : Node) (ms : List Message) :
    n.play s (ms.map .message) =
      Step.forEach ms (fun n m => (n.handle s (.message m)).toStep) n :=
  Step.forEach_map _ ms _ n

theorem play_append
    (s : Setup) (n : Node) (events : List Event) (e : Event) :
    n.play s (events ++ [e]) = (n.play s events).andThen fun n => (n.handle s e).toStep :=
  Step.forEach_append events e _ n

theorem play_cons
    (s : Setup) (n : Node) (e : Event) (events : List Event) :
    n.play s (e :: events) = (n.handle s e).toStep.andThen fun n => n.play s events :=
  Step.forEach_cons e events _ n

/-- Messages that can be put off one by one can come before or after an event. -/
theorem play_swap
    {p : Node → List Message → Prop}
    (hnext : ∀ {n m rest}, p n (m :: rest) →
      ∃ n', (n.handle s (.message m)).toStep.result = .ok (n', []) ∧ p n' rest ∧
        (n'.handle s e).toStep.result =
          ((n.handle s e).toStep.andThen fun u => (u.handle s (.message m)).toStep).result)
    (h : p n ms) :
    (n.play s (ms.map .message ++ [e])).result = (n.play s (e :: ms.map .message)).result := by
  rw [play_append, play_cons, play_messages]
  refine (Step.forEach_swap hnext h).trans ?_
  rw [Step.andThen_congr fun u _ _ => (play_messages s u ms).symm]

/-- The node with another instance. -/
def deciding (n : Node) (i : Instance) : Node :=
  { n with current := some i }

theorem toStep_ofStep (n : Node) (step : Step Instance) :
    (n.ofStep step).toStep.result = (step.map n.deciding).result := by
  cases step <;> rfl

theorem toStep_ofOpening (n : Node) (step : Step Instance) :
    (n.ofOpening step).toStep.result = (step.map n.deciding).result := by
  cases step <;> rfl

theorem toStep_message
    (hheight : i.height = m.view.height) :
    ((n.deciding i).handle s (.message m)).toStep.result =
      ((i.receive (n.context s) m).map n.deciding).result := by
  rw [handle, onMessage_of_height (n := n.deciding i) rfl hheight, toStep_ofStep]
  rfl

/-- A step of the instance followed by a message is the step that goes on with the message. -/
theorem andThen_message
    {nodes : Step Node} {step : Step Instance}
    (hnodes : nodes.result = (step.map n.deciding).result)
    (hheight : ∀ j actions, step = .ok (j, actions) → j.height = m.view.height) :
    (nodes.andThen fun n => (n.handle s (.message m)).toStep).result =
      ((step.andThen fun j => j.receive (n.context s) m).map n.deciding).result := by
  refine (Step.result_andThen_congr hnodes fun _ _ _ => rfl).trans ?_
  exact Step.result_map_andThen fun j actions hj => toStep_message (hheight j actions hj)

/-! ## The next height -/

/-- A message that has waited for a height is the last to be taken up when it begins. -/
theorem startHeight_append
    (hheight : m.view.height = head.number + 1) :
    (startHeight s { n with early := n.early.append m.view.height m } head).toStep.result =
      ((startHeight s n head).toStep.andThen fun n => (n.handle s (.message m)).toStep).result := by
  rcases startHeight_cases s n head with ⟨committees, e, -, hfails⟩ | ⟨b, committees, i, first,
    hopens, hopened⟩
  · have hn := hfails n.early
    rw [hn, hfails (n.early.append m.view.height m)]
    rfl
  · have hn := hopened n.early
    have hb : m.view.height = b.height := by
      rw [hheight, ← hopens.parent]
      rfl
    have hlong := hopened (n.early.append m.view.height m)
    rw [hb, Backlog.release_append] at hlong
    rw [hn, hb, hlong, toStep_ofOpening, andThen_message (toStep_ofOpening _ _), Step.andThen_assoc]
    · congr 3
      funext j
      exact Step.forEach_append _ m _ j
    · intro j actions hstep
      obtain ⟨k, _, second, hfirst, hrest, -⟩ := Step.andThen_eq_ok.mp hstep
      cases hfirst
      rw [Instance.forEach_height.of_ok hrest, hopens.height, hb]

/-- Messages of the next height may come before the head of the present one. -/
theorem play_newHead
    (hi : n.current = some i) (hadopts : adopts s i head = true)
    (hwindow : 1 ≤ s.settings.futureHeightWindow)
    (hheight : ∀ m ∈ ms, m.view.height.toNat = i.height.toNat + 1)
    (hroom : n.early.count + ms.length ≤ n.early.limit) :
    (n.play s (ms.map .message ++ [.newHead head])).result =
      (n.play s (.newHead head :: ms.map .message)).result := by
  refine play_swap (p := fun n ms => n.current = some i ∧
    (∀ m ∈ ms, m.view.height.toNat = i.height.toNat + 1) ∧
      n.early.count + ms.length ≤ n.early.limit) ?_ ⟨hi, hheight, hroom⟩
  rintro n m rest ⟨hi, hheight, hroom⟩
  obtain ⟨hm, hrest⟩ := List.forall_mem_cons.mp hheight
  rw [List.length_cons] at hroom
  have hdefers : n.Defers s m := by
    refine ⟨i, hi, ?_, ?_⟩
    · rw [UInt64.lt_iff_toNat_lt]
      omega
    · omega
  have hnumber : m.view.height = head.number + 1 := by
    rw [(adopts_eq_true hadopts).1]
    apply UInt64.toNat_inj.mp
    have hlt := m.view.height.toNat_lt
    rw [UInt64.toNat_add, UInt64.toNat_one]
    omega
  refine ⟨{ n with early := n.early.append m.view.height m }, ?_, ⟨hi, hrest, ?_⟩, ?_⟩
  · rw [handle, onMessage_of_defers hdefers, Backlog.push_of_lt (by omega)]
    rfl
  · show n.early.count + 1 + rest.length ≤ n.early.limit
    omega
  · have hgrows : ∀ n : Node, n.current = some i →
        n.handle s (.newHead head) = startHeight s n head := by
      intro n hi
      rw [handle, onNewHead, hi]
      exact if_pos hadopts
    have hgrown := hgrows { n with early := n.early.append m.view.height m } hi
    rw [hgrown, hgrows n hi]
    exact startHeight_append hnumber

/-! ## A later round -/

/-- A message after which a node is elsewhere makes the instance move, whatever it keeps for
later. -/
theorem message_moves
    (hj : ((n.deciding i).handle s (.message m)).node.current = some j) (hne : j.view ≠ i.view) :
    ∃ k : Instance, k.committee = i.committee ∧ k.height = i.height ∧ ∀ later,
      ((n.deciding (i.withLater later)).handle s (.message m)).toStep.result =
        ((Instance.moveTo (n.context s) (k.withLater later) j.view.round).map
          n.deciding).result := by
  have hstuck : (n.deciding i).current ≠ some j := fun heq => hne (by cases heq; rfl)
  rw [handle] at hj
  rcases onMessage_cases s (n.deciding i) m with hdefers | ⟨i', hi', hsame⟩ | ⟨-, -, hignore⟩
  · rw [onMessage_of_defers hdefers] at hj
    exact absurd hj hstuck
  · rw [onMessage_of_height hi' hsame, current_ofStep, Option.some.injEq] at hj
    cases hi'
    obtain ⟨k, hcommittee, hk, hmoves⟩ := Instance.receive_moves (c := n.context s) hj hne
    refine ⟨k, hcommittee, hk, fun later => ?_⟩
    rw [toStep_message (i := i.withLater later) hsame, hmoves later]
  · rw [hignore] at hj
    exact absurd hj hstuck

theorem expiry_moves
    {view : View} (hj : ((n.deciding i).handle s (.expiry view)).node.current = some j)
    (hne : j.view ≠ i.view) (later : Backlog UInt32 Message) :
    ((n.deciding (i.withLater later)).handle s (.expiry view)).toStep.result =
      ((Instance.moveTo (n.context s) (i.withLater later) j.view.round).map n.deciding).result := by
  rw [handle, onExpiry, deciding] at hj
  dsimp only at hj
  split at hj
  · rename_i hsame
    rw [current_ofStep, Option.some.injEq] at hj
    have hpassed : (n.deciding (i.withLater later)).handle s (.expiry view) =
        (n.deciding (i.withLater later)).ofStep
          ((i.withLater later).expire (n.context s) view) := if_pos hsame
    rw [hpassed, toStep_ofStep, Instance.expire_moves (c := n.context s) hj hne later]
    rfl
  · cases hj
    exact absurd rfl hne

/-- A height that begins is not the one that it follows. -/
theorem height_ne_of_newHead
    (hheight : i.view.height = i.height)
    (hj : ((n.deciding i).handle s (.newHead head)).node.current = some j) (hne : j.view ≠ i.view) :
    j.view.height ≠ i.view.height := by
  have hstuck : (n.deciding i).current ≠ some j := fun heq => hne (by cases heq; rfl)
  rw [handle, onNewHead, deciding] at hj
  dsimp only at hj
  split at hj
  · rename_i hadopts
    change (startHeight s (n.deciding i) head).node.current = _ at hj
    rcases startHeight_cases s (n.deciding i) head with ⟨committees, e, -, hfails⟩ |
      ⟨b, committees, k, first, hopens, hopened⟩
    · have hn : startHeight s (n.deciding i) head = _ := hfails n.early
      rw [hn] at hj
      exact absurd hj hstuck
    · have hn : startHeight s (n.deciding i) head = _ := hopened n.early
      rw [hn] at hj
      rcases current_ofOpening hj with hj | ⟨actions, hstep⟩
      · exact absurd hj hstuck
      · obtain ⟨j', hj', hnew, -⟩ :=
          startHeight_view (hn.trans (ofOpening_eq_ok.mpr ⟨j, hstep, rfl⟩))
        cases hj'
        rw [hnew, (adopts_eq_true hadopts).1, ← hheight]
        intro hsame
        exact absurd (UInt64.add_eq_left.mp hsame) (by decide)
  · exact absurd hj hstuck

/-- An event after which a node is in a later round of its height makes the instance move there,
whatever it keeps for later. -/
theorem handle_moves
    (hheight : i.view.height = i.height) (hlater : i.view.round < round)
    (hmoved : ((n.deciding i).handle s e).node.view? = some (i.viewIn round)) :
    ∃ k : Instance, k.committee = i.committee ∧ k.height = i.height ∧ ∀ later,
      ((n.deciding (i.withLater later)).handle s e).toStep.result =
        ((Instance.moveTo (n.context s) (k.withLater later) round).map n.deciding).result := by
  obtain ⟨j, hj, hview⟩ := Option.map_eq_some_iff.mp hmoved
  obtain rfl : j.view.round = round := congrArg View.round hview
  have hne : j.view ≠ i.view := by
    intro heq
    rw [heq] at hlater
    exact absurd hlater (UInt32.lt_irrefl _)
  have hstuck : (n.deciding i).current ≠ some j := fun heq => hne (by cases heq; rfl)
  cases e with
  | message m => exact message_moves hj hne
  | expiry view => exact ⟨i, rfl, rfl, expiry_moves hj hne⟩
  | newHead head =>
      exact absurd (congrArg View.height hview) (height_ne_of_newHead hheight hj hne)
  | requestVote v => exact absurd hj hstuck
  | discardVote subject => exact absurd hj hstuck
  | shutdown => exact absurd hj hstuck

/-- Messages of a later round may come before the event that makes the node enter it. -/
theorem play_moves
    (hheight : i.view.height = i.height) (hlater : i.view.round < round)
    (hkind : ∀ m ∈ ms, m.kind ≠ .roundChange) (hview : ∀ m ∈ ms, m.view = i.viewIn round)
    (hroom : i.later.count + ms.length ≤ i.later.limit)
    (hmoved : ((n.deciding i).handle s e).node.view? = some (i.viewIn round)) :
    ((n.deciding i).play s (ms.map .message ++ [e])).result =
      ((n.deciding i).play s (e :: ms.map .message)).result := by
  obtain ⟨k, hcommittee, hk, hmoves⟩ := handle_moves hheight hlater hmoved
  refine play_swap (p := fun n' ms => ∃ later : Backlog UInt32 Message,
    n' = n.deciding (i.withLater later) ∧ (∀ m ∈ ms, m.kind ≠ .roundChange) ∧
      (∀ m ∈ ms, m.view = i.viewIn round) ∧ later.count + ms.length ≤ later.limit) ?_
    ⟨i.later, rfl, hkind, hview, hroom⟩
  rintro _ m rest ⟨later, rfl, hkind, hview, hroom⟩
  obtain ⟨hm, hkind⟩ := List.forall_mem_cons.mp hkind
  obtain ⟨hmview, hview⟩ := List.forall_mem_cons.mp hview
  rw [List.length_cons] at hroom
  have hsame : m.view.height = i.view.height := by
    rw [hmview]
    rfl
  have hround : m.view.round = round := congrArg View.round hmview
  have hmheight : i.height = m.view.height := (hsame.trans hheight).symm
  have hfree : later.count < later.limit := by omega
  obtain ⟨later', hlimit, hcount, hwaits, hcommutes⟩ :=
    Instance.receive_moveTo (c := n.context s) hm hsame hround hlater hfree
  refine ⟨n.deciding (i.withLater later'), ?_, ⟨later', rfl, hkind, hview, ?_⟩, ?_⟩
  · rw [toStep_message (i := i.withLater later) hmheight, hwaits]
    rfl
  · rw [hlimit]
    omega
  · rw [hmoves later', andThen_message (hmoves later)]
    · exact Step.result_map_congr _ (hcommutes k hcommittee)
    · intro j actions hj
      have hj : j.height = (k.withLater later).height := (Instance.moveTo_base hj).2.2
      exact hj.trans (hk.trans hmheight)

/-- It makes no difference whether messages come early, as long as there is room for them: those
of the next height before the head of the present one is adopted, and those of a later round
before the event that makes the node enter that round. -/
theorem early_delivery_timely
    (s : Setup) (headers : List Header) (head : Header) (occasions : List Occasion) (x : Execution)
    {n : Node} {i : Instance} (hn : n = (launch s headers head).node.after s occasions)
    (hi : n.current = some i) :
    let t : Setup := { s with execution := x }
    (∀ (h : Header) (ms : List Message), adopts t i h = true →
      1 ≤ s.settings.futureHeightWindow →
      (∀ m ∈ ms, m.view.height.toNat = i.height.toNat + 1) →
      n.early.count + ms.length ≤ n.early.limit →
        (n.play t (ms.map .message ++ [.newHead h])).result =
          (n.play t (.newHead h :: ms.map .message)).result) ∧
    ∀ (e : Event) (round : UInt32) (ms : List Message), i.view.round < round →
      (n.handle t e).node.view? = some ⟨i.height, round⟩ →
      (∀ m ∈ ms, m.kind ≠ .roundChange ∧ m.view = ⟨i.height, round⟩) →
      i.later.count + ms.length ≤ i.later.limit →
        (n.play t (ms.map .message ++ [e])).result = (n.play t (e :: ms.map .message)).result := by
  intro t
  have hheight : i.view.height = i.height := by
    rw [hn] at hi
    exact ((lasting_vetted s).life hi).height
  have hview : ∀ round, i.viewIn round = ⟨i.height, round⟩ :=
    fun round => View.eq_of_eq hheight rfl
  have hdeciding : n = n.deciding i := by
    rw [deciding, ← hi]
  refine ⟨fun h ms hadopts hwindow hnext hroom => ?_, fun e round ms hlater hmoved hms hroom => ?_⟩
  · exact play_newHead hi hadopts hwindow hnext hroom
  · rw [← hview] at hmoved hms
    rw [hdeciding] at hmoved ⊢
    exact play_moves hheight hlater
      (fun m hm => (hms m hm).1) (fun m hm => (hms m hm).2) hroom hmoved

/-- A member of four may hear of the next height before it adopts the head of the first one, and
of the second round before it gives the first one up. -/
theorem early_delivery_timely_of_four :
    let s := Four.setup 0
    let n := (launch s [] Four.first.header).node
    let next := [Four.proposeNext, Four.prepareNext 3].filterMap Except.toOption
    let later := [Four.prepare 3 1 (Four.fresh 1)].filterMap Except.toOption
    next.length = 2 ∧ later.length = 1 ∧
      (n.play s (next.map .message ++ [.newHead Four.head])).result =
        (n.play s (.newHead Four.head :: next.map .message)).result ∧
      (n.play s (later.map .message ++ [.expiry ⟨1, 0⟩])).result =
        (n.play s (.expiry ⟨1, 0⟩ :: later.map .message)).result := by
  intro s n next later
  have hcurrent : n.current.any (fun i => adopts s i Four.head && i.height == 1 &&
      i.view.round == 0 && decide (i.later.count + later.length ≤ i.later.limit)) = true := by
    decide +kernel
  have hview : (n.handle s (.expiry ⟨1, 0⟩)).node.view? = some ⟨1, 1⟩ := by decide +kernel
  obtain ⟨i, hi⟩ : ∃ i, n.current = some i := by
    cases hn : n.current with
    | none =>
        rw [hn] at hcurrent
        contradiction
    | some i => exact ⟨i, rfl⟩
  rw [hi, Option.any_some, Bool.and_eq_true, Bool.and_eq_true, Bool.and_eq_true, beq_iff_eq,
    beq_iff_eq, decide_eq_true_eq] at hcurrent
  obtain ⟨⟨⟨hadopts, hheight⟩, hround⟩, hroom⟩ := hcurrent
  obtain ⟨hnext, hlater⟩ := early_delivery_timely (n := n) s [] Four.first.header []
    s.execution (after_nil s n).symm hi
  refine ⟨by decide +kernel, by decide +kernel, ?_, ?_⟩
  · refine hnext Four.head next hadopts (by decide) ?_ (by decide +kernel)
    rw [hheight]
    decide +kernel
  · rw [hheight] at hlater
    refine hlater (.expiry ⟨1, 0⟩) 1 later ?_ hview (by decide +kernel) hroom
    rw [hround]
    decide

end Node

end QuorumChain
