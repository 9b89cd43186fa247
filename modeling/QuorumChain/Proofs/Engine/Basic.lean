import QuorumChain.Proofs.Life.Basic
import QuorumChain.Simulation.Clock

/-!
# Engines step by step

An engine is driven on by what is put into its mailbox, by its timer, and by its own work on one
event after the other.  Of the things that a node wants to be done, only the blocks that it
hands out touch more of the engine than the timer and the messages sent.
-/

namespace QuorumChain

/-- What drives an engine on. -/
inductive Drive where
  /-- Somebody puts an event into the mailbox, unless it is closed. -/
  | post (event : Event)
  /-- Nobody can fill the mailbox any more. -/
  | release
  /-- Some milliseconds pass. -/
  | wait (ms : Nat)
  /-- The timer puts its event into the mailbox if its time has come. -/
  | ring
  /-- The engine handles the event that comes next; the node may ask some execution engine. -/
  | work (execution : Execution)

/-- The event that somebody puts into the mailbox. -/
def Drive.posted? : Drive → Option Event
  | .post event => some event
  | _ => none

namespace Engine

/-- The engine driven on. -/
def drive (s : Setup) (e : Engine) : Drive → Engine
  | .post event => (e.send event).toOption.getD e
  | .release => e.release
  | .wait ms => { e with now := e.now + ms }
  | .ring =>
    match e.timer with
    | some (view, due) => if due ≤ e.now then { e with timer := none }.post (.expiry view) else e
    | none => e
  | .work execution => e.drain { s with execution } 1

/-- The engine on a chain that has been started with some events in its mailbox and driven on. -/
def run (s : Setup) (ledger : Ledger) (early : List Event) (drives : List Drive) : Engine :=
  drives.foldl (drive s)
    ((early.foldl post (new s.settings ledger none)).start s ledger.head.header)

/-- The events that were put into the mailbox before the start and from then on. -/
def posted (early : List Event) (drives : List Drive) : List Event :=
  early ++ drives.filterMap Drive.posted?

theorem run_append_singleton
    (s : Setup) (ledger : Ledger) (early : List Event) (drives : List Drive) (d : Drive) :
    run s ledger early (drives ++ [d]) = (run s ledger early drives).drive s d := by
  rw [run, List.foldl_append, List.foldl_cons, List.foldl_nil, run]

theorem posted_append_singleton
    (early : List Event) (drives : List Drive) (d : Drive) :
    posted early (drives ++ [d]) = posted early drives ++ d.posted?.toList := by
  rw [posted, posted, List.filterMap_append, List.append_assoc]
  cases h : d.posted? <;> simp [h]

theorem foldl_post (e : Engine) (events : List Event) :
    events.foldl post e = { e with mailbox := e.mailbox ++ events } := by
  induction events generalizing e with
  | nil => rw [List.append_nil, List.foldl_nil]
  | cons event rest ih => rw [List.foldl_cons, ih, post, List.append_assoc, List.singleton_append]

variable {s : Setup} {e : Engine}

/-! ## Work -/

theorem drain_of_ended {ending : Ending} (h : e.ending = some ending) (fuel : Nat) :
    e.drain s fuel = e := by
  cases fuel <;> simp [drain, h]

theorem drain_zero (s : Setup) (e : Engine) : e.drain s 0 = e := by
  cases h : e.ending <;> simp [drain, h]

theorem drain_of_next
    {event : Event} {rest : Engine} (h : e.ending = none) (hnext : e.next? = some (event, rest))
    (fuel : Nat) : e.drain s (fuel + 1) = (rest.handle s event).drain s fuel := by
  simp [drain, h, hnext]

theorem drain_of_nothing (h : e.ending = none) (hnext : e.next? = none) (fuel : Nat) :
    e.drain s (fuel + 1) = if e.isOpen then e else e.finish .stopped := by
  simp [drain, h, hnext]

/-- An engine works on the first event that waits; if there is none, on the head that the node
is to hear of; and if there is none either, it waits or stops. -/
theorem work_cases (h : e.ending = none) :
    (∃ event rest, e.mailbox = event :: rest ∧
      e.drain s 1 = handle s { e with mailbox := rest } event) ∨
    (∃ head, e.pendingHead = some head ∧
      e.drain s 1 = handle s { e with pendingHead := none } (.newHead head)) ∨
    e.drain s 1 = e ∨ e.drain s 1 = e.finish .stopped := by
  obtain ⟨mailbox, hmailbox⟩ : ∃ mailbox, e.mailbox = mailbox := ⟨_, rfl⟩
  obtain ⟨pending, hpending⟩ : ∃ pending, e.pendingHead = pending := ⟨_, rfl⟩
  cases mailbox with
  | cons event rest =>
      have hnext : e.next? = some (event, { e with mailbox := rest }) := by rw [next?, hmailbox]
      refine .inl ⟨event, rest, hmailbox, ?_⟩
      rw [drain_of_next h hnext, drain_zero]
  | nil =>
      cases pending with
      | some head =>
          have hnext : e.next? = some (.newHead head, { e with pendingHead := none }) := by
            rw [next?, hmailbox, hpending]
          refine .inr (.inl ⟨head, hpending, ?_⟩)
          rw [drain_of_next h hnext, drain_zero]
      | none =>
          have hnext : e.next? = none := by rw [next?, hmailbox, hpending]
          rw [drain_of_nothing h hnext]
          by_cases hopen : e.isOpen = true
          · exact .inr (.inr (.inl (if_pos hopen)))
          · exact .inr (.inr (.inr (if_neg hopen)))

/-! ## Actions -/

theorem node_foldl_perform
    (H : HashFunction) (e : Engine) (actions : List Action) :
    (actions.foldl (perform H) e).node = e.node := by
  induction actions generalizing e with
  | nil => rfl
  | cons a rest ih =>
      rw [List.foldl_cons, ih]
      cases a with
      | importBlock block =>
          rw [perform]
          split <;> rfl
      | _ => rfl

theorem node_follow (H : HashFunction) (e : Engine) (reaction : Reaction) :
    (e.follow H reaction).node = reaction.node := by
  rw [follow]
  split
  · exact node_foldl_perform H _ _
  · rfl

theorem handle_of_ne_shutdown {event : Event} (h : event ≠ .shutdown) :
    e.handle s event = e.follow s.scheme.hash (e.node.handle s event) := by
  cases event with
  | shutdown => exact absurd rfl h
  | _ => rfl

/-- What hands out no block touches the timer and the messages sent only. -/
theorem foldl_perform_of_none
    (H : HashFunction) (e : Engine) {actions : List Action}
    (h : ∀ a ∈ actions, a.imported? = none) :
    ∃ timer sent, actions.foldl (perform H) e = { e with timer, journal.sent := sent } := by
  induction actions generalizing e with
  | nil => exact ⟨e.timer, e.journal.sent, rfl⟩
  | cons a rest ih =>
      have hrest := fun e => ih e fun a ha => h a (List.mem_cons_of_mem _ ha)
      cases a with
      | importBlock block => exact absurd (h _ List.mem_cons_self) (Option.some_ne_none block)
      | broadcast m => exact hrest { e with journal.sent := e.journal.sent ++ [m] }
      | startTimer view after =>
          exact hrest { e with timer := some (view, e.now + after.milliseconds) }
      | stopTimer => exact hrest { e with timer := none }

/-- A block that is handed out and that the ledger takes becomes the head that the node does not
know of yet. -/
theorem foldl_perform_of_one
    {H : HashFunction} {actions : List Action} {block : Block} {ledger : Ledger}
    (h : actions.filterMap Action.imported? = [block]) (hgrow : e.grow H block = .ok ledger) :
    ∃ timer sent, actions.foldl (perform H) e =
      { e with
        ledger
        pendingHead := some block.header
        timer
        journal := ⟨sent, e.journal.imports ++ [(block, none)]⟩ } := by
  obtain ⟨before, a, later, rfl, hbefore, ha, hlater⟩ := List.filterMap_eq_cons_iff.mp h
  obtain rfl : a = .importBlock block := by
    cases a with
    | importBlock b => exact congrArg Action.importBlock (Option.some.inj ha)
    | _ => contradiction
  obtain ⟨timer, sent, hfirst⟩ := foldl_perform_of_none H e hbefore
  have hgrow' : grow H { e with timer, journal.sent := sent } block = .ok ledger := hgrow
  rw [List.foldl_append, List.foldl_cons, hfirst, perform, hgrow']
  obtain ⟨timer', sent', hrest⟩ :=
    foldl_perform_of_none H _ (List.filterMap_eq_nil_iff.mp hlater)
  exact ⟨timer', sent', hrest⟩

/-! ## The start -/

/-- An engine that is started fails, or its node begins the height behind the head. -/
theorem start_cases (s : Setup) {e : Engine} (hending : e.ending = none) (head : Header) :
    (∃ n cause, e.start s head = finish { e with node := n } (.failed cause)) ∨
      ∃ committees n actions,
        Node.startHeight s { e.node with committees } head = ⟨n, .ok actions⟩ ∧
          e.start s head = actions.foldl (perform s.scheme.hash) { e with node := n } := by
  rw [start]
  split
  · rename_i cause _
    exact .inl ⟨e.node, cause, rfl⟩
  · rename_i below _
    dsimp only
    rcases Node.verifyChain_cases s e.node (below ++ [head]) with ⟨-, committees, -, hverify⟩ |
      ⟨committees, cause, -, hverify⟩
    · have hfollow : e.follow s.scheme.hash ⟨{ e.node with committees }, .ok []⟩ =
          { e with node := { e.node with committees } } := rfl
      rw [hverify, hfollow, hending, if_neg (by simp)]
      cases hstart : Node.start s { e.node with committees } head with
      | mk n result =>
          cases result with
          | error cause => exact .inl ⟨n, cause, rfl⟩
          | ok actions =>
              obtain ⟨committees', hbegins⟩ := Node.startHeight_of_start hstart
              exact .inr ⟨committees', n, actions, hbegins, rfl⟩
    · rw [hverify]
      exact .inl ⟨{ e.node with committees }, cause, rfl⟩

end Engine

end QuorumChain
