import QuorumChain.Proofs.Engine.Basic
import QuorumChain.Proofs.Life.Chronicle
import QuorumChain.Proofs.Node.Four
import QuorumChain.Proofs.Node.Linkage

/-!
# Node, engine and chain in step

Three parts of an engine count heights: the node decides one, the ledger ends at one, and a
block that the ledger has taken waits until the node hears of it.  They stay in step.  The
ledger takes every block that the node hands out, and the node is one height ahead of the ledger
until it has committed the block of its height; then both are at that height until the block
becomes the node's new head.

The check of a prepared certificate does not look at the parent of the block in it.  So this
holds as long as the certificates that arrive for a height hold blocks which may be proposed on
its parent.
-/

namespace QuorumChain

/-- The request to change the round that an event brings. -/
def Event.request? : Event → Option (Signed RoundChange)
  | .message (.roundChange q) => some q
  | _ => none

/-- The head of which an event tells. -/
def Event.head? : Event → Option Header
  | .newHead head => some head
  | _ => none

namespace Node

/-- The good prepared certificates that requests have brought for the present height hold blocks
that may be proposed, each in its own round, on the present parent. -/
def Certified (s : Setup) (n : Node) (events : List Event) : Prop :=
  ∀ i ∈ n.current, ∀ q ∈ events.filterMap Event.request?, ∀ c ∈ q.payload.prepared,
    (c.check s.scheme i.committee i.height).isOk →
      (c.block.header.checkProposed i.parent i.parentDigest i.committee c.view.round).isOk

instance (s : Setup) (n : Node) (events : List Event) : Decidable (n.Certified s events) :=
  inferInstanceAs (Decidable (∀ i ∈ n.current, ∀ q ∈ events.filterMap Event.request?,
    ∀ c ∈ q.payload.prepared, (c.check s.scheme i.committee i.height).isOk →
      (c.block.header.checkProposed i.parent i.parentDigest i.committee c.view.round).isOk))

variable {s : Setup} {n : Node} {events : List Event} {b : Base} {r : Record}

theorem Recorded.hearsLinked
    (h : n.Recorded s events b r) (hcertified : n.Certified s events) :
    Record.HearsLinked s b r.heard := by
  intro q c d hq hc hcheck
  have hframed := h.attainable.framed
  have hheight : r.now.height = b.height := congrArg Base.height hframed.base
  have hrequest : q ∈ events.filterMap Event.request? :=
    List.mem_filterMap.mpr ⟨_, h.heard _ hq, rfl⟩
  have hgood : (c.check s.scheme r.now.committee r.now.height).isOk = true := by
    rw [hframed.committee, hheight]
    exact isOk_eq_true.mpr ⟨d, hcheck⟩
  obtain ⟨x, hx⟩ := isOk_eq_true.mp (hcertified _ h.current q hrequest c hc hgood)
  rw [hframed.parent, hframed.parentDigest, hframed.committee] at hx
  exact Header.linksTo_of_check hx

end Node

namespace Engine

/-- The node decides the block behind the head of the chain; or it has committed the head and
does not know yet that it is in the chain. -/
def InStep (e : Engine) : Prop :=
  ∃ i, e.node.current = some i ∧
    match e.pendingHead with
    | none => i.view.height = e.ledger.height + 1 ∧ i.round.phase ≠ .committed
    | some head =>
      i.view.height = e.ledger.height ∧ i.round.phase = .committed ∧ head = e.ledger.head.header

/-- What waits was posted, no head is among it, and the ledger has taken all blocks. -/
structure PostedAndTaken (events : List Event) (e : Engine) : Prop where
  waiting : ∀ m, .message m ∈ e.mailbox → .message m ∈ events
  quiet : ∀ head, .newHead head ∉ e.mailbox
  unlimited : e.limit = none
  accepted : ∀ x ∈ e.journal.imports, x.2 = none

/-- The head of the chain at a height, after the blocks that the node has handed out at it. -/
inductive Abreast (e : Engine) (b : Base) : List Block → Prop
  /-- It is the parent. -/
  | below (hpending : e.pendingHead = none) (hhead : e.ledger.head.header = b.parent) :
      Abreast e b []
  /-- It is the block of the height, and the node is to hear of it. -/
  | here {block : Block} (hpending : e.pendingHead = some block.header)
      (hhead : e.ledger.head = block) : Abreast e b [block]

/-- The node has a record, and the chain is where the record says. -/
structure Paced (s : Setup) (events : List Event) (e : Engine) (b : Base) (r : Record) : Prop where
  recorded : e.node.Recorded s events b r
  digest : b.parent.digest s.scheme.hash = .ok b.parentDigest
  abreast : e.Abreast b r.imported

/-- Nothing but what was posted waits, and every block is taken; and unless the engine has
failed, it keeps pace with its chain. -/
def Keeps (s : Setup) (events : List Event) (e : Engine) : Prop :=
  e.PostedAndTaken events ∧
    ((∃ cause, e.ending = some (.failed cause)) ∨ ∃ b r, e.Paced s events b r)

variable {s : Setup} {events : List Event} {e : Engine} {b : Base} {r : Record}

theorem PostedAndTaken.replace
    {e' : Engine} (h : e.PostedAndTaken events) (hmailbox : e'.mailbox = e.mailbox)
    (hlimit : e'.limit = e.limit)
    (himports : e'.journal.imports = e.journal.imports) : e'.PostedAndTaken events :=
  ⟨hmailbox ▸ h.waiting, hmailbox ▸ h.quiet, hlimit.trans h.unlimited, himports ▸ h.accepted⟩

theorem Abreast.replace
    {e' : Engine} {blocks : List Block} (h : e.Abreast b blocks) (hledger : e'.ledger = e.ledger)
    (hpending : e'.pendingHead = e.pendingHead) : e'.Abreast b blocks := by
  cases h with
  | below hnone hhead => exact .below (hpending.trans hnone) (hledger ▸ hhead)
  | here hsome hhead => exact .here (hpending.trans hsome) (hledger ▸ hhead)

theorem Paced.inStep
    (h : e.Paced s events b r) (hheard : Record.HearsLinked s b r.heard) : e.InStep := by
  have hheight := h.recorded.attainable.framed.height
  have habreast := h.abreast
  refine ⟨r.now, h.recorded.current, ?_⟩
  rcases h.recorded.attainable.open_or_hands_linked hheard with ⟨hopen, hnone⟩ |
    ⟨hcommitted, block, d, hone, hlinks, -⟩
  · rw [hnone] at habreast
    cases habreast with
    | below hpending hhead =>
        rw [hpending]
        refine ⟨?_, hopen⟩
        rw [hheight, Ledger.height, hhead]
        rfl
  · rw [hone] at habreast
    cases habreast with
    | here hpending hhead =>
        rw [hpending]
        refine ⟨?_, hcommitted, by rw [hhead]⟩
        rw [hheight, Ledger.height, hhead, hlinks.number]

/-! ## Blocks -/

theorem head_append
    {H : HashFunction} {l l' : Ledger} {block : Block} (h : l.append H block = .ok l') :
    l'.head = block := by
  simp only [Ledger.append, bind_eq_ok, pure_eq_ok] at h
  obtain ⟨_, -, rfl⟩ := h
  simp [Ledger.head]

/-- The ledger takes a block that is linked to its head. -/
theorem exists_grow
    {block : Block} (hunlimited : e.limit = none) (hhead : e.ledger.head.header = b.parent)
    (hdigest : b.parent.digest s.scheme.hash = .ok b.parentDigest)
    (hlinks : block.header.LinksTo b) :
    ∃ ledger, e.grow s.scheme.hash block = .ok ledger ∧ ledger.head = block := by
  have hlink : Ledger.checkLink s.scheme.hash e.ledger.head block = .ok () := by
    simp [Ledger.checkLink, hhead, hdigest, hlinks.number, hlinks.parent, Base.height, mapError_ok,
      bind, Except.bind, pure, Except.pure]
  have happend : e.ledger.append s.scheme.hash block =
      .ok { e.ledger with above := e.ledger.above ++ [block] } := by
    simp [Ledger.append, hlink, bind, Except.bind, pure, Except.pure]
  refine ⟨_, ?_, head_append happend⟩
  rw [grow, hunlimited]
  exact happend

/-- An engine that was where its node's record says, before the node asked for the last actions,
is there when they are done. -/
theorem keeps_perform
    {blocks : List Block} {actions : List Action} (htaken : e.PostedAndTaken events)
    (hrecorded : e.node.Recorded s events b r)
    (hdigest : b.parent.digest s.scheme.hash = .ok b.parentDigest)
    (hheard : Record.HearsLinked s b r.heard) (habreast : e.Abreast b blocks)
    (himported : r.imported = blocks ++ actions.filterMap Action.imported?) :
    Keeps s events (actions.foldl (perform s.scheme.hash) e) := by
  have hidle : actions.filterMap Action.imported? = [] →
      Keeps s events (actions.foldl (perform s.scheme.hash) e) := by
    intro hnone
    obtain ⟨timer, sent, hdone⟩ :=
      foldl_perform_of_none s.scheme.hash e (List.filterMap_eq_nil_iff.mp hnone)
    rw [hnone, List.append_nil] at himported
    rw [hdone]
    refine ⟨htaken.replace rfl rfl rfl, .inr ⟨b, r, hrecorded, hdigest, ?_⟩⟩
    rw [himported]
    exact habreast.replace rfl rfl
  cases habreast with
  | below hpending hhead =>
      rcases hrecorded.attainable.open_or_hands_linked hheard with ⟨-, hnone⟩ |
        ⟨-, block, d, hone, hlinks, -⟩
      · exact hidle (himported.symm.trans hnone)
      · obtain ⟨ledger, hgrow, hnew⟩ := exists_grow htaken.unlimited hhead hdigest hlinks
        obtain ⟨timer, sent, hdone⟩ :=
          foldl_perform_of_one (himported.symm.trans hone) hgrow
        rw [hdone]
        refine ⟨⟨htaken.waiting, htaken.quiet, htaken.unlimited, ?_⟩,
          .inr ⟨b, r, hrecorded, hdigest, ?_⟩⟩
        · intro x hx
          rcases List.mem_append.mp hx with hx | hx
          · exact htaken.accepted x hx
          · rw [List.mem_singleton.mp hx]
        · rw [hone]
          exact .here rfl hnew
  | here hpending hhead =>
      apply hidle
      rcases hrecorded.attainable.open_or_hands_linked hheard
        with ⟨-, hnone⟩ | ⟨-, block, d, hone, -⟩
      · rw [himported] at hnone
        exact absurd hnone (List.cons_ne_nil _ _)
      · rw [himported] at hone
        exact (List.cons.inj hone).2

/-- A node that begins the height behind the head of the chain is in pace with it. -/
theorem keeps_startHeight
    {n n' : Node} {x : Execution} {actions : List Action} (htaken : e.PostedAndTaken events)
    (hpending : e.pendingHead = none)
    (hok : Node.startHeight { s with execution := x } n e.ledger.head.header = ⟨n', .ok actions⟩)
    (hearly : ∀ m, n.early.Holds m → .message m ∈ events)
    (hcertified : n'.Certified s events) :
    Keeps s events (actions.foldl (perform s.scheme.hash) { e with node := n' }) := by
  obtain ⟨b, r, hparent, hdigest, hrecorded, hdone⟩ := Node.recorded_startHeight hok hearly
  rw [← hparent] at hdigest
  have habreast : Abreast { e with node := n' } b [] := .below hpending hparent.symm
  refine keeps_perform (htaken.replace rfl rfl rfl) hrecorded hdigest
    (hrecorded.hearsLinked hcertified) habreast ?_
  rw [Record.imported, hdone]
  rfl

/-! ## One event -/

theorem PostedAndTaken.finish (h : e.PostedAndTaken events) (ending : Ending) :
    (e.finish ending).PostedAndTaken events where
  waiting _ hm := absurd hm List.not_mem_nil
  quiet _ hhead := absurd hhead List.not_mem_nil
  unlimited := h.unlimited
  accepted := h.accepted

/-- An engine with the same node and the same chain keeps the same pace. -/
theorem Paced.replace
    {e' : Engine} (h : e.Paced s events b r) (hnode : e'.node = e.node)
    (hledger : e'.ledger = e.ledger) (hpending : e'.pendingHead = e.pendingHead) :
    e'.Paced s events b r :=
  ⟨hnode ▸ h.recorded, h.digest, h.abreast.replace hledger hpending⟩

theorem keeps_follow
    {reaction : Reaction} (htaken : e.PostedAndTaken events)
    (hok : ∀ n actions, reaction = ⟨n, .ok actions⟩ →
      Keeps s events (actions.foldl (perform s.scheme.hash) { e with node := n })) :
    Keeps s events (e.follow s.scheme.hash reaction) := by
  obtain ⟨n, result⟩ := reaction
  cases result with
  | error cause =>
      have hleft : PostedAndTaken events { e with node := n } := htaken.replace rfl rfl rfl
      exact ⟨hleft.finish _, .inl ⟨cause, rfl⟩⟩
  | ok actions => exact hok n actions rfl

/-- Any event but a new head is handled at the height where the node is. -/
theorem keeps_handle
    {event : Event} {x : Execution} (htaken : e.PostedAndTaken events) (h : e.Paced s events b r)
    (hevent : ∀ m, event = .message m → .message m ∈ events)
    (hhead : ∀ head, event ≠ .newHead head)
    (hcertified : (e.handle { s with execution := x } event).node.Certified s events) :
    Keeps s events (e.handle { s with execution := x } event) := by
  by_cases hstop : event = .shutdown
  · subst hstop
    exact ⟨htaken.finish .stopped, .inr ⟨b, r, h.replace rfl rfl rfl⟩⟩
  · rw [handle_of_ne_shutdown hstop] at hcertified ⊢
    rw [node_follow] at hcertified
    apply keeps_follow htaken
    intro n actions hok
    obtain ⟨r', hrecorded, hdone⟩ := h.recorded.handle hevent hhead hok
    rw [hok] at hcertified
    have habreast : Abreast { e with node := n } b r.imported := h.abreast.replace rfl rfl
    refine keeps_perform (htaken.replace rfl rfl rfl) hrecorded
      h.digest (hrecorded.hearsLinked hcertified) habreast ?_
    rw [Record.imported, hdone, List.filterMap_append]
    rfl

/-- The head that the node is to hear of is the block that it has committed, so it begins the next
height. -/
theorem handle_newHead
    {head : Header} {x : Execution} (h : e.Paced s events b r)
    (hheard : Record.HearsLinked s b r.heard)
    (hpending : e.pendingHead = some head) :
    e.ledger.head.header = head ∧
      e.node.handle { s with execution := x } (.newHead head) =
        Node.startHeight { s with execution := x } e.node head := by
  have habreast := h.abreast
  rcases h.recorded.attainable.open_or_hands_linked hheard with ⟨-, hnone⟩ |
    ⟨-, block, d, hone, hlinks, hdigest, hcommitted⟩
  · rw [hnone] at habreast
    cases habreast with
    | below hnone => exact absurd (hnone.symm.trans hpending) (Option.some_ne_none head).symm
  · rw [hone] at habreast
    cases habreast with
    | here hsome hhead =>
        rw [hpending, Option.some.injEq] at hsome
        subst hsome
        have hheight : r.now.height = b.height :=
          congrArg Base.height h.recorded.attainable.framed.base
        have hadopts : Node.adopts { s with execution := x } r.now block.header = true := by
          simp [Node.adopts, hlinks.number, hheight, hdigest, hcommitted]
        refine ⟨by rw [hhead], ?_⟩
        rw [Node.handle, Node.onNewHead, h.recorded.current]
        exact if_pos hadopts

theorem keeps_newHead
    {head : Header} {x : Execution} (htaken : e.PostedAndTaken events) (h : e.Paced s events b r)
    (hheard : Record.HearsLinked s b r.heard) (hpending : e.pendingHead = some head)
    (hcertified : (handle { s with execution := x } { e with pendingHead := none }
      (.newHead head)).node.Certified s events) :
    Keeps s events
      (handle { s with execution := x } { e with pendingHead := none } (.newHead head)) := by
  obtain ⟨rfl, hbegins⟩ := handle_newHead (x := x) h hheard hpending
  rw [handle_of_ne_shutdown Event.noConfusion] at hcertified ⊢
  rw [node_follow] at hcertified
  dsimp only at hcertified ⊢
  rw [hbegins] at hcertified ⊢
  have hidle : PostedAndTaken events { e with pendingHead := none } := htaken.replace rfl rfl rfl
  apply keeps_follow hidle
  intro n actions hok
  rw [hok] at hcertified
  exact keeps_startHeight hidle rfl hok h.recorded.early hcertified

theorem PostedAndTaken.rest
    {event : Event} {rest : List Event} (h : e.PostedAndTaken events)
    (hmailbox : e.mailbox = event :: rest) :
    PostedAndTaken events { e with mailbox := rest } := by
  have hmem : ∀ event' ∈ rest, event' ∈ e.mailbox := by
    intro event' hevent'
    rw [hmailbox]
    exact List.mem_cons_of_mem event hevent'
  exact ⟨fun m hm => h.waiting m (hmem _ hm), fun head hhead => h.quiet head (hmem _ hhead),
    h.unlimited, h.accepted⟩

/-- Whatever comes next, the engine keeps pace by its work on it. -/
theorem Keeps.work
    {x : Execution} (h : Keeps s events e) (hbefore : e.node.Certified s events)
    (hafter : (e.drain { s with execution := x } 1).node.Certified s events) :
    Keeps s events (e.drain { s with execution := x } 1) := by
  cases hending : e.ending with
  | some ending =>
      rw [drain_of_ended hending]
      exact h
  | none =>
      obtain ⟨htaken, ⟨cause, hfailed⟩ | ⟨b, r, hpaced⟩⟩ := h
      · rw [hending] at hfailed
        contradiction
      · rcases work_cases (s := { s with execution := x }) hending
          with ⟨event, rest, hmailbox, hwork⟩ | ⟨head, hpending, hwork⟩ | hwork | hwork
        · have hfirst : event ∈ e.mailbox := by
            rw [hmailbox]
            exact List.mem_cons_self
          rw [hwork] at hafter ⊢
          refine keeps_handle (htaken.rest hmailbox) (hpaced.replace rfl rfl rfl) ?_ ?_ hafter
          · rintro m rfl
            exact htaken.waiting m hfirst
          · rintro head rfl
            exact htaken.quiet head hfirst
        · rw [hwork] at hafter ⊢
          exact keeps_newHead htaken hpaced (hpaced.recorded.hearsLinked hbefore) hpending hafter
        · rw [hwork]
          exact ⟨htaken, .inr ⟨b, r, hpaced⟩⟩
        · rw [hwork]
          exact ⟨htaken.finish .stopped, .inr ⟨b, r, hpaced.replace rfl rfl rfl⟩⟩

/-! ## Runs -/

theorem Keeps.mono
    {events' : List Event} (h : Keeps s events e) (hle : ∀ event ∈ events, event ∈ events') :
    Keeps s events' e := by
  obtain ⟨htaken, hrest⟩ := h
  refine ⟨⟨fun m hm => hle _ (htaken.waiting m hm), htaken.quiet, htaken.unlimited,
    htaken.accepted⟩, hrest.imp_right ?_⟩
  rintro ⟨b, r, hpaced⟩
  exact ⟨b, r, hpaced.recorded.mono hle, hpaced.digest, hpaced.abreast⟩

/-- An engine that differs in nothing but what waits, its clock and whether it is open keeps pace as
well. -/
theorem Keeps.replace
    {e' : Engine} (h : Keeps s events e) (htaken : e'.PostedAndTaken events)
    (hnode : e'.node = e.node)
    (hledger : e'.ledger = e.ledger) (hpending : e'.pendingHead = e.pendingHead)
    (hending : e'.ending = e.ending) : Keeps s events e' := by
  refine ⟨htaken, h.2.imp ?_ ?_⟩
  · rintro ⟨cause, hfailed⟩
    exact ⟨cause, hending.trans hfailed⟩
  · rintro ⟨b, r, hpaced⟩
    exact ⟨b, r, hpaced.replace hnode hledger hpending⟩

theorem PostedAndTaken.post
    (h : e.PostedAndTaken events) {event : Event} (hhead : ∀ head, event ≠ .newHead head)
    (hevent : ∀ m, event = .message m → .message m ∈ events) :
    (e.post event).PostedAndTaken events where
  waiting m hm := by
    rcases List.mem_append.mp hm with hm | hm
    · exact h.waiting m hm
    · exact hevent m (List.mem_singleton.mp hm).symm
  quiet head hmem := by
    rcases List.mem_append.mp hmem with hmem | hmem
    · exact h.quiet head hmem
    · exact hhead head (List.mem_singleton.mp hmem).symm
  unlimited := h.unlimited
  accepted := h.accepted

theorem Keeps.drive
    {d : Drive} (h : Keeps s events e) (hquiet : ∀ head, d ≠ .post (.newHead head))
    (hbefore : e.node.Certified s events)
    (hafter : (e.drive s d).node.Certified s (events ++ d.posted?.toList)) :
    Keeps s (events ++ d.posted?.toList) (e.drive s d) := by
  have htaken := h.1
  cases d with
  | post event =>
      have hmono : Keeps s (events ++ [event]) e :=
        h.mono fun event' hmem => List.mem_append_left _ hmem
      change Keeps s (events ++ [event]) ((e.send event).toOption.getD e)
      rw [send]
      split
      · exact hmono
      · refine hmono.replace (hmono.1.post ?_ ?_) rfl rfl rfl rfl
        · rintro head rfl
          exact hquiet head rfl
        · rintro m rfl
          exact List.mem_append_right _ List.mem_cons_self
  | release =>
      change Keeps s (events ++ []) e.release
      rw [List.append_nil]
      exact h.replace (htaken.replace rfl rfl rfl) rfl rfl rfl rfl
  | wait ms =>
      change Keeps s (events ++ []) { e with now := e.now + ms }
      rw [List.append_nil]
      exact h.replace (htaken.replace rfl rfl rfl) rfl rfl rfl rfl
  | ring =>
      change Keeps s (events ++ []) (e.drive s .ring)
      rw [List.append_nil, Engine.drive]
      split
      · rename_i view due htimer
        split
        · have hsilent : PostedAndTaken events { e with timer := none } :=
            htaken.replace rfl rfl rfl
          exact h.replace (hsilent.post (fun _ => Event.noConfusion) fun _ => Event.noConfusion)
            rfl rfl
            rfl rfl
        · exact h
      · exact h
  | work x =>
      change Keeps s (events ++ []) (e.drain { s with execution := x } 1)
      change (e.drain { s with execution := x } 1).node.Certified s (events ++ []) at hafter
      rw [List.append_nil] at hafter ⊢
      exact h.work hbefore hafter

theorem keeps_start
    (htaken : e.PostedAndTaken events) (hearly : ∀ m, ¬e.node.early.Holds m)
    (hpending : e.pendingHead = none)
    (hending : e.ending = none)
    (hcertified : (e.start s e.ledger.head.header).node.Certified s events) :
    Keeps s events (e.start s e.ledger.head.header) := by
  rcases start_cases s hending e.ledger.head.header with ⟨n, cause, hfails⟩ |
    ⟨committees, n, actions, hbegins, hstarts⟩
  · have hleft : PostedAndTaken events { e with node := n } := htaken.replace rfl rfl rfl
    rw [hfails]
    exact ⟨hleft.finish _, .inl ⟨cause, rfl⟩⟩
  · rw [hstarts, node_foldl_perform] at hcertified
    rw [hstarts]
    exact keeps_startHeight htaken hpending hbegins (fun m hm => absurd hm (hearly m)) hcertified

/-- Every engine that was started on the head of its own chain keeps pace. -/
theorem keeps_run
    {ledger : Ledger} {early : List Event} {drives : List Drive}
    (hquiet : ∀ head, .newHead head ∉ posted early drives)
    (hcertified : ∀ earlier later, drives = earlier ++ later →
      (run s ledger early earlier).node.Certified s (posted early earlier)) :
    Keeps s (posted early drives) (run s ledger early drives) := by
  induction drives using List.reverseRecOn with
  | nil =>
      have hnil := hcertified [] [] rfl
      rw [posted, List.filterMap_nil, List.append_nil] at hnil hquiet ⊢
      rw [run, List.foldl_nil, foldl_post] at hnil ⊢
      refine keeps_start ⟨fun m hm => ?_, fun head hhead => ?_, rfl, ?_⟩ ?_ rfl rfl hnil
      · exact hm
      · exact hquiet head hhead
      · exact fun x hx => absurd hx List.not_mem_nil
      · exact fun m hm => Backlog.not_holds_empty hm
  | append_singleton drives d ih =>
      have hbefore := hcertified drives [d] rfl
      have hafter := hcertified (drives ++ [d]) [] (List.append_nil _).symm
      rw [run_append_singleton, posted_append_singleton] at hafter ⊢
      rw [posted_append_singleton] at hquiet
      refine Keeps.drive (ih ?_ ?_) ?_ hbefore hafter
      · exact fun head hmem => hquiet head (List.mem_append_left _ hmem)
      · rintro earlier later rfl
        exact hcertified earlier (later ++ [d]) (List.append_assoc _ _ _)
      · rintro head rfl
        exact hquiet head (List.mem_append_right _ List.mem_cons_self)

/-- Suppose that no head is posted to an engine and that, at any time, the good prepared
certificates for the present height hold blocks that may be proposed on its parent.  Then the
ledger has taken every block that the node has handed out; and unless the engine has failed, the
node, the waiting head and the ledger are in step. -/
theorem stays_in_step
    (s : Setup) (ledger : Ledger) (early : List Event) (drives : List Drive)
    (hquiet : ∀ head, .newHead head ∉ posted early drives)
    (hcertified : ∀ earlier later, drives = earlier ++ later →
      (run s ledger early earlier).node.Certified s (posted early earlier)) :
    (∀ x ∈ (run s ledger early drives).journal.imports, x.2 = none) ∧
      ((∀ cause, (run s ledger early drives).ending ≠ some (.failed cause)) →
        (run s ledger early drives).InStep) := by
  obtain ⟨htaken, hkeeps⟩ := keeps_run hquiet hcertified
  refine ⟨htaken.accepted, ?_⟩
  intro hgoes
  rcases hkeeps with ⟨cause, hfailed⟩ | ⟨b, r, hpaced⟩
  · exact absurd hfailed (hgoes cause)
  · have hpresent := hcertified drives [] (List.append_nil _).symm
    exact hpaced.inStep (hpaced.recorded.hearsLinked hpresent)

/-- One of four gives the first round up, learns that its block was prepared, proposes it again
in the second round and sees it committed; then it decides the second height. -/
theorem stays_in_step_of_four :
    ∃ early drives,
      (∃ q ∈ early.filterMap Event.request?, q.payload.prepared.isSome) ∧
        (run (Four.setup 2) (.new Four.first) early drives).node.view? = some ⟨2, 0⟩ ∧
        (run (Four.setup 2) (.new Four.first) early drives).ledger.height = 1 ∧
        (run (Four.setup 2) (.new Four.first) early drives).journal.imports.length = 1 ∧
        (∀ x ∈ (run (Four.setup 2) (.new Four.first) early drives).journal.imports, x.2 = none) ∧
          (run (Four.setup 2) (.new Four.first) early drives).InStep := by
  obtain ⟨early, hearly⟩ : ∃ early, early =
      Four.arrivals [Four.propose 1 0 (Four.fresh 0)] ++ .expiry ⟨1, 0⟩ ::
        Four.arrivals [Four.request 3 1, Four.reveal (Four.fresh 0), Four.commit 0 1 (Four.fresh 0),
          Four.commit 1 1 (Four.fresh 0), Four.commit 3 1 (Four.fresh 0)] := ⟨_, rfl⟩
  obtain ⟨drives, hdrives⟩ : ∃ drives,
      drives = List.replicate 8 (Drive.work (.emptyBlocks Four.hash)) := ⟨_, rfl⟩
  have hbrings : ∃ q ∈ early.filterMap Event.request?, q.payload.prepared.isSome := by
    rw [hearly]
    decide +kernel
  have hquiet : (posted early drives).filterMap Event.head? = [] := by
    rw [hearly, hdrives]
    decide +kernel
  have hcertified : ∀ earlier ∈ drives.inits,
      (run (Four.setup 2) (.new Four.first) early earlier).node.Certified (Four.setup 2)
        (posted early earlier) := by
    rw [hearly, hdrives]
    decide +kernel
  have hends : (run (Four.setup 2) (.new Four.first) early drives).node.view? = some ⟨2, 0⟩ ∧
      (run (Four.setup 2) (.new Four.first) early drives).ledger.height = 1 ∧
      (run (Four.setup 2) (.new Four.first) early drives).journal.imports.length = 1 ∧
        (run (Four.setup 2) (.new Four.first) early drives).ending = none := by
    rw [hearly, hdrives]
    decide +kernel
  obtain ⟨hview, hheight, hone, hgoes⟩ := hends
  obtain ⟨haccepted, hstep⟩ := stays_in_step (Four.setup 2) (.new Four.first) early drives
    (fun head hmem => Option.some_ne_none head (List.filterMap_eq_nil_iff.mp hquiet _ hmem))
    (fun earlier later h => hcertified earlier ((List.mem_inits _ _).mpr ⟨later, h.symm⟩))
  refine ⟨early, drives, hbrings, hview, hheight, hone, haccepted, hstep ?_⟩
  intro cause
  rw [hgoes]
  exact (Option.some_ne_none _).symm

end Engine

end QuorumChain
