import QuorumChain.Proofs.Life.Basic
import QuorumChain.Proofs.Node.Four

/-!
# Messages that arrive twice

A message that has been taken up is of no more use: its proposal is in force or preceded by
another one, its vote or request is counted.  That is so even if the node meets a fault while it
does what follows from the message.  So the second copy of a message does nothing, unless the
first was kept for later.  What is kept is not compared with what is there: a copy is kept as
well, and takes the room of another message.
-/

namespace QuorumChain

namespace Message

theorem place_of_triage_accept
    {m : Message} {scheme : Scheme} {position : Position}
    (h : m.triage scheme position = .ok .accept) : m.place position.view = .accept :=
  (triage_eq_accept h).2.2.1

/-- Whether a message is early is a matter of its place alone. -/
theorem place_of_triage_future
    {m : Message} {scheme : Scheme} {position : Position}
    (h : m.triage scheme position = .ok .future) : m.place position.view = .future := by
  simp only [triage, bind_eq_ok] at h
  obtain ⟨_, -, _, -, h⟩ := h
  split at h
  · obtain ⟨_, -, h⟩ := bind_eq_ok.mp h
    cases pure_eq_ok.mp h
  · exact pure_eq_ok.mp h

/-- Within its height, a request is never early. -/
theorem place_request_ne_future
    {q : Signed RoundChange} {here : View} (h : q.payload.view.height = here.height) :
    (Message.roundChange q).place here ≠ .future := by
  simp only [place, view, kind, h, UInt64.lt_irrefl, if_false, bne_self_eq_false, Bool.and_false,
    Bool.false_eq_true]
  split <;> exact Admission.noConfusion

end Message

namespace Instance

variable {c : Context} {i j : Instance} {m : Message} {actions : List Action}

/-! ## Messages without use -/

theorem receive_of_stale (h : triage c i m = .stale) : i.receive c m = .ok (i, []) := by
  unfold receive process
  rw [h]
  rfl

theorem receive_of_future (h : triage c i m = .future) : i.receive c m = .ok (i.keep m, []) := by
  unfold receive process
  rw [h]
  rfl

theorem triage_eq_future (h : triage c i m = .future) : m.place i.view = .future := by
  rw [triage] at h
  split at h
  · rename_i admission hm
    rw [h] at hm
    exact Message.place_of_triage_future hm
  · contradiction

theorem place_of_accept (h : triage c i m = .accept) : m.place i.view = .accept :=
  Message.place_of_triage_accept (triage_eq_ok h)

/-- A message that cannot change the round any more: a proposal is in force, or its author's vote or
request is there. -/
def Settles (i : Instance) : Message → Prop
  | .proposal _ => i.round.accepted.isSome
  | .prepare p => ∃ q, (p.author, q) ∈ i.round.prepares.entries
  | .commit p => ∃ q, (p.author, q) ∈ i.round.commits.entries
  | .roundChange p => ∃ q, (p.author, q) ∈ (i.changes.forRound p.payload.view.round).entries

theorem insertNew?_of_mem
    {α : Type} {t : SortedMap Address α} {k : Address} {a b : α} (h : (k, b) ∈ t.entries) :
    t.insertNew? k a = none := by
  cases hnew : t.insertNew? k a with
  | none => rfl
  | some t' => exact absurd h ((SortedMap.insertNew?_eq_some hnew).1 b)

theorem receive_of_settles
    (hplace : m.place i.view ≠ .future) (h : i.Settles m) : i.receive c m = .ok (i, []) := by
  cases htriage : triage c i m with
  | stale => exact receive_of_stale htriage
  | future => exact absurd (triage_eq_future htriage) hplace
  | accept =>
      unfold receive process
      rw [htriage]
      dsimp only
      cases m with
      | proposal p => exact if_pos h
      | prepare p =>
          obtain ⟨q, hq⟩ := h
          dsimp only
          rw [onPrepare, Round.addPrepare?, insertNew?_of_mem hq]
          rfl
      | commit p =>
          obtain ⟨q, hq⟩ := h
          dsimp only
          rw [onCommit, Round.addCommit?, insertNew?_of_mem hq]
          rfl
      | roundChange p =>
          obtain ⟨q, hq⟩ := h
          dsimp only
          rw [onRoundChange, RoundChanges.add?, insertNew?_of_mem hq]
          split <;> rfl

/-! ## Messages taken up -/

theorem onProposal_settles
    (c : Context) (i : Instance) (p : JustifiedProposal) :
    onProposal c i p = .done i ∨
      (onProposal c i p).Ends fun _ j => j.view = i.view ∧ j.Settles (.proposal p) := by
  rw [onProposal]
  split
  · exact .inl rfl
  · rename_i hfree
    split
    · rename_i digest hcheck
      right
      rcases accept_cases c p digest (i := i) (by simpa using hfree) with
        ⟨-, hobserve⟩ | ⟨-, vote, -, htake⟩
      · rw [hobserve]
        exact countVotes_lasts.imp fun _ _ hlasts =>
          ⟨hlasts.view, Option.isSome_of_eq_some (hlasts.accepted (p, digest) rfl)⟩
      · rw [htake]
        exact Step.ends_emit_andThen <| countVotes_lasts.imp fun _ _ hlasts =>
          ⟨hlasts.view, Option.isSome_of_eq_some (hlasts.accepted (p, digest) rfl)⟩
    · exact .inl rfl

theorem onPrepare_settles
    (c : Context) (i : Instance) (p : Signed Prepare) :
    (onPrepare c i p).Ends fun _ j => j.view = i.view ∧ j.Settles (.prepare p) := by
  rw [onPrepare]
  split
  · rename_i round hround
    have hcounting := addPrepare?_getD i.round p
    rw [hround, Option.getD_some] at hcounting
    rw [hcounting]
    obtain ⟨q, hq⟩ := SortedMap.exists_mem_keepFirst i.round.prepares p.author p
    exact countVotes_lasts.imp fun _ _ hlasts => ⟨hlasts.view, q, hlasts.prepares _ hq⟩
  · rename_i hnone
    rw [Round.addPrepare?, Option.map_eq_none_iff] at hnone
    exact Step.ends_done ⟨rfl, SortedMap.insertNew?_eq_none hnone⟩

theorem onCommit_settles
    (c : Context) (i : Instance) (p : Signed Commit) :
    (onCommit c i p).Ends fun _ j => j.view = i.view ∧ j.Settles (.commit p) := by
  rw [onCommit]
  split
  · rename_i round hround
    have hcommitting := addCommit?_getD i.round p
    rw [hround, Option.getD_some] at hcommitting
    rw [hcommitting]
    obtain ⟨q, hq⟩ := SortedMap.exists_mem_keepFirst i.round.commits p.author p
    exact countVotes_lasts.imp fun _ _ hlasts => ⟨hlasts.view, q, hlasts.commits _ hq⟩
  · rename_i hnone
    rw [Round.addCommit?, Option.map_eq_none_iff] at hnone
    exact Step.ends_done ⟨rfl, SortedMap.insertNew?_eq_none hnone⟩

theorem moveTo_settles
    {p : Signed RoundChange} {q : Signed RoundChange}
    (hq : (p.author, q) ∈ (i.changes.forRound p.payload.view.round).entries) :
    (moveTo c i p.payload.view.round).Ends fun _ j =>
      j.view.height = i.view.height ∧ j.Settles (.roundChange p) := by
  obtain ⟨heard, hkeeps, -⟩ := i.exists_keepsHeard
  refine (moveTo_ends hkeeps).imp ?_
  rintro _ j (⟨rfl, -⟩ | ⟨-, first, k, rest, hdeparts, hstays, -⟩)
  · exact ⟨rfl, q, hq⟩
  · refine ⟨?_, q, hstays.keeps_request (hdeparts.keeps_request hq)⟩
    rw [hstays.lasts.view, hdeparts.view]
    rfl

/-- A request that has been processed is there, if it could still change the round. -/
theorem onRoundChange_settles
    (c : Context) (i : Instance) (p : Signed RoundChange) :
    onRoundChange c i p = .done i ∨ (onRoundChange c i p).Ends fun _ j =>
      j.view.height = i.view.height ∧ j.Settles (.roundChange p) := by
  rw [onRoundChange]
  split
  · exact .inl rfl
  · split
    · exact .inl rfl
    · rename_i changes hadd
      have hadded : i.changes.add p = changes := by rw [RoundChanges.add, hadd, Option.getD_some]
      obtain ⟨q, hq⟩ := RoundChanges.exists_mem_forRound_add i.changes p
      rw [hadded] at hq
      right
      dsimp only
      split
      · exact moveTo_settles (i := { i with changes }) hq
      · split
        · have hproposes : (propose c { i with changes }).Ends (Stays c [] { i with changes }) :=
            propose_stays
          exact hproposes.imp fun _ _ hstays =>
            ⟨congrArg View.height hstays.lasts.view, q, hstays.keeps_request hq⟩
        · exact Step.ends_done ⟨rfl, q, hq⟩

/-- Whatever a message that was not early has done, even with a fault, the same message is not early
behind it and does nothing. -/
theorem receive_again
    (hnot : triage c i m ≠ .future) :
    (i.receive c m).Ends fun _ j => triage c j m ≠ .future ∧ j.receive c m = .done j := by
  have hidle : i.receive c m = .done i →
      (i.receive c m).Ends fun _ j => triage c j m ≠ .future ∧ j.receive c m = .done j := by
    intro hdone
    have hends : (Step.done i).Ends fun _ j => triage c j m ≠ .future ∧ j.receive c m = .done j :=
      Step.ends_done ⟨hnot, hdone⟩
    rwa [← hdone] at hends
  have hsettles : ∀ j : Instance, m.place j.view ≠ .future → j.Settles m →
      triage c j m ≠ .future ∧ j.receive c m = .done j := by
    intro j hplace hj
    exact ⟨fun hfuture => hplace (triage_eq_future hfuture), receive_of_settles hplace hj⟩
  cases htriage : triage c i m with
  | future => exact absurd htriage hnot
  | stale => exact hidle (receive_of_stale htriage)
  | accept =>
      have hplace : m.place i.view ≠ .future := by
        rw [place_of_accept htriage]
        exact Admission.noConfusion
      unfold receive process at hidle ⊢
      rw [htriage] at hidle ⊢
      dsimp only at hidle ⊢
      cases m with
      | proposal p =>
          rcases onProposal_settles c i p with hdone | hends
          · exact hidle hdone
          · exact hends.imp fun _ j ⟨hview, hj⟩ => hsettles j (hview ▸ hplace) hj
      | prepare p =>
          exact (onPrepare_settles c i p).imp fun _ j ⟨hview, hj⟩ => hsettles j (hview ▸ hplace) hj
      | commit p =>
          exact (onCommit_settles c i p).imp fun _ j ⟨hview, hj⟩ => hsettles j (hview ▸ hplace) hj
      | roundChange p =>
          rcases onRoundChange_settles c i p with hdone | hends
          · exact hidle hdone
          · refine hends.imp fun _ j ⟨hheight, hj⟩ => hsettles j ?_ hj
            refine Message.place_request_ne_future ?_
            rw [hheight]
            exact (Message.place_eq_accept (place_of_accept htriage)).1

/-- A copy of an early message is kept as well, if there is room. -/
theorem keep_eq_self : i.keep m = i ↔ i.later.push? m.view.round m = none := by
  rw [← Backlog.push_eq_self]
  constructor
  · exact congrArg Instance.later
  · intro h
    rw [keep, h]

end Instance

namespace Node

variable {s : Setup} {n : Node} {m : Message}

/-- A message is early, by its height or by its round, and a backlog takes it. -/
def Keeps (s : Setup) (n : Node) (m : Message) : Prop :=
  (n.Defers s m ∧ (n.early.push? m.view.height m).isSome) ∨
    ∃ i, n.current = some i ∧ i.height = m.view.height ∧
      i.triage (n.context s) m = .future ∧ (i.later.push? m.view.round m).isSome

/-- Whether a copy of a message of a later height is kept is a matter of room. -/
theorem keeps_of_defers
    (h : n.Defers s m) : n.Keeps s m ↔ (n.early.push? m.view.height m).isSome := by
  refine ⟨?_, fun hroom => .inl ⟨h, hroom⟩⟩
  rintro (⟨-, hroom⟩ | ⟨i, hi, hheight, -⟩)
  · exact hroom
  · obtain ⟨i', hi', hlt, -⟩ := h
    rw [hi] at hi'
    cases hi'
    rw [hheight] at hlt
    exact absurd hlt (UInt64.lt_irrefl _)

theorem keeps_of_height
    {i : Instance} (hi : n.current = some i) (hheight : i.height = m.view.height) :
    n.Keeps s m ↔
      i.triage (n.context s) m = .future ∧ (i.later.push? m.view.round m).isSome := by
  refine ⟨?_, fun h => .inr ⟨i, hi, hheight, h⟩⟩
  rintro (⟨⟨i', hi', hlt, -⟩, -⟩ | ⟨i', hi', -, hkept⟩)
  · rw [hi] at hi'
    cases hi'
    rw [hheight] at hlt
    exact absurd hlt (UInt64.lt_irrefl _)
  · rw [hi] at hi'
    cases hi'
    exact hkept

/-- The second copy of a message asks for nothing.  It has no effect but one: if the first was kept
for later, it is kept as well, as long as there is room. -/
theorem handle_message_twice (s : Setup) (n : Node) (m : Message) :
    let first := n.handle s (.message m)
    let second := first.node.handle s (.message m)
    second.result = .ok [] ∧ (second.node = first.node ↔ ¬first.node.Keeps s m) := by
  dsimp only [handle]
  rcases onMessage_cases s n m with hdefers | ⟨i, hi, hheight⟩ | ⟨hnear, hother, hignore⟩
  · rw [onMessage_of_defers hdefers]
    have hdefers' : Defers s { n with early := n.early.push m.view.height m } m := hdefers
    dsimp only [ignore]
    rw [onMessage_of_defers hdefers', keeps_of_defers hdefers', Bool.not_eq_true,
      Option.isSome_eq_false_iff, Option.isNone_iff_eq_none, ← Backlog.push_eq_self]
    refine ⟨rfl, congrArg Node.early, ?_⟩
    intro hfull
    dsimp only [ignore] at hfull ⊢
    rw [hfull]
  · -- The instance behind the first copy, which may have met a fault.
    obtain ⟨j, hj⟩ : ∃ j, j = (i.receive (n.context s) m).outcome.1 := ⟨_, rfl⟩
    have hfirst : (n.ofStep (i.receive (n.context s) m)).node = { n with current := some j } := by
      rw [hj]
      cases i.receive (n.context s) m <;> rfl
    have hstill : j.height = m.view.height := by
      have hkept : (i.receive (n.context s) m).outcome.1.height = i.height :=
        Instance.receive_height
      rw [hj, hkept, hheight]
    rw [onMessage_of_height hi hheight, hfirst,
      onMessage_of_height (n := { n with current := some j }) rfl hstill,
      keeps_of_height (n := { n with current := some j }) rfl hstill]
    change (ofStep _ (j.receive (n.context s) m)).result = _ ∧
      ((ofStep _ (j.receive (n.context s) m)).node = _ ↔
        ¬(j.triage (n.context s) m = .future ∧ _))
    by_cases hfuture : i.triage (n.context s) m = .future
    · obtain rfl : j = i.keep m := by
        rw [hj, Instance.receive_of_future hfuture]
        rfl
      have hagain : (i.keep m).triage (n.context s) m = .future := hfuture
      rw [Instance.receive_of_future hagain, and_iff_right hagain, Bool.not_eq_true,
        Option.isSome_eq_false_iff, Option.isNone_iff_eq_none, ← Instance.keep_eq_self]
      simp [ofStep]
    · have hends : j.triage (n.context s) m ≠ .future ∧ j.receive (n.context s) m = .done j := by
        rw [hj]
        exact Instance.receive_again hfuture
      obtain ⟨hnot, hagain⟩ := hends
      rw [hagain]
      exact ⟨rfl, iff_of_true rfl fun hkept => hnot hkept.1⟩
  · have hnot : ¬n.Keeps s m := by
      rintro (⟨hdefers, -⟩ | ⟨i, hi, hheight, -⟩)
      · exact hnear hdefers
      · exact hother i hi hheight
    rw [hignore]
    dsimp only [ignore]
    rw [hignore]
    exact ⟨rfl, iff_of_true rfl hnot⟩

/-- Where two messages of the next height have room, the copy of a prepare takes that of the
proposal. With one copy, the node prepares the proposal when it gets there. -/
theorem copy_displaces_proposal :
    let s := Four.cramped 2 0
    let copy := s.execution.during (Four.arrivals [Four.prepareNext 3])
    let once := (launch s [] Four.first.header).node.after s copy
    let twice := once.after s copy
    let later := s.execution.during (Four.arrivals [Four.proposeNext] ++ [.newHead Four.head])
    twice ≠ once ∧ twice.answers s later ≠ once.answers s later := by
  decide +kernel

end Node

end QuorumChain
