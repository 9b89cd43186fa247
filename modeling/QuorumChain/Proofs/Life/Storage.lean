import QuorumChain.Proofs.Life.Early
import QuorumChain.Proofs.Life.Forgery

/-!
# What is kept for later

A node keeps messages of heights that it has not reached, and its instance keeps messages of
rounds that it has not reached.  Both are where they belong at any time: each message lies under
its own height or round, and that is still to come.  Messages of the present height come with a
genuine signature of a member; those of another height cannot be checked yet.  Whatever moves a
node takes along the messages that it moves to and drops those that it passes, so nothing is
left behind as long as no step breaks down.
-/

namespace QuorumChain

namespace Instance

variable {c : Context} {i j : Instance} {m : Message} {round : UInt32} {cap : Nat}
  {actions : List Action}

/-! ## Messages that wait for a round -/

/-- A message may wait for a round of the height that is decided. -/
structure Keeps (scheme : Scheme) (i : Instance) (round : UInt32) (m : Message) : Prop where
  kind : m.kind ≠ .roundChange
  view : m.view = i.viewIn round
  genuine : m.isGenuine scheme = true
  member : m.author ∈ i.committee.members

/-- The messages kept are in order, and their rounds are still to come. -/
def Stocked (scheme : Scheme) (cap : Nat) (i : Instance) : Prop :=
  i.later.InOrder cap fun round m => i.view.round < round ∧ i.Keeps scheme round m

theorem Keeps.congr
    {scheme : Scheme} (h : i.Keeps scheme round m) (hheight : j.view.height = i.view.height)
    (hcommittee : j.committee = i.committee) : j.Keeps scheme round m where
  kind := h.kind
  view := h.view.trans (View.eq_of_eq hheight.symm rfl)
  genuine := h.genuine
  member := hcommittee ▸ h.member

/-- What an instance decides to keep may wait for its round. -/
theorem keeps_of_future
    (hheight : m.view.height = i.view.height) (h : triage c i m = .future) :
    i.view.round < m.view.round ∧ i.Keeps c.scheme m.view.round m := by
  have hplace := triage_eq_future h
  have hkind : m.kind ≠ .roundChange := by
    intro hkind
    cases m with
    | roundChange q => exact Message.place_request_ne_future hheight hplace
    | _ => contradiction
  have hround : i.view.round < m.view.round := by
    by_contra hpast
    simp only [Message.place, hheight, UInt64.lt_irrefl, if_false, hpast, decide_false,
      Bool.false_and, Bool.false_eq_true] at hplace
    split at hplace <;> contradiction
  rw [triage] at h
  split at h
  · rename_i admission hm
    obtain ⟨hauthor, -⟩ := Message.checks_of_triage hm
    refine ⟨hround, hkind, View.eq_of_eq hheight rfl, Message.isGenuine_of_authenticate hauthor, ?_⟩
    cases m <;> exact (Signed.check_eq_ok.mp hauthor).2.2
  · contradiction

/-! ## Steps that do not touch what is kept -/

/-- A step that does the same whatever is kept leaves it alone. -/
theorem later_eq_of_withLater
    (step : Instance → Step Instance)
    (hstep : ∀ later k, step (k.withLater later) = (step k).map (withLater later))
    (h : step i = .ok (j, actions)) : j.later = i.later := by
  have hsame : step i = (step i).map (withLater i.later) := hstep i.later i
  rw [h] at hsame
  have hj : j = j.withLater i.later := (Prod.mk.inj (Except.ok.inj hsame)).1
  calc
    j.later = (j.withLater i.later).later := congrArg Instance.later hj
    _ = i.later := rfl

theorem countVotes_later (h : countVotes c i = .ok (j, actions)) : j.later = i.later :=
  later_eq_of_withLater _ (countVotes_withLater c) h

theorem propose_later (h : propose c i = .ok (j, actions)) : j.later = i.later :=
  later_eq_of_withLater _ (propose_withLater c) h

theorem onProposal_later
    {p : JustifiedProposal} (h : onProposal c i p = .ok (j, actions)) : j.later = i.later := by
  rw [onProposal] at h
  split at h
  · exact congrArg later (Step.done_eq_ok.mp h).1.symm
  · split at h
    · rename_i digest _
      exact later_eq_of_withLater (fun k => accept c k p digest)
        (fun later k => accept_withLater c later k p digest) h
    · exact congrArg later (Step.done_eq_ok.mp h).1.symm

theorem onPrepare_later
    {p : Signed Prepare} (h : onPrepare c i p = .ok (j, actions)) : j.later = i.later := by
  rw [onPrepare] at h
  split at h
  · have hcount := countVotes_later h
    exact hcount
  · exact congrArg later (Step.done_eq_ok.mp h).1.symm

theorem onCommit_later
    {p : Signed Commit} (h : onCommit c i p = .ok (j, actions)) : j.later = i.later := by
  rw [onCommit] at h
  split at h
  · have hcount := countVotes_later h
    exact hcount
  · exact congrArg later (Step.done_eq_ok.mp h).1.symm

/-- A message is kept, or it leaves alone what is kept, unless it asks for a round. -/
theorem process_later
    {change : Signed RoundChange → Step Instance} (h : process change c i m = .ok (j, actions)) :
    j.later = i.later ∨ (triage c i m = .future ∧ j = i.keep m) ∨
      ∃ q, m = .roundChange q ∧ change q = .ok (j, actions) := by
  unfold process at h
  split at h
  · exact .inl (congrArg later (Step.done_eq_ok.mp h).1.symm)
  · rename_i hfuture
    exact .inr (.inl ⟨hfuture, (Step.done_eq_ok.mp h).1.symm⟩)
  · cases m with
    | proposal p => exact .inl (onProposal_later h)
    | prepare p => exact .inl (onPrepare_later h)
    | commit p => exact .inl (onCommit_later h)
    | roundChange q => exact .inr (.inr ⟨q, rfl, h⟩)

/-- What is kept is the same when a round has been left and the next one entered. -/
theorem leaveFor_later (h : leaveFor c i round = .ok (j, actions)) : j.later = i.later :=
  later_eq_of_withLater (fun k => leaveFor c k round)
    (fun later k => leaveFor_withLater c later k round) h

/-! ## Steps -/

theorem Stocked.congr
    {scheme : Scheme} (h : i.Stocked scheme cap) (hlater : j.later = i.later)
    (hview : j.view = i.view) (hcommittee : j.committee = i.committee) : j.Stocked scheme cap := by
  rw [Stocked, hlater]
  refine h.mono fun round m hm => ?_
  rw [hview]
  exact ⟨hm.1, hm.2.congr (congrArg View.height hview) hcommittee⟩

theorem Stocked.process
    {change : Signed RoundChange → Step Instance} (hi : i.Stocked c.scheme cap)
    (hheight : m.view.height = i.view.height) (h : process change c i m = .ok (j, actions))
    (hchange : ∀ q, change q = .ok (j, actions) → j.Stocked c.scheme cap) :
    j.Stocked c.scheme cap := by
  rcases process_later h with hsame | ⟨hfuture, rfl⟩ | ⟨q, -, hq⟩
  · rcases process_cases c i change (List.mem_singleton_self (Input.message m)) with
      hstays | ⟨q, -, -, hq⟩
    · have hstays := hstays.of_ok h
      exact hi.congr hsame hstays.lasts.view hstays.moves.committee
    · exact hchange q (hq.symm.trans h)
  · have hpush := Backlog.InOrder.push hi (keeps_of_future hheight hfuture)
    exact hpush.mono fun round m hm => ⟨hm.1, hm.2.congr rfl rfl⟩
  · exact hchange q hq

/-- Messages that have waited for the present round are taken up or dropped. -/
theorem Stocked.forEach_replay
    {kept : List Message} (hi : i.Stocked c.scheme cap)
    (hkept : ∀ m ∈ kept, m.view.height = i.view.height)
    (h : Step.forEach kept (replay c) i = .ok (j, actions)) : j.Stocked c.scheme cap := by
  induction kept generalizing i actions with
  | nil => exact (Step.done_eq_ok.mp h).1 ▸ hi
  | cons m rest ih =>
      rw [Step.forEach_cons] at h
      obtain ⟨k, first, second, hfirst, hrest, -⟩ := Step.andThen_eq_ok.mp h
      obtain ⟨hm, hkept⟩ := List.forall_mem_cons.mp hkept
      have hstays : Stays c [.message m] i first k :=
        (replay_stays (List.mem_singleton_self _)).of_ok hfirst
      have hk : k.Stocked c.scheme cap :=
        hi.process hm hfirst fun q hq => (Step.done_eq_ok.mp hq).1 ▸ hi
      refine ih hk (fun m' hm' => ?_) hrest
      rw [hstays.lasts.view]
      exact hkept m' hm'

/-- On entering a round, what waits for it is taken up and what has waited for an earlier one is
dropped. -/
theorem stocked_replayKept
    (hi : i.later.InOrder cap (i.Keeps c.scheme)) (h : replayKept c i = .ok (j, actions)) :
    j.Stocked c.scheme cap := by
  have hrest : (i.withLater (i.later.release i.view.round).2).Stocked c.scheme cap :=
    (hi.release i.view.round).mono fun round m hm => ⟨Std.compare_eq_lt.mp hm.1, hm.2.congr rfl rfl⟩
  refine hrest.forEach_replay (fun m hm => ?_) h
  rw [(hi.of_mem_release hm).view]
  rfl

theorem Stocked.moveTo
    (hi : i.Stocked c.scheme cap) (h : moveTo c i round = .ok (j, actions)) :
    j.Stocked c.scheme cap := by
  rw [moveTo_eq_leaveFor] at h
  obtain ⟨k, first, rest, hleave, hreplay, -⟩ := Step.andThen_eq_ok.mp h
  obtain ⟨hview, hcommittee⟩ := leaveFor_base hleave
  have hheight : k.view.height = i.view.height := by
    rw [hview]
    rfl
  refine stocked_replayKept ?_ hreplay
  rw [leaveFor_later hleave]
  exact hi.mono fun target m hm => hm.2.congr hheight hcommittee

theorem Stocked.receive
    (hi : i.Stocked c.scheme cap) (hheight : m.view.height = i.view.height)
    (h : i.receive c m = .ok (j, actions)) : j.Stocked c.scheme cap := by
  refine hi.process hheight h fun q hq => ?_
  rw [onRoundChange] at hq
  split at hq
  · exact (Step.done_eq_ok.mp hq).1 ▸ hi
  · split at hq
    · exact (Step.done_eq_ok.mp hq).1 ▸ hi
    · rename_i changes _
      have hcounted : ({ i with changes } : Instance).Stocked c.scheme cap := hi.congr rfl rfl rfl
      dsimp only at hq
      split at hq
      · exact hcounted.moveTo hq
      · split at hq
        · have hstays : Stays c [] { i with changes } actions j := propose_stays.of_ok hq
          exact hcounted.congr (propose_later hq) hstays.lasts.view hstays.moves.committee
        · exact (Step.done_eq_ok.mp hq).1 ▸ hcounted

theorem Stocked.expire
    {view : View} (hi : i.Stocked c.scheme cap) (h : i.expire c view = .ok (j, actions)) :
    j.Stocked c.scheme cap := by
  rw [Instance.expire] at h
  split at h
  · exact (Step.done_eq_ok.mp h).1 ▸ hi
  · exact hi.moveTo h

theorem stocked_start
    {s : Setup} {b : Base} {moment : Setup.Moment}
    (h : (b.fresh s).start (s.context moment) = .ok (i, actions)) :
    i.Stocked s.scheme s.settings.futureMessageLimit := by
  rw [Instance.start] at h
  obtain ⟨k, _, _, hemit, hpropose, -⟩ := Step.andThen_eq_ok.mp h
  obtain ⟨rfl, -⟩ := Step.emit_eq_ok.mp hemit
  rw [Stocked, propose_later hpropose]
  exact Backlog.inOrder_empty _ _

/-- The messages that have waited for a height are taken up, or some of them wait for their
rounds. -/
theorem Stocked.forEach
    {kept : List Message} (hi : i.Stocked c.scheme cap) (hvetted : i.Vetted c.scheme)
    (hkept : ∀ m ∈ kept, m.view.height = i.height)
    (h : Step.forEach kept (Instance.receive c) i = .ok (j, actions)) :
    j.Stocked c.scheme cap ∧ j.Vetted c.scheme := by
  induction kept generalizing i actions with
  | nil => exact (Step.done_eq_ok.mp h).1 ▸ ⟨hi, hvetted⟩
  | cons m rest ih =>
      rw [Step.forEach_cons] at h
      obtain ⟨k, first, second, hfirst, hrest, -⟩ := Step.andThen_eq_ok.mp h
      obtain ⟨hm, hkept⟩ := List.forall_mem_cons.mp hkept
      have hk := hi.receive (hm.trans hvetted.height.symm) hfirst
      refine ih hk ((hvetted.receive m).of_ok hfirst).1 (fun m' hm' => ?_) hrest
      rw [receive_height.of_ok hfirst]
      exact hkept m' hm'

end Instance

namespace Node

variable {s : Setup} {n : Node} {i j : Instance} {head : Header}

/-! ## Messages that wait for a height -/

/-- A message may wait for its height: that is near, and still to come. -/
def Ahead (s : Setup) (current : Option Instance) (height : UInt64) (m : Message) : Prop :=
  m.view.height = height ∧ ∃ i, current = some i ∧ i.height < height ∧
    height.toNat - i.height.toNat ≤ s.settings.futureHeightWindow

/-- Whatever a node and its instance keep is in order. -/
structure Stocked (s : Setup) (n : Node) : Prop where
  early : n.early.InOrder s.settings.futureMessageLimit (Ahead s n.current)
  current : ∀ i, n.current = some i →
    i.Stocked s.scheme s.settings.futureMessageLimit ∧ i.Vetted s.scheme

theorem Ahead.congr
    {height : UInt64} {m : Message} (h : Ahead s (some i) height m)
    (hheight : j.height = i.height) :
    Ahead s (some j) height m := by
  obtain ⟨hm, k, hk, hlt, hnear⟩ := h
  cases hk
  rw [← hheight] at hlt hnear
  exact ⟨hm, j, rfl, hlt, hnear⟩

/-- A message ahead of a height is ahead of the next one, unless it is of that. -/
theorem Ahead.next
    {height : UInt64} {m : Message} (h : Ahead s (some i) height m)
    (hnext : j.height = i.height + 1)
    (hlt : j.height < height) : Ahead s (some j) height m := by
  obtain ⟨hm, k, hk, hpast, hnear⟩ := h
  cases hk
  refine ⟨hm, j, rfl, hlt, ?_⟩
  have hsucc : j.height.toNat = i.height.toNat + 1 := by
    rw [UInt64.lt_iff_toNat_lt] at hpast
    have hbound := height.toNat_lt
    rw [hnext, UInt64.toNat_add, UInt64.toNat_one]
    omega
  omega

/-- A step of the instance keeps a node in order if it keeps the instance in order. -/
theorem Stocked.ofStep
    {step : Step Instance} {n' : Node} {actions : List Action} (h : n.Stocked s)
    (hi : n.current = some i) (hok : n.ofStep step = ⟨n', .ok actions⟩)
    (hstep : ∀ j, step = .ok (j, actions) → j.height = i.height ∧
      j.Stocked s.scheme s.settings.futureMessageLimit ∧ j.Vetted s.scheme) : n'.Stocked s := by
  obtain ⟨j, hj, rfl⟩ := ofStep_eq_ok.mp hok
  obtain ⟨hheight, hstocked⟩ := hstep j hj
  refine ⟨h.early.mono fun height m hm => ?_, fun k hk => ?_⟩
  · rw [hi] at hm
    exact hm.congr hheight
  · cases hk
    exact hstocked

/-- What waits for a height is taken up when the height begins; if it cannot, the rest waits on. -/
theorem Stocked.startHeight
    (h : n.Stocked s) (hnext : ∀ i, n.current = some i → head.number = i.height) :
    (startHeight s n head).node.Stocked s := by
  rcases startHeight_cases s n head with ⟨committees, e, -, hfails⟩ | ⟨b, committees, i, first,
    hopens, hopened⟩
  · rw [hfails n.early]
    exact ⟨h.early, h.current⟩
  · rw [hopened n.early]
    have hreleased := h.early.release b.height
    generalize hstep : Step.andThen (.ok (i, first)) _ = step
    cases step with
    | error broken => exact ⟨hreleased.mono fun _ _ hm => hm.2, h.current⟩
    | ok result =>
        obtain ⟨j, actions⟩ := result
        obtain ⟨k, _, rest, hfirst, hrest, -⟩ := Step.andThen_eq_ok.mp hstep
        cases hfirst
        have hj : j.height = head.number + 1 := by
          rw [Instance.forEach_height.of_ok hrest, hopens.height, ← hopens.parent]
          rfl
        refine ⟨hreleased.mono fun height m hm => ?_, fun k hk => ?_⟩
        · obtain ⟨hlt, hahead⟩ := hm
          obtain ⟨-, k, hk, -⟩ := id hahead
          rw [hk] at hahead
          refine hahead.next (hj.trans (congrArg (· + 1) (hnext k hk))) ?_
          rw [hj, ← hopens.parent]
          exact Std.compare_eq_lt.mp hlt
        · cases hk
          have hstart : (b.fresh s).start (s.context ⟨n.votes, s.execution⟩) = .ok (i, first) :=
            hopens.start
          refine Instance.Stocked.forEach (c := n.context s) (Instance.stocked_start hstart)
            ((Instance.vetted_start s b _).of_ok hstart).1 (fun m hm => ?_) hrest
          rw [hopens.height]
          exact (h.early.of_mem_release hm).1

/-- The order does not depend on the engine. -/
theorem stocked_asking (s : Setup) (x : Execution) :
    n.Stocked { s with execution := x } ↔ n.Stocked s :=
  ⟨fun h => ⟨h.early, h.current⟩, fun h => ⟨h.early, h.current⟩⟩

/-- An event that is answered keeps a node in order. -/
theorem Stocked.answer
    {e : Event} {n' : Node} {actions : List Action} (h : n.Stocked s)
    (hok : n.handle s e = ⟨n', .ok actions⟩) : n'.Stocked s := by
  have hcases := handle_cases s n e
  generalize n.handle s e = reaction at hok hcases
  cases hcases with
  | passes votes =>
      cases hok
      exact ⟨h.early, h.current⟩
  | defers hdefers =>
      cases hok
      exact ⟨h.early.push ⟨rfl, hdefers⟩, h.current⟩
  | @receives m i hi hheight =>
      obtain ⟨hstocked, hvetted⟩ := h.current i hi
      refine h.ofStep hi hok fun j hj => ⟨Instance.receive_height.of_ok hj, ?_, ?_⟩
      · exact Instance.Stocked.receive (c := n.context s) hstocked
          (hheight.symm.trans hvetted.height.symm) hj
      · exact ((Instance.Vetted.receive (c := n.context s) hvetted m).of_ok hj).1
  | @expires view i hi hheight =>
      obtain ⟨hstocked, hvetted⟩ := h.current i hi
      refine h.ofStep hi hok fun j hj => ⟨Instance.expire_height.of_ok hj, ?_, ?_⟩
      · exact Instance.Stocked.expire (c := n.context s) hstocked hj
      · exact ((Instance.Vetted.expire (c := n.context s) hvetted view).of_ok hj).1
  | @adopts head i hi hadopts =>
      have hnext : ∀ k, n.current = some k → head.number = k.height := by
        intro k hk
        cases hi.symm.trans hk
        exact (adopts_eq_true hadopts).1
      have hbegun := h.startHeight hnext
      rwa [hok] at hbegun

theorem Stocked.after
    {occasions : List Occasion} (h : n.Stocked s)
    (hok : ∀ answer ∈ n.answers s occasions, ∃ actions, answer = .ok actions) :
    (n.after s occasions).Stocked s := by
  induction occasions generalizing n with
  | nil => exact h
  | cons o rest ih =>
      obtain ⟨actions, haction⟩ := hok _ List.mem_cons_self
      have hmeet : n.meet s o = ⟨(n.meet s o).node, .ok actions⟩ := by rw [← haction]
      have hnext : (n.meet s o).node.Stocked s :=
        (stocked_asking s o.execution).mp
          (((stocked_asking s o.execution).mpr h).answer hmeet)
      exact ih hnext fun answer hanswer => hok answer (List.mem_cons_of_mem _ hanswer)

theorem stocked_launch (s : Setup) (headers : List Header) (head : Header) :
    (launch s headers head).node.Stocked s := by
  have hidle : ∀ committees, Stocked s { new s.settings with committees } := fun committees =>
    ⟨Backlog.inOrder_empty _ _, fun i hi => nomatch hi⟩
  have hstart : ∀ committees, (start s { new s.settings with committees } head).node.Stocked s := by
    intro committees
    have hheight : ∀ committees,
        (Node.startHeight s { new s.settings with committees } head).node.Stocked s :=
      fun committees => (hidle committees).startHeight fun i hi => nomatch hi
    rw [start]
    split
    · exact hidle committees
    · dsimp only
      split
      · split
        · exact hidle _
        · exact hheight _
      · exact hheight _
  exact hstart _

/-- As long as every event is answered, the messages kept for later lie where they belong: those
of the upcoming heights under their heights, near and still to come, and those of the present
height under their rounds, still to come, each of them the genuine proposal or vote of a member. -/
theorem backlogs_in_order
    (s : Setup) (headers : List Header) (head : Header) (occasions : List Occasion) :
    let start := (launch s headers head).node
    let n := start.after s occasions
    (∀ answer ∈ start.answers s occasions, ∃ actions, answer = .ok actions) →
    (n.early.InOrder s.settings.futureMessageLimit fun height m =>
      m.view.height = height ∧ ∃ i, n.current = some i ∧ i.height < height ∧
        height.toNat - i.height.toNat ≤ s.settings.futureHeightWindow) ∧
    ∀ i, n.current = some i →
      i.later.InOrder s.settings.futureMessageLimit fun round m =>
        (m.kind = .proposal ∨ m.kind = .prepare ∨ m.kind = .commit) ∧
          m.view = ⟨i.height, round⟩ ∧ i.view.round < round ∧ m.isGenuine s.scheme = true ∧
            m.author ∈ i.committee.members := by
  intro start n hok
  have hn : n.Stocked s := (stocked_launch s headers head).after hok
  refine ⟨hn.early, fun i hi => ?_⟩
  obtain ⟨hstocked, hvetted⟩ := hn.current i hi
  refine hstocked.mono fun round m hm => ?_
  obtain ⟨hround, hkind, hview, hgenuine, hmember⟩ := hm
  refine ⟨?_, ?_, hround, hgenuine, hmember⟩
  · cases m <;> simp_all [Message.kind]
  · rw [hview, Instance.viewIn, hvetted.height]

/-- A member keeps a prepare for the next round and one for the next height; it has checked the
former. -/
theorem backlogs_in_order_of_four :
    let s := Four.setup 0
    let heard := s.execution.during <|
      Four.arrivals [Four.prepare 2 1 (Four.fresh 1), Four.prepareNext 3]
    ∃ n i, n = (launch s [] Four.first.header).node.after s heard ∧
      n.early.toList.map (·.1) = [2] ∧ n.current = some i ∧ i.later.toList.map (·.1) = [1] ∧
        ∀ x ∈ i.later.toList, x.2.isGenuine s.scheme = true ∧
          x.2.author ∈ i.committee.members := by
  intro s heard
  obtain ⟨n, hn⟩ : ∃ n, n = (launch s [] Four.first.header).node.after s heard := ⟨_, rfl⟩
  have hanswers : ((launch s [] Four.first.header).node.answers s heard).all (·.isOk) = true := by
    decide +kernel
  have hearly : n.early.toList.map (·.1) = [2] := by
    rw [hn]
    decide +kernel
  have hlater : n.current.map (fun i => i.later.toList.map (·.1)) = some [1] := by
    rw [hn]
    decide +kernel
  obtain ⟨i, hi, hlater⟩ := Option.map_eq_some_iff.mp hlater
  have horder := (backlogs_in_order s [] Four.first.header heard fun answer hanswer =>
    isOk_eq_true.mp (List.all_eq_true.mp hanswers answer hanswer)).2 i (hn ▸ hi)
  refine ⟨n, i, hn, hearly, hi, hlater, fun x hx => ?_⟩
  exact (horder.placed x hx).2.2.2

end Node

end QuorumChain
