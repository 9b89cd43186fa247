import Mathlib.Data.List.Induction
import QuorumChain.Proofs.Node.Move

/-!
# Records of a height

A record holds an instance together with all that it has heard and all that it has asked for.  A
run starts the instance and lets it answer one input after the other.  A step that breaks down
leaves the instance as it is by then; what it has asked for is part of the record, but is not
handed out. Every record of a run is attained by single moves and by resets of the last round;
if nothing was reset on the way, moves alone reach it.
-/

namespace QuorumChain

/-- Something is so at each place of a longer list exactly if it is so at the last one and,
before that, at all others. -/
theorem forall_splits_append_singleton
    {α : Type} {p : List α → α → Prop} {l : List α} {a : α} :
    (∀ earlier b later, l ++ [a] = earlier ++ b :: later → p earlier b) ↔
      (∀ earlier b later, l = earlier ++ b :: later → p earlier b) ∧ p l a := by
  constructor
  · intro h
    refine ⟨?_, h l a [] rfl⟩
    intro earlier b later heq
    exact h earlier b (later ++ [a]) (by rw [heq, List.append_assoc, List.cons_append])
  · rintro ⟨hl, ha⟩ earlier b later heq
    rcases List.eq_nil_or_concat later with rfl | ⟨later, c, rfl⟩
    · obtain ⟨rfl, hlast⟩ := List.append_inj' heq rfl
      cases hlast
      exact ha
    · rw [List.concat_eq_append, ← List.cons_append, ← List.append_assoc] at heq
      obtain ⟨rfl, -⟩ := List.append_inj' heq rfl
      exact hl earlier b later rfl

/-- What a height is built on: the header below, its digest and the committee. -/
structure Base where
  /-- The header of the block below. -/
  parent : Header
  /-- Its digest. -/
  parentDigest : Digest
  /-- The committee of the height. -/
  committee : Committee

namespace Base

/-- The height that is decided. -/
def height (b : Base) : UInt64 :=
  b.parent.number + 1

/-- The instance of a node before its first round begins. -/
def fresh (b : Base) (s : Setup) : Instance :=
  .new b.parent b.parentDigest b.committee s.signer.address s.settings.futureMessageLimit

end Base

/-- What a node is given at one moment: the votes requested of it, and the execution engine to
ask. -/
structure Setup.Moment where
  votes : VoteRequests
  execution : Execution

/-- The context of a node at one moment. -/
def Setup.context (s : Setup) (t : Setup.Moment) : Context :=
  { s with execution := t.execution, votes := t.votes }

/-- An input, and the moment at which it arrives. -/
structure Turn where
  moment : Setup.Moment
  input : Input

/-- The block that an action hands out. -/
def Action.imported? : Action → Option Block
  | .importBlock b => some b
  | _ => none

/-- An instance with all that it has heard, latest first, and all that it has asked for, earliest
first.  What a step has asked for before it broke down is there as well. -/
structure Record where
  now : Instance
  heard : List Input
  made : List Action

namespace Record

/-- The record behind a step. -/
def after (r : Record) (step : Step Instance) : Record :=
  { r with now := step.outcome.1, made := r.made ++ step.outcome.2 }

/-- How the instance answers. -/
def answer (s : Setup) (r : Record) (t : Turn) : Step Instance :=
  match t.input with
  | .message m => r.now.receive (s.context t.moment) m
  | .expiry view => r.now.expire (s.context t.moment) view

/-- The record behind a turn. -/
def turn (s : Setup) (r : Record) (t : Turn) : Record :=
  { r with heard := t.input :: r.heard }.after (r.answer s t)

/-- The actions that a turn asks for, whether or not they are handed out. -/
def asked (s : Setup) (r : Record) (t : Turn) : List Action :=
  (r.answer s t).outcome.2

/-- The record behind the start. -/
def begin (s : Setup) (b : Base) (moment : Setup.Moment) : Record :=
  (⟨b.fresh s, [], []⟩ : Record).after ((b.fresh s).start (s.context moment))

/-- The record behind the start and a sequence of turns. -/
def run (s : Setup) (b : Base) (moment : Setup.Moment) (turns : List Turn) : Record :=
  turns.foldl (turn s) (begin s b moment)

theorem run_append_singleton
    (s : Setup) (b : Base) (moment : Setup.Moment) (turns : List Turn) (t : Turn) :
    run s b moment (turns ++ [t]) = (run s b moment turns).turn s t := by
  rw [run, List.foldl_append, List.foldl_cons, List.foldl_nil, run]

theorem heard_turn (s : Setup) (r : Record) (t : Turn) :
    (r.turn s t).heard = t.input :: r.heard := rfl

theorem made_turn (s : Setup) (r : Record) (t : Turn) :
    (r.turn s t).made = r.made ++ r.asked s t := rfl

theorem now_turn_of_receive
    {s : Setup} {r : Record} {t : Turn} {m : Message} {j : Instance} {actions : List Action}
    (hinput : t.input = .message m)
    (h : r.now.receive (s.context t.moment) m = .ok (j, actions)) : (r.turn s t).now = j := by
  rw [turn, answer, hinput]
  dsimp only
  rw [h]
  rfl

/-- No turn takes back what was asked for. -/
theorem exists_made_turn (s : Setup) (r : Record) (t : Turn) :
    ∃ actions, (r.turn s t).made = r.made ++ actions :=
  ⟨r.asked s t, made_turn s r t⟩

/-- The messages that a node has asked to be sent, earliest first. -/
def sent (r : Record) : List Message :=
  r.made.filterMap fun
    | .broadcast m => some m
    | _ => none

/-- The blocks that a node has asked to be appended to the chain, earliest first. -/
def imported (r : Record) : List Block :=
  r.made.filterMap Action.imported?

theorem mem_sent {r : Record} {m : Message} : m ∈ r.sent ↔ .broadcast m ∈ r.made := by
  rw [sent, List.mem_filterMap]
  constructor
  · rintro ⟨a, ha, hm⟩
    cases a <;> simp_all
  · intro h
    exact ⟨_, h, rfl⟩

theorem mem_imported {r : Record} {b : Block} : b ∈ r.imported ↔ .importBlock b ∈ r.made := by
  rw [imported, List.mem_filterMap]
  constructor
  · rintro ⟨a, ha, hb⟩
    cases a <;> simp_all [Action.imported?]
  · intro h
    exact ⟨_, h, rfl⟩

/-- A turn enters the last round once more: it has no successor. -/
def Resets (s : Setup) (r : Record) (t : Turn) : Prop :=
  ∃ view, t.input = .expiry view ∧ r.now.Resets view ∧ r.now.CanRepeat (s.context t.moment)

/-- No turn of a run resets the last round. -/
def Sober (s : Setup) (b : Base) (moment : Setup.Moment) (turns : List Turn) : Prop :=
  ∀ earlier t later, turns = earlier ++ t :: later → ¬(run s b moment earlier).Resets s t

/-- The records that moves lead to. -/
inductive Reachable (s : Setup) (b : Base) : Record → Prop
  /-- Nothing has happened yet. -/
  | idle : Reachable s b ⟨b.fresh s, [], []⟩
  /-- The timer of round zero has been started. -/
  | opened (moment : Setup.Moment) :
      Reachable s b
        ⟨b.fresh s, [], [Instance.startTimer (s.context moment) (b.fresh s).view]⟩
  /-- An input has been heard. -/
  | hear {r : Record} (input : Input) (hr : Reachable s b r) :
      Reachable s b { r with heard := input :: r.heard }
  /-- A move has been made. -/
  | move {r : Record} {moment : Setup.Moment} {actions : List Action} {j : Instance}
      (hr : Reachable s b r) (hmove : Instance.Move (s.context moment) r.heard r.now actions j) :
      Reachable s b { r with now := j, made := r.made ++ actions }

/-- The records that moves and resets of the last round lead to. -/
inductive Attainable (s : Setup) (b : Base) : Record → Prop
  /-- Nothing has happened yet. -/
  | idle : Attainable s b ⟨b.fresh s, [], []⟩
  /-- The timer of round zero has been started. -/
  | opened (moment : Setup.Moment) :
      Attainable s b
        ⟨b.fresh s, [], [Instance.startTimer (s.context moment) (b.fresh s).view]⟩
  /-- An input has been heard. -/
  | hear {r : Record} (input : Input) (hr : Attainable s b r) :
      Attainable s b { r with heard := input :: r.heard }
  /-- A move has been made. -/
  | move {r : Record} {moment : Setup.Moment} {actions : List Action} {j : Instance}
      (hr : Attainable s b r) (hmove : Instance.Move (s.context moment) r.heard r.now actions j) :
      Attainable s b { r with now := j, made := r.made ++ actions }
  /-- The last round, undecided, has been left for itself. -/
  | reset {r : Record} {moment : Setup.Moment} {actions : List Action} {j : Instance}
      (hr : Attainable s b r) (hlast : r.now.view.round = View.lastRound)
      (hopen : r.now.round.phase ≠ .committed)
      (hdeparts : Instance.Departs (s.context moment) r.now r.now.view.round actions j) :
      Attainable s b { r with now := j, made := r.made ++ actions }

variable {s : Setup} {b : Base} {r : Record}

/-! ## All runs -/

theorem Reachable.attainable (hr : Reachable s b r) : Attainable s b r := by
  induction hr with
  | idle => exact .idle
  | opened moment => exact .opened moment
  | hear input _ ih => exact ih.hear input
  | move _ hmove ih => exact ih.move hmove

/-- The instance of an attainable record keeps nothing for later that it has not heard. -/
theorem Attainable.keepsHeard (hr : Attainable s b r) : r.now.KeepsHeard r.heard := by
  induction hr with
  | idle => exact fun m hm => absurd hm Backlog.not_holds_empty
  | opened moment => exact fun m hm => absurd hm Backlog.not_holds_empty
  | hear input _ ih => exact fun m hm => List.mem_cons_of_mem _ (ih m hm)
  | move _ hmove ih => exact hmove.keepsHeard ih
  | reset _ _ _ hdeparts ih => exact hdeparts.keepsHeard ih

theorem Attainable.moves
    {moment : Setup.Moment} {actions : List Action} {j : Instance}
    (hr : Attainable s b r) (h : Instance.Moves (s.context moment) r.heard r.now actions j) :
    Attainable s b { r with now := j, made := r.made ++ actions } := by
  obtain ⟨i, heard, made⟩ := r
  dsimp only at h ⊢
  induction h generalizing made with
  | refl i =>
      rw [List.append_nil]
      exact hr
  | head hmove _ ih =>
      rw [← List.append_assoc]
      exact ih _ (hr.move hmove)

/-- A whole step leads from an attainable record to an attainable one. -/
theorem Attainable.course
    {moment : Setup.Moment} {again : Prop} {actions : List Action} {j : Instance}
    (hr : Attainable s b r)
    (h : Instance.Course (s.context moment) r.heard again r.now actions j) :
    Attainable s b { r with now := j, made := r.made ++ actions } := by
  obtain ⟨i, heard, made⟩ := r
  cases h with
  | stay hstays => exact hr.moves hstays.moves
  | leave hcounts _ hopen hlater hreason hdeparts hstays =>
      exact hr.moves
        (hcounts.moves.trans (.head (hdeparts.move hlater hreason hopen) hstays.moves))
  | reset _ hlast hopen hdeparts hstays =>
      have hleft := (hr.reset hlast hopen hdeparts).moves hstays.moves
      rwa [List.append_assoc] at hleft

/-- What a step that takes a course leaves is attainable, whether it is finished or breaks down. -/
theorem Attainable.ends
    {moment : Setup.Moment} {again : Prop} {step : Step Instance} (hr : Attainable s b r)
    (h : step.Ends (Instance.Course (s.context moment) r.heard again r.now)) :
    Attainable s b (r.after step) :=
  hr.course h

/-- An instance whose height is opened is that of an attainable record. -/
theorem attainable_start
    {moment : Setup.Moment} {actions : List Action} {j : Instance}
    (h : (b.fresh s).start (s.context moment) = .ok (j, actions)) :
    Attainable s b ⟨j, [], actions⟩ := by
  obtain ⟨rest, rfl, hstays⟩ := (Instance.start_stays []).of_ok h
  exact (Attainable.opened moment).moves hstays.moves

theorem Attainable.receive
    (hr : Attainable s b r) (moment : Setup.Moment) (m : Message) :
    Attainable s b ({ r with heard := .message m :: r.heard }.after
      (r.now.receive (s.context moment) m)) := by
  have hheard := hr.hear (.message m)
  exact hheard.ends (Instance.receive_course hheard.keepsHeard List.mem_cons_self)

theorem Attainable.expire
    (hr : Attainable s b r) (moment : Setup.Moment) (view : View) :
    Attainable s b ({ r with heard := .expiry view :: r.heard }.after
      (r.now.expire (s.context moment) view)) := by
  have hheard := hr.hear (.expiry view)
  exact hheard.ends (Instance.expire_course hheard.keepsHeard List.mem_cons_self)

/-- The course of a turn; it enters the present round once more only if it resets it. -/
theorem Attainable.turn_course
    (hr : Attainable s b r) (t : Turn) :
    (r.answer s t).Ends
      (Instance.Course (s.context t.moment) (t.input :: r.heard) (r.Resets s t) r.now) := by
  have hkeeps := (hr.hear t.input).keepsHeard
  have hheard : t.input ∈ t.input :: r.heard := List.mem_cons_self
  rw [answer]
  cases hinput : t.input with
  | message m =>
      rw [hinput] at hkeeps hheard
      exact (Instance.receive_course hkeeps hheard).imp fun _ _ hcourse => hcourse.imp False.elim
  | expiry view =>
      rw [hinput] at hkeeps hheard
      exact (Instance.expire_course hkeeps hheard).imp fun _ _ hcourse =>
        hcourse.imp fun hresets => ⟨view, hinput, hresets⟩

theorem Attainable.turn (hr : Attainable s b r) (t : Turn) : Attainable s b (r.turn s t) :=
  (hr.hear t.input).ends (hr.turn_course t)

/-- The start starts a timer and makes moves within the first round. -/
theorem begin_eq (s : Setup) (b : Base) (moment : Setup.Moment) :
    ∃ i rest, begin s b moment =
        ⟨i, [], Instance.startTimer (s.context moment) (b.fresh s).view :: rest⟩ ∧
      Instance.Stays (s.context moment) [] (b.fresh s) rest i := by
  obtain ⟨rest, hactions, hstays⟩ :=
    Instance.start_stays (c := s.context moment) (i := b.fresh s) []
  refine ⟨_, rest, ?_, hstays⟩
  rw [begin, after, hactions]
  rfl

theorem attainable_begin (s : Setup) (b : Base) (moment : Setup.Moment) :
    Attainable s b (begin s b moment) := by
  obtain ⟨i, rest, hbegin, hstays⟩ := begin_eq s b moment
  rw [hbegin]
  exact (Attainable.opened moment).moves hstays.moves

/-- Every record of a run is attainable. -/
theorem attainable_run
    (s : Setup) (b : Base) (moment : Setup.Moment) (turns : List Turn) :
    Attainable s b (run s b moment turns) := by
  induction turns using List.reverseRecOn with
  | nil => exact attainable_begin s b moment
  | append_singleton turns t ih =>
      rw [run_append_singleton]
      exact ih.turn t

/-! ## Runs without resets -/

theorem Reachable.moves
    {moment : Setup.Moment} {actions : List Action} {j : Instance}
    (hr : Reachable s b r) (h : Instance.Moves (s.context moment) r.heard r.now actions j) :
    Reachable s b { r with now := j, made := r.made ++ actions } := by
  obtain ⟨i, heard, made⟩ := r
  dsimp only at h ⊢
  induction h generalizing made with
  | refl i =>
      rw [List.append_nil]
      exact hr
  | head hmove _ ih =>
      rw [← List.append_assoc]
      exact ih _ (hr.move hmove)

theorem reachable_begin (s : Setup) (b : Base) (moment : Setup.Moment) :
    Reachable s b (begin s b moment) := by
  obtain ⟨i, rest, hbegin, hstays⟩ := begin_eq s b moment
  rw [hbegin]
  exact (Reachable.opened moment).moves hstays.moves

/-- A turn that resets nothing makes moves. -/
theorem Reachable.turn_moves
    {t : Turn} (hr : Reachable s b r) (ht : ¬r.Resets s t) :
    Instance.Moves (s.context t.moment) (t.input :: r.heard) r.now (r.asked s t)
      (r.turn s t).now :=
  (show Instance.Course _ _ _ _ _ _ from hr.attainable.turn_course t).moves ht

theorem Reachable.turn
    {t : Turn} (hr : Reachable s b r) (ht : ¬r.Resets s t) : Reachable s b (r.turn s t) :=
  (hr.hear t.input).moves (hr.turn_moves ht)

theorem sober_append_singleton
    {moment : Setup.Moment} {turns : List Turn} {t : Turn} :
    Sober s b moment (turns ++ [t]) ↔
      Sober s b moment turns ∧ ¬(run s b moment turns).Resets s t :=
  forall_splits_append_singleton

/-- Every record of a run without resets is reachable. -/
theorem reachable_run
    {moment : Setup.Moment} {turns : List Turn} (h : Sober s b moment turns) :
    Reachable s b (run s b moment turns) := by
  induction turns using List.reverseRecOn with
  | nil => exact reachable_begin s b moment
  | append_singleton turns t ih =>
      obtain ⟨hturns, ht⟩ := sober_append_singleton.mp h
      rw [run_append_singleton]
      exact (ih hturns).turn ht

end Record

end QuorumChain
