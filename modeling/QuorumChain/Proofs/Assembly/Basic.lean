import Mathlib.Data.List.Induction
import Mathlib.Data.Set.Function
import QuorumChain.Proofs.Committee.Quorum
import QuorumChain.Proofs.Node.Log

/-!
# Assemblies

An assembly is made of the nodes that are not faulty: members of the committee and others who only
follow.  All of them decide one height on the same base.  The faulty members are not modelled: they
may send anything, to anyone, at any time.

In a run, messages reach nodes in any order, any number of times or never, and timers end at any
time.  The only limit is that nobody can sign for somebody else: a signature of a member who is not
faulty, if it verifies, was made by that member before, be it under a message of another height.
-/

namespace QuorumChain

/-- The nodes that decide a height and are not faulty. -/
structure Assembly (ι : Type) where
  /-- What the height is built on. -/
  base : Base
  /-- The addresses of the faulty members. -/
  faulty : Finset Address
  /-- The hash function of all nodes. -/
  hash : HashFunction
  /-- What each node works with. -/
  setup : ι → Setup
  /-- What each node is given when it starts. -/
  moment : ι → Setup.Moment
  /-- All nodes hash alike. -/
  hash_eq : ∀ x, (setup x).scheme.hash = hash
  /-- The nodes are not faulty. -/
  honest : ∀ x, (setup x).signer.address ∉ faulty
  /-- Members have one node each. -/
  distinct : ∀ x y, (setup x).signer.address ∈ base.committee.members →
    (setup x).signer.address = (setup y).signer.address → x = y
  /-- Not too many members are faulty. -/
  few : faulty.card ≤ base.committee.maxFaulty
  /-- What members who are not faulty have signed at other heights. -/
  elsewhere : Set Message
  /-- It concerns other heights. -/
  elsewhere_height : ∀ m ∈ elsewhere, m.view.height ≠ base.height
  /-- It can be written. -/
  elsewhere_writable : ∀ m ∈ elsewhere, m.Writable

/-- A turn of a node. -/
structure Happening (ι : Type) where
  node : ι
  turn : Turn

namespace Assembly

variable {ι : Type} [DecidableEq ι] (N : Assembly ι)

/-- The address of a node. -/
def address (x : ι) : Address :=
  (N.setup x).signer.address

/-- The turns of a node in a run. -/
def turnsOf (run : List (Happening ι)) (x : ι) : List Turn :=
  (run.filter (·.node = x)).map (·.turn)

/-- The record of a node behind a run. -/
def record (run : List (Happening ι)) (x : ι) : Record :=
  Record.run (N.setup x) N.base (N.moment x) (turnsOf run x)

/-- Somebody has made a signature: it belongs to a message sent. -/
def Made (run : List (Happening ι)) (t : Attestation) : Prop :=
  ∃ x m, .broadcast m ∈ (N.record run x).made ∧ t ∈ m.signatures N.hash

/-- A signature stands under a message of another height. -/
def MadeElsewhere (t : Attestation) : Prop :=
  ∃ m ∈ N.elsewhere, t ∈ m.signatures N.hash ∧ t.digest = N.hash m.writing

/-- What may happen next: a message may arrive if each signature in it that verifies and is that of
somebody who is not faulty was made before, here or under a message of another height. -/
def Admissible (run : List (Happening ι)) (e : Happening ι) : Prop :=
  match e.turn.input with
  | .expiry _ => True
  | .message m => ∀ t ∈ m.attestations N.hash, t.author ∉ N.faulty →
    (N.setup e.node).scheme.verify t.author t.digest t.signature = true →
      N.Made run t ∨ N.MadeElsewhere t

/-- The runs of an assembly. -/
inductive Run : List (Happening ι) → Prop
  | begin : Run []
  | next {run : List (Happening ι)} {e : Happening ι}
      (hrun : Run run) (he : N.Admissible run e) : Run (run ++ [e])

/-- At no point of a run is a node in the last round. -/
def Below (run : List (Happening ι)) : Prop :=
  ∀ earlier later, run = earlier ++ later →
    ∀ x, (N.record earlier x).now.view.round ≠ View.lastRound

/-- No turn of a run resets the last round. -/
def NeverResets (run : List (Happening ι)) : Prop :=
  ∀ earlier e later, run = earlier ++ e :: later →
    ¬(N.record earlier e.node).Resets (N.setup e.node) e.turn

/-- The octet strings that are hashed in a run or for messages of other heights. -/
def writings (run : List (Happening ι)) : Set Octets :=
  { w | (∃ x m, (.message m ∈ (N.record run x).heard ∨ .broadcast m ∈ (N.record run x).made) ∧
    w ∈ m.writings) ∨ ∃ m ∈ N.elsewhere, w = m.writing }

/-- No two of these octet strings have the same digest. -/
def CollisionFree (run : List (Happening ι)) : Prop :=
  Set.InjOn N.hash (N.writings run)

variable {N} {run : List (Happening ι)} {e : Happening ι} {x : ι}

/-! ## Records along a run -/

theorem record_next :
    N.record (run ++ [e]) x =
      if e.node = x then (N.record run x).turn (N.setup x) e.turn else N.record run x := by
  rw [record, turnsOf, List.filter_append]
  by_cases hx : e.node = x
  · have hfilter : [e].filter (·.node = x) = [e] := by simp [hx]
    rw [hfilter, List.map_append, List.map_cons, List.map_nil, Record.run_append_singleton,
      if_pos hx]
    rfl
  · have hfilter : [e].filter (·.node = x) = [] := by simp [hx]
    rw [hfilter, List.append_nil, if_neg hx]
    rfl

theorem record_extends : (N.record run x).Extends (N.record (run ++ [e]) x) := by
  rw [record_next]
  split
  · exact Record.extends_turn _ _ _
  · exact ⟨fun _ hx => hx, fun _ ha => ha⟩

theorem heard_nil : (N.record [] x).heard = [] := rfl

theorem heard_next :
    (N.record (run ++ [e]) x).heard =
      if e.node = x then e.turn.input :: (N.record run x).heard else (N.record run x).heard := by
  rw [record_next]
  split
  · exact Record.heard_turn _ _ _
  · rfl

theorem mem_heard (he : e ∈ run) : e.turn.input ∈ (N.record run e.node).heard := by
  induction run using List.reverseRecOn with
  | nil => exact absurd he List.not_mem_nil
  | append_singleton run e' ih =>
      rcases List.mem_append.mp he with he | he
      · exact record_extends.heard _ (ih he)
      · obtain rfl := List.mem_singleton.mp he
        rw [heard_next, if_pos rfl]
        exact List.mem_cons_self

theorem Made.next {t : Attestation} (h : N.Made run t) : N.Made (run ++ [e]) t := by
  obtain ⟨x, m, hm, ht⟩ := h
  exact ⟨x, m, record_extends.made _ hm, ht⟩

theorem writing_of_heard
    {m : Message} {w : Octets} (hm : .message m ∈ (N.record run x).heard) (hw : w ∈ m.writings) :
    w ∈ N.writings run :=
  .inl ⟨x, m, .inl hm, hw⟩

theorem writing_of_made
    {m : Message} {w : Octets} (hm : .broadcast m ∈ (N.record run x).made) (hw : w ∈ m.writings) :
    w ∈ N.writings run :=
  .inl ⟨x, m, .inr hm, hw⟩

theorem writing_of_elsewhere {m : Message} (hm : m ∈ N.elsewhere) : m.writing ∈ N.writings run :=
  .inr ⟨m, hm, rfl⟩

theorem neverResets_append_singleton :
    N.NeverResets (run ++ [e]) ↔
      N.NeverResets run ∧ ¬(N.record run e.node).Resets (N.setup e.node) e.turn :=
  forall_splits_append_singleton

/-- Nothing is reset where nobody is in the last round. -/
theorem Below.neverResets (h : N.Below run) : N.NeverResets run := by
  rintro earlier e later heq ⟨view, -, ⟨-, hlast, -⟩, -⟩
  exact h earlier (e :: later) heq e.node hlast

theorem NeverResets.reachable (h : N.NeverResets run) (x : ι) :
    Record.Reachable (N.setup x) N.base (N.record run x) := by
  induction run using List.reverseRecOn with
  | nil => exact Record.reachable_begin _ _ _
  | append_singleton run e ih =>
      obtain ⟨hrun, he⟩ := neverResets_append_singleton.mp h
      rw [record_next]
      split
      · rename_i hx
        subst hx
        exact (ih hrun).turn he
      · exact ih hrun

/-- Whatever a node has heard was admissible: signatures of those who are not faulty were made,
here or under messages of other heights. -/
theorem Run.made_of_heard
    (hrun : N.Run run) {m : Message} (hm : .message m ∈ (N.record run x).heard)
    {t : Attestation} (ht : t ∈ m.attestations N.hash) (hhonest : t.author ∉ N.faulty)
    (hverify : (N.setup x).scheme.verify t.author t.digest t.signature = true) :
    N.Made run t ∨ N.MadeElsewhere t := by
  induction hrun with
  | begin =>
      rw [heard_nil] at hm
      exact absurd hm List.not_mem_nil
  | @next run e hrun he ih =>
      rw [heard_next] at hm
      split at hm
      · rename_i hx
        rcases List.mem_cons.mp hm with hinput | hm
        · rw [Admissible, ← hinput, hx] at he
          exact (he t ht hhonest hverify).imp_left Made.next
        · exact (ih hm).imp_left Made.next
      · exact (ih hm).imp_left Made.next

end Assembly

end QuorumChain
