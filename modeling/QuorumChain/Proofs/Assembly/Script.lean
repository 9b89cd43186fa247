import Mathlib.Data.Fin.SuccPred
import Mathlib.Data.List.Dedup
import QuorumChain.Proofs.Assembly.Basic
import QuorumChain.Proofs.Node.Four

/-!
# Scripts

A script says what reaches the nodes of an assembly, one thing after the other; it names the
messages of nodes by their places and gives those of others in full.  Performing a script keeps
the record of every node and stops where something is not admissible, so a script that can be
performed describes a run.  Whether it can, and how it ends, is decided by computing.

At the end stand assemblies of the members of a committee of four, one of whom is faulty.
-/

namespace QuorumChain

namespace Record

/-- The octet strings that are hashed for the messages of a record. -/
def writings (r : Record) : List Octets :=
  (r.heard.flatMap fun
    | .message m => m.writings
    | .expiry _ => []) ++ r.sent.flatMap Message.writings

variable {r : Record}

theorem mem_writings
    {m : Message} {w : Octets} (hm : .message m ∈ r.heard ∨ .broadcast m ∈ r.made)
    (hw : w ∈ m.writings) : w ∈ r.writings := by
  rw [writings, List.mem_append, List.mem_flatMap, List.mem_flatMap]
  rcases hm with hm | hm
  · exact .inl ⟨_, hm, hw⟩
  · exact .inr ⟨m, mem_sent.mpr hm, hw⟩

end Record

/-- What reaches one of `n` nodes next. -/
inductive Cue (n : ℕ) where
  /-- The message at some place among those that a node has sent. -/
  | pass (target source : Fin n) (place : ℕ)
  /-- A message of somebody else, if it can be written. -/
  | hand (target : Fin n) (m : Except WireError Message)
  /-- The end of a timer. -/
  | ring (target : Fin n) (view : View)

/-- A run as far as it is performed, and the records of the nodes. -/
structure Scene (n : ℕ) where
  run : List (Happening (Fin n))
  records : List Record

namespace Assembly

variable {n : ℕ} (N : Assembly (Fin n))

/-! ## Performing a script -/

/-- The happening that a cue asks for. -/
def happening? (s : Scene n) : Cue n → Option (Happening (Fin n))
  | .pass target source place => do
    let r ← s.records[source.val]?
    let m ← r.sent[place]?
    return ⟨target, N.moment target, .message m⟩
  | .hand target (.ok m) => some ⟨target, N.moment target, .message m⟩
  | .hand _ (.error _) => none
  | .ring target view => some ⟨target, N.moment target, .expiry view⟩

/-- The signatures that the nodes have made. -/
def made (records : List Record) : List Attestation :=
  records.flatMap fun r => r.sent.flatMap (Message.signatures N.hash)

/-- Whether a happening is admissible where the nodes have made some signatures. -/
def admits (made : List Attestation) (e : Happening (Fin n)) : Bool :=
  match e.turn.input with
  | .expiry _ => true
  | .message m => (m.attestations N.hash).all fun t =>
    decide (t.author ∈ N.faulty) || !(N.setup e.node).scheme.verify t.author t.digest t.signature ||
      made.contains t

/-- The records behind a happening. -/
def advance (records : List Record) (e : Happening (Fin n)) : List Record :=
  records.modify e.node.val fun r => r.turn (N.setup e.node) e.turn

/-- Whether no node is in the last round. -/
def early (records : List Record) : Bool :=
  records.all fun r => r.now.view.round != View.lastRound

/-- Perform the next cue. -/
def perform1 (s : Scene n) (cue : Cue n) : Option (Scene n) := do
  let e ← N.happening? s cue
  let records := N.advance s.records e
  if N.admits (N.made s.records) e && early records then some ⟨s.run ++ [e], records⟩ else none

/-- The scene behind the start of all nodes. -/
def opening : Scene n :=
  ⟨[], List.ofFn (N.record [])⟩

/-- Perform a script. -/
def perform (cues : List (Cue n)) : Option (Scene n) :=
  cues.foldlM N.perform1 N.opening

/-- Whether no two octet strings that are hashed have the same digest. -/
def injective (records : List Record) : Bool :=
  ((records.flatMap Record.writings).dedup.map N.hash).Nodup

/-- Whether a script can be performed, without collisions, to an end of some kind. -/
def performs (cues : List (Cue n)) (ending : (Fin n → Record) → Bool) : Bool :=
  early N.opening.records &&
    (N.perform cues).any fun s =>
      N.injective s.records && ending fun x => s.records.getD x.val (N.record [] x)

/-! ## What is performed is a run -/

variable {N}

/-- Whatever happens to a node, it is given the same as at its start. -/
def Steady (N : Assembly (Fin n)) (run : List (Happening (Fin n))) : Prop :=
  ∀ e ∈ run, e.turn.moment = N.moment e.node

/-- A scene shows a steady run that never reaches the last round. -/
structure Shown (N : Assembly (Fin n)) (s : Scene n) : Prop where
  run : N.Run s.run
  steady : N.Steady s.run
  below : N.Below s.run
  records : s.records = List.ofFn (N.record s.run)

theorem early_ofFn
    {f : Fin n → Record} (h : early (List.ofFn f) = true) (x : Fin n) :
    (f x).now.view.round ≠ View.lastRound := by
  have hx := List.all_eq_true.mp h (f x) (List.mem_ofFn.mpr ⟨x, rfl⟩)
  exact bne_iff_ne.mp hx

theorem below_nil
    (h : ∀ x, (N.record [] x).now.view.round ≠ View.lastRound) : N.Below [] := by
  intro earlier later heq x
  obtain ⟨rfl, -⟩ := List.append_eq_nil_iff.mp heq.symm
  exact h x

theorem below_append_singleton
    {run : List (Happening (Fin n))} {e : Happening (Fin n)} (hrun : N.Below run)
    (he : ∀ x, (N.record (run ++ [e]) x).now.view.round ≠ View.lastRound) :
    N.Below (run ++ [e]) := by
  intro earlier later heq
  rcases List.eq_nil_or_concat later with rfl | ⟨later, e', rfl⟩
  · rw [List.append_nil] at heq
    rw [← heq]
    exact he
  · rw [List.concat_eq_append, ← List.append_assoc] at heq
    obtain ⟨heq, -⟩ := List.append_inj' heq rfl
    exact hrun earlier later heq

theorem advance_ofFn (run : List (Happening (Fin n))) (e : Happening (Fin n)) :
    N.advance (List.ofFn (N.record run)) e = List.ofFn (N.record (run ++ [e])) := by
  apply List.ext_getElem (by simp [advance])
  intro k hk hk'
  have hlt : k < n := by simpa using hk'
  rw [List.getElem_ofFn, record_next]
  simp only [advance, List.getElem_modify, List.getElem_ofFn]
  by_cases hnode : e.node.val = k
  · subst hnode
    rw [if_pos rfl, if_pos rfl]
  · rw [if_neg hnode, if_neg fun heq => hnode (congrArg Fin.val heq)]

theorem made_of_mem
    {run : List (Happening (Fin n))} {t : Attestation}
    (h : t ∈ N.made (List.ofFn (N.record run))) : N.Made run t := by
  obtain ⟨r, hr, ht⟩ := List.mem_flatMap.mp h
  obtain ⟨x, rfl⟩ := List.mem_ofFn.mp hr
  obtain ⟨m, hm, ht⟩ := List.mem_flatMap.mp ht
  exact ⟨x, m, Record.mem_sent.mp hm, ht⟩

theorem admissible_of_admits
    {run : List (Happening (Fin n))} {e : Happening (Fin n)}
    (h : N.admits (N.made (List.ofFn (N.record run))) e = true) : N.Admissible run e := by
  rw [Admissible]
  rw [admits] at h
  cases hinput : e.turn.input with
  | expiry view => trivial
  | message m =>
      rw [hinput] at h
      intro t ht hhonest hverify
      have hadmits := List.all_eq_true.mp h t ht
      simp only [hhonest, decide_false, hverify, Bool.not_true, Bool.or_false, Bool.false_or]
        at hadmits
      exact .inl (made_of_mem (List.contains_iff_mem.mp hadmits))

theorem moment_of_happening
    {s : Scene n} {cue : Cue n} {e : Happening (Fin n)} (h : N.happening? s cue = some e) :
    e.turn.moment = N.moment e.node := by
  cases cue with
  | pass target source place =>
      simp only [happening?, Option.bind_eq_bind, Option.bind_eq_some_iff] at h
      obtain ⟨r, -, m, -, ⟨⟩⟩ := h
      rfl
  | hand target m =>
      cases m with
      | ok m =>
          cases h
          rfl
      | error e => contradiction
  | ring target view =>
      cases h
      rfl

/-- A cue leads from a run to a run. -/
theorem Shown.perform1
    {s t : Scene n} {cue : Cue n} (hs : N.Shown s) (h : N.perform1 s cue = some t) :
    N.Shown t := by
  obtain ⟨run, records⟩ := s
  obtain ⟨hrun, hsteady, hbelow, hrecords⟩ := hs
  dsimp only at hrun hsteady hbelow hrecords
  subst hrecords
  rw [Assembly.perform1, Option.bind_eq_bind, Option.bind_eq_some_iff] at h
  obtain ⟨e, he, h⟩ := h
  dsimp only at h
  split at h
  · rename_i hgood
    rw [Bool.and_eq_true, advance_ofFn] at hgood
    cases h
    refine ⟨.next hrun (admissible_of_admits hgood.1), ?_,
      below_append_singleton hbelow (early_ofFn hgood.2), advance_ofFn _ _⟩
    intro e' he'
    rcases List.mem_append.mp he' with he' | he'
    · exact hsteady e' he'
    · obtain rfl := List.mem_singleton.mp he'
      exact moment_of_happening he
  · contradiction

theorem Shown.foldlM
    {s t : Scene n} {cues : List (Cue n)} (hs : N.Shown s)
    (h : cues.foldlM N.perform1 s = some t) : N.Shown t := by
  induction cues generalizing s with
  | nil =>
      cases h
      exact hs
  | cons cue rest ih =>
      rw [List.foldlM_cons, Option.bind_eq_bind, Option.bind_eq_some_iff] at h
      obtain ⟨s', hfirst, hrest⟩ := h
      exact ih (hs.perform1 hfirst) hrest

theorem collisionFree_of_injective
    {run : List (Happening (Fin n))} (hhere : N.elsewhere = ∅)
    (h : N.injective (List.ofFn (N.record run)) = true) : N.CollisionFree run := by
  have hnodup := of_decide_eq_true h
  have hmem : ∀ w ∈ N.writings run,
      w ∈ ((List.ofFn (N.record run)).flatMap Record.writings).dedup := by
    rintro w (⟨x, m, hm, hw⟩ | ⟨m, hm, -⟩)
    · rw [List.mem_dedup, List.mem_flatMap]
      exact ⟨_, List.mem_ofFn.mpr ⟨x, rfl⟩, Record.mem_writings hm hw⟩
    · rw [hhere] at hm
      exact absurd hm (Set.notMem_empty m)
  intro w hw w' hw' heq
  exact List.inj_on_of_nodup_map hnodup (hmem w hw) (hmem w' hw') heq

/-- A script that can be performed, where nothing was signed at other heights, gives a run that
ends as it should. -/
theorem exists_run_of_performs
    {cues : List (Cue n)} {ending : (Fin n → Record) → Bool} (hhere : N.elsewhere = ∅)
    (h : N.performs cues ending = true) :
    ∃ run, N.Run run ∧ N.Steady run ∧ N.Below run ∧ N.CollisionFree run ∧
      ending (N.record run) = true := by
  rw [performs, Bool.and_eq_true, Option.any_eq_true] at h
  obtain ⟨hopening, s, hs, hends⟩ := h
  have hshown : N.Shown N.opening :=
    ⟨.begin, fun e he => absurd he List.not_mem_nil, below_nil (early_ofFn hopening), rfl⟩
  obtain ⟨hrun, hsteady, hbelow, hrecords⟩ := hshown.foldlM hs
  rw [Bool.and_eq_true, hrecords] at hends
  have hrecord : (fun x => (List.ofFn (N.record s.run)).getD x.val (N.record [] x)) =
      N.record s.run := by
    funext x
    simp
  rw [hrecord] at hends
  exact ⟨s.run, hrun, hsteady, hbelow, collisionFree_of_injective hhere hends.1, hends.2⟩

end Assembly

/-! ## A committee of four -/

namespace Four

/-- The three members besides a faulty one. -/
def assembly (traitor : Fin 4) : Assembly (Fin 3) where
  base := base
  faulty := {address traitor}
  hash := hash
  setup x := setup (traitor.succAbove x)
  moment _ := moment
  hash_eq _ := rfl
  honest x := by
    revert traitor x
    decide
  distinct x y _ := by
    revert traitor x y
    decide
  few := by
    rw [Finset.card_singleton]
    decide
  elsewhere := ∅
  elsewhere_height m hm := absurd hm (Set.notMem_empty m)
  elsewhere_writable m hm := absurd hm (Set.notMem_empty m)

end Four

end QuorumChain
