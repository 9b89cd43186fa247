import QuorumChain.Proofs.Life.Early
import QuorumChain.Proofs.Node.Ballot

/-!
# Nodes that watch

Somebody who is no member of the committee follows what the members do without saying a word.
Of all that an instance does, only the moves of members send something.  What counts towards a
decision does not depend on who counts: whoever enters a round and hears its proposal and the
commits of a quorum, in whatever order, hands out the block, be it a member that has prepared
the block or somebody who watches.
-/

namespace QuorumChain

/-- Nothing is to be sent. -/
def Action.Silent (actions : List Action) : Prop :=
  ∀ m, .broadcast m ∉ actions

theorem Action.silent_append
    {first second : List Action} (hfirst : Silent first) (hsecond : Silent second) :
    Silent (first ++ second) := by
  intro m hm
  exact (List.mem_append.mp hm).elim (hfirst m) (hsecond m)

namespace Instance

variable {c : Context} {heard : List Input} {i j : Instance} {m : Message} {actions : List Action}

/-! ## Silence -/

theorem Move.isMember_eq (h : Move c heard i actions j) : j.isMember = i.isMember := by
  obtain ⟨-, -, hcommittee, hself⟩ := h.base
  rw [isMember, isMember, hcommittee, hself]

/-- Only members make moves that send something. -/
theorem Move.silent
    (h : Move c heard i actions j) (houtside : i.isMember = false) : Action.Silent actions := by
  intro m hm
  cases h with
  | take _ _ _ _ _ _ _ hmember =>
      rw [houtside] at hmember
      contradiction
  | lead _ _ _ _ _ hproposer =>
      rw [isProposer, houtside] at hproposer
      contradiction
  | certify _ _ _ _ _ hmember =>
      rw [houtside] at hmember
      contradiction
  | depart _ _ _ _ hmember =>
      rw [houtside] at hmember
      contradiction
  | _ => simp [startTimer] at hm

theorem Moves.silent
    (h : Moves c heard i actions j) (houtside : i.isMember = false) :
    Action.Silent actions ∧ j.isMember = false := by
  induction h with
  | refl i => exact ⟨fun _ => List.not_mem_nil, houtside⟩
  | head hmove _ ih =>
      obtain ⟨hrest, hj⟩ := ih (hmove.isMember_eq.trans houtside)
      exact ⟨Action.silent_append (hmove.silent houtside) hrest, hj⟩

theorem Departs.silent
    {round : UInt32} (h : Departs c i round actions j) (houtside : i.isMember = false) :
    Action.Silent actions ∧ j.isMember = false := by
  cases h with
  | silently => exact ⟨by simp [Action.Silent, startTimer], houtside⟩
  | announced _ hmember =>
      rw [houtside] at hmember
      contradiction

theorem Course.silent
    {again : Prop} (h : Course c heard again i actions j) (houtside : i.isMember = false) :
    Action.Silent actions := by
  cases h with
  | stay hstays => exact (hstays.moves.silent houtside).1
  | leave hcounts _ _ _ _ hdeparts hstays =>
      obtain ⟨hleaves, hk⟩ := hdeparts.silent (hcounts.moves.silent houtside).2
      exact Action.silent_append hleaves (hstays.moves.silent hk).1
  | reset _ _ _ hdeparts hstays =>
      obtain ⟨hleaves, hk⟩ := hdeparts.silent houtside
      exact Action.silent_append hleaves (hstays.moves.silent hk).1

theorem receive_silent
    (houtside : i.isMember = false) :
    (i.receive c m).Ends fun actions _ => Action.Silent actions := by
  obtain ⟨heard, -, hcourse⟩ := exists_receive_course c i m
  exact hcourse.imp fun _ _ h => h.silent houtside

theorem expire_silent
    {view : View} (houtside : i.isMember = false) :
    (i.expire c view).Ends fun actions _ => Action.Silent actions := by
  obtain ⟨heard, hkeeps, -⟩ := i.exists_keepsHeard
  have hkeeps' : i.KeepsHeard (.expiry view :: heard) :=
    fun m hm => List.mem_cons_of_mem _ (hkeeps m hm)
  exact (expire_course hkeeps' List.mem_cons_self).imp fun _ _ h => h.silent houtside

/-! ## What decides a round -/

/-- A round that has just been entered. -/
def Fresh (i : Instance) : Prop :=
  i.round = .start i.view (i.committee.proposer i.view) i.committee.quorum

/-- A good proposal for the present round, and commits of a quorum of others with good seals for its
block. -/
@[mk_iff] structure Decisive (s : Setup) (i : Instance) (p : JustifiedProposal) (d : Digest)
    (commits : List (Signed Commit)) : Prop where
  admitted : (Message.proposal p).triage s.scheme i.position = .ok .accept
  good : p.check s.scheme s.execution i.parent i.parentDigest i.committee = .ok d
  authentic : ∀ w ∈ commits, w.check s.scheme i.committee = .ok ()
  present : ∀ w ∈ commits, w.payload.view = i.view
  matching : ∀ w ∈ commits, w.payload.digest = d
  sealed : ∀ w ∈ commits, s.scheme.verify w.author d w.payload.committedSeal = true
  others : ∀ w ∈ commits, w.author ≠ s.signer.address
  once : (commits.map (·.author)).Nodup
  quorum : i.committee.quorum ≤ commits.length

variable {s : Setup} {p : JustifiedProposal} {d : Digest} {commits : List (Signed Commit)}
  {ms : List Message}

instance : Decidable (i.Decisive s p d commits) :=
  decidable_of_iff' _ (decisive_iff s i p d commits)

/-- The proposal and the commits, in any order, are a ballot. -/
theorem Decisive.ballot
    (votes : VoteRequests) (h : i.Decisive s p d commits)
    (hms : ms.Perm (.proposal p :: commits.map .commit)) :
    Ballot (s.context ⟨votes, s.execution⟩) i p ms := by
  refine Ballot.perm ⟨?_, ?_, ?_⟩ hms
  · intro m hm
    rcases List.mem_cons.mp hm with rfl | hm
    · exact Message.view_of_admitted h.admitted (by simp [Message.kind])
    · obtain ⟨w, hw, rfl⟩ := List.mem_map.mp hm
      exact h.present w hw
  · intro m hm
    rcases List.mem_cons.mp hm with rfl | hm
    · exact .inl rfl
    · obtain ⟨w, hw, rfl⟩ := List.mem_map.mp hm
      exact .inr ⟨.inr rfl, h.others w hw⟩
  · have hslots : (commits.map Message.commit).map Message.slot =
        (commits.map (·.author)).map fun a => (.commit, a) := by
      rw [List.map_map, List.map_map]
      rfl
    rw [List.map_cons, hslots, List.nodup_cons]
    refine ⟨?_, h.once.map fun a a' heq => (Prod.mk.inj heq).2⟩
    simp [Message.slot, Message.kind]

/-- All the commits are taken up once the proposal is in force. -/
theorem Decisive.tally_eq
    (votes : VoteRequests) (h : i.Decisive s p d commits) (hfree : i.round.accepted = none)
    (hms : ms.Perm (.proposal p :: commits.map .commit)) :
    tally (s.context ⟨votes, s.execution⟩) (i.accepting p d) .commit ms = commits.length := by
  have htriage : ∀ w ∈ commits,
      triage (s.context ⟨votes, s.execution⟩) (i.accepting p d) (.commit w) = .accept := by
    intro w hw
    refine (triage_commit_accepting hfree).mpr ⟨triage_of_admitted ?_, h.matching w hw⟩
    refine Message.triage_of_checks (h.authentic w hw) rfl (h.present w hw) ?_
    have hsealed := h.sealed w hw
    rw [← h.matching w hw] at hsealed
    simp only [Message.checkContent, position, Round.digest, hfree]
    exact bind_eq_ok.mpr ⟨(), rfl, require_eq_ok.mpr hsealed⟩
  rw [tally_perm hms, tally, List.countP_cons_of_neg (by simp [Message.kind]), List.countP_map,
    List.countP_eq_length.mpr]
  intro w hw
  simp [Message.kind, htriage w hw]

/-- Whoever has entered a round and hears what decides it hands out the block. -/
theorem Decisive.imports
    (votes : VoteRequests) (h : i.Decisive s p d commits) (hfresh : i.Fresh)
    (hms : ms.Perm (.proposal p :: commits.map .commit)) :
    ∃ j actions,
      Step.forEach ms (receive (s.context ⟨votes, s.execution⟩)) i = .ok (j, actions) ∧
      (actions.filterMap Action.imported?).map (fun b => b.header.digest s.scheme.hash) =
        [.ok d] := by
  have hfree : i.round.accepted = none := by
    rw [hfresh]
    rfl
  have hquorum : i.round.quorum = i.committee.quorum := by
    rw [hfresh]
    rfl
  have hproposal : .proposal p ∈ ms := hms.mem_iff.mpr List.mem_cons_self
  obtain ⟨j, actions, hj, hconcluded, hheard⟩ := (h.ballot votes hms).heard hfresh
    (triage_of_admitted h.admitted) h.good
  have hknows := (hheard.resolve_left fun hnot => hnot.1 hproposal).2
  obtain ⟨hphase, hblocks⟩ := hknows.settled (hconcluded (hknows.closable h.good))
  have hcommitted : j.round.phase = .committed := by
    rw [hphase, Phase.settled, if_pos]
    rw [h.tally_eq votes hfree hms, hquorum]
    exact .inl h.quorum
  rw [if_pos hcommitted] at hblocks
  exact ⟨j, actions, hj, hblocks⟩

end Instance

namespace Node

variable {s : Setup} {n n' : Node} {i j : Instance} {e : Event} {actions : List Action}

/-- An event within a height lets somebody who watches ask for nothing to be sent. -/
theorem handle_silent
    (hi : n.current = some i) (houtside : i.isMember = false)
    (h : n.handle s e = ⟨n', .ok actions⟩) (hj : n'.current = some j)
    (hheight : j.height = i.height) :
    Action.Silent actions := by
  have hcases := handle_cases s n e
  generalize n.handle s e = reaction at h hcases
  cases hcases with
  | passes votes =>
      cases h
      exact fun _ => List.not_mem_nil
  | defers hdefers =>
      cases h
      exact fun _ => List.not_mem_nil
  | receives hi' hsame =>
      obtain ⟨k, hreceive, -⟩ := ofStep_eq_ok.mp h
      cases hi.symm.trans hi'
      exact (Instance.receive_silent houtside).of_ok hreceive
  | expires hi' hsame =>
      obtain ⟨k, hexpire, -⟩ := ofStep_eq_ok.mp h
      cases hi.symm.trans hi'
      exact (Instance.expire_silent houtside).of_ok hexpire
  | adopts hi' hadopts =>
      -- an adopted head opens the next height
      obtain ⟨b, committees, k, first, l, rest, hopens, hrest, -, rfl⟩ := startHeight_eq_ok h
      cases hj
      cases hi.symm.trans hi'
      have hnext : j.height = i.height + 1 := by
        rw [Instance.forEach_height.of_ok hrest, hopens.height, ← (adopts_eq_true hadopts).1,
          ← hopens.parent]
        rfl
      rw [hheight] at hnext
      exact absurd (UInt64.add_eq_left.mp hnext.symm) (by decide)

/-- Messages of the present height are what the instance receives. -/
theorem play_deciding
    {ms : List Message} (hms : ∀ m ∈ ms, m.view.height = i.height) :
    ((n.deciding i).play s (ms.map .message)).result =
      ((Step.forEach ms (Instance.receive (n.context s)) i).map n.deciding).result := by
  induction ms generalizing i with
  | nil => rfl
  | cons m rest ih =>
      obtain ⟨hm, hrest⟩ := List.forall_mem_cons.mp hms
      rw [List.map_cons, play_cons, Step.forEach_cons]
      refine (Step.result_andThen_congr (toStep_message hm.symm) fun _ _ _ => rfl).trans ?_
      refine Step.result_map_andThen fun j actions hj => ih fun m' hm' => ?_
      rw [Instance.receive_height.of_ok hj]
      exact hrest m' hm'

/-- Hearing some messages, a node hands out one block, and that has the digest. -/
def Imports (s : Setup) (n : Node) (ms : List Message) (d : Digest) : Prop :=
  ∃ n' actions, n.play s (ms.map .message) = .ok (n', actions) ∧
    (actions.filterMap Action.imported?).map (fun b => b.header.digest s.scheme.hash) = [.ok d]

/-- Whatever decides the present round makes a node hand out the block. -/
theorem imports_of_decisive
    {p : JustifiedProposal} {d : Digest} {commits : List (Signed Commit)} {ms : List Message}
    (hi : n.current = some i) (hvetted : i.Vetted s.scheme) (hfresh : i.Fresh)
    (h : i.Decisive s p d commits) (hms : ms.Perm (.proposal p :: commits.map .commit)) :
    n.Imports s ms d := by
  obtain ⟨j, actions, hj, hblocks⟩ := h.imports n.votes hfresh hms
  have hheight : ∀ m ∈ ms, m.view.height = i.height := by
    intro m hm
    rw [(h.ballot n.votes hms).view m hm]
    exact hvetted.height
  have hplay := play_deciding (s := s) (n := n) hheight
  have hsame : n.deciding i = n := by
    rw [deciding, ← hi]
  have hheard : Step.forEach ms (Instance.receive (n.context s)) i = .ok (j, actions) := hj
  rw [hsame, hheard] at hplay
  exact ⟨n.deciding j, actions, Step.result_eq_ok.mp hplay, hblocks⟩

/-- Somebody who is no member of the committee sends nothing within a height.  Nevertheless, in
a round that it has just entered, the good proposal and the commits of a quorum make it hand out
the same block as a member that has entered the round and hears the same messages, perhaps in
another order. -/
theorem observer_follows_silently
    (s : Setup) (headers : List Header) (head : Header) (occasions : List Occasion) {n : Node}
    {i : Instance} (hn : n = (launch s headers head).node.after s occasions)
    (hi : n.current = some i) (houtside : s.signer.address ∉ i.committee.members) :
    (∀ o n' j actions, n.meet s o = ⟨n', .ok actions⟩ → n'.current = some j →
      j.height = i.height → ∀ m, .broadcast m ∉ actions) ∧
    ∀ (s' : Setup) (headers' : List Header) (head' : Header) (occasions' : List Occasion)
      (n' : Node) (i' : Instance) (x x' : Execution) (p : JustifiedProposal) (d : Digest)
      (commits : List (Signed Commit)) (ms ms' : List Message),
      n' = (launch s' headers' head').node.after s' occasions' → n'.current = some i' →
        i.Fresh → i'.Fresh → i.Decisive { s with execution := x } p d commits →
          i'.Decisive { s' with execution := x' } p d commits →
            ms.Perm (.proposal p :: commits.map .commit) →
              ms'.Perm (.proposal p :: commits.map .commit) →
                n.Imports { s with execution := x } ms d ∧
                  n'.Imports { s' with execution := x' } ms' d := by
  subst hn
  obtain ⟨b, r, hr, hnow⟩ := (lasting_attainable s).life hi
  have hmember : i.isMember = false := by
    have hframed := hr.framed
    rw [hnow] at hframed
    rw [Instance.isMember, hframed.self, Committee.contains]
    simpa using houtside
  constructor
  · intro o n' j actions h hj hheight
    exact handle_silent hi hmember h hj hheight
  · rintro s' headers' head' occasions' n' i' x x' p d commits ms ms' rfl hi' hfresh hfresh'
      h h' hms
      hms'
    have hvetted : i.Vetted s.scheme := (lasting_vetted s).life hi
    have hvetted' : i'.Vetted s'.scheme := (lasting_vetted s').life hi'
    exact ⟨imports_of_decisive (s := { s with execution := x }) hi hvetted hfresh h hms,
      imports_of_decisive (s := { s' with execution := x' }) hi' hvetted' hfresh' h' hms'⟩

/-- A newcomer, who hears the commits first, and a member hand out the same block.  Had its time run
out, the newcomer would have gone on without a word. -/
theorem observer_follows_silently_of_four :
    let s := Four.newcomerSetup
    let s' := Four.setup 0
    let n := (launch s [] Four.first.header).node
    let n' := (launch s' [] Four.first.header).node
    let d := Four.digest (Four.fresh 0)
    (∃ p ∈ ((Four.signer 1).proposal Four.hash ⟨Four.base.height, 0⟩ (Four.fresh 0) none).toOption,
      ∃ commits ∈ ([1, 2, 3].mapM fun k =>
          (Four.signer k).commit Four.hash ⟨Four.base.height, 0⟩ d).toOption,
        n.Imports s (commits.map .commit ++ [.proposal p]) d ∧
          n'.Imports s' (.proposal p :: commits.map .commit) d) ∧
    ∃ left actions, n.handle s (.expiry ⟨Four.base.height, 0⟩) = ⟨left, .ok actions⟩ ∧
      left.current.map (fun j => (j.height, j.view.round)) = some (Four.base.height, 1) ∧
        ∀ m, .broadcast m ∉ actions := by
  intro s s' n n' d
  have hn : n.current = some (Four.base.fresh s) := by
    decide +kernel
  have hn' : n'.current = some (Four.base.fresh s') := by
    decide +kernel
  have houtside : s.signer.address ∉ (Four.base.fresh s).committee.members := by
    decide +kernel
  have hdecisive : ∃ p ∈ ((Four.signer 1).proposal Four.hash ⟨Four.base.height, 0⟩ (Four.fresh 0)
        none).toOption,
      ∃ commits ∈ ([1, 2, 3].mapM fun k =>
          (Four.signer k).commit Four.hash ⟨Four.base.height, 0⟩ d).toOption,
        (Four.base.fresh s).Decisive s p d commits ∧
          (Four.base.fresh s').Decisive s' p d commits := by
    decide +kernel
  obtain ⟨hsilent, hfollows⟩ :=
    observer_follows_silently s [] Four.first.header [] (after_nil s n).symm hn houtside
  constructor
  · obtain ⟨p, hp, commits, hcommits, h, h'⟩ := hdecisive
    refine ⟨p, hp, commits, hcommits, ?_⟩
    exact hfollows s' [] Four.first.header [] n' _ s.execution s'.execution p d commits _ _
      (after_nil s' n').symm hn' rfl rfl h h' (List.perm_append_singleton _ _) (List.Perm.refl _)
  · obtain ⟨r, hr⟩ : ∃ r, r = n.handle s (.expiry ⟨Four.base.height, 0⟩) := ⟨_, rfl⟩
    have hgoes : r.result.toOption.isSome = true := by
      rw [hr]
      decide +kernel
    have hleft : r.node.current.map (fun j => (j.height, j.view.round)) =
        some (Four.base.height, 1) := by
      rw [hr]
      decide +kernel
    obtain ⟨left, result⟩ := r
    cases result with
    | error e => exact absurd hgoes Bool.false_ne_true
    | ok actions =>
        obtain ⟨j, hj, hplace⟩ := Option.map_eq_some_iff.mp hleft
        exact ⟨left, actions, hr.symm, hleft, hsilent ⟨s.execution, _⟩ left j actions hr.symm hj
          (Prod.mk.inj hplace).1⟩

end Node

end QuorumChain
