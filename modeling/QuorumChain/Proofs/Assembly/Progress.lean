import QuorumChain.Proofs.Assembly.Agreement
import QuorumChain.Proofs.Assembly.Delivery

/-!
# Progress

If the leader of the first round is not faulty, no timer ends and the messages of the members reach
each other, all members prepare the leader's block, and each has committed it or handed it out.

A node may hand out the block before it is prepared, on the commits of others, and then it never
commits it itself.  If a faulty member has sent his commit to such a node only, the others may lack
one commit and hand out nothing.  So some member hands out the block, but all do so only if a
quorum of those who are not faulty has committed it.
-/

namespace QuorumChain.Assembly

section General

variable {ι : Type} [DecidableEq ι] {N : Assembly ι} {run : List (Happening ι)} {x : ι}

/-- A node has handed out a block with a digest. -/
def Imports (N : Assembly ι) (run : List (Happening ι)) (x : ι) (d : Digest) : Prop :=
  ∃ block, .importBlock block ∈ (N.record run x).made ∧ block.header.digest N.hash = .ok d

variable {leader : ι} {m : JustifiedProposal} {d : Digest} (hopening : N.Opening run leader m d)
  (hrun : N.Run run) (hquiet : Quiet run) (hfree : N.CollisionFree run)

include hopening hrun hquiet hfree

/-- Whatever is handed out is the leader's block. -/
theorem Opening.digest_of_import
    {block : Block} (hblock : .importBlock block ∈ (N.record run x).made) :
    block.header.digest N.hash = .ok d := by
  obtain ⟨d', hdigest, v, hheight, hcommitted⟩ :=
    decided_of_import hrun hquiet.neverResets hfree hblock
  obtain ⟨a, -, hhonest, hcommits⟩ := hcommitted.exists_honest N.few
  obtain ⟨y, p, -, hp, rfl, rfl⟩ := hcommits hhonest
  have hsettled := ((hquiet.neverResets.reachable (N := N) y).logged.commits p hp).1
  obtain ⟨-, hnow⟩ := digest_of_settled hrun hquiet hfree hsettled
  rw [hdigest, hopening.digest_unique hrun hquiet hfree hnow]

variable (hdelivered : N.Delivered run)

include hdelivered

/-- Every member gets a quorum of prepares. -/
theorem Opening.phase_ne_newRound
    (hx : N.address x ∈ N.base.committee.members) :
    (N.record run x).now.round.phase ≠ .newRound := by
  intro hphase
  have hprepared := hopening.quorate (N.Prepared run · N.firstView d) fun y hy =>
    hopening.prepared_now hrun hquiet hfree hdelivered hy
  have hquorate : N.base.committee.Quorate fun a =>
      ∃ q ∈ (N.record run x).now.round.matchingPrepares, q.author = a :=
    hprepared.mono fun a _ ⟨_, hprepares⟩ =>
      hopening.counts_prepare hrun hquiet hfree hdelivered hx hprepares
  have hquorum := hquorate.le_length
  rw [← (hquiet.neverResets.reachable (N := N) x).sound.framed.roundQuorum] at hquorum
  obtain ⟨m', haccepted⟩ :=
    Round.digest_eq_some.mp (hopening.digest_now hrun hquiet hfree hdelivered hx)
  have hnone : (N.record run x).now.round.hasPreparedQuorum = false :=
    (quiescent_now hrun hquiet hfree x).prepared
  rw [Round.hasPreparedQuorum, hphase, haccepted, decide_eq_true hquorum] at hnone
  contradiction

theorem Opening.committed_or_imports
    (hx : N.address x ∈ N.base.committee.members) :
    N.Committed run (N.address x) N.firstView d ∨ N.Imports run x d := by
  have hreachable := hquiet.neverResets.reachable (N := N) x
  have hdigest := hopening.digest_now hrun hquiet hfree hdelivered hx
  cases hphase : (N.record run x).now.round.phase with
  | newRound =>
      exact absurd hphase (hopening.phase_ne_newRound hrun hquiet hfree hdelivered hx)
  | prepared =>
      left
      obtain ⟨p, hp, hview, hsame⟩ :=
        hreachable.committed_of_prepared (isMember_of_mem hquiet.neverResets hx) hphase
      rw [hdigest, Option.some.injEq] at hsame
      exact ⟨x, p, rfl, hp, hview.trans (hrun.unmoved hquiet hfree x).view, hsame.symm⟩
  | committed =>
      right
      obtain ⟨-, block, -, hblock, -⟩ := hreachable.imported hphase
      exact ⟨block, hblock, hopening.digest_of_import hrun hquiet hfree hblock⟩

/-- Where a quorum of those who are not faulty has committed, every member hands out the block. -/
theorem Opening.imports_of_quorate
    (hcommitted : N.base.committee.Quorate fun a =>
      a ∉ N.faulty ∧ N.Committed run a N.firstView d)
    (hx : N.address x ∈ N.base.committee.members) : N.Imports run x d := by
  have hreachable := hquiet.neverResets.reachable (N := N) x
  have hquorate : N.base.committee.Quorate fun a =>
      ∃ q ∈ (N.record run x).now.round.matchingCommits, q.author = a :=
    hcommitted.mono fun a _ ⟨_, hcommits⟩ =>
      hopening.counts_commit hrun hquiet hfree hdelivered hx hcommits
  have hquorum := hquorate.le_length
  rw [← hreachable.sound.framed.roundQuorum] at hquorum
  obtain ⟨m', haccepted⟩ :=
    Round.digest_eq_some.mp (hopening.digest_now hrun hquiet hfree hdelivered hx)
  have hnone : (N.record run x).now.round.hasCommitQuorum = false :=
    (quiescent_now hrun hquiet hfree x).committed
  have hphase : (N.record run x).now.round.phase = .committed := by
    simpa [Round.hasCommitQuorum, haccepted, hquorum] using hnone
  obtain ⟨-, block, -, hblock, -⟩ := hreachable.imported hphase
  exact ⟨block, hblock, hopening.digest_of_import hrun hquiet hfree hblock⟩

/-- Some member hands out the block: if all only commit it, they are a quorum. -/
theorem Opening.exists_imports :
    ∃ x, N.address x ∈ N.base.committee.members ∧ N.Imports run x d := by
  by_contra hnone
  rw [not_exists] at hnone
  have hcommitted := hopening.quorate (N.Committed run · N.firstView d) fun y hy =>
    (hopening.committed_or_imports hrun hquiet hfree hdelivered hy).resolve_right
      fun himports => hnone y ⟨hy, himports⟩
  obtain ⟨-, hmember⟩ := hopening.leads hrun hquiet hfree
  exact hnone leader
    ⟨hmember, hopening.imports_of_quorate hrun hquiet hfree hdelivered hcommitted hmember⟩

/-- Without timers and behind the delivery of all messages of members, everybody has prepared the
leader's block and has committed it or handed it out; nobody hands out another one, and somebody
hands it out; and all members do if a quorum of those who are not faulty has committed it.  No step
breaks down on the way, so what nodes have asked for is done. -/
theorem progress :
    m.signed.payload.block.header.digest N.hash = .ok d ∧
      (∀ x, N.address x ∈ N.base.committee.members →
        N.Prepared run (N.address x) N.firstView d ∧
          (N.Committed run (N.address x) N.firstView d ∨ N.Imports run x d)) ∧
      (∀ x block, .importBlock block ∈ (N.record run x).made →
        block.header.digest N.hash = .ok d) ∧
      (∃ x, N.address x ∈ N.base.committee.members ∧ N.Imports run x d) ∧
      ((N.base.committee.Quorate fun a => a ∉ N.faulty ∧ N.Committed run a N.firstView d) →
        ∀ x, N.address x ∈ N.base.committee.members → N.Imports run x d) ∧
      N.Unbroken run := by
  obtain ⟨-, hmember⟩ := hopening.leads hrun hquiet hfree
  have hdigest := (hopening.passes leader hmember).digest
  rw [N.hash_eq leader] at hdigest
  refine ⟨hdigest, ?_, ?_, ?_, ?_, hopening.unbroken hrun hquiet hfree⟩
  · intro x hx
    constructor
    · exact hopening.prepared_now hrun hquiet hfree hdelivered hx
    · exact hopening.committed_or_imports hrun hquiet hfree hdelivered hx
  · intro x block hblock
    exact hopening.digest_of_import hrun hquiet hfree hblock
  · exact hopening.exists_imports hrun hquiet hfree hdelivered
  · intro hcommitted x hx
    exact hopening.imports_of_quorate hrun hquiet hfree hdelivered hcommitted hx

end General

section Check

variable {n : ℕ} {N : Assembly (Fin n)} {run : List (Happening (Fin n))}

/-- Whether the nodes have heard no timers but all messages of each other. -/
def delivers (r : Fin n → Record) : Bool :=
  (List.finRange n).all fun x =>
    ((r x).heard.all fun
      | .message _ => true
      | .expiry _ => false) &&
    (List.finRange n).all fun y =>
      x == y || (r x).sent.all fun m => (r y).heard.contains (.message m)

theorem quiet_of_delivers (h : delivers (N.record run) = true) : Quiet run := by
  intro e he view hinput
  have hheard := mem_heard (N := N) he
  rw [delivers, List.all_eq_true] at h
  have hnode := h e.node (List.mem_finRange _)
  rw [Bool.and_eq_true, List.all_eq_true] at hnode
  have hexpiry := hnode.1 _ hheard
  rw [hinput] at hexpiry
  contradiction

theorem delivered_of_delivers (h : delivers (N.record run) = true) : N.Delivered run := by
  intro x y m _ hne hsent
  rw [delivers, List.all_eq_true] at h
  have hnode := h x (List.mem_finRange _)
  rw [Bool.and_eq_true, List.all_eq_true, List.all_eq_true] at hnode
  have hpeer := hnode.2 y (List.mem_finRange _)
  rw [Bool.or_eq_true, beq_iff_eq, List.all_eq_true] at hpeer
  exact List.contains_iff_mem.mp (hpeer.resolve_left hne m (Record.mem_sent.mpr hsent))

/-- Whether a node has committed a digest in a view. -/
def commits (r : Record) (v : View) (d : Digest) : Bool :=
  r.sent.any fun
    | .commit p => p.payload.view == v && p.payload.digest == d
    | _ => false

theorem committed_of_commits
    {x : Fin n} {v : View} {d : Digest} (h : commits (N.record run x) v d = true) :
    N.Committed run (N.address x) v d := by
  obtain ⟨message, hsent, hcommit⟩ := List.any_eq_true.mp h
  cases message with
  | commit p =>
      rw [Bool.and_eq_true, beq_iff_eq, beq_iff_eq] at hcommit
      exact ⟨x, p, rfl, Record.mem_sent.mp hsent, hcommit.1, hcommit.2⟩
  | _ => exact absurd hcommit Bool.false_ne_true

/-- Whether a node has made a proposal of some kind. -/
def proposes (r : Record) (kind : JustifiedProposal → Bool) : Bool :=
  r.sent.any fun
    | .proposal m => kind m
    | _ => false

/-- Whether all nodes find a proposal good with the engines that they start with. -/
def approves (N : Assembly (Fin n)) (d : Digest) (m : JustifiedProposal) : Bool :=
  (List.finRange n).all fun x =>
    match m.check (N.setup x).scheme (N.moment x).execution N.base.parent N.base.parentDigest
        N.base.committee with
    | .ok d' => d' == d
    | .error _ => false

theorem check_of_approves
    {d : Digest} {m : JustifiedProposal} (h : approves N d m = true) (x : Fin n) :
    m.check (N.setup x).scheme (N.moment x).execution N.base.parent N.base.parentDigest
      N.base.committee = .ok d := by
  have hx := List.all_eq_true.mp h x (List.mem_finRange x)
  split at hx
  · rename_i hcheck
    rw [hcheck, beq_iff_eq.mp hx]
  · contradiction

theorem Steady.moment_eq
    (h : N.Steady run) {x : Fin n} {moment : Setup.Moment} (hmoment : moment ∈ N.moments run x) :
    moment = N.moment x := by
  rcases List.mem_cons.mp hmoment with rfl | hmoment
  · rfl
  · obtain ⟨t, ht, rfl⟩ := List.mem_map.mp hmoment
    obtain ⟨e, he, rfl⟩ := List.mem_map.mp ht
    obtain ⟨he, hnode⟩ := List.mem_filter.mp he
    rw [h e he, of_decide_eq_true hnode]

end Check

/-! ## Three of four -/

/-- The height of the four begins with a leader who is not faulty, if the faulty one is the last. -/
theorem exists_opening
    {run : List (Happening (Fin 3))} (hsteady : (Four.assembly 3).Steady run) :
    ∃ m, (Four.assembly 3).Opening run 1 m (Four.digest (Four.fresh 0)) := by
  have hsent : proposes ((Four.assembly 3).record [] 1)
      (approves (Four.assembly 3) (Four.digest (Four.fresh 0))) = true := by
    decide +kernel
  obtain ⟨message, hmessage, hgood⟩ := List.any_eq_true.mp hsent
  cases message with
  | proposal m =>
      refine ⟨m, ?_, ?_, Record.mem_sent.mp hmessage, ?_⟩
      · intro a ha hhonest
        obtain ⟨k, rfl⟩ := List.mem_ofFn.mp ha
        have hk : k ≠ 3 := fun hk => hhonest (Finset.mem_singleton.mpr (congrArg Four.address hk))
        obtain ⟨x, rfl⟩ := Fin.exists_succAbove_eq hk
        exact ⟨x, rfl⟩
      · intro x y _ hy digest
        exact Bool.and_eq_true_iff.mpr ⟨List.contains_iff_mem.mpr hy, beq_self_eq_true _⟩
      · intro x _ moment hmoment
        rw [hsteady.moment_eq hmoment]
        exact check_of_approves hgood x
  | _ => exact absurd hgood Bool.false_ne_true

/-- The leader and two others send each other all they have, and all three hand out the block. -/
theorem progress_of_three :
    ∃ run m d, (Four.assembly 3).Run run ∧ Quiet run ∧ (Four.assembly 3).CollisionFree run ∧
      (Four.assembly 3).Opening run 1 m d ∧ (Four.assembly 3).Delivered run ∧
        ∀ x, (Four.assembly 3).Imports run x d := by
  have hperforms : (Four.assembly 3).performs
      [.pass 0 1 0, .pass 2 1 0,
        .pass 0 1 1, .pass 2 1 1, .pass 1 0 0, .pass 2 0 0, .pass 0 2 0, .pass 1 2 0,
        .pass 0 1 2, .pass 2 1 2, .pass 1 0 1, .pass 2 0 1, .pass 0 2 1, .pass 1 2 1]
      (fun r => delivers r && (List.finRange 3).all fun x =>
        commits (r x) ⟨1, 0⟩ (Four.digest (Four.fresh 0))) = true := by
    decide +kernel
  obtain ⟨run, hrun, hsteady, -, hfree, hend⟩ := exists_run_of_performs rfl hperforms
  rw [Bool.and_eq_true, List.all_eq_true] at hend
  obtain ⟨hdelivers, hcommits⟩ := hend
  obtain ⟨m, hopening⟩ := exists_opening hsteady
  have hquiet := quiet_of_delivers hdelivers
  have hdelivered := delivered_of_delivers hdelivers
  obtain ⟨-, -, -, -, himports, -⟩ := progress hopening hrun hquiet hfree hdelivered
  have hquorate := hopening.quorate
    ((Four.assembly 3).Committed run · (Four.assembly 3).firstView (Four.digest (Four.fresh 0)))
    fun x _ => committed_of_commits (hcommits x (List.mem_finRange x))
  refine ⟨run, m, _, hrun, hquiet, hfree, hopening, hdelivered, fun x => himports hquorate x ?_⟩
  exact List.mem_ofFn.mpr ⟨Fin.succAbove 3 x, rfl⟩

/-- The faulty member sends his prepare to the leader and to one other, and his commit to the third
member.  That one has the commits before the prepares and hands out the block at once; the others
wait for his commit for ever. -/
theorem delivered_not_imported :
    ∃ run m d, (Four.assembly 3).Run run ∧ Quiet run ∧ (Four.assembly 3).CollisionFree run ∧
      (Four.assembly 3).Opening run 1 m d ∧ (Four.assembly 3).Delivered run ∧
        ∃ x, (Four.assembly 3).address x ∈ Four.committee.members ∧
          ∀ block, .importBlock block ∉ ((Four.assembly 3).record run x).made := by
  have hperforms : (Four.assembly 3).performs
      [.pass 0 1 0, .pass 2 1 0,
        .hand 0 (Four.prepare 3 0 (Four.fresh 0)), .pass 0 1 1,
        .hand 1 (Four.prepare 3 0 (Four.fresh 0)), .pass 1 0 0,
        .pass 2 0 1, .pass 2 1 2, .hand 2 (Four.commit 3 0 (Four.fresh 0)),
        .pass 2 1 1, .pass 2 0 0, .pass 1 2 0, .pass 0 2 0, .pass 0 1 2, .pass 1 0 1]
      (fun r => delivers r && (r 0).imported.isEmpty) = true := by
    decide +kernel
  obtain ⟨run, hrun, hsteady, -, hfree, hend⟩ := exists_run_of_performs rfl hperforms
  rw [Bool.and_eq_true, List.isEmpty_iff] at hend
  obtain ⟨hdelivers, hnone⟩ := hend
  obtain ⟨m, hopening⟩ := exists_opening hsteady
  refine ⟨run, m, _, hrun, quiet_of_delivers hdelivers, hfree, hopening,
    delivered_of_delivers hdelivers, 0, by decide, ?_⟩
  intro block hblock
  have hmem := Record.mem_imported.mpr hblock
  rw [hnone] at hmem
  exact List.not_mem_nil hmem

end QuorumChain.Assembly
