import QuorumChain.Proofs.Assembly.Locking
import QuorumChain.Proofs.Assembly.Opening
import QuorumChain.Proofs.Node.Endurance
import QuorumChain.Proofs.Node.Quiescence
import QuorumChain.Proofs.Node.Response

/-!
# What delivery brings about

When the messages of members reach the other members in the first round, they are taken up: nothing
that a member has signed is refused, a proposal finds one in force or becomes it, and a vote is
counted unless one of the same author is.  What was brought about lasts, since nobody leaves the
round.
-/

namespace QuorumChain.Assembly

variable {ι : Type} [DecidableEq ι] {N : Assembly ι} {run : List (Happening ι)} {x y : ι}

/-- Every message that a member has sent has reached the other members. -/
def Delivered (N : Assembly ι) (run : List (Happening ι)) : Prop :=
  ∀ x y m, N.address y ∈ N.base.committee.members → x ≠ y →
    .broadcast m ∈ (N.record run x).made → .message m ∈ (N.record run y).heard

/-! ## Nothing is refused -/

theorem isMember_of_mem
    (hnever : N.NeverResets run) (hx : N.address x ∈ N.base.committee.members) :
    (N.record run x).now.isMember = true := by
  have hframed := (hnever.reachable x).sound.framed
  rw [Instance.isMember, hframed.committee, hframed.self, Committee.contains,
    List.contains_iff_mem]
  exact hx

section Quiet

variable (hrun : N.Run run) (hquiet : Quiet run) (hfree : N.CollisionFree run)

include hrun hquiet hfree

/-- A proposal in force lists the committee, because it is one of round zero. -/
theorem sealable_now (x : ι) : (N.record run x).now.Sealable := by
  intro m d haccepted
  have hsound := (hquiet.neverResets.reachable (N := N) x).sound
  obtain ⟨hview, hgrounds⟩ := hsound.accepted m d haccepted
  rw [(hrun.unmoved hquiet hfree x).view] at hview
  rw [hsound.framed.committee]
  rcases hgrounds.listed with hlisted | ⟨hround, -⟩
  · exact hlisted
  · rw [hview] at hround
    exact absurd rfl hround

/-- So no quorum is left uncounted. -/
theorem quiescent_now (x : ι) : (N.record run x).now.Quiescent :=
  Record.concluded_run _ _ _ _ (sealable_now hrun hquiet hfree x).closable

theorem admitted_of_authentic
    {message : Message} (hview : message.view = N.firstView)
    (hauthentic : message.authenticate (N.setup x).scheme N.base.committee = .ok ())
    (horigin : message.checkOrigin N.base.committee = .ok ())
    (hcontent : message.checkContent (N.setup x).scheme (N.record run x).now.position = .ok ()) :
    message.triage (N.setup x).scheme (N.record run x).now.position = .ok .accept := by
  have hframed := (hquiet.neverResets.reachable (N := N) x).sound.framed
  rw [← hframed.position_committee] at hauthentic horigin
  refine Message.triage_of_checks hauthentic horigin ?_ hcontent
  exact hview.trans (hrun.unmoved hquiet hfree x).view.symm

/-- Whoever has a vote counted and is not faulty has cast it. -/
theorem prepared_of_counted
    {a : Address} {q : Signed Prepare} (hhonest : a ∉ N.faulty)
    (hq : (a, q) ∈ (N.record run x).now.round.prepares.entries) :
    q.author = a ∧ N.Prepared run a N.firstView q.payload.digest := by
  have hnever : N.NeverResets run := hquiet.neverResets
  obtain ⟨hkey, hview, hcredits⟩ := (hnever.reachable x).sound.prepares _ hq
  dsimp only at hkey hview hcredits
  subst hkey
  rw [(hrun.unmoved hquiet hfree x).view] at hview
  have hcast := prepared_of_credits hrun hnever hfree hcredits (congrArg View.height hview) hhonest
  rw [hview] at hcast
  exact ⟨rfl, hcast⟩

theorem committed_of_counted
    {a : Address} {q : Signed Commit} (hhonest : a ∉ N.faulty)
    (hq : (a, q) ∈ (N.record run x).now.round.commits.entries) :
    q.author = a ∧ N.Committed run a N.firstView q.payload.digest := by
  have hnever : N.NeverResets run := hquiet.neverResets
  obtain ⟨hkey, hview, hcredits⟩ := (hnever.reachable x).sound.commits _ hq
  dsimp only at hkey hview hcredits
  subst hkey
  rw [(hrun.unmoved hquiet hfree x).view] at hview
  have hcast := committed_of_credits hrun hnever hfree hcredits (congrArg View.height hview) hhonest
  rw [hview] at hcast
  exact ⟨rfl, hcast⟩

end Quiet

/-! ## What is heard lasts -/

section Lasting

variable {leader : ι} {m : JustifiedProposal} {d : Digest}

/-- What a message brings about whenever it arrives holds as soon as it was heard, if the round
keeps it. -/
theorem Opening.held_of_heard
    (held : Round → Prop) {message : Message} (hopening : N.Opening run leader m d)
    (hrun : N.Run run) (hquiet : Quiet run) (hfree : N.CollisionFree run)
    (hkept : ∀ r r', r.Leads r' → r'.view = r.view → held r → held r')
    (hreceive : ∀ run e, N.Run run → Quiet run → N.CollisionFree run →
      N.Opening (run ++ [e]) leader m d → e.node = x →
        ∃ j actions, (N.record run x).now.receive ((N.setup x).context e.turn.moment) message =
          .ok (j, actions) ∧ held j.round)
    (hheard : .message message ∈ (N.record run x).heard) :
    held (N.record run x).now.round := by
  induction hrun with
  | begin =>
      rw [heard_nil] at hheard
      exact absurd hheard List.not_mem_nil
  | @next run e hrun he ih =>
      have hbefore := (hrun.unmoved hquiet.before hfree.before x).view
      have hafter := ((hrun.next he).unmoved hquiet hfree x).view
      have hview := hafter.trans hbefore.symm
      rw [heard_next] at hheard
      rw [record_next] at hview ⊢
      split at hheard
      · rename_i hnode
        rw [if_pos hnode] at hview ⊢
        rcases List.mem_cons.mp hheard with hinput | hheard
        · obtain ⟨j, actions, hj, hheld⟩ :=
            hreceive run e hrun hquiet.before hfree.before hopening hnode
          rw [Record.now_turn_of_receive hinput.symm hj]
          exact hheld
        · have hresets := (neverResets_append_singleton.mp (hquiet.neverResets (N := N))).2
          rw [hnode] at hresets
          have hreachable := hquiet.before.neverResets.reachable (N := N) x
          exact hkept _ _ (hreachable.turn_moves hresets).leads hview
            (ih hopening.before hquiet.before hfree.before hheard)
      · rename_i hnode
        rw [if_neg hnode]
        exact ih hopening.before hquiet.before hfree.before hheard

end Lasting

section Opening

variable {leader : ι} {m : JustifiedProposal} {d : Digest} (hopening : N.Opening run leader m d)

include hopening

/-- The signatures in what a member has sent verify at the other members. -/
theorem Opening.verify_of_sent
    {message : Message} (hnever : N.NeverResets run) (hx : N.address x ∈ N.base.committee.members)
    (hsent : .broadcast message ∈ (N.record run y).made) {t : Attestation}
    (ht : t ∈ message.signatures N.hash) :
    (N.setup x).scheme.verify t.author t.digest t.signature = true := by
  have hauthored := (hnever.reachable y).authored hsent
  have hsigned := hauthored.signed
  rw [N.hash_eq y] at hsigned
  obtain ⟨hauthor, hsignature⟩ := hsigned t ht
  rw [hauthor, hsignature]
  exact hopening.verifies x y hx hauthored.member t.digest

theorem Opening.authenticate_of_sent
    {message : Message} (hnever : N.NeverResets run) (hx : N.address x ∈ N.base.committee.members)
    (hsent : .broadcast message ∈ (N.record run y).made) :
    message.authenticate (N.setup x).scheme N.base.committee = .ok () := by
  have hauthored := (hnever.reachable y).authored hsent
  exact hauthored.authenticate ((N.hash_eq x).trans (N.hash_eq y).symm)
    (hopening.verifies x y hx hauthored.member)

variable (hrun : N.Run run) (hquiet : Quiet run) (hfree : N.CollisionFree run)

include hrun hquiet hfree

/-- Votes for the leader's block agree with what is known of the proposal. -/
theorem Opening.checkDigest (x : ι) :
    Message.checkDigest (N.record run x).now.round.digest d = .ok () := by
  cases hdigest : (N.record run x).now.round.digest with
  | none => rfl
  | some d' =>
      obtain rfl := hopening.digest_unique hrun hquiet hfree hdigest
      exact require_eq_ok.mpr (beq_self_eq_true d')

theorem Opening.checkOrigin :
    (Message.proposal m).checkOrigin N.base.committee = .ok () := by
  have hauthored := (hquiet.neverResets.reachable (N := N) leader).authored
    (made_of_start hopening.sent)
  obtain ⟨hview, -⟩ := hopening.digest_leader hrun hquiet hfree
  obtain ⟨hlead, hmember⟩ := hopening.leads hrun hquiet hfree
  obtain ⟨z, hz⟩ := (hopening.passes leader hmember).header
  have hauthor : m.signed.author = N.address leader := hauthored.author
  simp only [Message.checkOrigin, bind_eq_ok, require_eq_ok, beq_iff_eq]
  exact ⟨(), by rw [hview, hlead, hauthor], by rw [hview, hz.number]; rfl⟩

/-! ## Who may propose -/

/-- The seals of the committee are not too many to be written: the leader's block lists it. -/
theorem Opening.size_le : N.base.committee.size ≤ Wire.maxLength := by
  obtain ⟨-, hmember⟩ := hopening.leads hrun hquiet hfree
  obtain ⟨z, hz⟩ := (hopening.passes leader hmember).header
  rw [Committee.size, ← hz.validators]
  exact (Header.extraData_validators hz.extraData).2.2

/-- Nobody but the leader can propose, and he has done so. -/
theorem Opening.isProposer_eq_false
    (hnone : (N.record run x).now.round.accepted = none) :
    (N.record run x).now.isProposer = false := by
  by_contra hproposer
  have hframed := (hquiet.neverResets.reachable (N := N) x).sound.framed
  rw [Bool.not_eq_false, Instance.isProposer, Bool.and_eq_true, beq_iff_eq, hframed.committee,
    hframed.self, (hrun.unmoved hquiet hfree x).view] at hproposer
  obtain ⟨hlead, hmember⟩ := hopening.leads hrun hquiet hfree
  obtain rfl := N.distinct leader x hmember (hlead.symm.trans hproposer.2)
  have hdigest := (hopening.digest_leader hrun hquiet hfree).2
  rw [Round.digest, hnone] at hdigest
  contradiction

/-- Every node finishes its start. -/
theorem Opening.exists_start (x : ι) :
    ∃ j actions, (N.base.fresh (N.setup x)).start ((N.setup x).context (N.moment x)) =
      .ok (j, actions) := by
  by_cases hleader : leader = x
  · subst hleader
    exact Instance.exists_start_of_proposal hopening.sent (hopening.size_le hrun hquiet hfree)
  · apply Instance.exists_start_of_idle
    by_contra hproposer
    rw [Bool.not_eq_false, Instance.isProposer, Bool.and_eq_true, beq_iff_eq] at hproposer
    obtain ⟨hlead, hmember⟩ := hopening.leads hrun hquiet hfree
    exact hleader (N.distinct leader x hmember (hlead.symm.trans hproposer.2))

variable (hdelivered : N.Delivered run)

include hdelivered

/-! ## Everybody takes the leader's block -/

/-- The leader's block is in force at all members. -/
theorem Opening.digest_now
    (hx : N.address x ∈ N.base.committee.members) :
    (N.record run x).now.round.digest = some d := by
  by_cases hleader : leader = x
  · rw [← hleader]
    exact (hopening.digest_leader hrun hquiet hfree).2
  · have hsent : .broadcast (.proposal m) ∈ (N.record run leader).made :=
      made_of_start hopening.sent
    have hauthentic := hopening.authenticate_of_sent hquiet.neverResets hx hsent
    obtain ⟨hview, -⟩ := hopening.digest_leader hrun hquiet hfree
    have horigin := hopening.checkOrigin hrun hquiet hfree
    obtain ⟨z, hz⟩ := (hopening.passes x hx).header
    have haccepted : ∃ a, (N.record run x).now.round.accepted = some a := by
      refine hopening.held_of_heard (fun r => ∃ a, r.accepted = some a) hrun hquiet hfree
        (fun r r' hleads hsame ⟨a, ha⟩ => ⟨a, (hleads.kept hsame).1 a ha⟩)
        ?_ (hdelivered leader x _ hx hleader hsent)
      intro run e hrun hquiet hfree hopening hnode
      have hframed := (hquiet.neverResets.reachable (N := N) x).sound.framed
      have hgood := hopening.good x hx e.turn.moment (moment_mem_moments hnode)
      rw [← hframed.parent, ← hframed.parentDigest, ← hframed.committee] at hgood
      exact Instance.receive_proposal (c := (N.setup x).context e.turn.moment)
        (admitted_of_authentic hrun hquiet hfree hview hauthentic horigin rfl) hgood hz.extraData
        (by rw [hz.validators, hframed.committee])
    obtain ⟨⟨m', d'⟩, haccepted⟩ := haccepted
    have hdigest := Round.digest_eq_some.mpr ⟨m', haccepted⟩
    obtain rfl := hopening.digest_unique hrun hquiet hfree hdigest
    exact hdigest

/-- All members have prepared the leader's block. -/
theorem Opening.prepared_now
    (hx : N.address x ∈ N.base.committee.members) :
    N.Prepared run (N.address x) N.firstView d := by
  have hreachable := hquiet.neverResets.reachable (N := N) x
  obtain ⟨m', haccepted⟩ :=
    Round.digest_eq_some.mp (hopening.digest_now hrun hquiet hfree hdelivered hx)
  obtain ⟨p, hp, hpayload⟩ :=
    hreachable.logged.voted (isMember_of_mem hquiet.neverResets hx) m' d haccepted
  rw [(hrun.unmoved hquiet hfree x).view] at hpayload
  exact ⟨x, p, rfl, hp, hpayload⟩

/-! ## Everybody counts the votes for it -/

/-- Where a prepare for the leader's block has arrived, its author has one. -/
theorem Opening.prepare_arrives
    {p : Signed Prepare} (hx : N.address x ∈ N.base.committee.members)
    (hsent : .broadcast (.prepare p) ∈ (N.record run y).made)
    (hpayload : p.payload = ⟨N.firstView, d⟩) :
    ∃ q, (p.author, q) ∈ (N.record run x).now.round.prepares.entries := by
  have hview : p.payload.view = N.firstView := by rw [hpayload]
  by_cases hself : y = x
  · subst hself
    exact (hquiet.neverResets.reachable y).counts_own_prepare hsent
      (hview.trans (hrun.unmoved hquiet hfree y).view.symm)
  · have hauthentic := hopening.authenticate_of_sent hquiet.neverResets hx hsent
    refine hopening.held_of_heard (fun r => ∃ q, (p.author, q) ∈ r.prepares.entries) hrun hquiet
      hfree (fun r r' hleads hsame ⟨q, hq⟩ => ⟨q, (hleads.kept hsame).2.1 _ hq⟩)
      ?_ (hdelivered y x _ hx hself hsent)
    intro run e hrun hquiet hfree hopening _
    refine Instance.receive_prepare (c := (N.setup x).context e.turn.moment)
      (sealable_now hrun hquiet hfree x)
      (admitted_of_authentic hrun hquiet hfree hview hauthentic rfl ?_)
    rw [Message.checkContent, hpayload]
    exact hopening.before.checkDigest hrun hquiet hfree x

theorem Opening.commit_arrives
    {p : Signed Commit} (hx : N.address x ∈ N.base.committee.members)
    (hsent : .broadcast (.commit p) ∈ (N.record run y).made)
    (hview : p.payload.view = N.firstView) (hdigest : p.payload.digest = d) :
    ∃ q, (p.author, q) ∈ (N.record run x).now.round.commits.entries := by
  by_cases hself : y = x
  · subst hself
    exact (hquiet.neverResets.reachable y).counts_own_commit hsent
      (hview.trans (hrun.unmoved hquiet hfree y).view.symm)
  · have hauthentic := hopening.authenticate_of_sent hquiet.neverResets hx hsent
    have hseal := hopening.verify_of_sent hquiet.neverResets hx hsent
      (List.mem_cons_of_mem _ List.mem_cons_self)
    refine hopening.held_of_heard (fun r => ∃ q, (p.author, q) ∈ r.commits.entries) hrun hquiet
      hfree (fun r r' hleads hsame ⟨q, hq⟩ => ⟨q, (hleads.kept hsame).2.2 _ hq⟩)
      ?_ (hdelivered y x _ hx hself hsent)
    intro run e hrun hquiet hfree hopening _
    refine Instance.receive_commit (c := (N.setup x).context e.turn.moment)
      (sealable_now hrun hquiet hfree x)
      (admitted_of_authentic hrun hquiet hfree hview hauthentic rfl ?_)
    rw [Message.checkContent, hdigest]
    refine bind_eq_ok.mpr ⟨(), hopening.before.checkDigest hrun hquiet hfree x,
      require_eq_ok.mpr ?_⟩
    rw [← hdigest]
    exact hseal

/-- A member counts the prepares of the others for the leader's block.  Whichever prepare of an
author is counted, it is for the only digest that he has prepared. -/
theorem Opening.counts_prepare
    {a : Address} (hx : N.address x ∈ N.base.committee.members)
    (hprepared : N.Prepared run a N.firstView d) :
    ∃ q ∈ (N.record run x).now.round.matchingPrepares, q.author = a := by
  have hnever : N.NeverResets run := hquiet.neverResets
  obtain ⟨y, p, rfl, hsent, hpayload⟩ := hprepared
  have hauthor : p.author = N.address y := ((hnever.reachable y).authored hsent).author
  obtain ⟨q, hq⟩ := hopening.prepare_arrives hrun hquiet hfree hdelivered hx hsent hpayload
  rw [hauthor] at hq
  obtain ⟨hkey, hcast⟩ := prepared_of_counted hrun hquiet hfree (N.honest y) hq
  have hdigest := prepared_unique hnever hcast ⟨y, p, rfl, hsent, hpayload⟩
  refine ⟨q, List.mem_filter.mpr ⟨SortedMap.mem_values.mpr ⟨_, hq⟩, ?_⟩, hkey⟩
  rw [hdigest, hopening.digest_now hrun hquiet hfree hdelivered hx]
  exact beq_self_eq_true _

theorem Opening.counts_commit
    {a : Address} (hx : N.address x ∈ N.base.committee.members)
    (hcommitted : N.Committed run a N.firstView d) :
    ∃ q ∈ (N.record run x).now.round.matchingCommits, q.author = a := by
  have hnever : N.NeverResets run := hquiet.neverResets
  have hprepared := prepared_of_committed hnever hcommitted
  obtain ⟨y, p, rfl, hsent, hview, hsame⟩ := hcommitted
  have hauthor : p.author = N.address y := ((hnever.reachable y).authored hsent).author
  obtain ⟨q, hq⟩ := hopening.commit_arrives hrun hquiet hfree hdelivered hx hsent hview hsame
  rw [hauthor] at hq
  obtain ⟨hkey, hcast⟩ := committed_of_counted hrun hquiet hfree (N.honest y) hq
  have hdigest := prepared_unique hnever (prepared_of_committed hnever hcast) hprepared
  refine ⟨q, List.mem_filter.mpr ⟨SortedMap.mem_values.mpr ⟨_, hq⟩, ?_⟩, hkey⟩
  rw [hdigest, hopening.digest_now hrun hquiet hfree hdelivered hx]
  exact beq_self_eq_true _

end Opening

/-! ## Nothing breaks down -/

/-- Every node finishes its start and all its turns, so that whatever it asks for is done. -/
structure Unbroken (N : Assembly ι) (run : List (Happening ι)) : Prop where
  start : ∀ x, ∃ j actions,
    (N.base.fresh (N.setup x)).start ((N.setup x).context (N.moment x)) = .ok (j, actions)
  turns : ∀ earlier e later, run = earlier ++ e :: later → ∃ j actions,
    (N.record earlier e.node).answer (N.setup e.node) e.turn = .ok (j, actions)

section Unbroken

variable {leader : ι} {m : JustifiedProposal} {d : Digest} {e : Happening ι}

/-- A node takes up whatever it hears: no quorum asks for a round, and votes can be counted. -/
theorem Opening.exists_answer
    (hopening : N.Opening run leader m d) (hrun : N.Run run) (he : N.Admissible run e)
    (hquiet : Quiet (run ++ [e])) (hfree : N.CollisionFree (run ++ [e])) :
    ∃ j actions, (N.record run e.node).answer (N.setup e.node) e.turn = .ok (j, actions) := by
  have hreachable := hquiet.before.neverResets.reachable (N := N) e.node
  have hrobust : (N.record run e.node).now.Robust (N.setup e.node).signer.address :=
    hreachable.attainable.robust
  have hsize : (N.record run e.node).now.committee.size ≤ Wire.maxLength := by
    rw [hreachable.sound.framed.committee]
    exact hopening.size_le hrun hquiet.before hfree.before
  rw [Record.answer]
  cases hinput : e.turn.input with
  | expiry view => exact absurd hinput (hquiet e List.mem_concat_self view)
  | message message =>
      refine hrobust.exists_process (c := (N.setup e.node).context e.turn.moment) hsize message ?_
      rintro q rfl hadmitted
      refine Instance.exists_onRoundChange_of (fun hquorum => ?_) ?_
      · -- The node would be pressed by what it has heard.
        have hheard : e.turn.input :: (N.record run e.node).heard =
            (N.record (run ++ [e]) e.node).heard := by rw [heard_next, if_pos rfl]
        have hcounted := (hreachable.hear e.turn.input).move 
          (.request q (by rw [hinput]; exact List.mem_cons_self) hadmitted)
        have hnone := hcounted.hasQuorum_eq_false
          (fun view hview => hquiet.heard e.node view (hheard ▸ hview))
          (fun hpressed => (hrun.next he).not_pressed hquiet hfree e.node
            (hpressed.of_heard hheard.symm)) q.payload.view.round
        exact absurd hquorum (Bool.eq_false_iff.mp hnone)
      · have hidle := Instance.propose_of_idle (c := (N.setup e.node).context e.turn.moment)
          (i := (N.record run e.node).now.requesting q) fun hnone =>
            hopening.isProposer_eq_false hrun hquiet.before hfree.before hnone
        exact ⟨_, _, hidle⟩

theorem Opening.unbroken
    (hopening : N.Opening run leader m d) (hrun : N.Run run) (hquiet : Quiet run)
    (hfree : N.CollisionFree run) : N.Unbroken run := by
  refine ⟨hopening.exists_start hrun hquiet hfree, ?_⟩
  induction hrun with
  | begin =>
      intro earlier e later heq
      exact absurd heq (by simp)
  | next hrun he ih =>
      refine forall_splits_append_singleton.mpr ⟨?_, ?_⟩
      · exact ih hopening.before hquiet.before hfree.before
      · exact hopening.before.exists_answer hrun he hquiet hfree

end Unbroken

end QuorumChain.Assembly
