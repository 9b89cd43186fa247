import QuorumChain.Proofs.Assembly.Authenticity
import QuorumChain.Proofs.Node.Tally

/-!
# The first round

As long as no timer ends, nobody leaves round zero: it would take a request of a member who is not
faulty, and the first of those would have to be pressed by another one.  If the leader of the round
is not faulty, his block is the only one that anybody takes, because nothing else that he signs can
be mistaken for a proposal.
-/

namespace QuorumChain.Assembly

variable {ι : Type} {run : List (Happening ι)} {e : Happening ι} {x : ι}

/-- No timer ends in a run. -/
def Quiet (run : List (Happening ι)) : Prop :=
  ∀ e ∈ run, ∀ view, e.turn.input ≠ .expiry view

/-! ## Parts of a run -/

theorem Quiet.before (h : Quiet (run ++ [e])) : Quiet run :=
  fun e' he' => h e' (List.mem_append_left _ he')

variable [DecidableEq ι] {N : Assembly ι}

theorem writings_next : N.writings run ⊆ N.writings (run ++ [e]) := by
  rintro w (⟨x, m, hm, hw⟩ | helsewhere)
  · exact .inl ⟨x, m, hm.imp (record_extends.heard _) (record_extends.made _), hw⟩
  · exact .inr helsewhere

theorem CollisionFree.before (h : N.CollisionFree (run ++ [e])) : N.CollisionFree run :=
  h.mono writings_next

theorem made_of_start
    {a : Action} (ha : a ∈ (N.record [] x).made) : a ∈ (N.record run x).made := by
  induction run using List.reverseRecOn with
  | nil => exact ha
  | append_singleton run e ih => exact record_extends.made _ ih

theorem Quiet.heard (h : Quiet run) (x : ι) (view : View) :
    .expiry view ∉ (N.record run x).heard := by
  induction run using List.reverseRecOn with
  | nil =>
      rw [heard_nil]
      exact List.not_mem_nil
  | append_singleton run e ih =>
      rw [heard_next]
      split
      · intro hmem
        rcases List.mem_cons.mp hmem with heq | hmem
        · exact h e (List.mem_append_right _ List.mem_cons_self) view heq.symm
        · exact ih h.before hmem
      · exact ih h.before

theorem Quiet.neverResets (h : Quiet run) : N.NeverResets run := by
  rintro earlier e later heq ⟨view, hinput, -⟩
  refine h e ?_ view hinput
  rw [heq]
  exact List.mem_append_right _ List.mem_cons_self

/-! ## Nobody leaves -/

/-- Without timers, no quorum of members asks for a round. -/
theorem Run.not_pressed
    (hrun : N.Run run) (hquiet : Quiet run) (hfree : N.CollisionFree run) (x : ι) :
    ¬(N.record run x).Pressed (N.setup x) N.base := by
  induction hrun generalizing x with
  | begin =>
      intro hpressed
      obtain ⟨q, -, hheeded⟩ := hpressed.exists_honest N.few
      exact List.not_mem_nil hheeded.heard
  | @next run e hrun he ih =>
      intro hpressed
      obtain ⟨q, hhonest, hheard, hcheck, hpayload, hheight⟩ := hpressed.exists_honest N.few
      obtain ⟨hwritable, hverify, -⟩ := Signed.check_eq_ok.mp hcheck
      rw [N.hash_eq x] at hverify
      have hwriting : Payload.writing q.payload ∈ N.writings (run ++ [e]) :=
        writing_of_heard hheard List.mem_cons_self
      -- The signature was made before the message arrived, so by an earlier request.
      have hmade : N.Made run (q.attestation N.hash) ∨ N.MadeElsewhere (q.attestation N.hash) := by
        rw [heard_next] at hheard
        split at hheard
        · rename_i hnode
          rcases List.mem_cons.mp hheard with hinput | hheard
          · rw [Admissible, ← hinput, hnode] at he
            exact he _ List.mem_cons_self hhonest hverify
          · exact hrun.made_of_heard hheard List.mem_cons_self hhonest hverify
        · exact hrun.made_of_heard hheard List.mem_cons_self hhonest hverify
      have hnever : N.NeverResets run := hquiet.before.neverResets
      rcases cast_or_sealed_of_made hnever hfree writings_next hmade hheight hwritable hwriting
        with ⟨y, q', -, hsent, -⟩ | ⟨y, p, hsent, hdigest⟩
      · have hunmoved := ((hnever.reachable y).pressed_or_unmoved
          (hquiet.before.heard y)).resolve_left (ih hquiet.before hfree.before y)
        exact hunmoved.silent q' hsent
      · refine request_not_sealed hrun hnever hfree.before hfree writings_next hwriting ?_ hsent
          hdigest
        intro c hc
        obtain ⟨-, d, hbacks⟩ := RoundChange.upheld_of_check hpayload c hc
        exact hbacks.quorum

/-- So nobody leaves round zero or asks for another round. -/
theorem Run.unmoved
    (hrun : N.Run run) (hquiet : Quiet run) (hfree : N.CollisionFree run) (x : ι) :
    (N.record run x).Unmoved (N.setup x) N.base :=
  ((hquiet.neverResets.reachable x).pressed_or_unmoved (hquiet.heard x)).resolve_left
    (hrun.not_pressed hquiet hfree x)

/-! ## The leader's block -/

/-- What a node is given when it starts and at its turns. -/
def moments (N : Assembly ι) (run : List (Happening ι)) (x : ι) : List Setup.Moment :=
  N.moment x :: (turnsOf run x).map (·.moment)

/-- The start of a height with a leader who is not faulty, and what the members find of his proposal
in a run. -/
structure Opening (N : Assembly ι) (run : List (Happening ι)) (leader : ι) (m : JustifiedProposal)
    (d : Digest) : Prop where
  /-- All members who are not faulty have a node. -/
  present : ∀ a ∈ N.base.committee.members, a ∉ N.faulty → ∃ x, N.address x = a
  /-- The signatures of members with a node verify at the others. -/
  verifies : ∀ x y, N.address x ∈ N.base.committee.members →
    N.address y ∈ N.base.committee.members → ∀ digest,
      (N.setup x).scheme.verify (N.address y) digest ((N.setup y).signer.sign digest) = true
  /-- The leader proposes a block at the start. -/
  sent : .broadcast (.proposal m) ∈ (N.record [] leader).made
  /-- The proposal passes the check of every member with a node, whichever engine it has to ask. -/
  good : ∀ x, N.address x ∈ N.base.committee.members → ∀ moment ∈ N.moments run x,
    m.check (N.setup x).scheme moment.execution N.base.parent N.base.parentDigest
      N.base.committee = .ok d

theorem moments_before {moment : Setup.Moment} (h : moment ∈ N.moments run x) :
    moment ∈ N.moments (run ++ [e]) x := by
  rcases List.mem_cons.mp h with rfl | h
  · exact List.mem_cons_self
  · obtain ⟨t, ht, rfl⟩ := List.mem_map.mp h
    refine List.mem_cons_of_mem _ (List.mem_map_of_mem ?_)
    rw [turnsOf, List.filter_append, List.map_append]
    exact List.mem_append_left _ ht

theorem moment_mem_moments (h : e.node = x) : e.turn.moment ∈ N.moments (run ++ [e]) x := by
  refine List.mem_cons_of_mem _ (List.mem_map_of_mem ?_)
  rw [turnsOf, List.filter_append, List.map_append]
  exact List.mem_append_right _ (by simp [h])

theorem Opening.before
    {leader : ι} {m : JustifiedProposal} {d : Digest} (h : N.Opening (run ++ [e]) leader m d) :
    N.Opening run leader m d :=
  { h with good := fun x hx moment hmoment => h.good x hx moment (moments_before hmoment) }

theorem Opening.passes
    {leader : ι} {m : JustifiedProposal} {d : Digest} (h : N.Opening run leader m d) (x : ι)
    (hx : N.address x ∈ N.base.committee.members) :
    m.Passes (N.setup x).scheme N.base.parent N.base.parentDigest N.base.committee d :=
  JustifiedProposal.passes_of_check (h.good x hx (N.moment x) List.mem_cons_self)

/-- What holds of all members with a node holds of a quorum. -/
theorem Opening.quorate
    {leader : ι} {m : JustifiedProposal} {d : Digest} (h : N.Opening run leader m d)
    (p : Address → Prop)
    (hall : ∀ x, N.address x ∈ N.base.committee.members → p (N.address x)) :
    N.base.committee.Quorate fun a => a ∉ N.faulty ∧ p a := by
  apply (Committee.quorate_honest N.few).mono
  intro a hmember hhonest
  obtain ⟨x, rfl⟩ := h.present a hmember hhonest
  exact ⟨hhonest, hall x hmember⟩

/-- The view in which a height begins. -/
def firstView (N : Assembly ι) : View :=
  ⟨N.base.height, 0⟩

section Leader

variable {leader : ι} {m : JustifiedProposal} {d : Digest} (hrun : N.Run run)
  (hquiet : Quiet run) (hfree : N.CollisionFree run)

include hrun hquiet hfree

/-- Whatever a node has settled in a view of the height it has settled in the first one. -/
theorem digest_of_settled
    {v : View} {d' : Digest} (h : (N.record run x).Settled N.base v d') :
    v = N.firstView ∧ (N.record run x).now.round.digest = some d' := by
  have hview := (hrun.unmoved hquiet hfree x).view
  have hround : v.round = 0 := by
    have hle := h.1.2
    rw [hview] at hle
    exact UInt32.le_antisymm hle (UInt32.zero_le)
  have hv : v = N.firstView := View.eq_of_eq h.1.1 hround
  exact ⟨hv, h.2 (hv.trans hview.symm)⟩

variable (hopening : N.Opening run leader m d)

include hopening

/-- The leader keeps its own block in force. -/
theorem Opening.digest_leader :
    m.signed.payload.view = N.firstView ∧ (N.record run leader).now.round.digest = some d := by
  have hreachable := hquiet.neverResets.reachable (N := N) leader
  obtain ⟨d', hsettled, hgrounds⟩ :=
    hreachable.logged.proposals m (made_of_start hopening.sent)
  obtain ⟨hview, hdigest⟩ := digest_of_settled hrun hquiet hfree hsettled
  have hmember := (hreachable.authored (made_of_start hopening.sent)).member
  have hpasses := hopening.passes leader hmember
  have hsame := hgrounds.digest.symm.trans hpasses.digest
  cases hsame
  exact ⟨hview, hdigest⟩

theorem Opening.leads :
    N.base.committee.proposer N.firstView = N.address leader ∧
      N.address leader ∈ N.base.committee.members := by
  have hreachable := hquiet.neverResets.reachable (N := N) leader
  have hleads := hreachable.leads (made_of_start hopening.sent)
  rw [(hopening.digest_leader hrun hquiet hfree).1] at hleads
  exact ⟨hleads, (hreachable.authored (made_of_start hopening.sent)).member⟩

/-- The leader seals its own block only, whose header is not written as a good proposal is. -/
theorem Opening.leader_not_sealed
    {m' : JustifiedProposal} {d' : Digest} {c : Signed Commit}
    (hsent : .broadcast (.commit c) ∈ (N.record run leader).made)
    (hwriting : Payload.writing m'.signed.payload ∈ N.writings run)
    (hpasses : m'.Passes (N.setup x).scheme N.base.parent N.base.parentDigest N.base.committee d') :
    c.payload.digest ≠ N.hash (Payload.writing m'.signed.payload) := by
  intro hsame
  obtain ⟨-, hdigest⟩ := hopening.digest_leader hrun hquiet hfree
  obtain ⟨-, hmember⟩ := hopening.leads hrun hquiet hfree
  have hlogged := (hquiet.neverResets.reachable (N := N) leader).logged
  have hd := (digest_of_settled hrun hquiet hfree (hlogged.commits c hsent).1).2
  rw [hdigest, Option.some.injEq] at hd
  have hgood := hopening.passes leader hmember
  obtain ⟨-, hhash⟩ := Header.digest_eq_ok hgood.digest
  rw [N.hash_eq leader] at hhash
  have hheader : m.signed.payload.block.header.writing ∈ N.writings run :=
    writing_of_made (made_of_start hopening.sent) (List.mem_cons_of_mem _ List.mem_cons_self)
  have heq := hfree hwriting hheader (hsame.symm.trans (hd.symm.trans hhash))
  obtain ⟨z, hz⟩ := hgood.header
  exact MessageKind.writing_ne_header (k := .proposal) hz.extraData
    (MessageKind.outlists_of_passes hz hpasses) heq

/-- What was signed as a proposal of the leader is the proposal of a block with the same digest. -/
theorem Opening.digest_of_made
    {m' : JustifiedProposal} {d' : Digest}
    (hheard : .message (.proposal m') ∈ (N.record run x).heard)
    (hmade : N.Made run (m'.signed.attestation N.hash) ∨
      N.MadeElsewhere (m'.signed.attestation N.hash))
    (hview : m'.signed.payload.view = N.firstView)
    (hauthor : m'.signed.author = N.address leader) (hwritable : Payload.Writable m'.signed.payload)
    (hpasses : m'.Passes (N.setup x).scheme N.base.parent N.base.parentDigest N.base.committee d') :
    d' = d := by
  obtain ⟨-, hmember⟩ := hopening.leads hrun hquiet hfree
  have hwriting : Payload.writing m'.signed.payload ∈ N.writings run :=
    writing_of_heard hheard List.mem_cons_self
  have hmade := hmade.resolve_right fun helsewhere =>
    absurd (congrArg View.height hview)
      (helsewhere.height_ne (m := .proposal m') hfree subset_rfl hwritable hwriting rfl)
  obtain ⟨y, sent, haddress, hsent, hsentWritable, hsentWriting, hsame⟩ :=
    sent_of_made hquiet.neverResets hmade
  obtain rfl : leader = y := N.distinct leader y hmember (hauthor.symm.trans haddress.symm)
  rcases hsame with hsame | ⟨c, rfl, hsame⟩
  · have heq := hfree hsentWriting hwriting hsame
    cases sent with
    | proposal q =>
        have hpayload := Payload.writing_inj hsentWritable hwritable heq
        obtain ⟨d'', hsettled, hgrounds⟩ :=
          (hquiet.neverResets.reachable (N := N) leader).logged.proposals q hsent
        have hd := (digest_of_settled hrun hquiet hfree hsettled).2
        rw [(hopening.digest_leader hrun hquiet hfree).2] at hd
        cases hd
        have hgot := hgrounds.digest
        rw [hpayload, N.hash_eq leader] at hgot
        have hgot' := hpasses.digest
        rw [N.hash_eq x, hgot] at hgot'
        cases hgot'
        rfl
    | _ => exact absurd heq (Payload.writing_ne (by decide))
  · exact absurd hsame (hopening.leader_not_sealed hrun hquiet hfree hsent hwriting hpasses)

/-- Nobody takes another block than the leader's. -/
theorem Opening.digest_unique
    {d' : Digest} (h : (N.record run x).now.round.digest = some d') : d' = d := by
  obtain ⟨m', haccepted⟩ := Round.digest_eq_some.mp h
  have hreachable := hquiet.neverResets.reachable (N := N) x
  obtain ⟨hlead, hmember⟩ := hopening.leads hrun hquiet hfree
  have hview : m'.signed.payload.view = N.firstView :=
    (hreachable.sound.accepted m' d' haccepted).1.trans (hrun.unmoved hquiet hfree x).view
  rcases hreachable.vetted haccepted with hown | hvetted
  · have hx := hreachable.leads hown
    rw [hview, hlead] at hx
    obtain rfl := N.distinct leader x hmember hx
    rw [(hopening.digest_leader hrun hquiet hfree).2] at h
    cases h
    rfl
  · have hauthor := hvetted.author
    rw [hview, hlead] at hauthor
    have hhonest : m'.signed.author ∉ N.faulty := by
      rw [← hauthor]
      exact N.honest leader
    obtain ⟨hwritable, hverify, -⟩ := Signed.check_eq_ok.mp hvetted.signed
    rw [N.hash_eq x] at hverify
    have hmade := hrun.made_of_heard hvetted.heard List.mem_cons_self hhonest hverify
    exact hopening.digest_of_made hrun hquiet hfree hvetted.heard hmade hview hauthor.symm hwritable
      hvetted.passes

end Leader

end QuorumChain.Assembly
