import QuorumChain.Proofs.Node.Invariant

/-!
# What a node has said

The messages of a node tell what it has settled.  In each round it prepares at most one block, and
it commits only what it has prepared and what a quorum has prepared.  Once it has committed, it
holds a prepared certificate of that round or of a later one, and all its later requests carry it.
A block that it hands out has a quorum of commits.
-/

namespace QuorumChain

namespace Record

/-! ## What is settled in the present round -/

section Present

variable {s : Setup} {b : Base} {r : Record} {moment : Setup.Moment} {actions : List Action}
  {j : Instance}

/-- A view of the height that is not later than the present one. -/
def Past (b : Base) (r : Record) (v : View) : Prop :=
  v.height = b.height ∧ v.round ≤ r.now.view.round

/-- A view that is not later, in which a digest is settled if it is the present one. -/
def Settled (b : Base) (r : Record) (v : View) (d : Digest) : Prop :=
  r.Past b v ∧ (v = r.now.view → r.now.round.digest = some d)

/-- A view that is not later than some certificate of the node. -/
def Locked (r : Record) (v : View) : Prop :=
  ∃ c, r.now.prepared = some c ∧ v.round ≤ c.view.round

/-- A quorum of credited commits for a digest in a view. -/
def Decides (s : Setup) (b : Base) (r : Record) (view : View) (d : Digest) : Prop :=
  ∃ commits : List (Signed Commit),
    (commits.map (·.author)).Nodup ∧ b.committee.quorum ≤ commits.length ∧
      ∀ p ∈ commits, p.payload.view = view ∧ p.payload.digest = d ∧ r.Credits s b p

/-- Only one digest is settled in the present view. -/
theorem Settled.unique
    {v : View} {d d' : Digest} (h : r.Settled b v d) (h' : r.Settled b v d')
    (hview : v = r.now.view) : d = d' := by
  have hdigest := h.2 hview
  rw [h'.2 hview] at hdigest
  exact (Option.some.inj hdigest).symm

theorem Decides.mono
    {r' : Record} {view : View} {d : Digest} (h : r.Decides s b view d) (hle : r.Extends r') :
    r'.Decides s b view d := by
  obtain ⟨commits, hnodup, hquorum, hcommits⟩ := h
  refine ⟨commits, hnodup, hquorum, ?_⟩
  intro p hp
  obtain ⟨hview, hdigest, hcredits⟩ := hcommits p hp
  exact ⟨hview, hdigest, hcredits.mono hle⟩

theorem Past.ne_of_rises {v : View} (h : r.Past b v) (hrises : r.now.Rises j) : v ≠ j.view := by
  intro hview
  have hle := h.2
  rw [hview] at hle
  exact UInt32.not_lt.mpr hle hrises.later

variable (hmove : Instance.Move (s.context moment) r.heard r.now actions j)

include hmove

theorem Past.moved {v : View} (h : r.Past b v) : (r.moved j actions).Past b v := by
  refine ⟨h.1, ?_⟩
  show v.round ≤ j.view.round
  rcases hmove.lasts_or_rises with hlasts | hrises
  · rw [hlasts.view]
    exact h.2
  · exact UInt32.le_trans h.2 (UInt32.le_of_lt hrises.later)

theorem Settled.moved
    {v : View} {d : Digest} (h : r.Settled b v d) : (r.moved j actions).Settled b v d := by
  refine ⟨h.1.moved hmove, ?_⟩
  intro hview
  change v = j.view at hview
  rcases hmove.lasts_or_rises with hlasts | hrises
  · rw [hlasts.view] at hview
    exact hlasts.digest (h.2 hview)
  · exact absurd hview (h.1.ne_of_rises hrises)

theorem Locked.moved
    {v : View} (hsound : Sound s b r) (h : r.Locked v) : (r.moved j actions).Locked v := by
  obtain ⟨c, hc, hle⟩ := h
  have hpresent : v.round ≤ r.now.view.round :=
    UInt32.le_trans hle (hsound.prepared c hc).1
  cases hmove with
  | follow d m haccepted =>
      refine ⟨_, rfl, ?_⟩
      show v.round ≤ m.signed.payload.view.round
      rw [(hsound.accepted m d haccepted).1]
      exact hpresent
  | certify d m p haccepted =>
      refine ⟨_, rfl, ?_⟩
      show v.round ≤ m.signed.payload.view.round
      rw [(hsound.accepted m d haccepted).1]
      exact hpresent
  | _ => exact ⟨c, hc, hle⟩

end Present

/-! ## The messages of a node -/

/-- Every message that a node has sent tells what it goes by. -/
structure Logged (s : Setup) (b : Base) (r : Record) : Prop where
  voted : r.now.isMember = true → ∀ m d, r.now.round.accepted = some (m, d) →
    ∃ p, .broadcast (.prepare p) ∈ r.made ∧ p.payload = ⟨r.now.view, d⟩
  proposals : ∀ m, .broadcast (.proposal m) ∈ r.made →
    ∃ d, r.Settled b m.signed.payload.view d ∧ r.Grounds s b m d
  prepares : ∀ p, .broadcast (.prepare p) ∈ r.made →
    r.Settled b p.payload.view p.payload.digest ∧
      ∃ m, m.signed.payload.view = p.payload.view ∧ r.Grounds s b m p.payload.digest
  commits : ∀ p, .broadcast (.commit p) ∈ r.made →
    r.Settled b p.payload.view p.payload.digest ∧ r.Locked p.payload.view ∧
      (∃ p', .broadcast (.prepare p') ∈ r.made ∧
        p'.payload = ⟨p.payload.view, p.payload.digest⟩) ∧
      ∃ c, c.view = p.payload.view ∧ r.Supports s b c p.payload.digest
  requests : ∀ q, .broadcast (.roundChange q) ∈ r.made →
    r.Past b q.payload.view ∧ r.Upholds s b q ∧
      ∀ p, .broadcast (.commit p) ∈ r.made → p.payload.view.round < q.payload.view.round →
        ∃ c, q.payload.prepared = some c ∧ p.payload.view.round ≤ c.view.round
  imports : ∀ block, .importBlock block ∈ r.made →
    ∃ view d, view.height = b.height ∧ block.header.digest s.scheme.hash = .ok d ∧
      r.Decides s b view d

variable {s : Setup} {b : Base} {r : Record} {moment : Setup.Moment} {actions : List Action}
  {j : Instance}

/-! ## One move -/

section Move

/-- What is accepted behind a move in an unchanged view is settled. -/
theorem Sound.settled_accepted
    {m : JustifiedProposal} {d : Digest} (hsound : Sound s b r) (hview : j.view = r.now.view)
    (haccepted : j.round.accepted = some (m, d)) :
    (r.moved j actions).Settled b r.now.view d := by
  refine ⟨⟨hsound.framed.height, ?_⟩, fun _ => Round.digest_eq_some.mpr ⟨m, haccepted⟩⟩
  show r.now.view.round ≤ j.view.round
  rw [hview]
  exact UInt32.le_refl _

variable (hsound : Sound s b r) (h : Logged s b r)
  (hmove : Instance.Move (s.context moment) r.heard r.now actions j)

include hsound h hmove

omit hsound in
theorem Logged.voted_moved :
    j.isMember = true → ∀ m d, j.round.accepted = some (m, d) →
      ∃ p, .broadcast (.prepare p) ∈ (r.moved j actions).made ∧ p.payload = ⟨j.view, d⟩ := by
  intro hmember m d haccepted
  obtain ⟨-, -, hcommittee, hself⟩ := hmove.base
  rw [Instance.isMember, hcommittee, hself] at hmember
  have hview : j.view = r.now.view := by
    rcases hmove.lasts_or_rises with hlasts | hrises
    · exact hlasts.view
    · rw [hrises.accepted] at haccepted
      contradiction
  rw [hview]
  rcases hmove.prepares_accepted hmember haccepted with hold | ⟨p, hp, hsigned⟩
  · obtain ⟨p, hp, hpayload⟩ := h.voted hmember m d hold
    exact ⟨p, (r.extends_moved j actions).made _ hp, hpayload⟩
  · exact ⟨p, mem_moved hp, (Signer.prepare_eq_ok hsigned).2.1⟩

theorem Logged.proposals_moved :
    ∀ m, .broadcast (.proposal m) ∈ (r.moved j actions).made →
      ∃ d, (r.moved j actions).Settled b m.signed.payload.view d ∧
        (r.moved j actions).Grounds s b m d := by
  intro m hm
  rcases List.mem_append.mp hm with hm | hm
  · obtain ⟨d, hsettled, hgrounds⟩ := h.proposals m hm
    exact ⟨d, hsettled.moved hmove, hgrounds.mono (r.extends_moved j actions)⟩
  · obtain ⟨d, haccepted, hview, hpresent, hgrounds⟩ := hsound.grounds_own hmove hm
    refine ⟨d, ?_, hgrounds⟩
    rw [hpresent]
    exact hsound.settled_accepted hview haccepted

theorem Logged.prepares_moved :
    ∀ p, .broadcast (.prepare p) ∈ (r.moved j actions).made →
      (r.moved j actions).Settled b p.payload.view p.payload.digest ∧
        ∃ m, m.signed.payload.view = p.payload.view ∧
          (r.moved j actions).Grounds s b m p.payload.digest := by
  intro p hp
  rcases List.mem_append.mp hp with hp | hp
  · obtain ⟨hsettled, m, hview, hgrounds⟩ := h.prepares p hp
    exact ⟨hsettled.moved hmove, m, hview, hgrounds.mono (r.extends_moved j actions)⟩
  · obtain ⟨m, d, -, -, hsigned, hj⟩ := hmove.of_prepare hp
    obtain ⟨-, hpayload, -⟩ := Signer.prepare_eq_ok hsigned
    have hview : j.view = r.now.view := by rw [hj]; rfl
    have haccepted : j.round.accepted = some (m, d) := by rw [hj]; rfl
    obtain ⟨hpresent, hgrounds⟩ := hsound.accepted_moved hmove m d haccepted
    rw [hpayload]
    exact ⟨hsound.settled_accepted hview haccepted, m, hpresent.trans hview, hgrounds⟩

theorem Logged.commits_moved :
    ∀ p, .broadcast (.commit p) ∈ (r.moved j actions).made →
      (r.moved j actions).Settled b p.payload.view p.payload.digest ∧
        (r.moved j actions).Locked p.payload.view ∧
          (∃ p', .broadcast (.prepare p') ∈ (r.moved j actions).made ∧
            p'.payload = ⟨p.payload.view, p.payload.digest⟩) ∧
          ∃ c, c.view = p.payload.view ∧
            (r.moved j actions).Supports s b c p.payload.digest := by
  intro p hp
  rcases List.mem_append.mp hp with hp | hp
  · obtain ⟨hsettled, hlocked, ⟨p', hp', hsame⟩, c, hview, hsupports⟩ := h.commits p hp
    exact ⟨hsettled.moved hmove, hlocked.moved hmove hsound,
      ⟨p', (r.extends_moved j actions).made _ hp', hsame⟩, c, hview,
      hsupports.mono (r.extends_moved j actions)⟩
  · obtain ⟨m, d, hmember, haccepted, hquorum, hsigned, rfl⟩ := hmove.of_commit hp
    obtain ⟨-, hpayload, -⟩ := Signer.commit_eq_ok hsigned
    have hview := (hsound.accepted m d haccepted).1
    obtain ⟨p', hp', hsame⟩ := h.voted hmember m d haccepted
    rw [hpayload]
    refine ⟨hsound.settled_accepted rfl haccepted, ⟨_, rfl, ?_⟩,
      ⟨p', (r.extends_moved _ actions).made _ hp', hsame⟩,
      ⟨m.signed, r.now.round.matchingPrepares⟩, hview,
      (hsound.supports_matching haccepted hquorum).mono (r.extends_moved _ actions)⟩
    show r.now.view.round ≤ m.signed.payload.view.round
    rw [hview]
    exact UInt32.le_refl _

theorem Logged.requests_moved :
    ∀ q, .broadcast (.roundChange q) ∈ (r.moved j actions).made →
      (r.moved j actions).Past b q.payload.view ∧ (r.moved j actions).Upholds s b q ∧
        ∀ p, .broadcast (.commit p) ∈ (r.moved j actions).made →
          p.payload.view.round < q.payload.view.round →
            ∃ c, q.payload.prepared = some c ∧ p.payload.view.round ≤ c.view.round := by
  intro q hq
  rcases List.mem_append.mp hq with hq | hnew
  · obtain ⟨hpast, hupholds, hlock⟩ := h.requests q hq
    refine ⟨hpast.moved hmove, hupholds.mono (r.extends_moved j actions), ?_⟩
    intro p hp hearlier
    rcases List.mem_append.mp hp with hp | hp
    · exact hlock p hp hearlier
    · -- A new commit is of the present round, and the request did not ask for a later one.
      obtain ⟨m, d, -, -, -, hsigned, -⟩ := hmove.of_commit hp
      obtain ⟨-, hpayload, -⟩ := Signer.commit_eq_ok hsigned
      rw [hpayload] at hearlier
      exact absurd hearlier (UInt32.not_lt.mpr hpast.2)
  · obtain ⟨round, hmember, hlater, -, hsigned, rfl⟩ := hmove.of_request hnew
    obtain ⟨-, hpayload, hauthor, -⟩ := Signer.roundChange_eq_ok hsigned
    have hheight : q.payload.view.height = b.height := by
      rw [hpayload]
      exact hsound.framed.height
    refine ⟨⟨hheight, ?_⟩, ⟨hsound.framed.credits_own hmember hauthor (mem_moved hnew), ?_⟩, ?_⟩
    · rw [hpayload]
      exact UInt32.le_refl _
    · intro c hc
      rw [hpayload] at hc
      obtain ⟨hround, d, hsupports⟩ := hsound.prepared c hc
      rw [hheight, hpayload]
      exact ⟨UInt32.lt_of_le_of_lt hround hlater, d, hsupports.mono (r.extends_moved _ actions)⟩
    · intro p hp _
      rw [hpayload]
      rcases List.mem_append.mp hp with hp | hp
      · exact (h.commits p hp).2.1
      · -- One move does not both commit and leave the round.
        obtain ⟨m, d, -, -, -, -, hj⟩ := hmove.of_commit hp
        have hview := congrArg (fun i : Instance => i.view.round) hj
        change round = r.now.view.round at hview
        rw [hview] at hlater
        exact absurd hlater (UInt32.lt_irrefl _)

theorem Logged.imports_moved :
    ∀ block, .importBlock block ∈ (r.moved j actions).made →
      ∃ view d, view.height = b.height ∧ block.header.digest s.scheme.hash = .ok d ∧
        (r.moved j actions).Decides s b view d := by
  intro block hb
  rcases List.mem_append.mp hb with hb | hb
  · obtain ⟨view, d, hheight, hdigest, hdecides⟩ := h.imports block hb
    exact ⟨view, d, hheight, hdigest, hdecides.mono (r.extends_moved j actions)⟩
  · obtain ⟨m, d, header, haccepted, hquorum, hheader, rfl, -⟩ := hmove.of_import hb
    obtain ⟨-, hgrounds⟩ := hsound.accepted m d haccepted
    have hdigest : r.now.round.digest = some d := Round.digest_eq_some.mpr ⟨m, haccepted⟩
    refine ⟨r.now.view, d, hsound.framed.height, ?_, r.now.round.matchingCommits, ?_, ?_, ?_⟩
    · exact (Header.digest_withSeals _ hheader).trans hgrounds.digest
    · exact hsound.nodup_matchingCommits
    · rw [Round.hasCommitQuorum, Bool.and_eq_true, decide_eq_true_eq] at hquorum
      rw [← hsound.framed.roundQuorum]
      exact hquorum.2
    · intro p hp
      obtain ⟨-, hfor, hview, hcredits⟩ := hsound.of_matchingCommits hp
      rw [hdigest, Option.some.injEq] at hfor
      exact ⟨hview, hfor, hcredits.mono (r.extends_moved j actions)⟩

theorem Logged.move : Logged s b (r.moved j actions) where
  voted := h.voted_moved hmove
  proposals := h.proposals_moved hsound hmove
  prepares := h.prepares_moved hsound hmove
  commits := h.commits_moved hsound hmove
  requests := h.requests_moved hsound hmove
  imports := h.imports_moved hsound hmove

end Move

/-! ## Every reachable record -/

/-- Who has sent no message and handed out no block has nothing to account for. -/
theorem logged_silent
    (hfree : r.now.round.accepted = none) (hsilent : ∀ m, .broadcast m ∉ r.made)
    (hnone : ∀ block, .importBlock block ∉ r.made) : Logged s b r where
  voted _ m d hm := by
    rw [hfree] at hm
    contradiction
  proposals _ hm := absurd hm (hsilent _)
  prepares _ hp := absurd hp (hsilent _)
  commits _ hp := absurd hp (hsilent _)
  requests _ hq := absurd hq (hsilent _)
  imports _ hb := absurd hb (hnone _)

theorem Logged.hear (h : Logged s b r) (input : Input) :
    Logged s b { r with heard := input :: r.heard } := by
  have hle : r.Extends { r with heard := input :: r.heard } :=
    ⟨fun _ hx => List.mem_cons_of_mem _ hx, fun _ ha => ha⟩
  refine ⟨h.voted, ?_, ?_, ?_, ?_, ?_⟩
  · intro m hm
    obtain ⟨d, hsettled, hgrounds⟩ := h.proposals m hm
    exact ⟨d, hsettled, hgrounds.mono hle⟩
  · intro p hp
    obtain ⟨hsettled, m, hview, hgrounds⟩ := h.prepares p hp
    exact ⟨hsettled, m, hview, hgrounds.mono hle⟩
  · intro p hp
    obtain ⟨hsettled, hlocked, hprepared, c, hview, hsupports⟩ := h.commits p hp
    exact ⟨hsettled, hlocked, hprepared, c, hview, hsupports.mono hle⟩
  · intro q hq
    obtain ⟨hpast, hupholds, hlock⟩ := h.requests q hq
    exact ⟨hpast, hupholds.mono hle, hlock⟩
  · intro block hb
    obtain ⟨view, d, hheight, hdigest, hdecides⟩ := h.imports block hb
    exact ⟨view, d, hheight, hdigest, hdecides.mono hle⟩

theorem Reachable.logged (hr : Reachable s b r) : Logged s b r := by
  induction hr with
  | idle => exact logged_silent rfl (by simp) (by simp)
  | opened moment =>
      exact logged_silent rfl (by simp [Instance.startTimer]) (by simp [Instance.startTimer])
  | hear input _ ih => exact ih.hear input
  | move hr hmove ih => exact ih.move hr.sound hmove

/-- A block handed out by a move has the digest of the proposal in force, before and after. -/
theorem Sound.digest_of_import
    {block : Block} (hsound : Sound s b r)
    (hmove : Instance.Move (s.context moment) r.heard r.now actions j)
    (hb : .importBlock block ∈ actions) :
    ∃ d, j.round.digest = some d ∧ r.now.round.digest = some d ∧
      block.header.digest s.scheme.hash = .ok d := by
  obtain ⟨m, d, header, haccepted, -, hheader, rfl, rfl⟩ := hmove.of_import hb
  have hdigest := (Header.digest_withSeals s.scheme.hash hheader).trans
    (hsound.accepted m d haccepted).2.digest
  exact ⟨d, Round.digest_eq_some.mpr ⟨m, haccepted⟩, Round.digest_eq_some.mpr ⟨m, haccepted⟩,
    hdigest⟩

/-- In a committed round, the block of the proposal in force has been handed out. -/
theorem Reachable.imported
    (hr : Reachable s b r) (hphase : r.now.round.phase = .committed) :
    ∃ d block, r.now.round.digest = some d ∧ .importBlock block ∈ r.made ∧
      block.header.digest s.scheme.hash = .ok d := by
  induction hr with
  | idle => contradiction
  | opened moment => contradiction
  | hear input _ ih => exact ih hphase
  | move hr hmove ih =>
      rcases hmove.of_phase hphase with hold | ⟨block, hb⟩
      · obtain ⟨d, block, hdigest, hb, hd⟩ := ih hold
        refine ⟨d, block, ?_, List.mem_append_left _ hb, hd⟩
        rcases hmove.lasts_or_rises with hlasts | hrises
        · exact hlasts.digest hdigest
        · exact absurd (hphase.symm.trans hrises.phase) (by decide)
      · obtain ⟨d, hdigest, -, hd⟩ := hr.sound.digest_of_import hmove hb
        exact ⟨d, block, hdigest, List.mem_append_right _ hb, hd⟩

/-! ## Who speaks -/

/-- A message is a member's own: it can be written, and its signatures are the signer's. -/
structure Authored (s : Setup) (b : Base) (m : Message) : Prop where
  member : s.signer.address ∈ b.committee.members
  author : m.author = s.signer.address
  writable : m.Writable
  signed : ∀ t ∈ m.signatures s.scheme.hash,
    t.author = s.signer.address ∧ t.signature = s.signer.sign t.digest

theorem Framed.authored_request
    {i : Instance} {view : View} {prepared : Option PreparedCertificate} {q : Signed RoundChange}
    (hframed : Framed s b i) (hmember : i.isMember = true)
    (hsigned : s.signer.roundChange s.scheme.hash view prepared = .ok q) :
    Authored s b (.roundChange q) := by
  obtain ⟨hwritable, -, hauthor, hsignature⟩ := Signer.roundChange_eq_ok hsigned
  refine ⟨hframed.member hmember, hauthor, hwritable, ?_⟩
  intro t ht
  obtain rfl := List.mem_singleton.mp ht
  exact ⟨hauthor, hsignature⟩

theorem Framed.authored
    {m : Message} (hframed : Framed s b r.now)
    (hmove : Instance.Move (s.context moment) r.heard r.now actions j)
    (hm : .broadcast m ∈ actions) : Authored s b m := by
  have hone : ∀ {P : Type} [Payload P] {q : Signed P}, q.author = s.signer.address →
      q.signature = s.signer.sign (q.digest s.scheme.hash) → ∀ t ∈ [q.attestation s.scheme.hash],
        t.author = s.signer.address ∧ t.signature = s.signer.sign t.digest := by
    intro P _ q hauthor hsignature t ht
    rw [List.mem_singleton.mp ht]
    exact ⟨hauthor, hsignature⟩
  cases m with
  | proposal q =>
      obtain ⟨block, certificate, d, p, hproposer, -, -, -, hsigned, -⟩ := hmove.of_proposal hm
      obtain ⟨hwritable, -, -, hauthor, hsignature⟩ := Signer.proposal_eq_ok hsigned
      rw [Instance.isProposer, Bool.and_eq_true] at hproposer
      exact ⟨hframed.member hproposer.1, hauthor, hwritable, hone hauthor hsignature⟩
  | prepare p =>
      obtain ⟨m, d, hmember, -, hsigned, -⟩ := hmove.of_prepare hm
      obtain ⟨hwritable, -, hauthor, hsignature⟩ := Signer.prepare_eq_ok hsigned
      exact ⟨hframed.member hmember, hauthor, hwritable, hone hauthor hsignature⟩
  | commit p =>
      obtain ⟨m, d, hmember, -, -, hsigned, -⟩ := hmove.of_commit hm
      obtain ⟨hwritable, hpayload, hauthor, hsignature⟩ := Signer.commit_eq_ok hsigned
      refine ⟨hframed.member hmember, hauthor, hwritable, ?_⟩
      intro t ht
      rcases List.mem_cons.mp ht with rfl | ht
      · exact ⟨hauthor, hsignature⟩
      · obtain rfl := List.mem_singleton.mp ht
        refine ⟨hauthor, ?_⟩
        show p.payload.committedSeal = s.signer.sign p.payload.digest
        rw [hpayload]
        rfl
  | roundChange q =>
      obtain ⟨round, hmember, -, -, hsigned, -⟩ := hmove.of_request hm
      exact hframed.authored_request hmember hsigned

/-- Whatever a node has sent is its own. -/
theorem Attainable.authored
    {m : Message} (hr : Attainable s b r) (hm : .broadcast m ∈ r.made) : Authored s b m := by
  induction hr with
  | idle => exact absurd hm List.not_mem_nil
  | opened moment => simp [Instance.startTimer] at hm
  | hear input _ ih => exact ih hm
  | move hr hmove ih =>
      rcases List.mem_append.mp hm with hm | hm
      · exact ih hm
      · exact hr.framed.authored hmove hm
  | reset hr _ _ hdeparts ih =>
      rcases List.mem_append.mp hm with hold | hnew
      · exact ih hold
      · cases hdeparts with
        | silently => simp [Instance.startTimer] at hnew
        | announced q hmember hq =>
            obtain rfl : m = .roundChange q := by simpa [Instance.startTimer] using hnew
            exact hr.framed.authored_request hmember hq

theorem Reachable.authored
    {m : Message} (hr : Reachable s b r) (hm : .broadcast m ∈ r.made) : Authored s b m :=
  hr.attainable.authored hm

/-- A node's own messages pass authentication wherever its signatures verify. -/
theorem Authored.authenticate
    {m : Message} {scheme : Scheme} (h : Authored s b m) (hhash : scheme.hash = s.scheme.hash)
    (hverify : ∀ d, scheme.verify s.signer.address d (s.signer.sign d) = true) :
    m.authenticate scheme b.committee = .ok () := by
  have hmember : m.author ∈ b.committee.members := by
    rw [h.author]
    exact h.member
  have hsigned : ∀ t ∈ m.signatures scheme.hash,
      scheme.verify t.author t.digest t.signature = true := by
    intro t ht
    rw [hhash] at ht
    obtain ⟨hauthor, hsignature⟩ := h.signed t ht
    rw [hauthor, hsignature]
    exact hverify t.digest
  cases m <;> exact Signed.check_eq_ok.mpr ⟨h.writable, hsigned _ List.mem_cons_self, hmember⟩

end Record

end QuorumChain
