import QuorumChain.Node.Instance
import QuorumChain.Proofs.Data.SortedMap
import QuorumChain.Proofs.Message.Writing

/-!
# The moves of an instance

Whatever an instance does is a sequence of elementary moves: it keeps a message or gives it up,
counts a vote or a request, takes a proposal, becomes prepared, hands out the block or leaves its
round.  Each move says what it changes, what it asks for and under which conditions it is made.
Receiving a message and the end of a timer take a course: moves within a round, perhaps followed by
leaving it and by moves within the next one.  A property which every move keeps holds throughout a
run.
-/

namespace QuorumChain

/-! ## Steps -/

namespace Step

variable {σ α : Type}

theorem given_eq_ok
    {s : σ} {x : Except Fault α} {next : α → Step σ} {r : σ × List Action} :
    given s x next = .ok r ↔ ∃ a, x = .ok a ∧ next a = .ok r := by
  cases x <;> simp [given]

theorem given_of_ok
    {s : σ} {x : Except Fault α} {next : α → Step σ} {a : α} (h : x = .ok a) :
    given s x next = next a := by
  rw [h, given]

theorem andThen_eq_ok
    {step : Step σ} {next : σ → Step σ} {t : σ} {actions : List Action} :
    step.andThen next = .ok (t, actions) ↔
      ∃ s first second, step = .ok (s, first) ∧ next s = .ok (t, second) ∧
        actions = first ++ second := by
  cases step with
  | error b => simp [andThen]
  | ok r =>
      obtain ⟨s, first⟩ := r
      cases h : next s with
      | error b => simp [andThen, h]
      | ok r =>
          obtain ⟨t', second⟩ := r
          simp [andThen, h, eq_comm]

theorem done_eq_ok
    {s t : σ} {actions : List Action} : done s = .ok (t, actions) ↔ s = t ∧ actions = [] := by
  simp [done, eq_comm]

theorem emit_eq_ok
    {s t : σ} {first actions : List Action} :
    emit s first = .ok (t, actions) ↔ s = t ∧ actions = first := by
  simp [emit, eq_comm]

theorem done_andThen (s : σ) (next : σ → Step σ) : (done s).andThen next = next s := by
  cases h : next s <;> simp [andThen, done, h]

theorem andThen_done (step : Step σ) : step.andThen done = step := by
  cases step <;> simp [andThen, done]

/-- Asking for actions in two steps is asking for all of them in one. -/
theorem emit_append_andThen
    (s t : σ) (first second : List Action) (next : σ → Step σ) :
    (emit t (first ++ second)).andThen next =
      (emit s first).andThen fun _ => (emit t second).andThen next := by
  cases h : next t <;> simp [andThen, emit, h]

theorem emit_andThen_congr
    {s : σ} {actions : List Action} {f g : σ → Step σ} (h : f s = g s) :
    (emit s actions).andThen f = (emit s actions).andThen g := by
  simp only [andThen, emit, h]

theorem andThen_assoc (step : Step σ) (f g : σ → Step σ) :
    (step.andThen f).andThen g = step.andThen fun s => (f s).andThen g := by
  cases step with
  | error b => rfl
  | ok r =>
      obtain ⟨s, first⟩ := r
      cases hf : f s with
      | error b => simp [andThen, hf]
      | ok r =>
          obtain ⟨t, second⟩ := r
          cases hg : g t <;> simp [andThen, hf, hg]

theorem foldl_andThen
    (items : List α) (next : σ → α → Step σ) (step : Step σ) :
    items.foldl (fun step a => step.andThen fun s => next s a) step =
      step.andThen (forEach items next) := by
  induction items generalizing step with
  | nil => exact (andThen_done step).symm
  | cons a rest ih =>
      rw [List.foldl_cons, ih, andThen_assoc]
      congr 1
      funext s
      rw [forEach, List.foldl_cons, ih, done_andThen]

/-- The items of a list are taken up one after the other. -/
theorem forEach_cons
    (a : α) (rest : List α) (next : σ → α → Step σ) (s : σ) :
    forEach (a :: rest) next s = (next s a).andThen (forEach rest next) := by
  rw [forEach, List.foldl_cons, foldl_andThen, done_andThen]

/-! ## How steps end -/

/-- The state that a step leaves and all that it has asked for, whether it is finished or breaks
down. -/
def outcome : Step σ → σ × List Action
  | .ok result => result
  | .error b => (b.state, b.lost)

/-- What a step has asked for and the state that it leaves have a property, also if it breaks
down. -/
def Ends (step : Step σ) (p : List Action → σ → Prop) : Prop :=
  p step.outcome.2 step.outcome.1

variable {s : σ} {step : Step σ} {next : σ → Step σ} {p q : List Action → σ → Prop}

theorem Ends.of_ok
    {actions : List Action} (h : step.Ends p) (hok : step = .ok (s, actions)) : p actions s := by
  rw [hok] at h
  exact h

theorem Ends.imp
    (h : step.Ends p) (himp : ∀ actions s, p actions s → q actions s) : step.Ends q :=
  himp _ _ h

theorem ends_done (h : p [] s) : (done s).Ends p :=
  h

theorem ends_emit {actions : List Action} (h : p actions s) : (emit s actions).Ends p :=
  h

theorem ends_given
    {x : Except Fault α} {next : α → Step σ} (hnone : p [] s)
    (hsome : ∀ a, x = .ok a → (next a).Ends p) : (given s x next).Ends p := by
  cases x with
  | error cause => exact hnone
  | ok a => exact hsome a rfl

/-- Behind a step that is always finished, a sequence ends as the second step. -/
theorem ends_emit_andThen
    {actions : List Action} (h : (next s).Ends fun rest => p (actions ++ rest)) :
    ((emit s actions).andThen next).Ends p := by
  unfold andThen emit
  dsimp only
  cases hs : next s <;> rw [hs] at h <;> exact h

/-- A sequence of two steps ends as the first one if that breaks down, else as the second one. -/
theorem ends_andThen
    (hstep : step.Ends p)
    (hnext : ∀ s first, step = .ok (s, first) → (next s).Ends fun rest => p (first ++ rest)) :
    (step.andThen next).Ends p := by
  cases step with
  | error b => exact hstep
  | ok result =>
      obtain ⟨s, first⟩ := result
      exact ends_emit_andThen (hnext s first rfl)

end Step

/-! ## Own votes -/

theorem Signer.exists_prepare
    (s : Signer) (H : HashFunction) (view : View) (d : Digest) : ∃ p, s.prepare H view d = .ok p :=
  ⟨_, Signer.signed_eq_ok.mpr ⟨rfl, rfl⟩⟩

theorem Signer.exists_commit
    (s : Signer) (H : HashFunction) (view : View) (d : Digest) : ∃ p, s.commit H view d = .ok p :=
  ⟨_, Signer.signed_eq_ok.mpr ⟨rfl, rfl⟩⟩

namespace Round

/-! ## What a round gives -/

theorem digest_eq_some
    {r : Round} {d : Digest} : r.digest = some d ↔ ∃ m, r.accepted = some (m, d) := by
  simp [digest]

theorem prepare?_eq_some
    {r round : Round} {c : PreparedCertificate} :
    r.prepare? = some (c, round) ↔
      ∃ m d, r.accepted = some (m, d) ∧ r.hasPreparedQuorum = true ∧
        c = ⟨m.signed, r.matchingPrepares⟩ ∧ round = { r with phase := .prepared } := by
  rw [prepare?]
  cases haccepted : r.accepted with
  | none => simp
  | some accepted =>
      obtain ⟨m, d⟩ := accepted
      by_cases hquorum : r.hasPreparedQuorum = true
      · simp [hquorum, eq_comm]
      · simp [hquorum]

theorem commit?_eq_some
    {r round : Round} {committee : Committee} {b : Block} :
    r.commit? committee = .ok (some (b, round)) ↔
      ∃ m d header, r.accepted = some (m, d) ∧ r.hasCommitQuorum = true ∧
        m.signed.payload.block.header.withSeals (r.sealsFor committee) = .ok header ∧
          b = { m.signed.payload.block with header } ∧
            round = { r with phase := .committed } := by
  rw [commit?]
  cases haccepted : r.accepted with
  | none => simp [pure_eq_ok]
  | some accepted =>
      obtain ⟨m, d⟩ := accepted
      by_cases hquorum : r.hasCommitQuorum = true
      · simp only [if_pos hquorum, bind_eq_ok, pure_eq_ok, Option.some.injEq, Prod.mk.injEq]
        constructor
        · rintro ⟨header, hheader, rfl, rfl⟩
          exact ⟨m, d, header, ⟨rfl, rfl⟩, hquorum, hheader, rfl, rfl⟩
        · rintro ⟨_, _, header, ⟨rfl, rfl⟩, -, hheader, rfl, rfl⟩
          exact ⟨header, hheader, rfl, rfl⟩
      · simp [hquorum, pure_eq_ok]

end Round

/-- What reaches an instance from outside. -/
inductive Input where
  /-- A message. -/
  | message (m : Message)
  /-- The end of the timer of a view. -/
  | expiry (view : View)
deriving DecidableEq

namespace Instance

/-! ## Elementary changes -/

/-- The instance with a proposal in force. -/
def accepting (i : Instance) (m : JustifiedProposal) (digest : Digest) : Instance :=
  { i with round := { i.round with accepted := some (m, digest) } }

/-- The instance with a prepare counted, unless its author has one already. -/
def counting (i : Instance) (m : Signed Prepare) : Instance :=
  { i with round := { i.round with prepares := i.round.prepares.keepFirst m.author m } }

/-- The instance with a certificate in a round that is prepared. -/
def certifying (i : Instance) (c : PreparedCertificate) : Instance :=
  { i with round := { i.round with phase := .prepared }, prepared := some c }

/-- The instance with a commit counted, unless its author has one already. -/
def committing (i : Instance) (m : Signed Commit) : Instance :=
  { i with round := { i.round with commits := i.round.commits.keepFirst m.author m } }

/-- The instance with a request counted, unless its author has asked for the round already. -/
def requesting (i : Instance) (m : Signed RoundChange) : Instance :=
  { i with changes := i.changes.add m }

/-- The instance at the beginning of a round. -/
def entering (i : Instance) (view : View) : Instance :=
  { i with
    round := .start view (i.committee.proposer view) i.committee.quorum
    changes := i.changes.dropBelow view.round }

/-- The same height in another round. -/
def viewIn (i : Instance) (round : UInt32) : View :=
  { i.view with round }

/-- An elementary change of an instance that has heard some inputs, with the actions it asks for. -/
inductive Move (c : Context) (heard : List Input) : Instance → List Action → Instance → Prop
  /-- A message is kept for later. -/
  | keep {i : Instance} (m : Message)
      (hheard : .message m ∈ heard) :
      Move c heard i [] (i.keep m)
  /-- Kept messages are given up. -/
  | release {i : Instance} (later : Backlog UInt32 Message)
      (hlater : ∀ m, later.Holds m → i.later.Holds m) :
      Move c heard i [] { i with later }
  /-- A prepare is counted. -/
  | prepare {i : Instance} (m : Signed Prepare)
      (hheard : .message (.prepare m) ∈ heard)
      (hadmitted : (Message.prepare m).triage c.scheme i.position = .ok .accept) :
      Move c heard i [] (i.counting m)
  /-- A commit is counted. -/
  | commit {i : Instance} (m : Signed Commit)
      (hheard : .message (.commit m) ∈ heard)
      (hadmitted : (Message.commit m).triage c.scheme i.position = .ok .accept) :
      Move c heard i [] (i.committing m)
  /-- A request to change the round is counted. -/
  | request {i : Instance} (m : Signed RoundChange)
      (hheard : .message (.roundChange m) ∈ heard)
      (hadmitted : (Message.roundChange m).triage c.scheme i.position = .ok .accept) :
      Move c heard i [] (i.requesting m)
  /-- Somebody who is no member takes a proposal. -/
  | observe {i : Instance} (m : JustifiedProposal) (digest : Digest)
      (hheard : .message (.proposal m) ∈ heard)
      (hadmitted : (Message.proposal m).triage c.scheme i.position = .ok .accept)
      (hfree : i.round.accepted = none)
      (hcheck : m.check c.scheme c.execution i.parent i.parentDigest i.committee = .ok digest)
      (hmember : i.isMember = false) :
      Move c heard i [] (i.accepting m digest)
  /-- A member takes a proposal and prepares it. -/
  | take {i : Instance} (m : JustifiedProposal) (digest : Digest) (p : Signed Prepare)
      (hheard : .message (.proposal m) ∈ heard)
      (hadmitted : (Message.proposal m).triage c.scheme i.position = .ok .accept)
      (hfree : i.round.accepted = none)
      (hcheck : m.check c.scheme c.execution i.parent i.parentDigest i.committee = .ok digest)
      (hmember : i.isMember = true)
      (hp : c.signer.prepare c.scheme.hash i.view digest = .ok p) :
      Move c heard i [.broadcast (.prepare p)] ((i.accepting m digest).counting p)
  /-- The proposer proposes a block and prepares it. -/
  | lead {i : Instance} (block : Block) (certificate : Option RoundChangeCertificate)
      (m : JustifiedProposal) (digest : Digest) (p : Signed Prepare)
      (hproposer : i.isProposer = true)
      (hfree : i.round.accepted = none)
      (hcandidate : candidate c i = .ok (some (block, certificate)))
      (hdigest : block.header.digest c.scheme.hash = .ok digest)
      (hm : c.signer.proposal c.scheme.hash i.view block certificate = .ok m)
      (hp : c.signer.prepare c.scheme.hash i.view digest = .ok p) :
      Move c heard i [.broadcast (.proposal m), .broadcast (.prepare p)]
        ((i.accepting m digest).counting p)
  /-- Somebody who is no member sees a quorum of prepares. -/
  | follow {i : Instance} (digest : Digest) (m : JustifiedProposal)
      (haccepted : i.round.accepted = some (m, digest))
      (hquorum : i.round.hasPreparedQuorum = true)
      (hmember : i.isMember = false) :
      Move c heard i [] (i.certifying ⟨m.signed, i.round.matchingPrepares⟩)
  /-- A member sees a quorum of prepares and commits. -/
  | certify {i : Instance} (digest : Digest) (m : JustifiedProposal) (p : Signed Commit)
      (haccepted : i.round.accepted = some (m, digest))
      (hquorum : i.round.hasPreparedQuorum = true)
      (hmember : i.isMember = true)
      (hp : c.signer.commit c.scheme.hash i.view digest = .ok p) :
      Move c heard i [.broadcast (.commit p)]
        ((i.certifying ⟨m.signed, i.round.matchingPrepares⟩).committing p)
  /-- The block that a quorum has committed is handed out. -/
  | decide {i : Instance} (digest : Digest) (m : JustifiedProposal) (header : Header)
      (haccepted : i.round.accepted = some (m, digest))
      (hquorum : i.round.hasCommitQuorum = true)
      (hheader : m.signed.payload.block.header.withSeals (i.round.sealsFor i.committee) =
        .ok header) :
      Move c heard i [.stopTimer, .importBlock { m.signed.payload.block with header }]
        { i with round := { i.round with phase := .committed } }
  /-- Somebody who is no member leaves for a later round. -/
  | leave {i : Instance} (round : UInt32)
      (hlater : i.view.round < round)
      (hreason : i.changes.hasQuorum round = true ∨ .expiry i.view ∈ heard)
      (hmember : i.isMember = false)
      (hopen : i.round.phase ≠ .committed) :
      Move c heard i [startTimer c (i.viewIn round)] (i.entering (i.viewIn round))
  /-- A member leaves for a later round and asks for it. -/
  | depart {i : Instance} (round : UInt32) (m : Signed RoundChange)
      (hlater : i.view.round < round)
      (hreason : i.changes.hasQuorum round = true ∨ .expiry i.view ∈ heard)
      (hmember : i.isMember = true)
      (hm : c.signer.roundChange c.scheme.hash (i.viewIn round) i.prepared = .ok m)
      (hopen : i.round.phase ≠ .committed) :
      Move c heard i [.broadcast (.roundChange m), startTimer c (i.viewIn round)]
        ((i.requesting m).entering (i.viewIn round))

/-- A chain of moves with all the actions they ask for. -/
inductive Moves (c : Context) (heard : List Input) : Instance → List Action → Instance → Prop
  | refl (i : Instance) : Moves c heard i [] i
  | head {i j k : Instance} {first rest : List Action}
      (hfirst : Move c heard i first j) (hrest : Moves c heard j rest k) :
      Moves c heard i (first ++ rest) k

variable {c : Context} {heard : List Input} {i j k : Instance} {actions first second : List Action}

theorem Moves.trans
    (hfirst : Moves c heard i first j) (hsecond : Moves c heard j second k) :
    Moves c heard i (first ++ second) k := by
  induction hfirst with
  | refl i => exact hsecond
  | head hmove _ ih =>
      rw [List.append_assoc]
      exact .head hmove (ih hsecond)

/-- What every move keeps is kept by chains of moves. -/
theorem Moves.preserves
    {p : Instance → Prop} (hmoves : Moves c heard i actions j)
    (hp : ∀ {i j actions}, Move c heard i actions j → p i → p j) (hi : p i) : p j := by
  induction hmoves with
  | refl i => exact hi
  | head hmove _ ih => exact ih (hp hmove hi)

/-- A chain of moves within one round. -/
inductive Stays (c : Context) (heard : List Input) : Instance → List Action → Instance → Prop
  | refl (i : Instance) : Stays c heard i [] i
  | head {i j k : Instance} {first rest : List Action}
      (hfirst : Move c heard i first j) (hview : j.view = i.view) (hrest : Stays c heard j rest k) :
      Stays c heard i (first ++ rest) k

theorem Stays.moves (h : Stays c heard i actions j) : Moves c heard i actions j := by
  induction h with
  | refl i => exact .refl i
  | head hfirst _ _ ih => exact .head hfirst ih

theorem Move.stays
    (h : Move c heard i actions j) (hview : j.view = i.view) : Stays c heard i actions j := by
  have hstays := Stays.head h hview (.refl j)
  rwa [List.append_nil] at hstays

theorem Stays.trans
    (hfirst : Stays c heard i first j) (hsecond : Stays c heard j second k) :
    Stays c heard i (first ++ second) k := by
  induction hfirst with
  | refl i => exact hsecond
  | head hmove hview _ ih =>
      rw [List.append_assoc]
      exact .head hmove hview (ih hsecond)

/-- Steps that stay within the round, one after the other, stay within it. -/
theorem Stays.andThen
    {step : Step Instance} {next : Instance → Step Instance} (hstep : step.Ends (Stays c heard i))
    (hnext : ∀ j first, step = .ok (j, first) → (next j).Ends (Stays c heard j)) :
    (step.andThen next).Ends (Stays c heard i) := by
  refine Step.ends_andThen hstep fun j first hok => ?_
  exact (hnext j first hok).imp fun _ _ hrest => (hstep.of_ok hok).trans hrest

/-- Leaving a round for another one of the height, as a member with a request in public. -/
inductive Departs (c : Context) (i : Instance) (round : UInt32) : List Action → Instance → Prop
  /-- Somebody who is no member leaves. -/
  | silently (hmember : i.isMember = false) :
      Departs c i round [startTimer c (i.viewIn round)] (i.entering (i.viewIn round))
  /-- A member asks for the round and leaves. -/
  | announced (m : Signed RoundChange)
      (hmember : i.isMember = true)
      (hm : c.signer.roundChange c.scheme.hash (i.viewIn round) i.prepared = .ok m) :
      Departs c i round [.broadcast (.roundChange m), startTimer c (i.viewIn round)]
        ((i.requesting m).entering (i.viewIn round))

theorem Departs.move
    {round : UInt32} (h : Departs c i round actions j) (hlater : i.view.round < round)
    (hreason : i.changes.hasQuorum round = true ∨ .expiry i.view ∈ heard)
    (hopen : i.round.phase ≠ .committed) : Move c heard i actions j := by
  cases h with
  | silently hmember => exact .leave round hlater hreason hmember hopen
  | announced m hmember hm => exact .depart round m hlater hreason hmember hm hopen

/-- The course of a whole step: moves within the present round, or the present round is left and
moves within the new one follow.  The last round may be entered once more; `again` says when. -/
inductive Course (c : Context) (heard : List Input) (again : Prop) :
    Instance → List Action → Instance → Prop
  /-- The round goes on. -/
  | stay {i j : Instance} {actions : List Action} (hstays : Stays c heard i actions j) :
      Course c heard again i actions j
  /-- The round is left for a later one, perhaps because of a request just counted. -/
  | leave {i j k l : Instance} {round : UInt32} {first rest : List Action}
      (hcounts : Stays c heard i [] j)
      (hprepared : j.prepared = i.prepared)
      (hopen : j.round.phase ≠ .committed)
      (hlater : j.view.round < round)
      (hreason : j.changes.hasQuorum round = true ∨ .expiry j.view ∈ heard)
      (hdeparts : Departs c j round first k)
      (hstays : Stays c heard k rest l) :
      Course c heard again i (first ++ rest) l
  /-- The last round is entered once more. -/
  | reset {i j k : Instance} {first rest : List Action}
      (hagain : again)
      (hlast : i.view.round = View.lastRound)
      (hopen : i.round.phase ≠ .committed)
      (hdeparts : Departs c i i.view.round first j)
      (hstays : Stays c heard j rest k) :
      Course c heard again i (first ++ rest) k

theorem Course.imp
    {again again' : Prop} (h : Course c heard again i actions j) (himp : again → again') :
    Course c heard again' i actions j := by
  cases h with
  | stay hstays => exact .stay hstays
  | leave hcounts hprepared hopen hlater hreason hdeparts hstays =>
      exact .leave hcounts hprepared hopen hlater hreason hdeparts hstays
  | reset hagain hlast hopen hdeparts hstays =>
      exact .reset (himp hagain) hlast hopen hdeparts hstays

theorem Course.moves
    {again : Prop} (h : Course c heard again i actions j) (hnot : ¬again) :
    Moves c heard i actions j := by
  cases h with
  | stay hstays => exact hstays.moves
  | leave hcounts _ hopen hlater hreason hdeparts hstays =>
      exact hcounts.moves.trans (.head (hdeparts.move hlater hreason hopen) hstays.moves)
  | reset hagain => exact absurd hagain hnot

/-- An instance keeps nothing for later that it has not heard. -/
def KeepsHeard (heard : List Input) (i : Instance) : Prop :=
  ∀ m, i.later.Holds m → .message m ∈ heard

theorem Move.keepsHeard
    (h : Move c heard i actions j) (hi : i.KeepsHeard heard) : j.KeepsHeard heard := by
  cases h with
  | keep m hheard =>
      intro m' hm'
      rcases Backlog.holds_push hm' with rfl | hm'
      · exact hheard
      · exact hi m' hm'
  | release later hlater => exact fun m hm => hi m (hlater m hm)
  | _ => exact hi

theorem Departs.keepsHeard
    {round : UInt32} (h : Departs c i round actions j) (hi : i.KeepsHeard heard) :
    j.KeepsHeard heard := by
  cases h <;> exact hi

/-! ## Voting -/

theorem written_eq_ok
    {α : Type} {x : Except WireError α} {a : α} : written x = .ok a ↔ x = .ok a :=
  mapError_eq_ok

theorem addPrepare?_getD (r : Round) (m : Signed Prepare) :
    (r.addPrepare? m).getD r = { r with prepares := r.prepares.keepFirst m.author m } := by
  rw [Round.addPrepare?, SortedMap.keepFirst]
  cases r.prepares.insertNew? m.author m <;> rfl

theorem addCommit?_getD (r : Round) (m : Signed Commit) :
    (r.addCommit? m).getD r = { r with commits := r.commits.keepFirst m.author m } := by
  rw [Round.addCommit?, SortedMap.keepFirst]
  cases r.commits.insertNew? m.author m <;> rfl

/-- A commit can always be written, so becoming prepared never breaks down. -/
theorem prepareIfQuorum_cases (c : Context) (i : Instance) :
    prepareIfQuorum c i = .done i ∨
      ∃ digest m, i.round.accepted = some (m, digest) ∧ i.round.hasPreparedQuorum = true ∧
        ((i.isMember = false ∧
            prepareIfQuorum c i = .done (i.certifying ⟨m.signed, i.round.matchingPrepares⟩)) ∨
          (i.isMember = true ∧ ∃ p, c.signer.commit c.scheme.hash i.view digest = .ok p ∧
            prepareIfQuorum c i =
              .emit ((i.certifying ⟨m.signed, i.round.matchingPrepares⟩).committing p)
                [.broadcast (.commit p)])) := by
  rw [prepareIfQuorum]
  split
  · rename_i digest certificate round hdigest hprepare
    obtain ⟨m, hm⟩ := Round.digest_eq_some.mp hdigest
    obtain ⟨m', digest', haccepted, hquorum, rfl, rfl⟩ := Round.prepare?_eq_some.mp hprepare
    rw [hm] at haccepted
    cases haccepted
    refine .inr ⟨digest, m, hm, hquorum, ?_⟩
    obtain ⟨p, hp⟩ := c.signer.exists_commit c.scheme.hash i.view digest
    dsimp only
    split
    · rename_i hmember
      refine .inr ⟨hmember, p, hp, (Step.given_of_ok (written_eq_ok.mpr hp)).trans ?_⟩
      rw [addCommit?_getD]
      rfl
    · rename_i hmember
      exact .inl ⟨Bool.not_eq_true _ ▸ hmember, rfl⟩
  · exact .inl rfl

theorem prepareIfQuorum_stays : (prepareIfQuorum c i).Ends (Stays c heard i) := by
  rcases prepareIfQuorum_cases c i with hdone |
    ⟨digest, m, haccepted, hquorum, ⟨hmember, hdone⟩ | ⟨hmember, p, hp, hemit⟩⟩
  · rw [hdone]
    exact Step.ends_done (.refl i)
  · rw [hdone]
    exact Step.ends_done ((Move.follow digest m haccepted hquorum hmember).stays rfl)
  · rw [hemit]
    exact Step.ends_emit ((Move.certify digest m p haccepted hquorum hmember hp).stays rfl)

theorem commitIfQuorum_stays : (commitIfQuorum i).Ends (Stays c heard i) := by
  rw [commitIfQuorum]
  refine Step.ends_given (.refl i) fun result hresult => ?_
  rw [mapError_eq_ok] at hresult
  cases result with
  | none => exact Step.ends_done (.refl i)
  | some result =>
      obtain ⟨block, round⟩ := result
      obtain ⟨m, digest, header, haccepted, hquorum, hheader, rfl, rfl⟩ :=
        Round.commit?_eq_some.mp hresult
      exact Step.ends_emit ((Move.decide digest m header haccepted hquorum hheader).stays rfl)

theorem countVotes_stays : (countVotes c i).Ends (Stays c heard i) :=
  Stays.andThen prepareIfQuorum_stays fun _ _ _ => commitIfQuorum_stays

/-! ## Proposals -/

/-- A prepare can always be written, so a proposal that is taken by a member is prepared before
votes are counted. -/
theorem accept_cases
    (c : Context) (m : JustifiedProposal) (digest : Digest) (hfree : i.round.accepted = none) :
    (i.isMember = false ∧ accept c i m digest = countVotes c (i.accepting m digest)) ∨
      (i.isMember = true ∧ ∃ p, c.signer.prepare c.scheme.hash i.view digest = .ok p ∧
        accept c i m digest =
          (Step.emit ((i.accepting m digest).counting p) [.broadcast (.prepare p)]).andThen
            (countVotes c)) := by
  have haccept : (i.round.accept? m digest).getD i.round =
      { i.round with accepted := some (m, digest) } := by
    simp [Round.accept?, hfree]
  obtain ⟨p, hp⟩ := c.signer.exists_prepare c.scheme.hash i.view digest
  rw [accept, haccept]
  dsimp only
  split
  · rename_i hmember
    refine .inr ⟨hmember, p, hp, congrArg (Step.andThen · (countVotes c)) ?_⟩
    refine (Step.given_of_ok (written_eq_ok.mpr hp)).trans ?_
    rw [addPrepare?_getD]
    rfl
  · rename_i hmember
    exact .inl ⟨Bool.eq_false_iff.mpr hmember, Step.done_andThen _ _⟩

theorem accept_eq_ok
    {m : JustifiedProposal} {digest : Digest} (hfree : i.round.accepted = none)
    (h : accept c i m digest = .ok (k, actions)) :
    (i.isMember = false ∧ countVotes c (i.accepting m digest) = .ok (k, actions)) ∨
      (i.isMember = true ∧ ∃ p rest, c.signer.prepare c.scheme.hash i.view digest = .ok p ∧
        countVotes c ((i.accepting m digest).counting p) = .ok (k, rest) ∧
          actions = .broadcast (.prepare p) :: rest) := by
  rcases accept_cases c m digest hfree with ⟨hmember, haccept⟩ | ⟨hmember, p, hp, haccept⟩
  · rw [haccept] at h
    exact .inl ⟨hmember, h⟩
  · rw [haccept] at h
    obtain ⟨j, first, second, hfirst, hsecond, rfl⟩ := Step.andThen_eq_ok.mp h
    obtain ⟨rfl, rfl⟩ := Step.emit_eq_ok.mp hfirst
    exact .inr ⟨hmember, p, second, hp, hsecond, rfl⟩

/-- A node proposes only as the proposer of a round without a proposal.  Then it proposes
everything that it has to propose, with its own prepare next, unless it meets a fault before
anything has changed. -/
theorem propose_cases (c : Context) (i : Instance) :
    (propose c i = .done i ∧
      (i.isProposer = true → i.round.accepted = none → candidate c i = .ok none)) ∨
    (∃ cause, propose c i = .error ⟨i, [], cause⟩) ∨
    ∃ block certificate m digest p,
      i.isProposer = true ∧ i.round.accepted = none ∧
        candidate c i = .ok (some (block, certificate)) ∧
          block.header.digest c.scheme.hash = .ok digest ∧
            c.signer.proposal c.scheme.hash i.view block certificate = .ok m ∧
              c.signer.prepare c.scheme.hash i.view digest = .ok p ∧
                propose c i =
                  (Step.emit ((i.accepting m digest).counting p)
                    [.broadcast (.proposal m), .broadcast (.prepare p)]).andThen
                      (countVotes c) := by
  rw [propose]
  split
  · rename_i hidle
    refine .inl ⟨rfl, fun hproposer hfree => ?_⟩
    simp [hproposer, hfree] at hidle
  · rename_i hturn
    rw [Bool.or_eq_true, not_or, Bool.not_eq_true, Bool.not_eq_true, Bool.not_eq_false',
      Option.isSome_eq_false_iff, Option.isNone_iff_eq_none] at hturn
    obtain ⟨hproposer, hfree⟩ := hturn
    cases hfound : candidate c i with
    | error cause => exact .inr (.inl ⟨cause, rfl⟩)
    | ok found =>
        cases found with
        | none => exact .inl ⟨rfl, fun _ _ => rfl⟩
        | some found =>
            obtain ⟨block, certificate⟩ := found
            cases hdigest : (block.header.digest c.scheme.hash).mapError Fault.extraData with
            | error cause =>
                refine .inr (.inl ⟨cause, ?_⟩)
                dsimp only [Step.given]
                rw [hdigest]
            | ok digest =>
                cases hm : written (c.signer.proposal c.scheme.hash i.view block certificate) with
                | error cause =>
                    refine .inr (.inl ⟨cause, ?_⟩)
                    dsimp only [Step.given]
                    rw [hdigest]
                    dsimp only
                    rw [hm]
                | ok m =>
                    have hmember : i.isMember = true := by
                      rw [isProposer, Bool.and_eq_true] at hproposer
                      exact hproposer.1
                    rcases accept_cases c m digest hfree with
                      ⟨hnot, -⟩ | ⟨-, p, hp, haccept⟩
                    · rw [hmember] at hnot
                      contradiction
                    · refine .inr (.inr ⟨block, certificate, m, digest, p, hproposer, hfree, rfl,
                        mapError_eq_ok.mp hdigest, written_eq_ok.mp hm, hp, ?_⟩)
                      dsimp only [Step.given]
                      rw [hdigest]
                      dsimp only
                      rw [hm]
                      exact (Step.emit_andThen_congr haccept).trans
                        (Step.emit_append_andThen i _ [_] [_] _).symm

/-- A node that has proposed has done so with its own prepare next. -/
theorem propose_eq_ok
    (h : propose c i = .ok (k, actions)) :
    (k = i ∧ actions = [] ∧
      (i.isProposer = true → i.round.accepted = none → candidate c i = .ok none)) ∨
    ∃ block certificate m digest p rest,
      i.isProposer = true ∧ i.round.accepted = none ∧
        candidate c i = .ok (some (block, certificate)) ∧
          block.header.digest c.scheme.hash = .ok digest ∧
            c.signer.proposal c.scheme.hash i.view block certificate = .ok m ∧
              c.signer.prepare c.scheme.hash i.view digest = .ok p ∧
                countVotes c ((i.accepting m digest).counting p) = .ok (k, rest) ∧
                  actions = .broadcast (.proposal m) :: .broadcast (.prepare p) :: rest := by
  rcases propose_cases c i with ⟨hdone, hnothing⟩ | ⟨cause, hfails⟩ |
    ⟨block, certificate, m, digest, p, hproposer, hfree, hfound, hdigest, hm, hp, hlead⟩
  · rw [hdone] at h
    obtain ⟨rfl, rfl⟩ := Step.done_eq_ok.mp h
    exact .inl ⟨rfl, rfl, hnothing⟩
  · rw [hfails] at h
    contradiction
  · rw [hlead] at h
    obtain ⟨j, first, rest, hfirst, hcount, rfl⟩ := Step.andThen_eq_ok.mp h
    obtain ⟨rfl, rfl⟩ := Step.emit_eq_ok.mp hfirst
    exact .inr ⟨block, certificate, m, digest, p, rest, hproposer, hfree, hfound, hdigest, hm, hp,
      hcount, rfl⟩

theorem propose_stays : (propose c i).Ends (Stays c heard i) := by
  rcases propose_cases c i with ⟨hdone, -⟩ | ⟨cause, hfails⟩ |
    ⟨block, certificate, m, digest, p, hproposer, hfree, hfound, hdigest, hm, hp, hlead⟩
  · rw [hdone]
    exact Step.ends_done (.refl i)
  · rw [hfails]
    exact .refl i
  · have hmove : Move c heard i [.broadcast (.proposal m), .broadcast (.prepare p)]
        ((i.accepting m digest).counting p) :=
      .lead block certificate m digest p hproposer hfree hfound hdigest hm hp
    rw [hlead]
    exact Stays.andThen (Step.ends_emit (hmove.stays rfl)) fun _ _ _ => countVotes_stays

theorem onProposal_stays
    {m : JustifiedProposal} (hheard : .message (.proposal m) ∈ heard)
    (hadmitted : (Message.proposal m).triage c.scheme i.position = .ok .accept) :
    (onProposal c i m).Ends (Stays c heard i) := by
  rw [onProposal]
  split
  · exact Step.ends_done (.refl i)
  · rename_i hfree
    have hfree : i.round.accepted = none := by simpa using hfree
    split
    · rename_i digest hcheck
      rcases accept_cases c m digest hfree with
        ⟨hmember, haccept⟩ | ⟨hmember, p, hp, haccept⟩
      · have hobserve := (Move.observe m digest hheard hadmitted hfree hcheck hmember).stays rfl
        rw [haccept]
        exact countVotes_stays.imp fun _ _ hrest => hobserve.trans hrest
      · have htake := (Move.take m digest p hheard hadmitted hfree hcheck hmember hp).stays rfl
        rw [haccept]
        exact Stays.andThen (Step.ends_emit htake) fun _ _ _ => countVotes_stays
    · exact Step.ends_done (.refl i)

/-! ## Votes -/

theorem onPrepare_stays
    {m : Signed Prepare} (hheard : .message (.prepare m) ∈ heard)
    (hadmitted : (Message.prepare m).triage c.scheme i.position = .ok .accept) :
    (onPrepare c i m).Ends (Stays c heard i) := by
  rw [onPrepare]
  split
  · rename_i round hround
    have hcounting := addPrepare?_getD i.round m
    rw [hround, Option.getD_some] at hcounting
    have hprepare := (Move.prepare m hheard hadmitted).stays rfl
    rw [hcounting]
    exact countVotes_stays.imp fun _ _ hrest => hprepare.trans hrest
  · exact Step.ends_done (.refl i)

theorem onCommit_stays
    {m : Signed Commit} (hheard : .message (.commit m) ∈ heard)
    (hadmitted : (Message.commit m).triage c.scheme i.position = .ok .accept) :
    (onCommit c i m).Ends (Stays c heard i) := by
  rw [onCommit]
  split
  · rename_i round hround
    have hcommitting := addCommit?_getD i.round m
    rw [hround, Option.getD_some] at hcommitting
    have hcommit := (Move.commit m hheard hadmitted).stays rfl
    rw [hcommitting]
    exact countVotes_stays.imp fun _ _ hrest => hcommit.trans hrest
  · exact Step.ends_done (.refl i)

/-- A message is taken up only if its triage says so. -/
theorem triage_eq_ok
    {m : Message} (h : triage c i m = .accept) :
    m.triage c.scheme i.position = .ok .accept := by
  rw [triage] at h
  split at h
  · rename_i admission hm
    rw [hm, h]
  · contradiction

/-- What is done with a message happens within the round, unless it is a request to change it. -/
theorem process_cases
    (c : Context) (i : Instance) (change : Signed RoundChange → Step Instance) {m : Message}
    (hheard : .message m ∈ heard) :
    (process change c i m).Ends (Stays c heard i) ∨
      ∃ p, m = .roundChange p ∧ m.triage c.scheme i.position = .ok .accept ∧
        process change c i m = change p := by
  unfold process
  split
  · exact .inl (Step.ends_done (.refl i))
  · exact .inl (Step.ends_done ((Move.keep m hheard).stays rfl))
  · rename_i haccept
    have hadmitted := triage_eq_ok haccept
    cases m with
    | proposal p => exact .inl (onProposal_stays hheard hadmitted)
    | prepare p => exact .inl (onPrepare_stays hheard hadmitted)
    | commit p => exact .inl (onCommit_stays hheard hadmitted)
    | roundChange p => exact .inr ⟨p, rfl, hadmitted, rfl⟩

/-! ## Moving on -/

theorem replay_stays
    {m : Message} (hheard : .message m ∈ heard) : (replay c i m).Ends (Stays c heard i) := by
  rcases process_cases c i (fun _ => .done i) hheard with hstays | ⟨p, -, -, hdone⟩
  · exact hstays
  · rw [replay, hdone]
    exact Step.ends_done (.refl i)

theorem forEach_replay_stays
    {kept : List Message} (hkept : ∀ m ∈ kept, .message m ∈ heard) :
    (Step.forEach kept (replay c) i).Ends (Stays c heard i) := by
  induction kept generalizing i with
  | nil => exact Step.ends_done (.refl i)
  | cons m rest ih =>
      rw [Step.forEach_cons]
      exact Stays.andThen (replay_stays (hkept m List.mem_cons_self)) fun _ _ _ =>
        ih fun m hm => hkept m (List.mem_cons_of_mem _ hm)

theorem replayKept_stays
    (hkeeps : i.KeepsHeard heard) : (replayKept c i).Ends (Stays c heard i) := by
  have hrelease : Stays c heard i []
      { i with later := ((i.later.dropBelow i.view.round).take i.view.round).2 } := by
    refine (Move.release _ ?_).stays rfl
    intro m hm
    exact Backlog.holds_of_holds_dropBelow (Backlog.holds_of_holds_take hm)
  rw [replayKept]
  refine (forEach_replay_stays ?_).imp fun _ _ hrest => hrelease.trans hrest
  intro m hm
  exact hkeeps m (Backlog.holds_of_holds_dropBelow (Backlog.holds_of_mem_take hm))

/-- Whoever has announced a round leaves the present one by entering it. -/
theorem departs_of_announce
    {round : UInt32} (h : announce c i (i.viewIn round) = .ok (j, actions)) :
    Departs c i round (actions ++ [startTimer c (i.viewIn round)])
      (j.entering (i.viewIn round)) := by
  rw [announce] at h
  split at h
  · rename_i hmember
    obtain ⟨m, hm, h⟩ := Step.given_eq_ok.mp h
    obtain ⟨rfl, rfl⟩ := Step.emit_eq_ok.mp h
    exact .announced m hmember (written_eq_ok.mp hm)
  · rename_i hmember
    obtain ⟨rfl, rfl⟩ := Step.done_eq_ok.mp h
    exact .silently (Bool.eq_false_iff.mpr hmember)

/-- Announcing a round changes nothing if it breaks down. -/
theorem announce_eq_error
    {view : View} {b : Breakdown Instance} (h : announce c i view = .error b) :
    b.state = i ∧ b.lost = [] := by
  rw [announce] at h
  split at h
  · cases hm : written (c.signer.roundChange c.scheme.hash view i.prepared) with
    | error cause =>
        rw [hm] at h
        cases h
        exact ⟨rfl, rfl⟩
    | ok m =>
        rw [hm] at h
        contradiction
  · contradiction

/-- In a round just entered, a node perhaps proposes and takes up what was kept. -/
theorem proceed_stays
    (hkeeps : i.KeepsHeard heard) :
    ((propose c i).andThen (replayKept c)).Ends (Stays c heard i) :=
  Stays.andThen propose_stays fun _ _ hproposed =>
    replayKept_stays ((propose_stays.of_ok hproposed).moves.preserves Move.keepsHeard hkeeps)

/-- Once the round is announced, moving there is entering it, perhaps proposing, and taking up what
was kept. -/
theorem moveTo_of_announce
    {round : UInt32} (h : announce c i (i.viewIn round) = .ok (j, first)) :
    moveTo c i round =
      (Step.emit (j.entering (i.viewIn round)) (first ++ [startTimer c (i.viewIn round)])).andThen
        fun k => (propose c k).andThen (replayKept c) := by
  show (announce c i (i.viewIn round)).andThen _ = _
  rw [h]
  exact (Step.emit_append_andThen j _ first _ _).symm

/-- A move that breaks down while the round is announced changes nothing. -/
theorem moveTo_cases
    (c : Context) (i : Instance) (round : UInt32) :
    (∃ cause, moveTo c i round = .error ⟨i, [], cause⟩) ∨
      ∃ first j, announce c i (i.viewIn round) = .ok (j, first) := by
  cases hannounce : announce c i (i.viewIn round) with
  | error b =>
      obtain ⟨hstate, hlost⟩ := announce_eq_error hannounce
      refine .inl ⟨b.cause, ?_⟩
      show (announce c i (i.viewIn round)).andThen _ = _
      rw [hannounce, ← hstate, ← hlost]
      rfl
  | ok result => exact .inr ⟨result.2, result.1, rfl⟩

theorem moveTo_eq_ok
    {round : UInt32} (hkeeps : i.KeepsHeard heard)
    (h : moveTo c i round = .ok (k, actions)) :
    ∃ first j rest, Departs c i round first j ∧ Stays c heard j rest k ∧
      actions = first ++ rest := by
  rcases moveTo_cases c i round with ⟨cause, hfails⟩ | ⟨first, j, hannounce⟩
  · rw [hfails] at h
    contradiction
  · rw [moveTo_of_announce hannounce] at h
    obtain ⟨j', entered, rest, henter, hproceed, rfl⟩ := Step.andThen_eq_ok.mp h
    obtain ⟨rfl, rfl⟩ := Step.emit_eq_ok.mp henter
    have hdeparts := departs_of_announce hannounce
    exact ⟨_, _, _, hdeparts, (proceed_stays (hdeparts.keepsHeard hkeeps)).of_ok hproceed, rfl⟩

/-- Moving to another round changes nothing, or it leaves the present round and what follows happens
within the new one. -/
theorem moveTo_ends
    {round : UInt32} (hkeeps : i.KeepsHeard heard) :
    (moveTo c i round).Ends fun actions k =>
      (k = i ∧ actions = []) ∨
        (∃ j first, announce c i (i.viewIn round) = .ok (j, first)) ∧
          ∃ first j rest, Departs c i round first j ∧ Stays c heard j rest k ∧
            actions = first ++ rest := by
  rcases moveTo_cases c i round with ⟨cause, hfails⟩ | ⟨first, j, hannounce⟩
  · rw [hfails]
    exact .inl ⟨rfl, rfl⟩
  · have hdeparts := departs_of_announce hannounce
    have hproceed := proceed_stays (c := c) (hdeparts.keepsHeard hkeeps)
    rw [moveTo_of_announce hannounce]
    exact Step.ends_emit_andThen <| hproceed.imp fun rest _ hstays =>
      .inr ⟨⟨j, first, hannounce⟩, _, _, rest, hdeparts, hstays, rfl⟩

/-- A request to change the round is counted; perhaps the node leaves the round or makes the
proposal that it could not make before. -/
theorem onRoundChange_course
    {m : Signed RoundChange} (hkeeps : i.KeepsHeard heard)
    (hheard : .message (.roundChange m) ∈ heard)
    (hadmitted : (Message.roundChange m).triage c.scheme i.position = .ok .accept) :
    (onRoundChange c i m).Ends (Course c heard False i) := by
  rw [onRoundChange]
  split
  · exact Step.ends_done (.stay (.refl i))
  · rename_i hopen
    split
    · exact Step.ends_done (.stay (.refl i))
    · rename_i changes hnew
      have hcounts : Stays c heard i [] (i.requesting m) :=
        (Move.request m hheard hadmitted).stays rfl
      have hrequesting : i.changes.add m = changes := by
        rw [RoundChanges.add, hnew, Option.getD_some]
      rw [← hrequesting]
      dsimp only
      split
      · rename_i hgo
        rw [Bool.and_eq_true, decide_eq_true_eq] at hgo
        refine (moveTo_ends (i := i.requesting m) hkeeps).imp ?_
        rintro _ k (⟨rfl, rfl⟩ | ⟨-, first, j, rest, hdeparts, hstays, rfl⟩)
        · exact .stay hcounts
        · exact .leave hcounts rfl hopen hgo.1 (.inl hgo.2) hdeparts hstays
      · split
        · exact propose_stays.imp fun _ _ hstays => .stay (hcounts.trans hstays)
        · exact Step.ends_done (.stay hcounts)

/-! ## Whole steps -/

/-- Starting an instance starts the timer and makes moves within the first round. -/
theorem start_stays (heard : List Input) :
    (start c i).Ends fun actions k =>
      ∃ rest, actions = startTimer c i.view :: rest ∧ Stays c heard i rest k := by
  rw [start]
  exact Step.ends_emit_andThen <| propose_stays.imp fun rest _ hstays => ⟨rest, rfl, hstays⟩

theorem receive_course
    {m : Message} (hkeeps : i.KeepsHeard heard) (hheard : .message m ∈ heard) :
    (receive c i m).Ends (Course c heard False i) := by
  rcases process_cases c i (onRoundChange c i) hheard with
    hstays | ⟨p, rfl, hadmitted, hchange⟩
  · exact hstays.imp fun _ _ => .stay
  · rw [receive, hchange]
    exact onRoundChange_course hkeeps hheard hadmitted

/-- The present round is given up and entered again: it has no successor. -/
def Resets (i : Instance) (view : View) : Prop :=
  view = i.view ∧ i.view.round = View.lastRound ∧ i.round.phase ≠ .committed

/-- The node can ask for the present round in public once more, unless it is no member. -/
def CanRepeat (c : Context) (i : Instance) : Prop :=
  ∃ j actions, announce c i i.view = .ok (j, actions)

/-- A round that is not the last one is earlier than its successor. -/
theorem lt_successor {round : UInt32} (h : round ≠ View.lastRound) :
    round < View.successor round := by
  have hlt : round.toNat < 4294967295 := by
    have hle := round.toNat_lt
    have hne : round.toNat ≠ 4294967295 := fun heq => h (UInt32.toNat_inj.mp heq)
    omega
  rw [View.successor, if_neg h, UInt32.lt_iff_toNat_lt, UInt32.toNat_add]
  simp
  omega

/-- The end of a timer gives up the present round, which is entered again if it is the last one. -/
theorem expire_course
    {view : View} (hkeeps : i.KeepsHeard heard) (hheard : .expiry view ∈ heard) :
    (expire c i view).Ends (Course c heard (i.Resets view ∧ i.CanRepeat c) i) := by
  rw [expire]
  split
  · exact Step.ends_done (.stay (.refl i))
  · rename_i hpresent
    rw [not_or, not_not] at hpresent
    obtain ⟨rfl, hopen⟩ := hpresent
    refine (moveTo_ends hkeeps).imp ?_
    rintro _ k (⟨rfl, rfl⟩ | ⟨⟨j', first', hannounce⟩, first, j, rest, hdeparts, hstays, rfl⟩)
    · exact .stay (.refl _)
    · by_cases hlast : i.view.round = View.lastRound
      · rw [View.successor, if_pos hlast, ← hlast] at hdeparts hannounce
        exact .reset ⟨⟨rfl, hlast, hopen⟩, j', first', hannounce⟩ hlast hopen hdeparts hstays
      · exact .leave (.refl i) rfl hopen (lt_successor hlast) (.inr hheard) hdeparts hstays

end Instance

end QuorumChain
