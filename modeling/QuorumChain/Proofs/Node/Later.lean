import QuorumChain.Proofs.Life.Repetition

/-!
# Messages kept for a later round

What an instance keeps for later is read at one point only: when it has entered a round and has
perhaps proposed.  Up to there every step does the same whatever is kept.  So a message that
waits for a round and is taken up on entering it does what it would have done had it come right
afterwards.  A message that may not be kept is not authentic, and then it does nothing in the
later round either.
-/

namespace QuorumChain

namespace Step

variable {σ τ α : Type}

/-! ## Steps side by side -/

/-- What comes of a step; the state that a fault leaves behind is forgotten. -/
def result (step : Step σ) : Except Fault (σ × List Action) :=
  step.mapError Breakdown.cause

theorem result_eq_ok {step : Step σ} {r : σ × List Action} :
    step.result = .ok r ↔ step = .ok r := by
  cases step <;> simp [result, Except.mapError]

/-- The step that ends in the image of a state. -/
def map (f : σ → τ) : Step σ → Step τ
  | .ok (s, actions) => .ok (f s, actions)
  | .error b => .error ⟨f b.state, b.lost, b.cause⟩

theorem map_given (f : σ → τ) (s : σ) (x : Except Fault α) (next : α → Step σ) :
    (given s x next).map f = given (f s) x fun a => (next a).map f := by
  cases x <;> rfl

theorem andThen_congr
    {step : Step σ} {next next' : σ → Step σ}
    (h : ∀ s actions, step = .ok (s, actions) → next s = next' s) :
    step.andThen next = step.andThen next' := by
  cases step with
  | error b => rfl
  | ok r =>
      obtain ⟨s, actions⟩ := r
      simp only [andThen, h s actions rfl]

/-- What comes of a sequence depends on what comes of its parts only. -/
theorem result_andThen_congr
    {step step' : Step σ} {next next' : σ → Step σ} (hstep : step.result = step'.result)
    (h : ∀ s actions, step = .ok (s, actions) → (next s).result = (next' s).result) :
    (step.andThen next).result = (step'.andThen next').result := by
  cases step with
  | error b =>
      cases step' with
      | error b' => exact hstep
      | ok r' => contradiction
  | ok r =>
      rw [result_eq_ok.mp hstep.symm]
      obtain ⟨s, actions⟩ := r
      have hnext := h s actions rfl
      unfold andThen
      dsimp only
      cases hs : next s with
      | error b =>
          rw [hs] at hnext
          cases hs' : next' s with
          | error b' =>
              rw [hs'] at hnext
              exact hnext
          | ok r' =>
              rw [hs'] at hnext
              contradiction
      | ok r =>
          rw [hs] at hnext
          rw [result_eq_ok.mp hnext.symm]

/-- Two images of a step that go on alike do the same. -/
theorem map_andThen_congr
    {step : Step σ} {f f' : σ → τ} {next next' : τ → Step τ}
    (h : ∀ s actions, step = .ok (s, actions) → next (f s) = next' (f' s)) :
    ((step.map f).andThen next).result = ((step.map f').andThen next').result := by
  cases step with
  | error b => rfl
  | ok r =>
      obtain ⟨s, actions⟩ := r
      simp only [map, andThen, h s actions rfl]

theorem map_andThen
    {step : Step σ} {f : σ → τ} {next : σ → Step σ} {next' : τ → Step τ}
    (h : ∀ s actions, step = .ok (s, actions) → next' (f s) = (next s).map f) :
    (step.map f).andThen next' = (step.andThen next).map f := by
  cases step with
  | error b => rfl
  | ok r =>
      obtain ⟨s, actions⟩ := r
      simp only [map, andThen, h s actions rfl]
      cases next s <;> rfl

theorem result_map_andThen
    {step : Step σ} {f : σ → τ} {next : σ → Step σ} {next' : τ → Step τ}
    (h : ∀ s actions, step = .ok (s, actions) → (next' (f s)).result = ((next s).map f).result) :
    ((step.map f).andThen next').result = ((step.andThen next).map f).result := by
  cases step with
  | error b => rfl
  | ok r =>
      obtain ⟨s, actions⟩ := r
      have hcongr : (andThen (.ok (f s, actions)) next').result =
          (andThen (.ok (f s, actions)) fun _ => (next s).map f).result :=
        result_andThen_congr rfl fun t more hok => by
          cases hok
          exact h s actions rfl
      refine hcongr.trans ?_
      simp only [andThen]
      cases next s <;> rfl

theorem result_map_congr
    {step step' : Step σ} (f : σ → τ) (h : step.result = step'.result) :
    (step.map f).result = (step'.map f).result := by
  have hmap : ∀ step : Step σ, (step.map f).result = step.result.map fun r => (f r.1, r.2) := by
    intro step
    cases step <;> rfl
  rw [hmap, hmap, h]

theorem forEach_append
    (items : List α) (a : α) (next : σ → α → Step σ) (s : σ) :
    forEach (items ++ [a]) next s = (forEach items next s).andThen fun s => next s a := by
  rw [forEach, List.foldl_append]
  rfl

end Step

namespace Message

variable {m : Message} {scheme : Scheme} {position : Position}

/-! ## Messages of later rounds -/

theorem place_of_later
    {here : View} (hkind : m.kind ≠ .roundChange) (hheight : m.view.height = here.height)
    (hround : here.round < m.view.round) : m.place here = .future := by
  have hup : ¬m.view.round < here.round := UInt32.not_lt.mpr (UInt32.le_of_lt hround)
  simp [place, hheight, hkind, hround, hup]

theorem checks_of_triage
    {admission : Admission} (h : m.triage scheme position = .ok admission) :
    m.authenticate scheme position.committee = .ok () ∧
      m.checkOrigin position.committee = .ok () := by
  simp only [triage, bind_eq_ok] at h
  obtain ⟨_, hauthor, _, horigin, -⟩ := h
  exact ⟨hauthor, horigin⟩

theorem triage_of_later
    (hauthor : m.authenticate scheme position.committee = .ok ())
    (horigin : m.checkOrigin position.committee = .ok ())
    (hplace : m.place position.view = .future) : m.triage scheme position = .ok .future := by
  simp only [triage, hauthor, horigin, hplace, bind, Except.bind, pure, Except.pure]

end Message

namespace Instance

variable {c : Context} {i j : Instance} {m : Message} {round : UInt32} {actions : List Action}
  {later : Backlog UInt32 Message}

/-- A message of a later round is kept, or it is not authentic and dropped wherever it arrives. -/
theorem keep_or_drop
    (hkind : m.kind ≠ .roundChange) (hheight : m.view.height = i.view.height)
    (hround : i.view.round < m.view.round) :
    triage c i m = .future ∨
      ∀ j : Instance, j.committee = i.committee → triage c j m = .stale := by
  have hplace := Message.place_of_later hkind hheight hround
  by_cases hchecks : m.authenticate c.scheme i.committee = .ok () ∧
      m.checkOrigin i.committee = .ok ()
  · left
    have hfuture : m.triage c.scheme i.position = .ok .future :=
      Message.triage_of_later hchecks.1 hchecks.2 hplace
    rw [triage, hfuture]
  · right
    intro j hcommittee
    rw [triage]
    split
    · rename_i admission hadmission
      have hpassed := Message.checks_of_triage hadmission
      change m.authenticate c.scheme j.committee = _ ∧ m.checkOrigin j.committee = _ at hpassed
      rw [hcommittee] at hpassed
      exact absurd hpassed hchecks
    · rfl

/-- Only requests to change the round are taken up in another way when they have been kept. -/
theorem receive_eq_replay (hkind : m.kind ≠ .roundChange) : i.receive c m = replay c i m := by
  unfold receive replay process
  cases m with
  | roundChange q => contradiction
  | _ => rfl

/-! ## What does not read the backlog -/

/-- The instance with other messages kept for later. -/
def withLater (later : Backlog UInt32 Message) (i : Instance) : Instance :=
  { i with later }

theorem prepareIfQuorum_withLater (c : Context) (later : Backlog UInt32 Message) (i : Instance) :
    prepareIfQuorum c (i.withLater later) = (prepareIfQuorum c i).map (withLater later) := by
  unfold prepareIfQuorum
  dsimp only [withLater]
  split
  · rw [apply_ite (Step.map (withLater later)), Step.map_given]
    rfl
  · rfl

theorem commitIfQuorum_withLater (later : Backlog UInt32 Message) (i : Instance) :
    commitIfQuorum (i.withLater later) = (commitIfQuorum i).map (withLater later) := by
  rw [commitIfQuorum, commitIfQuorum, Step.map_given]
  show Step.given (i.withLater later) ((i.round.commit? i.committee).mapError Fault.extraData) _ = _
  congr 1
  funext found
  cases found <;> rfl

theorem countVotes_withLater (c : Context) (later : Backlog UInt32 Message) (i : Instance) :
    countVotes c (i.withLater later) = (countVotes c i).map (withLater later) := by
  rw [countVotes, prepareIfQuorum_withLater]
  exact Step.map_andThen fun j _ _ => commitIfQuorum_withLater later j

theorem accept_withLater
    (c : Context) (later : Backlog UInt32 Message) (i : Instance) (p : JustifiedProposal)
    (digest : Digest) :
    accept c (i.withLater later) p digest = (accept c i p digest).map (withLater later) := by
  unfold accept
  refine Eq.trans ?_ (Step.map_andThen fun j _ _ => countVotes_withLater c later j)
  rw [apply_ite (Step.map (withLater later)), Step.map_given]
  rfl

theorem propose_withLater (c : Context) (later : Backlog UInt32 Message) (i : Instance) :
    propose c (i.withLater later) = (propose c i).map (withLater later) := by
  rw [propose, propose]
  by_cases hidle : (!i.isProposer || i.round.accepted.isSome) = true
  · rw [if_pos hidle]
    exact if_pos hidle
  · refine (if_neg hidle).trans ?_
    rw [if_neg hidle, Step.map_given]
    show Step.given (i.withLater later) (candidate c i) _ = _
    congr 1
    funext found
    cases found with
    | none => rfl
    | some found =>
        obtain ⟨block, certificate⟩ := found
        dsimp only
        rw [Step.map_given]
        congr 1
        funext digest
        rw [Step.map_given]
        congr 1
        funext p
        have hemit : Step.emit (i.withLater later) [.broadcast (.proposal p)] =
            (Step.emit i [.broadcast (.proposal p)]).map (withLater later) := rfl
        rw [hemit]
        exact Step.map_andThen fun j _ _ => accept_withLater c later j p digest

theorem announce_withLater
    (c : Context) (later : Backlog UInt32 Message) (i : Instance) (view : View) :
    announce c (i.withLater later) view = (announce c i view).map (withLater later) := by
  rw [announce, announce, apply_ite (Step.map (withLater later)), Step.map_given]
  rfl

/-! ## Entering a round -/

/-- Leaving the present round for another one, up to the point where what was kept is taken up. -/
def leaveFor (c : Context) (i : Instance) (round : UInt32) : Step Instance :=
  (announce c i (i.viewIn round)).andThen fun j =>
    (enter c j (i.viewIn round)).andThen (propose c)

theorem moveTo_eq_leaveFor (c : Context) (i : Instance) (round : UInt32) :
    moveTo c i round = (leaveFor c i round).andThen (replayKept c) := by
  rw [moveTo, leaveFor, Step.andThen_assoc]
  congr 1
  funext j
  rw [Step.andThen_assoc]
  rfl

theorem leaveFor_withLater
    (c : Context) (later : Backlog UInt32 Message) (i : Instance) (round : UInt32) :
    leaveFor c (i.withLater later) round = (leaveFor c i round).map (withLater later) := by
  rw [leaveFor, leaveFor]
  show (announce c (i.withLater later) (i.viewIn round)).andThen _ = _
  rw [announce_withLater]
  refine Step.map_andThen fun j _ _ => ?_
  have henter : enter c (j.withLater later) (i.viewIn round) =
      (enter c j (i.viewIn round)).map (withLater later) := rfl
  show (enter c (j.withLater later) (i.viewIn round)).andThen _ = _
  rw [henter]
  exact Step.map_andThen fun k _ _ => propose_withLater c later k

theorem announce_committee
    {view : View} (h : announce c i view = .ok (j, actions)) : j.committee = i.committee := by
  rw [announce] at h
  split at h
  · obtain ⟨q, -, hemit⟩ := Step.given_eq_ok.mp h
    obtain ⟨rfl, -⟩ := Step.emit_eq_ok.mp hemit
    rfl
  · exact congrArg committee (Step.done_eq_ok.mp h).1.symm

theorem leaveFor_base
    (h : leaveFor c i round = .ok (j, actions)) :
    j.view = i.viewIn round ∧ j.committee = i.committee := by
  obtain ⟨k, _, _, hannounce, hentered, -⟩ := Step.andThen_eq_ok.mp h
  obtain ⟨l, _, _, henter, hpropose, -⟩ := Step.andThen_eq_ok.mp hentered
  obtain ⟨rfl, -⟩ := Step.emit_eq_ok.mp henter
  have hstays : Stays c [] _ _ j := propose_stays.of_ok hpropose
  have hcommittee : k.committee = i.committee := announce_committee hannounce
  exact ⟨hstays.lasts.view, hstays.moves.committee.trans hcommittee⟩

/-- What was kept last for the round is taken up last. -/
theorem replayKept_append (c : Context) (i : Instance) (later : Backlog UInt32 Message)
    (m : Message) :
    replayKept c (i.withLater (later.append i.view.round m)) =
      (replayKept c (i.withLater later)).andThen fun j => replay c j m := by
  show Step.forEach ((later.append i.view.round m).release i.view.round).1 (replay c)
    (i.withLater ((later.append i.view.round m).release i.view.round).2) = _
  rw [Backlog.release_append, Step.forEach_append]
  rfl

theorem moveTo_append
    (c : Context) (i : Instance) (round : UInt32) (later : Backlog UInt32 Message) (m : Message) :
    (moveTo c (i.withLater (later.append round m)) round).result =
      ((moveTo c (i.withLater later) round).andThen fun j => replay c j m).result := by
  rw [moveTo_eq_leaveFor, moveTo_eq_leaveFor, leaveFor_withLater, leaveFor_withLater,
    Step.andThen_assoc]
  refine Step.map_andThen_congr fun j actions hj => ?_
  have hround : j.view.round = round := congrArg View.round (leaveFor_base hj).1
  rw [← hround]
  exact replayKept_append c j later m

theorem moveTo_base
    (h : moveTo c i round = .ok (j, actions)) :
    j.view = i.viewIn round ∧ j.committee = i.committee ∧ j.height = i.height := by
  obtain ⟨heard, hkeeps, -⟩ := i.exists_keepsHeard
  obtain ⟨first, k, rest, hdeparts, hstays, -⟩ := moveTo_eq_ok hkeeps h
  refine ⟨hstays.lasts.view.trans hdeparts.view, ?_, ?_⟩
  · exact hstays.moves.committee.trans hdeparts.base.1
  · exact congrArg Base.height (hstays.moves.base_eq.trans hdeparts.base_eq)

/-- Whatever becomes of a move, it stays where it was or is in the new round. -/
theorem moveTo_view (c : Context) (i : Instance) (round : UInt32) :
    (moveTo c i round).Ends fun _ j => j.view = i.view ∨ j.view = i.viewIn round := by
  obtain ⟨heard, hkeeps, -⟩ := i.exists_keepsHeard
  refine (moveTo_ends hkeeps).imp ?_
  rintro _ k (⟨rfl, -⟩ | ⟨-, first, j, rest, hdeparts, hstays, -⟩)
  · exact .inl rfl
  · exact .inr (hstays.lasts.view.trans hdeparts.view)

/-- A message of a later round is kept, or dropped, without an answer; then moving to that round
does what it would have done without the message, followed by the message. -/
theorem receive_moveTo
    (hkind : m.kind ≠ .roundChange) (hheight : m.view.height = i.view.height)
    (hround : m.view.round = round) (hlater : i.view.round < round)
    (hroom : later.count < later.limit) :
    ∃ later' : Backlog UInt32 Message, later'.limit = later.limit ∧ later'.count ≤ later.count + 1 ∧
      receive c (i.withLater later) m = .done (i.withLater later') ∧
        ∀ j : Instance, j.committee = i.committee →
          (moveTo c (j.withLater later') round).result =
            ((moveTo c (j.withLater later) round).andThen fun k => receive c k m).result := by
  subst hround
  rcases keep_or_drop (c := c) hkind hheight hlater with hfuture | hstale
  · refine ⟨later.append m.view.round m, rfl, Nat.le_refl _, ?_, fun j _ => ?_⟩
    · rw [receive_of_future (i := i.withLater later) hfuture, keep]
      show Step.done (i.withLater (later.push m.view.round m)) = _
      rw [Backlog.push_of_lt hroom]
    · rw [moveTo_append, Step.andThen_congr fun k _ _ => receive_eq_replay hkind]
  · refine ⟨later, rfl, Nat.le_succ _, receive_of_stale (hstale (i.withLater later) rfl),
      fun j hcommittee => ?_⟩
    have hdropped : (moveTo c (j.withLater later) m.view.round).andThen (fun k => receive c k m) =
        (moveTo c (j.withLater later) m.view.round).andThen Step.done :=
      Step.andThen_congr fun k _ hk =>
        receive_of_stale (hstale k ((moveTo_base hk).2.1.trans hcommittee))
    rw [hdropped, Step.andThen_done]

/-! ## What leaves a round -/

/-- A message after which an instance is elsewhere has made it move, whatever it keeps for later. -/
theorem receive_moves
    (hj : (i.receive c m).outcome.1 = j) (hview : j.view ≠ i.view) :
    ∃ k : Instance, k.committee = i.committee ∧ k.height = i.height ∧ ∀ later,
      receive c (i.withLater later) m = moveTo c (k.withLater later) j.view.round := by
  subst hj
  have hstuck : ∀ {step : Step Instance} {k : Instance} (heard : List Input), k.view = i.view →
      step.Ends (Stays c heard k) → step.outcome.1.view = i.view :=
    fun _ hk hstays => (Stays.lasts hstays).view.trans hk
  rcases process_cases c i (onRoundChange c i) (List.mem_singleton_self (Input.message m)) with
    hstays | ⟨q, rfl, hadmitted, hchange⟩
  · exact absurd (hstuck _ rfl hstays) hview
  · have htriage : ∀ later, triage c (i.withLater later) (.roundChange q) = .accept := by
      intro later
      have hposition : (i.withLater later).position = i.position := rfl
      rw [triage, hposition, hadmitted]
    rw [receive, hchange] at hview ⊢
    rw [onRoundChange] at hview ⊢
    split at hview
    · exact absurd rfl hview
    · rename_i hopen
      rw [if_neg hopen]
      split at hview
      · exact absurd rfl hview
      · rename_i changes hadd
        dsimp only at hview ⊢
        split at hview
        · rename_i hgo
          rw [if_pos hgo]
          refine ⟨{ i with changes }, rfl, rfl, fun later => ?_⟩
          have hthere : (moveTo c { i with changes } q.payload.view.round).outcome.1.view =
              i.viewIn q.payload.view.round :=
            (moveTo_view c { i with changes } q.payload.view.round).resolve_left hview
          rw [hthere]
          unfold receive process
          rw [htriage]
          dsimp only
          have hopen' : (i.withLater later).round.phase ≠ .committed := hopen
          have hadd' : (i.withLater later).changes.add? q = some changes := hadd
          rw [onRoundChange, if_neg hopen', hadd']
          exact if_pos hgo
        · split at hview
          · exact absurd (hstuck (k := { i with changes }) [] rfl propose_stays) hview
          · exact absurd rfl hview

theorem expire_moves
    {view : View} (hj : (i.expire c view).outcome.1 = j) (hview : j.view ≠ i.view)
    (later : Backlog UInt32 Message) :
    expire c (i.withLater later) view = moveTo c (i.withLater later) j.view.round := by
  subst hj
  by_cases hpresent : view ≠ i.view ∨ i.round.phase = .committed
  · have hdone : i.expire c view = .done i := if_pos hpresent
    rw [hdone] at hview
    exact absurd rfl hview
  · have hmove : i.expire c view = moveTo c i (View.successor view.round) := if_neg hpresent
    rw [hmove] at hview ⊢
    have hthere : (moveTo c i (View.successor view.round)).outcome.1.view =
        i.viewIn (View.successor view.round) :=
      (moveTo_view c i (View.successor view.round)).resolve_left hview
    rw [hthere]
    exact if_neg hpresent

end Instance

end QuorumChain
