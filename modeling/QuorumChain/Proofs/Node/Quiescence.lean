import QuorumChain.Proofs.Node.Response

/-!
# No quorum is left uncounted

Whenever a vote or a proposal changes the round, the votes are counted.  So behind every step the
instance has drawn all conclusions from its votes: it is quiescent, unless the block in force cannot
be given its seals.
-/

namespace QuorumChain

namespace Instance

/-- The votes of the round allow nothing that has not been done. -/
structure Quiescent (i : Instance) : Prop where
  prepared : i.round.hasPreparedQuorum = false
  committed : i.round.hasCommitQuorum = false

/-- All conclusions are drawn from the votes, if the block in force can be given its seals. -/
def Concluded (i : Instance) : Prop :=
  i.Closable → i.Quiescent

theorem Quiescent.concluded {i : Instance} (h : i.Quiescent) : i.Concluded :=
  fun _ => h

variable {c : Context} {i j : Instance} {actions : List Action}

/-! ## Counting votes -/

theorem prepareIfQuorum_prepared
    (h : prepareIfQuorum c i = .ok (j, actions)) : j.round.hasPreparedQuorum = false := by
  rw [prepareIfQuorum] at h
  split at h
  · rename_i digest certificate round hdigest hprepare
    obtain ⟨-, -, -, -, -, rfl⟩ := Round.prepare?_eq_some.mp hprepare
    dsimp only at h
    split at h
    · obtain ⟨p, -, h⟩ := Step.given_eq_ok.mp h
      rw [addCommit?_getD] at h
      obtain ⟨rfl, -⟩ := Step.emit_eq_ok.mp h
      rfl
    · obtain ⟨rfl, -⟩ := Step.done_eq_ok.mp h
      rfl
  · rename_i hnone
    obtain ⟨rfl, -⟩ := Step.done_eq_ok.mp h
    by_contra hquorum
    rw [Bool.not_eq_false] at hquorum
    have haccepted : i.round.accepted.isSome = true := by
      rw [Round.hasPreparedQuorum, Bool.and_eq_true, Bool.and_eq_true] at hquorum
      exact hquorum.1.2
    obtain ⟨⟨m, digest⟩, haccepted⟩ := Option.isSome_iff_exists.mp haccepted
    exact hnone _ _ _ (Round.digest_eq_some.mpr ⟨m, haccepted⟩)
      (Round.prepare?_eq_some.mpr ⟨m, digest, haccepted, hquorum, rfl, rfl⟩)

theorem commitIfQuorum_quiescent
    (hi : i.round.hasPreparedQuorum = false) (h : commitIfQuorum i = .ok (j, actions)) :
    j.Quiescent := by
  rw [commitIfQuorum, Step.given_eq_ok] at h
  obtain ⟨result, hresult, h⟩ := h
  rw [mapError_eq_ok] at hresult
  cases result with
  | none =>
      obtain ⟨rfl, -⟩ := Step.done_eq_ok.mp h
      refine ⟨hi, ?_⟩
      by_contra hquorum
      rw [Bool.not_eq_false] at hquorum
      rw [Round.commit?] at hresult
      split at hresult
      · rw [if_pos hquorum] at hresult
        obtain ⟨header, -, hnone⟩ := bind_eq_ok.mp hresult
        exact absurd (pure_eq_ok.mp hnone) (by simp)
      · rename_i haccepted
        simp [Round.hasCommitQuorum, haccepted] at hquorum
  | some result =>
      obtain ⟨block, round⟩ := result
      obtain ⟨-, -, -, -, -, -, -, rfl⟩ := Round.commit?_eq_some.mp hresult
      obtain ⟨rfl, -⟩ := Step.emit_eq_ok.mp h
      exact ⟨rfl, rfl⟩

theorem countVotes_quiescent (h : countVotes c i = .ok (j, actions)) : j.Quiescent := by
  rw [countVotes, Step.andThen_eq_ok] at h
  obtain ⟨k, first, second, hfirst, hsecond, -⟩ := h
  exact commitIfQuorum_quiescent (prepareIfQuorum_prepared hfirst) hsecond

/-- Votes that cannot be counted leave a block that cannot be given its seals. -/
theorem countVotes_concluded : (countVotes c i).Ends fun _ => Concluded := by
  by_cases hclosable : i.Closable
  · obtain ⟨j, actions, hcount⟩ := hclosable.exists_countVotes c
    rw [hcount]
    exact (countVotes_quiescent hcount).concluded
  · have hstays : (countVotes c i).Ends (Stays c [] i) := countVotes_stays
    have hcommittee : (countVotes c i).Ends fun _ j => j.committee = i.committee :=
      hstays.imp fun _ _ hstays => hstays.moves.committee
    intro hj
    refine absurd (fun m d hm => ?_) hclosable
    have hend := hj m d (countVotes_lasts.accepted _ hm)
    rwa [show (countVotes c i).outcome.1.committee = i.committee from hcommittee] at hend

/-! ## Steps -/

theorem accept_concluded
    {m : JustifiedProposal} {digest : Digest} (hfree : i.round.accepted = none) :
    (accept c i m digest).Ends fun _ => Concluded := by
  rcases accept_cases c m digest hfree with
    ⟨-, hobserve⟩ | ⟨-, p, -, htake⟩
  · rw [hobserve]
    exact countVotes_concluded
  · rw [htake]
    exact Step.ends_emit_andThen countVotes_concluded

theorem propose_concluded (hi : i.Concluded) : (propose c i).Ends fun _ => Concluded := by
  rcases propose_cases c i with ⟨hdone, -⟩ | ⟨cause, hfails⟩ |
    ⟨block, certificate, m, digest, p, -, -, -, -, -, -, hlead⟩
  · rw [hdone]
    exact hi
  · rw [hfails]
    exact hi
  · rw [hlead]
    exact Step.ends_emit_andThen countVotes_concluded

/-- What is neither the proposal in force, the committee nor a vote has no bearing on the
conclusions. -/
theorem Concluded.congr
    (hi : i.Concluded) (hround : j.round = i.round) (hcommittee : j.committee = i.committee) :
    j.Concluded := by
  intro hj
  rw [Closable, hround, hcommittee] at hj
  obtain ⟨hprepared, hcommitted⟩ := hi hj
  constructor <;> rwa [hround]

theorem process_concluded
    {change : Signed RoundChange → Step Instance} {m : Message} (hi : i.Concluded)
    (hchange : ∀ p, (change p).Ends fun _ => Concluded) :
    (process change c i m).Ends fun _ => Concluded := by
  unfold process
  split
  · exact hi
  · exact hi.congr rfl rfl
  · cases m with
    | proposal p =>
        simp only [onProposal]
        split
        · exact hi
        · rename_i hfree
          split
          · exact accept_concluded (by simpa using hfree)
          · exact hi
    | prepare p =>
        simp only [onPrepare]
        split
        · exact countVotes_concluded
        · exact hi
    | commit p =>
        simp only [onCommit]
        split
        · exact countVotes_concluded
        · exact hi
    | roundChange p => exact hchange p

theorem replayKept_concluded
    (hi : i.Concluded) : (replayKept c i).Ends fun _ => Concluded := by
  rw [replayKept]
  exact forEach_ends (fun j m hj => process_concluded hj fun _ => hj) (hi.congr rfl rfl)

/-- A round that has just been entered is quiescent. -/
theorem quiescent_entering (i : Instance) (view : View) : (i.entering view).Quiescent :=
  ⟨rfl, rfl⟩

theorem moveTo_concluded
    {round : UInt32} (hi : i.Concluded) : (moveTo c i round).Ends fun _ => Concluded := by
  rcases moveTo_cases c i round with ⟨cause, hfails⟩ | ⟨first, j, hannounce⟩
  · rw [hfails]
    exact hi
  · have hpropose := propose_concluded (c := c) (quiescent_entering j (i.viewIn round)).concluded
    rw [moveTo_of_announce hannounce]
    exact Step.ends_emit_andThen <| Step.ends_andThen (p := fun _ => Concluded) hpropose
      fun _ _ hproposed => replayKept_concluded (hpropose.of_ok hproposed)

theorem onRoundChange_concluded
    {m : Signed RoundChange} (hi : i.Concluded) :
    (onRoundChange c i m).Ends fun _ => Concluded := by
  rw [onRoundChange]
  split
  · exact hi
  · split
    · exact hi
    · rename_i changes _
      have hchanges : ({ i with changes } : Instance).Concluded := hi.congr rfl rfl
      dsimp only
      split
      · exact moveTo_concluded hchanges
      · split
        · exact propose_concluded hchanges
        · exact hchanges

/-! ## Inputs -/

theorem start_concluded (hi : i.Concluded) : (start c i).Ends fun _ => Concluded :=
  Step.ends_emit_andThen (propose_concluded hi)

theorem receive_concluded
    {m : Message} (hi : i.Concluded) : (receive c i m).Ends fun _ => Concluded :=
  process_concluded hi fun _ => onRoundChange_concluded hi

theorem expire_concluded
    {view : View} (hi : i.Concluded) : (expire c i view).Ends fun _ => Concluded := by
  rw [expire]
  split
  · exact hi
  · exact moveTo_concluded hi

end Instance

namespace Record

variable {s : Setup} {b : Base} {r : Record}

theorem concluded_turn {t : Turn} (h : r.now.Concluded) : (r.turn s t).now.Concluded := by
  show (r.answer s t).Ends fun _ => Instance.Concluded
  rw [answer]
  split
  · exact Instance.receive_concluded h
  · exact Instance.expire_concluded h

/-- Behind every run of a node, no quorum is left uncounted. -/
theorem concluded_run
    (s : Setup) (b : Base) (moment : Setup.Moment) (turns : List Turn) :
    (run s b moment turns).now.Concluded := by
  induction turns using List.reverseRecOn with
  | nil =>
      have hfresh : (b.fresh s).Quiescent := ⟨rfl, rfl⟩
      show ((b.fresh s).start (s.context moment)).Ends fun _ => Instance.Concluded
      exact Instance.start_concluded hfresh.concluded
  | append_singleton turns t ih =>
      rw [run_append_singleton]
      exact concluded_turn ih

end Record

end QuorumChain
