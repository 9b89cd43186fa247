import QuorumChain.Proofs.Node.Record

/-!
# What moves effect

A move keeps the round and what is settled in it, or begins a later round.  What a move asks for
tells which move it was; what it adds to the state was heard and admitted or made by the move.
-/

namespace QuorumChain

namespace RoundChanges

theorem mem_forRound
    {t : RoundChanges} {round : UInt32} {x : Address × Signed RoundChange} :
    x ∈ (t.forRound round).entries ↔
      ∃ byAuthor, t.requests.get? round = some byAuthor ∧ x ∈ byAuthor.entries := by
  rw [forRound]
  cases hround : t.requests.get? round with
  | none => simp [SortedMap.empty]
  | some byAuthor => simp

theorem mem_forRound_add
    {t : RoundChanges} {m : Signed RoundChange} {round : UInt32}
    {x : Address × Signed RoundChange} (hx : x ∈ ((t.add m).forRound round).entries) :
    x ∈ (t.forRound round).entries ∨ (round = m.payload.view.round ∧ x = (m.author, m)) := by
  rw [add, add?] at hx
  cases hnew : (t.forRound m.payload.view.round).insertNew? m.author m with
  | none =>
      rw [hnew] at hx
      exact .inl hx
  | some byAuthor =>
      rw [hnew] at hx
      obtain ⟨found, hfound, hx⟩ := mem_forRound.mp hx
      rcases SortedMap.mem_insertEntry (SortedMap.get?_eq_some.mp hfound) with heq | hmem
      · cases heq
        rcases ((SortedMap.insertNew?_eq_some hnew).2 x).mp hx with rfl | hx
        · exact .inr ⟨rfl, rfl⟩
        · exact .inl hx
      · exact .inl (mem_forRound.mpr ⟨found, SortedMap.get?_eq_some.mpr hmem, hx⟩)

theorem mem_forRound_dropBelow
    {t : RoundChanges} {bound round : UInt32} {x : Address × Signed RoundChange}
    (hx : x ∈ ((t.dropBelow bound).forRound round).entries) : x ∈ (t.forRound round).entries := by
  obtain ⟨byAuthor, hround, hx⟩ := mem_forRound.mp hx
  have hmem := SortedMap.mem_of_mem_filter (SortedMap.get?_eq_some.mp hround)
  exact mem_forRound.mpr ⟨byAuthor, SortedMap.get?_eq_some.mpr hmem, hx⟩

theorem mem_forRound_dropBelow_of_mem
    {t : RoundChanges} {round : UInt32} {x : Address × Signed RoundChange}
    (hx : x ∈ (t.forRound round).entries) : x ∈ ((t.dropBelow round).forRound round).entries := by
  obtain ⟨byAuthor, hround, hx⟩ := mem_forRound.mp hx
  refine mem_forRound.mpr ⟨byAuthor, SortedMap.get?_eq_some.mpr ?_, hx⟩
  refine List.mem_filter.mpr ⟨SortedMap.get?_eq_some.mp hround, ?_⟩
  show (compare round round != .lt) = true
  rw [Std.ReflOrd.compare_self]
  rfl

theorem mem_forRound_add_of_mem
    {t : RoundChanges} {m : Signed RoundChange} {round : UInt32}
    {x : Address × Signed RoundChange} (hx : x ∈ (t.forRound round).entries) :
    x ∈ ((t.add m).forRound round).entries := by
  rw [add, add?]
  cases hnew : (t.forRound m.payload.view.round).insertNew? m.author m with
  | none => exact hx
  | some byAuthor =>
      rw [Option.map_some, Option.getD_some]
      by_cases hround : round = m.payload.view.round
      · subst hround
        refine mem_forRound.mpr ⟨byAuthor, SortedMap.get?_eq_some.mpr ?_, ?_⟩
        · exact SortedMap.mem_insertEntry_self _ _ _
        · exact ((SortedMap.insertNew?_eq_some hnew).2 x).mpr (.inr hx)
      · obtain ⟨found, hfound, hx⟩ := mem_forRound.mp hx
        refine mem_forRound.mpr ⟨found, SortedMap.get?_eq_some.mpr ?_, hx⟩
        exact SortedMap.mem_insertEntry_of_mem (SortedMap.get?_eq_some.mp hfound) hround

/-- The author of a request that was to be added has asked for the round. -/
theorem exists_mem_forRound_add
    (t : RoundChanges) (m : Signed RoundChange) :
    ∃ q, (m.author, q) ∈ ((t.add m).forRound m.payload.view.round).entries := by
  rw [add, add?]
  cases hnew : (t.forRound m.payload.view.round).insertNew? m.author m with
  | none => exact SortedMap.insertNew?_eq_none hnew
  | some byAuthor =>
      rw [Option.map_some, Option.getD_some]
      refine ⟨m, mem_forRound.mpr ⟨byAuthor, SortedMap.get?_eq_some.mpr ?_, ?_⟩⟩
      · exact SortedMap.mem_insertEntry_self _ _ _
      · exact ((SortedMap.insertNew?_eq_some hnew).2 _).mpr (.inl rfl)

theorem add_eq_self
    {t : RoundChanges} {m q : Signed RoundChange}
    (hq : (m.author, q) ∈ (t.forRound m.payload.view.round).entries) : t.add m = t := by
  rw [add, add?]
  cases hnew : (t.forRound m.payload.view.round).insertNew? m.author m with
  | none => rfl
  | some byAuthor => exact absurd hq ((SortedMap.insertNew?_eq_some hnew).1 q)

theorem quorum_add (t : RoundChanges) (m : Signed RoundChange) : (t.add m).quorum = t.quorum := by
  rw [add, add?]
  cases (t.forRound m.payload.view.round).insertNew? m.author m <;> rfl

end RoundChanges

/-- The view whose timer an action starts. -/
def Action.entered? : Action → Option View
  | .startTimer view _ => some view
  | _ => none

/-- The view for which an action makes a proposal. -/
def Action.proposed? : Action → Option View
  | .broadcast (.proposal m) => some m.signed.payload.view
  | _ => none

namespace Instance

variable {c : Context} {heard : List Input} {i j : Instance} {actions : List Action}

/-! ## The round -/

/-- The round goes on: what is accepted and counted stays, and the phase does not fall. -/
structure Lasts (i j : Instance) : Prop where
  view : j.view = i.view
  accepted : ∀ a, i.round.accepted = some a → j.round.accepted = some a
  prepares : ∀ x ∈ i.round.prepares.entries, x ∈ j.round.prepares.entries
  commits : ∀ x ∈ i.round.commits.entries, x ∈ j.round.commits.entries
  phase : i.round.phase ≠ .newRound → j.round.phase ≠ .newRound
  committed : i.round.phase = .committed → j.round.phase = .committed

theorem Lasts.digest
    {i j : Instance} {d : Digest} (h : Lasts i j) (hdigest : i.round.digest = some d) :
    j.round.digest = some d := by
  obtain ⟨m, hm⟩ := Round.digest_eq_some.mp hdigest
  exact Round.digest_eq_some.mpr ⟨m, h.accepted _ hm⟩

/-- A later round has begun. -/
structure Rises (i j : Instance) : Prop where
  height : j.view.height = i.view.height
  later : i.view.round < j.view.round
  accepted : j.round.accepted = none
  phase : j.round.phase = .newRound
  prepares : j.round.prepares = .empty
  commits : j.round.commits = .empty
  prepared : j.prepared = i.prepared

/-- Taking a first proposal and counting a prepare for it leaves the rest of the round as it is. -/
theorem lasts_counting
    {i : Instance} (hfree : i.round.accepted = none) (m : JustifiedProposal) (digest : Digest)
    (p : Signed Prepare) : i.Lasts ((i.accepting m digest).counting p) where
  view := rfl
  accepted a ha := by
    rw [hfree] at ha
    contradiction
  prepares _ hx := SortedMap.mem_keepFirst_of_mem hx
  commits _ hx := hx
  phase := id
  committed := id

theorem newRound_of_hasPreparedQuorum
    {r : Round} (h : r.hasPreparedQuorum = true) : r.phase = .newRound := by
  rw [Round.hasPreparedQuorum, Bool.and_eq_true, Bool.and_eq_true, beq_iff_eq] at h
  exact h.1.1

/-- A move keeps the round and starts no timer, or begins a later round and starts its timer. -/
theorem Move.lasts_or_enters
    (h : Move c heard i actions j) :
    (i.Lasts j ∧ actions.filterMap Action.entered? = []) ∨
      (i.Rises j ∧ actions.filterMap Action.entered? = [j.view]) := by
  cases h with
  | leave round hlater => exact .inr ⟨⟨rfl, hlater, rfl, rfl, rfl, rfl, rfl⟩, rfl⟩
  | depart round m hlater => exact .inr ⟨⟨rfl, hlater, rfl, rfl, rfl, rfl, rfl⟩, rfl⟩
  | observe m digest hheard hadmitted hfree =>
      refine .inl ⟨⟨rfl, ?_, fun _ hx => hx, fun _ hx => hx, id, id⟩, rfl⟩
      intro a ha
      rw [hfree] at ha
      contradiction
  | take m digest p hheard hadmitted hfree => exact .inl ⟨lasts_counting hfree m digest p, rfl⟩
  | lead block certificate m digest p hproposer hfree =>
      exact .inl ⟨lasts_counting hfree m digest p, rfl⟩
  | prepare m =>
      exact .inl ⟨⟨rfl, fun _ ha => ha, fun _ hx => SortedMap.mem_keepFirst_of_mem hx,
        fun _ hx => hx, id, id⟩, rfl⟩
  | commit m =>
      exact .inl ⟨⟨rfl, fun _ ha => ha, fun _ hx => hx,
        fun _ hx => SortedMap.mem_keepFirst_of_mem hx, id, id⟩, rfl⟩
  | follow digest m haccepted hquorum =>
      refine .inl ⟨⟨rfl, fun _ ha => ha, fun _ hx => hx, fun _ hx => hx,
        fun _ hp => Phase.noConfusion hp, ?_⟩, rfl⟩
      intro hp
      rw [newRound_of_hasPreparedQuorum hquorum] at hp
      contradiction
  | certify digest m p haccepted hquorum =>
      refine .inl ⟨⟨rfl, fun _ ha => ha, fun _ hx => hx,
        fun _ hx => SortedMap.mem_keepFirst_of_mem hx, fun _ hp => Phase.noConfusion hp,
        ?_⟩, rfl⟩
      intro hp
      rw [newRound_of_hasPreparedQuorum hquorum] at hp
      contradiction
  | decide digest m header =>
      exact .inl ⟨⟨rfl, fun _ ha => ha, fun _ hx => hx, fun _ hx => hx,
        fun _ hp => Phase.noConfusion hp, fun _ => rfl⟩, rfl⟩
  | _ => exact .inl ⟨⟨rfl, fun _ ha => ha, fun _ hx => hx, fun _ hx => hx, id, id⟩, rfl⟩

theorem Move.lasts_or_rises (h : Move c heard i actions j) : i.Lasts j ∨ i.Rises j :=
  h.lasts_or_enters.imp And.left And.left

theorem Move.base
    (h : Move c heard i actions j) :
    j.parent = i.parent ∧ j.parentDigest = i.parentDigest ∧ j.committee = i.committee ∧
      j.self = i.self := by
  cases h <;> exact ⟨rfl, rfl, rfl, rfl⟩

/-- The quorums of the present round and of the requests are those of the committee. -/
theorem Move.quorum
    (h : Move c heard i actions j) (hround : i.round.quorum = i.committee.quorum)
    (hchanges : i.changes.quorum = i.committee.quorum) :
    j.round.quorum = j.committee.quorum ∧ j.changes.quorum = j.committee.quorum := by
  cases h with
  | request m => exact ⟨hround, (RoundChanges.quorum_add _ m).trans hchanges⟩
  | leave => exact ⟨rfl, hchanges⟩
  | depart round m => exact ⟨rfl, (RoundChanges.quorum_add _ m).trans hchanges⟩
  | _ => exact ⟨hround, hchanges⟩

theorem Departs.base
    {round : UInt32} (h : Departs c i round actions j) :
    j.committee = i.committee ∧ j.self = i.self := by
  cases h <;> exact ⟨rfl, rfl⟩

theorem Departs.prepared
    {round : UInt32} (h : Departs c i round actions j) : j.prepared = i.prepared := by
  cases h <;> rfl

/-- Whoever leaves a round sends nothing but a request that carries his latest certificate. -/
theorem Departs.of_broadcast
    {round : UInt32} {m : Message} (h : Departs c i round actions j)
    (hm : .broadcast m ∈ actions) :
    ∃ q, m = .roundChange q ∧ q.payload.prepared = i.prepared := by
  cases h with
  | silently => simp [startTimer] at hm
  | announced q _ hq =>
      obtain rfl : m = .roundChange q := by simpa [startTimer] using hm
      obtain ⟨-, hpayload, -⟩ := Signer.roundChange_eq_ok hq
      exact ⟨q, rfl, by rw [hpayload]⟩

theorem Departs.imports_nothing
    {round : UInt32} (h : Departs c i round actions j) :
    actions.filterMap Action.imported? = [] ∧ j.round.phase = .newRound := by
  cases h <;> exact ⟨rfl, rfl⟩

/-- A member that leaves a round has asked for the new one. -/
theorem Departs.requested
    {round : UInt32} (h : Departs c i round actions j) (hself : c.signer.address = i.self)
    (hmember : i.isMember = true) :
    ∃ q, (i.self, q) ∈ (j.changes.forRound j.view.round).entries := by
  cases h with
  | silently hnot =>
      rw [hmember] at hnot
      contradiction
  | announced m _ hm =>
      obtain ⟨-, hpayload, hauthor, -⟩ := Signer.roundChange_eq_ok hm
      obtain ⟨q, hq⟩ := RoundChanges.exists_mem_forRound_add i.changes m
      rw [hauthor, hself, hpayload] at hq
      exact ⟨q, RoundChanges.mem_forRound_dropBelow_of_mem hq⟩

theorem Move.requested
    (h : Move c heard i actions j) (hself : c.signer.address = i.self)
    (hmember : i.isMember = true) (hround : j.view.round ≠ 0)
    (hi : i.view.round ≠ 0 →
      ∃ q, (i.self, q) ∈ (i.changes.forRound i.view.round).entries) :
    ∃ q, (i.self, q) ∈ (j.changes.forRound j.view.round).entries := by
  cases h with
  | request m =>
      obtain ⟨q, hq⟩ := hi hround
      exact ⟨q, RoundChanges.mem_forRound_add_of_mem hq⟩
  | leave round _ _ hnot => exact (Departs.silently hnot).requested hself hmember
  | depart round m _ _ hmember' hm =>
      exact (Departs.announced m hmember' hm).requested hself hmember
  | _ => exact hi hround

/-- Entering the present round once more changes nothing but the round, if a member has asked for it
already. -/
theorem Departs.eq_entering
    (h : Departs c i i.view.round actions j) (hself : c.signer.address = i.self)
    (hasked : i.isMember = true →
      ∃ q, (i.self, q) ∈ (i.changes.forRound i.view.round).entries) :
    j = i.entering i.view := by
  cases h with
  | silently => rfl
  | announced m hmember hm =>
      obtain ⟨-, hpayload, hauthor, -⟩ := Signer.roundChange_eq_ok hm
      obtain ⟨q, hq⟩ := hasked hmember
      have hmine : (m.author, q) ∈ (i.changes.forRound m.payload.view.round).entries := by
        rw [hauthor, hself, hpayload]
        exact hq
      rw [requesting, RoundChanges.add_eq_self hmine]
      rfl

/-! ## What is asked for -/

/-- A proposal is made by the proposer of a round without one. -/
theorem Move.of_proposal
    {m : JustifiedProposal} (h : Move c heard i actions j)
    (hm : .broadcast (.proposal m) ∈ actions) :
    ∃ block certificate digest p,
      i.isProposer = true ∧ i.round.accepted = none ∧
        candidate c i = .ok (some (block, certificate)) ∧
          block.header.digest c.scheme.hash = .ok digest ∧
            c.signer.proposal c.scheme.hash i.view block certificate = .ok m ∧
              j = (i.accepting m digest).counting p := by
  cases h with
  | lead block certificate m' digest p hproposer hfree hcandidate hdigest hm' hp =>
      obtain rfl : m = m' := by simpa using hm
      exact ⟨block, certificate, digest, p, hproposer, hfree, hcandidate, hdigest, hm', rfl⟩
  | _ => simp [startTimer] at hm

theorem Move.proposed
    (h : Move c heard i actions j) :
    actions.filterMap Action.proposed? = [] ∨
      (actions.filterMap Action.proposed? = [i.view] ∧ i.round.accepted = none) := by
  cases h with
  | lead block certificate m digest p hproposer hfree hcandidate hdigest hm =>
      obtain ⟨signed, hsigned, hm⟩ := bind_eq_ok.mp hm
      obtain ⟨-, rfl⟩ := Signer.signed_eq_ok.mp hsigned
      obtain rfl := pure_eq_ok.mp hm
      exact .inr ⟨rfl, hfree⟩
  | _ => exact .inl rfl

/-- A prepare is for the proposal that the move takes. -/
theorem Move.of_prepare
    {p : Signed Prepare} (h : Move c heard i actions j)
    (hp : .broadcast (.prepare p) ∈ actions) :
    ∃ m digest,
      i.isMember = true ∧ i.round.accepted = none ∧
        c.signer.prepare c.scheme.hash i.view digest = .ok p ∧
          j = (i.accepting m digest).counting p := by
  cases h with
  | take m digest p' hheard hadmitted hfree hcheck hmember hp' =>
      obtain rfl : p = p' := by simpa using hp
      exact ⟨m, digest, hmember, hfree, hp', rfl⟩
  | lead block certificate m digest p' hproposer hfree hcandidate hdigest hm hp' =>
      obtain rfl : p = p' := by simpa using hp
      rw [isProposer, Bool.and_eq_true] at hproposer
      exact ⟨m, digest, hproposer.1, hfree, hp', rfl⟩
  | _ => simp [startTimer] at hp

/-- A commit is for the proposal in force, for which there is a quorum of prepares. -/
theorem Move.of_commit
    {p : Signed Commit} (h : Move c heard i actions j)
    (hp : .broadcast (.commit p) ∈ actions) :
    ∃ m digest,
      i.isMember = true ∧ i.round.accepted = some (m, digest) ∧
        i.round.hasPreparedQuorum = true ∧
          c.signer.commit c.scheme.hash i.view digest = .ok p ∧
            j = (i.certifying ⟨m.signed, i.round.matchingPrepares⟩).committing p := by
  cases h with
  | certify digest m p' haccepted hquorum hmember hp' =>
      obtain rfl : p = p' := by simpa using hp
      exact ⟨m, digest, hmember, haccepted, hquorum, hp', rfl⟩
  | _ => simp [startTimer] at hp

/-- A request is for the later round that the move begins. -/
theorem Move.of_request
    {m : Signed RoundChange} (h : Move c heard i actions j)
    (hm : .broadcast (.roundChange m) ∈ actions) :
    ∃ round,
      i.isMember = true ∧ i.view.round < round ∧
        (i.changes.hasQuorum round = true ∨ .expiry i.view ∈ heard) ∧
          c.signer.roundChange c.scheme.hash (i.viewIn round) i.prepared = .ok m ∧
            j = (i.requesting m).entering (i.viewIn round) := by
  cases h with
  | depart round m' hlater hreason hmember hm' =>
      obtain rfl : m = m' := by simpa [startTimer] using hm
      exact ⟨round, hmember, hlater, hreason, hm', rfl⟩
  | _ => simp [startTimer] at hm

/-- A block handed out is the one in force, with the seals of a quorum. -/
theorem Move.of_import
    {block : Block} (h : Move c heard i actions j) (hb : .importBlock block ∈ actions) :
    ∃ m digest header,
      i.round.accepted = some (m, digest) ∧ i.round.hasCommitQuorum = true ∧
        m.signed.payload.block.header.withSeals (i.round.sealsFor i.committee) = .ok header ∧
          block = { m.signed.payload.block with header } ∧
            j = { i with round := { i.round with phase := .committed } } := by
  cases h with
  | decide digest m header haccepted hquorum hheader =>
      obtain rfl : block = _ := by simpa using hb
      exact ⟨m, digest, header, haccepted, hquorum, hheader, rfl, rfl⟩
  | _ => simp [startTimer] at hb

/-- A move hands out nothing and leaves it open or settled whether the round is committed, or it
commits the round and hands out its block. -/
theorem Move.imports_or_decides
    (h : Move c heard i actions j) :
    (actions.filterMap Action.imported? = [] ∧
      (j.round.phase = .committed ↔ i.round.phase = .committed)) ∨
    ∃ m digest header,
      i.round.accepted = some (m, digest) ∧ i.round.hasCommitQuorum = true ∧
        m.signed.payload.block.header.withSeals (i.round.sealsFor i.committee) = .ok header ∧
          actions.filterMap Action.imported? = [{ m.signed.payload.block with header }] ∧
            j = { i with round := { i.round with phase := .committed } } := by
  cases h with
  | follow digest m haccepted hquorum =>
      refine .inl ⟨rfl, iff_of_false Phase.noConfusion ?_⟩
      rw [newRound_of_hasPreparedQuorum hquorum]
      exact Phase.noConfusion
  | certify digest m p haccepted hquorum =>
      refine .inl ⟨rfl, iff_of_false Phase.noConfusion ?_⟩
      rw [newRound_of_hasPreparedQuorum hquorum]
      exact Phase.noConfusion
  | decide digest m header haccepted hquorum hheader =>
      exact .inr ⟨m, digest, header, haccepted, hquorum, hheader, rfl, rfl⟩
  | leave _ _ _ _ hopen => exact .inl ⟨rfl, iff_of_false Phase.noConfusion hopen⟩
  | depart _ _ _ _ _ _ hopen => exact .inl ⟨rfl, iff_of_false Phase.noConfusion hopen⟩
  | _ => exact .inl ⟨rfl, Iff.rfl⟩

/-! ## What is added -/

/-- A proposal comes into force because it was heard, admitted and checked or because it is the
node's own. -/
theorem Move.of_accepted
    {m : JustifiedProposal} {digest : Digest} (h : Move c heard i actions j)
    (hj : j.round.accepted = some (m, digest)) :
    i.round.accepted = some (m, digest) ∨
      (.message (.proposal m) ∈ heard ∧
        (Message.proposal m).triage c.scheme i.position = .ok .accept ∧
          m.check c.scheme c.execution i.parent i.parentDigest i.committee = .ok digest) ∨
        .broadcast (.proposal m) ∈ actions := by
  cases h with
  | observe m' digest' hheard hadmitted hfree hcheck =>
      cases hj
      exact .inr (.inl ⟨hheard, hadmitted, hcheck⟩)
  | take m' digest' p hheard hadmitted hfree hcheck =>
      cases hj
      exact .inr (.inl ⟨hheard, hadmitted, hcheck⟩)
  | lead block certificate m' digest' p =>
      cases hj
      exact .inr (.inr List.mem_cons_self)
  | leave => contradiction
  | depart => contradiction
  | _ => exact .inl hj

/-- A member that takes a proposal prepares it. -/
theorem Move.prepares_accepted
    {m : JustifiedProposal} {digest : Digest} (h : Move c heard i actions j)
    (hmember : i.isMember = true) (hj : j.round.accepted = some (m, digest)) :
    i.round.accepted = some (m, digest) ∨
      ∃ p, .broadcast (.prepare p) ∈ actions ∧
        c.signer.prepare c.scheme.hash i.view digest = .ok p := by
  cases h with
  | observe m' digest' hheard hadmitted hfree hcheck hnot =>
      rw [hmember] at hnot
      contradiction
  | take m' digest' p hheard hadmitted hfree hcheck _ hp =>
      cases hj
      exact .inr ⟨p, List.mem_cons_self, hp⟩
  | lead block certificate m' digest' p hproposer hfree hcandidate hdigest hm hp =>
      cases hj
      exact .inr ⟨p, List.mem_cons_of_mem _ List.mem_cons_self, hp⟩
  | leave => contradiction
  | depart => contradiction
  | _ => exact .inl hj

/-- A round is committed because it was or because its block is handed out. -/
theorem Move.of_phase
    (h : Move c heard i actions j) (hj : j.round.phase = .committed) :
    i.round.phase = .committed ∨ ∃ block, .importBlock block ∈ actions := by
  cases h with
  | decide digest m header =>
      exact .inr ⟨_, List.mem_cons_of_mem _ List.mem_cons_self⟩
  | follow => contradiction
  | certify => contradiction
  | leave => contradiction
  | depart => contradiction
  | _ => exact .inl hj

/-- A certificate is kept because there is a quorum of prepares for the proposal in force. -/
theorem Move.of_prepared
    {certificate : PreparedCertificate} (h : Move c heard i actions j)
    (hj : j.prepared = some certificate) :
    i.prepared = some certificate ∨
      ∃ m digest,
        i.round.accepted = some (m, digest) ∧ i.round.hasPreparedQuorum = true ∧
          j.view = i.view ∧ certificate = ⟨m.signed, i.round.matchingPrepares⟩ := by
  cases h with
  | follow digest m haccepted hquorum =>
      cases hj
      exact .inr ⟨m, digest, haccepted, hquorum, rfl, rfl⟩
  | certify digest m p haccepted hquorum =>
      cases hj
      exact .inr ⟨m, digest, haccepted, hquorum, rfl, rfl⟩
  | _ => exact .inl hj

/-- A round that is prepared keeps the certificate. -/
theorem Move.prepared_eq
    (h : Move c heard i actions j) (hphase : i.round.phase ≠ .newRound) :
    j.prepared = i.prepared := by
  cases h with
  | follow _ _ _ hquorum => exact absurd (newRound_of_hasPreparedQuorum hquorum) hphase
  | certify _ _ _ _ hquorum => exact absurd (newRound_of_hasPreparedQuorum hquorum) hphase
  | _ => rfl

/-- A prepare is counted because it was heard and admitted or because it is the node's own. -/
theorem Move.of_counted
    {x : Address × Signed Prepare} (h : Move c heard i actions j)
    (hx : x ∈ j.round.prepares.entries) :
    j.view = i.view ∧
      (x ∈ i.round.prepares.entries ∨
        ∃ m, x = (m.author, m) ∧
          ((.message (.prepare m) ∈ heard ∧
            (Message.prepare m).triage c.scheme i.position = .ok .accept) ∨
              .broadcast (.prepare m) ∈ actions)) := by
  cases h with
  | prepare m hheard hadmitted =>
      refine ⟨rfl, (SortedMap.mem_keepFirst hx).symm.imp_right ?_⟩
      intro heq
      exact ⟨m, heq, .inl ⟨hheard, hadmitted⟩⟩
  | take m digest p =>
      refine ⟨rfl, (SortedMap.mem_keepFirst hx).symm.imp_right ?_⟩
      intro heq
      exact ⟨p, heq, .inr List.mem_cons_self⟩
  | lead block certificate m digest p =>
      refine ⟨rfl, (SortedMap.mem_keepFirst hx).symm.imp_right ?_⟩
      intro heq
      exact ⟨p, heq, .inr (List.mem_cons_of_mem _ List.mem_cons_self)⟩
  | leave => exact absurd hx List.not_mem_nil
  | depart => exact absurd hx List.not_mem_nil
  | _ => exact ⟨rfl, .inl hx⟩

theorem Move.of_committed
    {x : Address × Signed Commit} (h : Move c heard i actions j)
    (hx : x ∈ j.round.commits.entries) :
    j.view = i.view ∧
      (x ∈ i.round.commits.entries ∨
        ∃ m, x = (m.author, m) ∧
          ((.message (.commit m) ∈ heard ∧
            (Message.commit m).triage c.scheme i.position = .ok .accept) ∨
              .broadcast (.commit m) ∈ actions)) := by
  cases h with
  | commit m hheard hadmitted =>
      refine ⟨rfl, (SortedMap.mem_keepFirst hx).symm.imp_right ?_⟩
      intro heq
      exact ⟨m, heq, .inl ⟨hheard, hadmitted⟩⟩
  | certify digest m p =>
      refine ⟨rfl, (SortedMap.mem_keepFirst hx).symm.imp_right ?_⟩
      intro heq
      exact ⟨p, heq, .inr List.mem_cons_self⟩
  | leave => exact absurd hx List.not_mem_nil
  | depart => exact absurd hx List.not_mem_nil
  | _ => exact ⟨rfl, .inl hx⟩

theorem Move.of_requested
    {round : UInt32} {x : Address × Signed RoundChange} (h : Move c heard i actions j)
    (hx : x ∈ (j.changes.forRound round).entries) :
    x ∈ (i.changes.forRound round).entries ∨
      ∃ m, x = (m.author, m) ∧ round = m.payload.view.round ∧
        ((.message (.roundChange m) ∈ heard ∧
          (Message.roundChange m).triage c.scheme i.position = .ok .accept) ∨
            .broadcast (.roundChange m) ∈ actions) := by
  cases h with
  | request m hheard hadmitted =>
      apply (RoundChanges.mem_forRound_add hx).imp_right
      rintro ⟨hround, heq⟩
      exact ⟨m, heq, hround, .inl ⟨hheard, hadmitted⟩⟩
  | leave => exact .inl (RoundChanges.mem_forRound_dropBelow hx)
  | depart target m =>
      have hx := RoundChanges.mem_forRound_dropBelow hx
      apply (RoundChanges.mem_forRound_add hx).imp_right
      rintro ⟨hround, heq⟩
      exact ⟨m, heq, hround, .inr List.mem_cons_self⟩
  | _ => exact .inl hx

end Instance

end QuorumChain
