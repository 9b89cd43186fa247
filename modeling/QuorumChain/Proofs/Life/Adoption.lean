import QuorumChain.Proofs.Committee.Cache
import QuorumChain.Proofs.Life.Position

/-!
# A chain checked at once and head by head

A chain can be checked before a node starts, or its heads can be given to a running node one
after the other.  A node that belongs to no committee takes part in nothing: when a height is
opened its instance stays fresh, and only a head that extends the chain with the seals of a
quorum moves it.  So it climbs along exactly the chains that pass the check, and ends with the
committee that the check gives.
-/

namespace QuorumChain

namespace Instance

variable {s : Setup} {b : Base}

/-- An instance that is no member's does nothing at its start but set its timer. -/
theorem start_of_outsider
    (houtside : s.signer.address ∉ b.committee.members) (moment : Setup.Moment) :
    (b.fresh s).start (s.context moment) =
      .ok (b.fresh s, [startTimer (s.context moment) (b.fresh s).view]) := by
  have hmember : (b.fresh s).isMember = false := by
    rw [isMember, Committee.contains, List.contains_eq_mem, decide_eq_false_iff_not]
    exact houtside
  have hproposer : (b.fresh s).isProposer = false := by
    rw [isProposer, hmember, Bool.false_and]
  rw [start, Step.emit, Step.andThen, propose, hproposer]
  rfl

end Instance

namespace Node

variable {s : Setup} {n : Node} {b : Base} {head first : Header} {next : Committee}
  {committees : CommitteeCache} {known : Set Header} {x : Execution}

/-! ## Heights of an outsider -/

/-- A node stands at a height: its instance is fresh, nothing waits for it, and what it
remembers comes from known headers. -/
structure StandsAt (s : Setup) (known : Set Header) (n : Node) (b : Base) : Prop where
  digest : b.parent.digest s.scheme.hash = .ok b.parentDigest
  current : n.current = some (b.fresh s)
  early : ∃ limit, n.early = .empty limit
  faithful : n.committees.Faithful s.scheme.hash known

theorem StandsAt.view (h : n.StandsAt s known b) : n.view? = some ⟨b.height, 0⟩ := by
  rw [view?, h.current]
  rfl

/-- The reaction with which an outsider opens a height. -/
theorem startHeight_of_outsider
    (hdigest : b.parent.digest s.scheme.hash = .ok b.parentDigest)
    (hafter : n.committees.after s.scheme.hash b.parent = .ok (b.committee, committees))
    (houtside : s.signer.address ∉ b.committee.members)
    {limit : Nat} (hearly : n.early = .empty limit) :
    startHeight { s with execution := x } n b.parent =
      ⟨{ n with committees, current := some (b.fresh s) },
        .ok [Instance.startTimer (n.context s) (b.fresh s).view]⟩ := by
  have hopens : Opens { s with execution := x } n b.parent b committees (b.fresh s) _ :=
    ⟨rfl, hdigest, hafter, Instance.start_of_outsider houtside ⟨n.votes, x⟩⟩
  have hopened : startHeight { s with execution := x } n b.parent = _ := hopens.reaction n.early
  rw [hopened, hearly]
  rfl

/-- What a fresh instance adopts is what extends the chain with the seals of its committee. -/
theorem adopts_fresh
    (hdigest : b.parent.digest s.scheme.hash = .ok b.parentDigest) :
    adopts s (b.fresh s) head = true ↔
      CommitteeCache.checkLink s.scheme b.committee b.parent head = .ok () := by
  rw [CommitteeCache.checkLink_eq_ok hdigest]
  constructor
  · intro hadopts
    obtain ⟨hnumber, digest, -, hcommitted | ⟨hparent, hsealed⟩⟩ := adopts_eq_true hadopts
    · contradiction
    · exact ⟨hnumber, hparent, hsealed⟩
  · rintro ⟨hnumber, hparent, signers, hsealed⟩
    obtain ⟨-, digest, -, hd, -⟩ := Header.quorate_of_checkCommitted hsealed
    have hlinked : (head.parent == b.parentDigest &&
        (head.checkCommitted s.scheme b.committee).isOk) = true := by
      rw [hparent, hsealed, beq_self_eq_true]
      rfl
    rw [adopts, Bool.and_eq_true, beq_iff_eq]
    refine ⟨hnumber, ?_⟩
    rw [hd]
    exact Bool.or_eq_true_iff.mpr (.inr hlinked)

/-! ## Climbing -/

/-- On some occasions, one after the other, a node goes up one height at each of them. -/
def Climbs (s : Setup) : Node → List Occasion → Prop
  | _, [] => True
  | n, o :: rest =>
    (∃ v w, n.view? = some v ∧ (n.meet s o).node.view? = some w ∧ w.height = v.height + 1) ∧
      Climbs s (n.meet s o).node rest

section

variable (hfree : Set.InjOn s.scheme.hash (Header.writing '' known))

include hfree in
/-- The height behind a known header is opened by an outsider if it has a digest and a committee. -/
theorem standsAt_of_startHeight
    {d : Digest} (hn : n.committees.Faithful s.scheme.hash known) (hhead : head ∈ known)
    (hd : head.digest s.scheme.hash = .ok d) (hnext : head.nextCommittee = .ok next)
    (houtside : s.signer.address ∉ next.members) (hearly : ∃ limit, n.early = .empty limit) :
    (startHeight { s with execution := x } n head).node.StandsAt s known ⟨head, d, next⟩ ∧
      ∃ actions, (startHeight { s with execution := x } n head).result = .ok actions := by
  obtain ⟨limit, hearly⟩ := hearly
  obtain ⟨committees, hafter⟩ := hn.exists_after hfree hhead hd hnext
  have hopened :=
    startHeight_of_outsider (x := x) (b := ⟨head, d, next⟩) hd hafter houtside hearly
  dsimp only at hopened
  rw [hopened]
  exact ⟨⟨hd, rfl, ⟨limit, hearly⟩, (hn.of_after hfree hhead hafter).2⟩, _, rfl⟩

include hfree in
/-- A linked head takes an outsider to the next height. -/
theorem StandsAt.newHead
    (hn : n.StandsAt s known b) (hhead : head ∈ known)
    (hlink : CommitteeCache.checkLink s.scheme b.committee b.parent head = .ok ())
    (hnext : head.nextCommittee = .ok next) (houtside : s.signer.address ∉ next.members) :
    ∃ d, (n.meet s ⟨x, .newHead head⟩).node.StandsAt s known ⟨head, d, next⟩ := by
  obtain ⟨d, hd⟩ := CommitteeCache.digest_of_checkLink hlink
  have hmeet : n.meet s ⟨x, .newHead head⟩ = startHeight { s with execution := x } n head := by
    rw [meet, handle, onNewHead, hn.current]
    exact if_pos ((adopts_fresh hn.digest).mpr hlink)
  rw [hmeet]
  exact ⟨d, (standsAt_of_startHeight hfree hn.faithful hhead hd hnext houtside hn.early).1⟩

include hfree in
/-- A node moves up only at a linked head with a committee behind it. -/
theorem StandsAt.linked_of_rises
    {v w : View} (hn : n.StandsAt s known b) (hhead : head ∈ known) (hv : n.view? = some v)
    (hw : (n.meet s ⟨x, .newHead head⟩).node.view? = some w) (hrises : w.height = v.height + 1) :
    CommitteeCache.checkLink s.scheme b.committee b.parent head = .ok () ∧
      ∃ next, head.nextCommittee = .ok next := by
  have hmoved : (n.meet s ⟨x, .newHead head⟩).node.current ≠ n.current := by
    intro hsame
    rw [view?, hsame] at hw
    rw [view?, hw] at hv
    cases hv
    exact absurd hrises (by simp)
  rw [meet, handle, onNewHead, hn.current] at hmoved
  dsimp only at hmoved
  split at hmoved
  · rename_i hadopts
    refine ⟨(adopts_fresh hn.digest).mp hadopts, ?_⟩
    rcases startHeight_cases { s with execution := x } n head with ⟨committees, e, -, hfails⟩ |
      ⟨b', committees, i, actions, hopens, -⟩
    · rw [hfails n.early] at hmoved
      exact absurd hn.current hmoved
    · exact ⟨b'.committee, (hn.faithful.of_after hfree hhead hopens.committee).1⟩
  · exact absurd hn.current hmoved

include hfree in
/-- An outsider climbs along exactly the chains that are linked, and ends with the committee
behind the last header. -/
theorem StandsAt.climbs_iff
    {heads : List Header} {occasions : List Occasion} (hn : n.StandsAt s known b)
    (hheads : occasions.map Occasion.event = heads.map .newHead) (hknown : ∀ h ∈ heads, h ∈ known)
    (houtside : ∀ earlier later next, heads = earlier ++ later →
      CommitteeCache.Chained s.scheme b.committee b.parent earlier next →
        s.signer.address ∉ next.members) :
    (Climbs s n occasions ↔
      ∃ last, CommitteeCache.Chained s.scheme b.committee b.parent heads last) ∧
    ∀ last, CommitteeCache.Chained s.scheme b.committee b.parent heads last →
      (n.after s occasions).committee? = some last := by
  induction heads generalizing n b occasions with
  | nil =>
      obtain rfl := List.map_eq_nil_iff.mp hheads
      refine ⟨⟨fun _ => ⟨b.committee, .nil⟩, fun _ => trivial⟩, ?_⟩
      rintro last ⟨⟩
      rw [after_nil, committee?, hn.current]
      rfl
  | cons head rest ih =>
      obtain ⟨⟨x, e⟩, occasions, rfl, hevent, htail⟩ := List.map_eq_cons_iff.mp hheads
      obtain rfl : e = .newHead head := hevent
      have hhead : head ∈ known := hknown head List.mem_cons_self
      -- Behind a linked head the node stands one height further up, and the rest follows by
      -- induction.
      have hstep : ∀ next, CommitteeCache.checkLink s.scheme b.committee b.parent head = .ok () →
          head.nextCommittee = .ok next →
            (∃ v, (n.meet s ⟨x, .newHead head⟩).node.view? = some v ∧
              v.height = head.number + 1) ∧
            ((Climbs s (n.meet s ⟨x, .newHead head⟩).node occasions ↔
                ∃ last, CommitteeCache.Chained s.scheme next head rest last) ∧
              ∀ last, CommitteeCache.Chained s.scheme next head rest last →
                ((n.meet s ⟨x, .newHead head⟩).node.after s occasions).committee? =
                  some last) := by
        intro next hlink hnext
        obtain ⟨d, hnode⟩ := hn.newHead (x := x) hfree hhead hlink hnext
          (houtside [head] rest next rfl (.cons hlink hnext .nil))
        refine ⟨⟨_, hnode.view, rfl⟩,
          ih hnode htail (fun h hh => hknown h (List.mem_cons_of_mem head hh)) ?_⟩
        intro earlier later next' heq hchained
        exact houtside (head :: earlier) later next' (by rw [heq, List.cons_append])
          (.cons hlink hnext hchained)
      refine ⟨⟨?_, ?_⟩, ?_⟩
      · rintro ⟨⟨v, w, hv, hw, hrises⟩, hclimbs⟩
        obtain ⟨hlink, next, hnext⟩ := hn.linked_of_rises hfree hhead hv hw hrises
        obtain ⟨-, hiff, -⟩ := hstep next hlink hnext
        obtain ⟨last, hrest⟩ := hiff.mp hclimbs
        exact ⟨last, .cons hlink hnext hrest⟩
      · rintro ⟨last, _ | ⟨hlink, hnext, hrest⟩⟩
        obtain ⟨⟨w, hw, hheight⟩, hiff, -⟩ := hstep _ hlink hnext
        refine ⟨⟨_, w, hn.view, hw, ?_⟩, hiff.mpr ⟨last, hrest⟩⟩
        rw [hheight, ((CommitteeCache.checkLink_eq_ok hn.digest).mp hlink).1]
        rfl
      · rintro last (_ | ⟨hlink, hnext, hrest⟩)
        obtain ⟨-, -, hlast⟩ := hstep _ hlink hnext
        exact hlast last hrest

include hfree in
/-- An outsider that is started behind a known header stands there. -/
theorem standsAt_of_start
    {d : Digest} (hn : n.committees.Faithful s.scheme.hash known) (hhead : head ∈ known)
    (hd : head.digest s.scheme.hash = .ok d) (hnext : head.nextCommittee = .ok next)
    (houtside : s.signer.address ∉ next.members) (hearly : ∃ limit, n.early = .empty limit) :
    (start s n head).node.StandsAt s known ⟨head, d, next⟩ ∧
      ∃ actions, (start s n head).result = .ok actions := by
  obtain ⟨committees, hafter⟩ := hn.exists_after hfree hhead hd hnext
  have hfaithful := (hn.of_after hfree hhead hafter).2
  have hcontains : next.contains s.signer.address = false := by
    rw [Committee.contains, List.contains_eq_mem, decide_eq_false_iff_not]
    exact houtside
  rw [start, hafter]
  dsimp only
  rw [hcontains, if_neg Bool.false_ne_true]
  exact standsAt_of_startHeight (x := s.execution) (n := { n with committees })
    hfree hfaithful hhead
    hd hnext houtside hearly

include hfree in
/-- Started behind a first header with a committee, an outsider climbs along what is linked to
it. -/
theorem climbs_iff_of_start
    {d : Digest} {rest : List Header} {occasions : List Occasion}
    (hheads : occasions.map Occasion.event = rest.map .newHead)
    (hknown : ∀ h ∈ first :: rest, h ∈ known) (hd : first.digest s.scheme.hash = .ok d)
    (hnext : first.nextCommittee = .ok next)
    (houtside : ∀ earlier later last, rest = earlier ++ later →
      CommitteeCache.Chained s.scheme next first earlier last → s.signer.address ∉ last.members) :
    (∃ actions, (start s (new s.settings) first).result = .ok actions) ∧
    (Climbs s (start s (new s.settings) first).node occasions ↔
      ∃ last, CommitteeCache.Chained s.scheme next first rest last) ∧
    ∀ last, CommitteeCache.Chained s.scheme next first rest last →
      ((start s (new s.settings) first).node.after s occasions).committee? = some last := by
  have hempty := CommitteeCache.faithful_empty s.scheme.hash known s.settings.committeeCacheSize
  obtain ⟨hnode, hok⟩ := standsAt_of_start (n := new s.settings) hfree hempty
    (hknown first List.mem_cons_self) hd hnext (houtside [] rest next rfl .nil) ⟨_, rfl⟩
  exact ⟨hok, hnode.climbs_iff hfree hheads (fun h hh => hknown h (List.mem_cons_of_mem first hh))
    houtside⟩

end

/-- A node cannot be started behind a header without a committee. -/
theorem after_of_start
    {actions : List Action} (hok : (start s n head).result = .ok actions) :
    ∃ next committees, n.committees.after s.scheme.hash head = .ok (next, committees) := by
  rw [start] at hok
  split at hok
  · contradiction
  · exact ⟨_, _, by assumption⟩

/-! ## Checking and climbing agree -/

/-- A chain passes the check exactly if a node outside all its committees that is started on the
first header climbs along the others; and the node is then left with the committee that the
check gives. -/
theorem replay_iff_climbs
    (s : Setup) {first : Header} {rest : List Header} {occasions : List Occasion} (capacity : Nat)
    (hheads : occasions.map Occasion.event = rest.map .newHead) (hgenesis : first.number = 0)
    (hfree : Set.InjOn s.scheme.hash (Header.writing '' {h | h ∈ first :: rest}))
    (houtside : ∀ earlier later committee c, first :: rest = earlier ++ later →
      (CommitteeCache.empty capacity).replay s.scheme earlier = .ok (committee, c) →
        s.signer.address ∉ committee.members) :
    let started := start s (new s.settings) first
    ((∃ committee c, (CommitteeCache.empty capacity).replay s.scheme (first :: rest) =
        .ok (committee, c)) ↔
      (∃ actions, started.result = .ok actions) ∧ Climbs s started.node occasions) ∧
    ∀ committee c, (CommitteeCache.empty capacity).replay s.scheme (first :: rest) =
      .ok (committee, c) → (started.node.after s occasions).committee? = some committee := by
  intro started
  have hempty := CommitteeCache.faithful_empty s.scheme.hash {h | h ∈ first :: rest} capacity
  have hreplay := hempty.replay_iff hfree (fun _ hh => hh)
  have hstart : ∀ d next, first.digest s.scheme.hash = .ok d → first.nextCommittee = .ok next → _ :=
    fun d next hd hnext => climbs_iff_of_start hfree hheads (fun _ hh => hh) hd hnext <| by
      intro earlier later last heq hlinked
      have hsplit : first :: rest = (first :: earlier) ++ later := by rw [heq, List.cons_append]
      have hlisted : ∀ h ∈ first :: earlier, h ∈ {h | h ∈ first :: rest} := by
        intro h hh
        show h ∈ first :: rest
        rw [hsplit]
        exact List.mem_append_left later hh
      obtain ⟨c, hchecked⟩ := (hempty.replay_iff hfree hlisted last).mpr
        ⟨hgenesis, ⟨d, hd⟩, next, hnext, hlinked⟩
      exact houtside (first :: earlier) later last c hsplit hchecked
  refine ⟨⟨?_, ?_⟩, ?_⟩
  · rintro ⟨last, hchecked⟩
    obtain ⟨-, ⟨d, hd⟩, next, hnext, hlinked⟩ := (hreplay last).mp hchecked
    obtain ⟨hok, hclimbs, -⟩ := hstart d next hd hnext
    exact ⟨hok, hclimbs.mpr ⟨last, hlinked⟩⟩
  · rintro ⟨⟨actions, hok⟩, hclimbs⟩
    obtain ⟨next, committees, hafter⟩ := after_of_start hok
    obtain ⟨d, hd, -⟩ := CommitteeCache.after_cases hafter
    have hnew := CommitteeCache.faithful_empty s.scheme.hash {h | h ∈ first :: rest}
      s.settings.committeeCacheSize
    obtain ⟨hnext, -⟩ := hnew.of_after hfree List.mem_cons_self hafter
    obtain ⟨-, hiff, -⟩ := hstart d next hd hnext
    obtain ⟨last, hlinked⟩ := hiff.mp hclimbs
    exact ⟨last, (hreplay last).mpr ⟨hgenesis, ⟨d, hd⟩, next, hnext, hlinked⟩⟩
  · intro last c hchecked
    obtain ⟨-, ⟨d, hd⟩, next, hnext, hlinked⟩ := (hreplay last).mp ⟨c, hchecked⟩
    obtain ⟨-, -, hlast⟩ := hstart d next hd hnext
    exact hlast last hlinked

/-- A node that is none of four members follows their chain from the first block to the next. -/
theorem replay_iff_climbs_of_outsider :
    let s := Four.newcomerSetup
    let started := start s (new s.settings) Four.first.header
    let o : Occasion := ⟨s.execution, .newHead Four.head⟩
    ∃ committee c, (CommitteeCache.empty 8).replay s.scheme [Four.first.header, Four.head] =
      .ok (committee, c) ∧ Climbs s started.node [o] ∧
        (started.node.after s [o]).committee? = some committee := by
  intro s started o
  have hdistinct : Four.hash Four.first.header.writing ≠ Four.hash Four.head.writing := by
    decide +kernel
  have hfree : Set.InjOn s.scheme.hash
      (Header.writing '' {h | h ∈ [Four.first.header, Four.head]}) := by
    rintro _ ⟨h, hh, rfl⟩ _ ⟨g, hg, rfl⟩ hhash
    have hh' : h = Four.first.header ∨ h = Four.head := by simpa using hh
    have hg' : g = Four.first.header ∨ g = Four.head := by simpa using hg
    rcases hh' with rfl | rfl <;> rcases hg' with rfl | rfl
    · rfl
    · exact absurd hhash hdistinct
    · exact absurd hhash.symm hdistinct
    · rfl
  have hchecked : ∀ earlier ∈ [Four.first.header, Four.head].inits,
      (((CommitteeCache.empty 8).replay s.scheme earlier).toOption.all fun found =>
        !found.1.contains s.signer.address) = true := by
    decide +kernel
  have houtside : ∀ earlier later committee c, [Four.first.header, Four.head] = earlier ++ later →
      (CommitteeCache.empty 8).replay s.scheme earlier = .ok (committee, c) →
        s.signer.address ∉ committee.members := by
    intro earlier later committee c heq hreplay
    have hlisted := hchecked earlier ((List.mem_inits _ _).mpr ⟨later, heq.symm⟩)
    rw [hreplay] at hlisted
    simpa [Except.toOption, Committee.contains] using hlisted
  have hgenesis : Four.first.header.number = 0 := by
    decide +kernel
  have hheads : [o].map Occasion.event = [Four.head].map .newHead := rfl
  obtain ⟨hiff, hends⟩ := replay_iff_climbs s 8 hheads hgenesis hfree houtside
  have hpasses : ((CommitteeCache.empty 8).replay s.scheme
      [Four.first.header, Four.head]).toOption.isSome = true := by
    decide +kernel
  cases hreplay : (CommitteeCache.empty 8).replay s.scheme [Four.first.header, Four.head] with
  | error e =>
      rw [hreplay] at hpasses
      exact absurd hpasses Bool.false_ne_true
  | ok found =>
      obtain ⟨committee, c⟩ := found
      exact ⟨committee, c, rfl, (hiff.mp ⟨committee, c, hreplay⟩).2, hends committee c hreplay⟩

end Node

end QuorumChain
