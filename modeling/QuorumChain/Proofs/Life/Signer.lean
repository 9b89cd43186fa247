import QuorumChain.Proofs.Committee.Cache
import QuorumChain.Proofs.Life.Position
import QuorumChain.Proofs.Node.Response

/-!
# Usable signers

The peers of a member have to be able to verify its signatures.  A node checks that before it
starts, if it is a member then; but the committee changes along the chain, and a node that
becomes a member later on is not checked again.  So the signer of a running member is usable
exactly as long as every head that it adopts is one that it could be started on.
-/

namespace QuorumChain.Node

variable {s : Setup} {n n' : Node} {e : Event} {i j : Instance} {head : Header} {b : Base}
  {committees : CommitteeCache} {first actions : List Action}

/-! ## The check -/

/-- The check of the signer goes through or names the signer. -/
theorem checkSigner_cases (s : Setup) :
    checkSigner s = .ok () ∨ checkSigner s = .error (.unusableSigner s.signer.address) := by
  obtain ⟨m, hm⟩ := s.signer.exists_prepare s.scheme.hash ⟨0, 0⟩ .zero
  obtain ⟨hwritable, -, hauthor, -⟩ := Signer.prepare_eq_ok hm
  have hdigest : Payload.signingDigest s.scheme.hash m.payload = .ok (m.digest s.scheme.hash) :=
    Payload.signingDigest_eq_ok.mpr ⟨hwritable, rfl⟩
  have hcheck : checkSigner s =
      require (s.scheme.verify m.author (m.digest s.scheme.hash) m.signature)
        (.unusableSigner m.author) := by
    simp only [checkSigner, Instance.written_eq_ok.mpr hm, Instance.written_eq_ok.mpr hdigest, bind,
      Except.bind]
  rw [hcheck, hauthor]
  by_cases hverify : s.scheme.verify s.signer.address (m.digest s.scheme.hash) m.signature = true
  · exact .inl (require_eq_ok.mpr hverify)
  · rw [Bool.eq_false_of_not_eq_true hverify]
    exact .inr rfl

/-- The check of the signer goes through if the node is a member of the present committee. -/
def Usable (s : Setup) (n : Node) : Prop :=
  ∀ i, n.current = some i → i.committee.contains s.signer.address = true → checkSigner s = .ok ()

/-! ## Opening a height -/

/-- A height that is begun is opened, and its instance keeps what it is built on. -/
theorem opens_of_startHeight
    (h : startHeight s n head = ⟨n', .ok actions⟩) :
    ∃ b committees i first j, Opens s n head b committees i first ∧
      n'.current = some j ∧ j.base = b := by
  obtain ⟨b, committees, i, first, j, rest, hopens, hrest, -, rfl⟩ := startHeight_eq_ok h
  refine ⟨b, committees, i, first, j, hopens, rfl, ?_⟩
  rw [Instance.forEach_base.of_ok hrest, Instance.start_base.of_ok hopens.start]
  rfl

theorem result_ofOpening (n n' : Node) (step : Step Instance) :
    (n.ofOpening step).result = (n'.ofOpening step).result := by
  cases step <;> rfl

/-- A height can be begun again with the committee already in the cache. -/
theorem result_startHeight_cached
    (hopens : Opens s n head b committees i first) :
    (startHeight s { n with committees } head).result = (startHeight s n head).result := by
  obtain ⟨committees', hagain⟩ := CommitteeCache.after_again hopens.committee
  have hopens' : Opens s { n with committees } head b committees' i first :=
    ⟨hopens.parent, hopens.digest, hagain, hopens.start⟩
  have hn : startHeight s n head = _ := hopens.reaction n.early
  have hn' : startHeight s { n with committees } head = _ := hopens'.reaction n.early
  rw [hn, hn']
  exact result_ofOpening _ _ _

/-- A node refuses to be started on a head that it could follow exactly if it is a member of the
committee behind the head and its signer does not pass the check. -/
theorem start_refuses_iff
    (hopens : Opens s n head b committees i first)
    (h : startHeight s n head = ⟨n', .ok actions⟩) :
    (start s n head).result = .error (.unusableSigner s.signer.address) ↔
      b.committee.contains s.signer.address = true ∧ checkSigner s ≠ .ok () := by
  have hbegins : (startHeight s { n with committees } head).result = .ok actions := by
    rw [result_startHeight_cached hopens, h]
  rw [start, hopens.committee]
  dsimp only
  by_cases hmember : b.committee.contains s.signer.address = true
  · rw [if_pos hmember]
    rcases checkSigner_cases s with hcheck | hcheck
    · rw [hcheck]
      dsimp only
      rw [hbegins]
      simp
    · rw [hcheck]
      simp [fail, hmember]
  · rw [if_neg hmember, hbegins]
    simp [hmember]

/-! ## From event to event -/

/-- Unless a new head is adopted, an event leaves alone what the present instance is built on. -/
theorem handle_base
    (h : n.handle s e = ⟨n', .ok actions⟩)
    (hstays : ∀ head i, e = .newHead head → n.current = some i → adopts s i head = false)
    (hj : n'.current = some j) : ∃ i, n.current = some i ∧ j.base = i.base := by
  have hcases := handle_cases s n e
  generalize n.handle s e = reaction at h hcases
  cases hcases with
  | passes votes =>
      cases h
      exact ⟨j, hj, rfl⟩
  | defers hdefers =>
      cases h
      exact ⟨j, hj, rfl⟩
  | receives hi hheight =>
      obtain ⟨k, hreceive, rfl⟩ := ofStep_eq_ok.mp h
      cases hj
      exact ⟨_, hi, Instance.receive_base.of_ok hreceive⟩
  | expires hi hheight =>
      obtain ⟨k, hexpire, rfl⟩ := ofStep_eq_ok.mp h
      cases hj
      exact ⟨_, hi, Instance.expire_base.of_ok hexpire⟩
  | adopts hi hadopts =>
      rw [hstays _ _ rfl hi] at hadopts
      contradiction

/-- A usable signer stays usable exactly if an adopted head is one that the node could be
started on. -/
theorem Usable.handle_iff
    (hn : n.Usable s) (h : n.handle s e = ⟨n', .ok actions⟩) :
    n'.Usable s ↔ ∀ head i, e = .newHead head → n.current = some i → adopts s i head = true →
      (start s n head).result ≠ .error (.unusableSigner s.signer.address) := by
  by_cases hadopted : ∃ head i, e = .newHead head ∧ n.current = some i ∧ adopts s i head = true
  · obtain ⟨head, i, rfl, hi, hadopts⟩ := hadopted
    have hbegins : startHeight s n head = ⟨n', .ok actions⟩ := by
      rw [← h, handle, onNewHead, hi]
      exact (if_pos hadopts).symm
    obtain ⟨b, committees, k, first, j, hopens, hj, hbase⟩ := opens_of_startHeight hbegins
    have hrefuses := start_refuses_iff hopens hbegins
    have hcommittee : j.committee = b.committee := congrArg Base.committee hbase
    constructor
    · rintro husable _ _ ⟨⟩ - - hrefused
      obtain ⟨hmember, hcheck⟩ := hrefuses.mp hrefused
      exact hcheck (husable j hj (by rw [hcommittee]; exact hmember))
    · intro hstarts j' hj' hmember
      rw [hj] at hj'
      cases hj'
      by_contra hcheck
      rw [hcommittee] at hmember
      exact hstarts head i rfl hi hadopts (hrefuses.mpr ⟨hmember, hcheck⟩)
  · have hstays : ∀ head i, e = .newHead head → n.current = some i → adopts s i head = false := by
      intro head i he hi
      by_contra hadopts
      exact hadopted ⟨head, i, he, hi, Bool.eq_true_of_not_eq_false hadopts⟩
    constructor
    · intro _ head i he hi hadopts
      exact absurd ⟨head, i, he, hi, hadopts⟩ hadopted
    · intro _ j hj hmember
      obtain ⟨i, hi, hbase⟩ := handle_base h hstays hj
      have hcommittee : j.committee = i.committee := congrArg Base.committee hbase
      rw [hcommittee] at hmember
      exact hn i hi hmember

/-- A node that has been started has a usable signer. -/
theorem usable_of_start (h : start s n head = ⟨n', .ok actions⟩) : n'.Usable s := by
  intro j hj hmember
  rw [start] at h
  split at h
  · cases h
  · rename_i committee committees hafter
    dsimp only at h
    split at h
    · rename_i hcontains
      split at h
      · cases h
      · assumption
    · rename_i hcontains
      obtain ⟨b, committees', i, first, j', hopens, hj', hbase⟩ := opens_of_startHeight h
      obtain ⟨_, hagain⟩ := CommitteeCache.after_again hafter
      have hcommittee : committee = b.committee := by
        have hsame := hagain.symm.trans hopens.committee
        cases hsame
        rfl
      rw [hj] at hj'
      cases hj'
      have hpresent : j.committee = b.committee := congrArg Base.committee hbase
      rw [hpresent, ← hcommittee] at hmember
      exact absurd hmember hcontains

/-- Behind a successful start and events that are all answered, the signer of a node is usable
whenever the node is a member, exactly if every head adopted on the way is one on which the node
would not have refused to be started. -/
theorem usable_iff_startable
    {m : Node} {occasions : List Occasion} (hstart : start s n head = ⟨m, .ok first⟩)
    (hok : ∀ answer ∈ m.answers s occasions, ∃ actions, answer = .ok actions) :
    (∀ earlier later, occasions = earlier ++ later → (m.after s earlier).Usable s) ↔
      ∀ earlier x head' later i, occasions = earlier ++ ⟨x, .newHead head'⟩ :: later →
        (m.after s earlier).current = some i → adopts s i head' = true →
          (start { s with execution := x } (m.after s earlier) head').result ≠
            .error (.unusableSigner s.signer.address) := by
  have husable := usable_of_start hstart
  clear hstart
  induction occasions generalizing m with
  | nil =>
      constructor
      · intro _ earlier x head' later i heq
        simp at heq
      · intro _ earlier later heq
        obtain ⟨rfl, -⟩ := List.append_eq_nil_iff.mp heq.symm
        exact husable
  | cons o rest ih =>
      obtain ⟨actions, haction⟩ := hok _ List.mem_cons_self
      obtain ⟨m', hm'⟩ : ∃ m', m.meet s o = ⟨m', .ok actions⟩ := ⟨_, by rw [← haction]⟩
      have hstep := Usable.handle_iff (s := { s with execution := o.execution }) husable hm'
      have hrest : ∀ answer ∈ m'.answers s rest, ∃ actions, answer = .ok actions := by
        intro answer hanswer
        refine hok answer (List.mem_cons_of_mem _ ?_)
        rwa [hm']
      have hafter : ∀ occasions, m.after s (o :: occasions) = m'.after s occasions := by
        intro occasions
        rw [after_cons, hm']
      constructor
      · intro hall
        have hm'usable : m'.Usable s := by
          have hone := hall [o] rest rfl
          rwa [hafter] at hone
        have hlater := (ih hrest hm'usable).mp fun earlier later heq => by
          rw [← hafter]
          exact hall (o :: earlier) later (by rw [heq, List.cons_append])
        intro earlier x head' later i heq hi hadopts
        cases earlier with
        | nil =>
            obtain ⟨rfl, rfl⟩ := List.cons_eq_cons.mp heq
            exact hstep.mp hm'usable head' i rfl hi hadopts
        | cons o' earlier =>
            obtain ⟨rfl, hsplit⟩ := List.cons_eq_cons.mp heq
            rw [hafter] at hi ⊢
            exact hlater earlier x head' later i hsplit hi hadopts
      · intro hall
        have hm'usable : m'.Usable s := hstep.mpr fun head' i he hi hadopts =>
          hall [] o.execution head' rest i (by rw [← he]; rfl) hi hadopts
        have hlater := (ih hrest hm'usable).mpr fun earlier x head' later i heq hi hadopts => by
          rw [← hafter] at hi ⊢
          exact hall (o :: earlier) x head' later i (by rw [heq, List.cons_append]) hi hadopts
        intro earlier later heq
        cases earlier with
        | nil => exact husable
        | cons o' earlier =>
            obtain ⟨rfl, hsplit⟩ := List.cons_eq_cons.mp heq
            rw [hafter]
            exact hlater earlier later hsplit

/-- A member of four stays usable when it adopts the first block. -/
theorem usable_iff_startable_of_member :
    let s := Four.setup 0
    let o : Occasion := ⟨s.execution, .newHead Four.head⟩
    ∃ m first, start s (new .standard) Four.first.header = ⟨m, .ok first⟩ ∧
      (m.after s [o]).view? = some ⟨2, 0⟩ ∧
        ∀ earlier later, [o] = earlier ++ later → (m.after s earlier).Usable s := by
  intro s o
  obtain ⟨r, hr⟩ : ∃ r, r = start s (new .standard) Four.first.header := ⟨_, rfl⟩
  have hstarts : r.result.toOption.isSome = true := by
    rw [hr]
    decide +kernel
  have hfollows : (r.node.meet s o).result.isOk = true := by
    rw [hr]
    decide +kernel
  have hrestarts : (start s r.node Four.head).result.isOk = true := by
    rw [hr]
    decide +kernel
  have hview : (r.node.after s [o]).view? = some ⟨2, 0⟩ := by
    rw [hr]
    decide +kernel
  obtain ⟨m, result⟩ := r
  cases result with
  | error e => exact absurd hstarts Bool.false_ne_true
  | ok first =>
      refine ⟨m, first, hr.symm, hview, (usable_iff_startable hr.symm ?_).mpr ?_⟩
      · intro answer hanswer
        obtain rfl := List.mem_singleton.mp hanswer
        exact isOk_eq_true.mp hfollows
      · intro earlier x head' later i heq _ _ hrefused
        obtain ⟨rfl, rfl, rfl⟩ : earlier = [] ∧ x = s.execution ∧ head' = Four.head := by
          cases earlier with
          | nil =>
              obtain ⟨hoccasion, -⟩ := List.cons_eq_cons.mp heq
              have hevent := congrArg Occasion.event hoccasion
              exact ⟨rfl, (congrArg Occasion.execution hoccasion).symm,
                (Event.newHead.inj hevent).symm⟩
          | cons o' rest => simp at heq
        obtain ⟨actions, hrestarted⟩ := isOk_eq_true.mp hrestarts
        exact nomatch hrestarted.symm.trans hrefused

/-- Somebody whose signatures nobody can verify becomes a member while it runs, and runs on. -/
theorem newcomer_runs_unusable :
    ∃ m first n actions i,
      start Four.newcomerSetup (new .standard) Four.first.header = ⟨m, .ok first⟩ ∧
      m.handle Four.newcomerSetup (.newHead Four.invitation) = ⟨n, .ok actions⟩ ∧
      n.current = some i ∧ i.committee.contains Four.newcomer = true ∧
      checkSigner Four.newcomerSetup = .error (.unusableSigner Four.newcomer) := by
  obtain ⟨r, hr⟩ : ∃ r, r = start Four.newcomerSetup (new .standard) Four.first.header := ⟨_, rfl⟩
  obtain ⟨r', hr'⟩ : ∃ r', r' = r.node.handle Four.newcomerSetup (.newHead Four.invitation) :=
    ⟨_, rfl⟩
  have hstarts : r.result.toOption.isSome = true := by
    rw [hr]
    decide +kernel
  have hfollows : r'.result.toOption.isSome = true := by
    rw [hr', hr]
    decide +kernel
  have hmember : (r'.node.committee?.map (·.contains Four.newcomer)) = some true := by
    rw [hr', hr]
    decide +kernel
  have hrefused : checkSigner Four.newcomerSetup ≠ .ok () := by
    decide +kernel
  obtain ⟨committee, hcommittee, hcontains⟩ := Option.map_eq_some_iff.mp hmember
  obtain ⟨i, hi, rfl⟩ := Option.map_eq_some_iff.mp hcommittee
  obtain ⟨m, result⟩ := r
  obtain ⟨n, result'⟩ := r'
  cases result with
  | error e => exact absurd hstarts Bool.false_ne_true
  | ok first =>
      cases result' with
      | error e => exact absurd hfollows Bool.false_ne_true
      | ok actions =>
          exact ⟨m, first, n, actions, i, hr.symm, hr'.symm, hi, hcontains,
            (checkSigner_cases _).resolve_left hrefused⟩

end QuorumChain.Node
