import QuorumChain.Proofs.Node.Log

/-!
# Locks are carried forward

A member that commits holds a prepared certificate for what it commits.  From then on it holds a
certificate of that round or of a later one, and each request to change the round carries the one
that it holds at that moment.  This is so in every run, however many rounds are skipped and whether
or not the last round is entered again.
-/

namespace QuorumChain

/-- Of two items that follow each other in two lists, both are in the first, both in the second, or
one in each. -/
theorem pair_sublist_append
    {α : Type} {a b : α} {l l' : List α} (h : [a, b].Sublist (l ++ l')) :
    [a, b].Sublist l ∨ (a ∈ l ∧ b ∈ l') ∨ [a, b].Sublist l' := by
  obtain ⟨first, second, heq, hfirst, hsecond⟩ := List.sublist_append_iff.mp h
  match first with
  | [] =>
      obtain rfl : [a, b] = second := heq
      exact .inr (.inr hsecond)
  | [x] =>
      obtain ⟨rfl, rfl⟩ : a = x ∧ [b] = second := List.cons.inj heq
      exact .inr (.inl ⟨List.singleton_sublist.mp hfirst, List.singleton_sublist.mp hsecond⟩)
  | x :: y :: rest =>
      obtain ⟨rfl, hrest⟩ := List.cons.inj heq
      obtain ⟨rfl, -⟩ := List.cons.inj hrest
      have hpair : [a, b].Sublist (a :: b :: rest) :=
        ((List.nil_sublist rest).cons_cons b).cons_cons a
      exact .inl (hpair.trans hfirst)

namespace Instance

variable {c : Context} {heard : List Input} {i j : Instance} {actions : List Action}

theorem Stays.prepared_eq
    (h : Stays c heard i actions j) (hphase : i.round.phase ≠ .newRound) :
    j.prepared = i.prepared := by
  induction h with
  | refl i => rfl
  | head hfirst hview _ ih =>
      have hkept := hfirst.prepared_eq hphase
      rcases hfirst.lasts_or_rises with hlasts | hrises
      · exact (ih (hlasts.phase hphase)).trans hkept
      · have hlater := hrises.later
        rw [hview] at hlater
        exact absurd hlater (UInt32.lt_irrefl _)

/-- Nobody asks for another round while he stays in one. -/
theorem Stays.silent
    (h : Stays c heard i actions j) (q : Signed RoundChange) :
    .broadcast (.roundChange q) ∉ actions := by
  induction h with
  | refl i => exact List.not_mem_nil
  | @head i j _ _ _ hfirst hview _ ih =>
      intro hq
      rcases List.mem_append.mp hq with hq | hq
      · obtain ⟨round, -, hlater, -, -, rfl⟩ := hfirst.of_request hq
        have hround : round = i.view.round := congrArg View.round hview
        rw [hround] at hlater
        exact absurd hlater (UInt32.lt_irrefl _)
      · exact ih hq

end Instance

namespace Record

/-- The node holds a certificate of the view and for the digest of a commit. -/
def Certifies (s : Setup) (b : Base) (r : Record) (p : Signed Commit) : Prop :=
  ∃ c, r.now.prepared = some c ∧ c.view = p.payload.view ∧ r.Supports s b c p.payload.digest

variable {s : Setup} {b : Base} {r : Record} {moment : Setup.Moment} {turns : List Turn}
  {actions : List Action} {j : Instance}

theorem Certifies.locked {p : Signed Commit} (h : r.Certifies s b p) : r.Locked p.payload.view := by
  obtain ⟨c, hc, hview, -⟩ := h
  refine ⟨c, hc, ?_⟩
  rw [hview]
  exact UInt32.le_refl _

/-! ## Moves within a round -/

theorem Attainable.certifies_stays
    (hr : Attainable s b r) (h : Instance.Stays (s.context moment) r.heard r.now actions j)
    {p : Signed Commit} (hp : .broadcast (.commit p) ∈ actions) :
    (r.moved j actions).Certifies s b p := by
  obtain ⟨i, heard, made⟩ := r
  dsimp only at h
  induction h generalizing made with
  | refl i => exact absurd hp List.not_mem_nil
  | @head i k j first rest hfirst hview hrest ih =>
      rcases List.mem_append.mp hp with hp | hp
      · obtain ⟨m, d, -, haccepted, hquorum, hsigned, rfl⟩ := hfirst.of_commit hp
        obtain ⟨-, hpayload, -⟩ := Signer.commit_eq_ok hsigned
        have hsound := hr.sound
        have hsupports := hsound.supports_matching haccepted hquorum
        -- The round is prepared from here on, so the certificate stays.
        have hkept := hrest.prepared_eq (fun hphase => Phase.noConfusion hphase)
        refine ⟨_, hkept, ?_, ?_⟩
        · rw [hpayload]
          exact (hsound.accepted m d haccepted).1
        · rw [hpayload]
          exact hsupports.mono (extends_moved _ j _)
      · have hmoved := ih hp _ (hr.move hfirst)
        rw [moved] at hmoved ⊢
        rwa [List.append_assoc] at hmoved

theorem Attainable.locked_moves
    (hr : Attainable s b r) (h : Instance.Moves (s.context moment) r.heard r.now actions j)
    {v : View} (hlocked : r.Locked v) : (r.moved j actions).Locked v := by
  obtain ⟨i, heard, made⟩ := r
  dsimp only at h
  induction h generalizing made with
  | refl i => exact hlocked
  | head hfirst _ ih => exact ih _ (hr.move hfirst) (hlocked.moved hfirst hr.sound)

/-! ## Turns -/

/-- A turn makes moves within one round.  Before them the node may leave another round; it then
sends nothing but a request with the certificate that it holds. -/
theorem Attainable.exists_stays
    (hr : Attainable s b r) (t : Turn) :
    ∃ i first rest, r.asked s t = first ++ rest ∧
      Attainable s b ⟨i, t.input :: r.heard, r.made ++ first⟩ ∧ i.prepared = r.now.prepared ∧
        (∀ m, .broadcast m ∈ first →
          ∃ q, m = .roundChange q ∧ q.payload.prepared = r.now.prepared) ∧
          Instance.Stays (s.context t.moment) (t.input :: r.heard) i rest (r.turn s t).now := by
  have hheard := hr.hear t.input
  have hcourse : Instance.Course _ _ _ _ (r.asked s t) (r.turn s t).now := hr.turn_course t
  generalize r.asked s t = actions at hcourse ⊢
  generalize (r.turn s t).now = j at hcourse ⊢
  cases hcourse with
  | stay hstays =>
      refine ⟨r.now, [], actions, rfl, ?_, rfl, ?_, hstays⟩
      · rwa [List.append_nil]
      · intro m hm
        exact absurd hm List.not_mem_nil
  | @leave i k _ round first rest hcounts hprepared hopen hlater hreason hdeparts hstays =>
      have hleft := (hheard.moves hcounts.moves).move (hdeparts.move hlater hreason hopen)
      refine ⟨k, first, rest, rfl, ?_, hdeparts.prepared.trans hprepared, ?_, hstays⟩
      · rwa [List.append_nil] at hleft
      · rw [← hprepared]
        exact fun m hm => hdeparts.of_broadcast hm
  | @reset k _ first rest _ hlast hopen hdeparts hstays =>
      refine ⟨k, first, rest, rfl, hheard.reset hlast hopen hdeparts, hdeparts.prepared, ?_, hstays⟩
      exact fun m hm => hdeparts.of_broadcast hm

theorem turn_eq_moved
    (r : Record) (t : Turn) {first rest : List Action} (i : Instance)
    (hasked : r.asked s t = first ++ rest) :
    r.turn s t =
      (⟨i, t.input :: r.heard, r.made ++ first⟩ : Record).moved (r.turn s t).now rest := by
  rw [moved, List.append_assoc, ← hasked, ← made_turn, ← heard_turn s r t]

theorem Attainable.certifies_turn
    (hr : Attainable s b r) {t : Turn} {p : Signed Commit}
    (hp : .broadcast (.commit p) ∈ r.asked s t) : (r.turn s t).Certifies s b p := by
  obtain ⟨i, first, rest, hasked, hattainable, -, hfirst, hstays⟩ := hr.exists_stays t
  rw [hasked] at hp
  rw [turn_eq_moved r t i hasked]
  rcases List.mem_append.mp hp with hp | hp
  · obtain ⟨q, hq, -⟩ := hfirst _ hp
    contradiction
  · exact hattainable.certifies_stays hstays hp

theorem Attainable.carries_turn
    (hr : Attainable s b r) {t : Turn} {q : Signed RoundChange}
    (hq : .broadcast (.roundChange q) ∈ r.asked s t) :
    q.payload.prepared = r.now.prepared := by
  obtain ⟨i, first, rest, hasked, -, -, hfirst, hstays⟩ := hr.exists_stays t
  rw [hasked] at hq
  rcases List.mem_append.mp hq with hq | hq
  · obtain ⟨q', hq', hcarried⟩ := hfirst _ hq
    cases hq'
    exact hcarried
  · exact absurd hq (hstays.silent q)

theorem Attainable.locked_turn
    (hr : Attainable s b r) (t : Turn) {v : View} (hlocked : r.Locked v) :
    (r.turn s t).Locked v := by
  obtain ⟨i, first, rest, hasked, hattainable, hprepared, -, hstays⟩ := hr.exists_stays t
  rw [turn_eq_moved r t i hasked]
  apply hattainable.locked_moves hstays.moves
  obtain ⟨c, hc, hle⟩ := hlocked
  exact ⟨c, hprepared.trans hc, hle⟩

/-- No turn commits first and asks for another round then. -/
theorem Attainable.commits_last
    (hr : Attainable s b r) (t : Turn) (p : Signed Commit) (q : Signed RoundChange) :
    ¬[.broadcast (.commit p), .broadcast (.roundChange q)].Sublist (r.asked s t) := by
  obtain ⟨i, first, rest, hasked, -, -, hfirst, hstays⟩ := hr.exists_stays t
  rw [hasked]
  intro hsub
  have hnot : .broadcast (.commit p) ∉ first := by
    intro hp
    obtain ⟨q', hq', -⟩ := hfirst _ hp
    contradiction
  rcases pair_sublist_append hsub with h | ⟨hp, -⟩ | h
  · exact hnot (h.subset List.mem_cons_self)
  · exact hnot hp
  · exact hstays.silent q (h.subset (List.mem_cons_of_mem _ List.mem_cons_self))

/-! ## Runs -/

theorem locked_run
    {earlier later : List Turn} {v : View} (hlocked : (run s b moment earlier).Locked v) :
    (run s b moment (earlier ++ later)).Locked v := by
  induction later using List.reverseRecOn with
  | nil =>
      rw [List.append_nil]
      exact hlocked
  | append_singleton later t ih =>
      rw [← List.append_assoc, run_append_singleton]
      exact (attainable_run s b moment _).locked_turn t ih

theorem certifies_begin
    {p : Signed Commit} (hp : .broadcast (.commit p) ∈ (begin s b moment).made) :
    (begin s b moment).Certifies s b p := by
  obtain ⟨i, rest, hbegin, hstays⟩ := begin_eq s b moment
  rw [hbegin] at hp ⊢
  rcases List.mem_cons.mp hp with hp | hp
  · contradiction
  · exact (Attainable.opened moment).certifies_stays hstays hp

theorem silent_begin (q : Signed RoundChange) :
    .broadcast (.roundChange q) ∉ (begin s b moment).made := by
  intro hq
  obtain ⟨i, rest, hbegin, hstays⟩ := begin_eq s b moment
  rw [hbegin] at hq
  rcases List.mem_cons.mp hq with hq | hq
  · contradiction
  · exact hstays.silent q hq

/-- Behind every commit, the node holds a certificate of its round or of a later one. -/
theorem locked_of_commit
    {p : Signed Commit} (hp : .broadcast (.commit p) ∈ (run s b moment turns).made) :
    (run s b moment turns).Locked p.payload.view := by
  induction turns using List.reverseRecOn with
  | nil => exact (certifies_begin hp).locked
  | append_singleton turns t ih =>
      have hr := attainable_run s b moment turns
      rw [run_append_singleton] at hp ⊢
      rw [made_turn] at hp
      rcases List.mem_append.mp hp with hp | hp
      · exact hr.locked_turn t (ih hp)
      · exact (hr.certifies_turn hp).locked

theorem carried_of_commit
    {p : Signed Commit} {q : Signed RoundChange}
    (h : [.broadcast (.commit p), .broadcast (.roundChange q)].Sublist
      (run s b moment turns).made) :
    ∃ c, q.payload.prepared = some c ∧ p.payload.view.round ≤ c.view.round := by
  induction turns using List.reverseRecOn with
  | nil => exact absurd (h.subset (by simp)) (silent_begin q)
  | append_singleton turns t ih =>
      have hr := attainable_run s b moment turns
      rw [run_append_singleton, made_turn] at h
      rcases pair_sublist_append h with h | ⟨hp, hq⟩ | h
      · exact ih h
      · rw [hr.carries_turn hq]
        exact locked_of_commit hp
      · exact absurd h (hr.commits_last t p q)

/-- A node that carries its locks forward in a run: behind each commit it holds a certificate for
it, the round of the certificate it holds never falls, each request carries the certificate held
when it is sent, and so a request behind a commit carries one of no earlier round. -/
structure Steadfast (s : Setup) (b : Base) (moment : Setup.Moment) (turns : List Turn) : Prop where
  opening : ∀ p, .broadcast (.commit p) ∈ (begin s b moment).made →
    (begin s b moment).Certifies s b p
  silent : ∀ q, .broadcast (.roundChange q) ∉ (begin s b moment).made
  committing : ∀ earlier t later, turns = earlier ++ t :: later →
    ∀ p, .broadcast (.commit p) ∈ (run s b moment earlier).asked s t →
      (run s b moment (earlier ++ [t])).Certifies s b p
  rising : ∀ earlier later, turns = earlier ++ later →
    ∀ c, (run s b moment earlier).now.prepared = some c →
      ∃ c', (run s b moment turns).now.prepared = some c' ∧ c.view.round ≤ c'.view.round
  carrying : ∀ earlier t later, turns = earlier ++ t :: later →
    ∀ q, .broadcast (.roundChange q) ∈ (run s b moment earlier).asked s t →
      q.payload.prepared = (run s b moment earlier).now.prepared
  kept : ∀ p q, [.broadcast (.commit p), .broadcast (.roundChange q)].Sublist
      (run s b moment turns).made →
    ∃ c, q.payload.prepared = some c ∧ p.payload.view.round ≤ c.view.round

/-- Every node carries its locks forward in every run. -/
theorem steadfast_run
    (s : Setup) (b : Base) (moment : Setup.Moment) (turns : List Turn) :
    Steadfast s b moment turns where
  opening _ hp := certifies_begin hp
  silent q := silent_begin q
  committing earlier t later _ p hp := by
    rw [run_append_singleton]
    exact (attainable_run s b moment earlier).certifies_turn hp
  rising earlier later heq c hc := by
    subst heq
    exact locked_run ⟨c, hc, UInt32.le_refl _⟩
  carrying earlier t later _ q hq := (attainable_run s b moment earlier).carries_turn hq
  kept _ _ h := carried_of_commit h

end Record

end QuorumChain
