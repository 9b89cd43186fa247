import QuorumChain.Proofs.Node.Effect

/-!
# What goes on

Moves within a round carry on what is settled in it and the requests to change it.  Leaving the
round keeps the requests for the new round.  No step changes what the height is built on, and
what a step leaves of a round is known from the course it takes.
-/

namespace QuorumChain

namespace Instance

variable {c : Context} {heard : List Input} {i j k : Instance} {m : Message} {actions : List Action}

/-! ## Within a round -/

theorem Lasts.refl (i : Instance) : i.Lasts i :=
  ⟨rfl, fun _ ha => ha, fun _ hx => hx, fun _ hx => hx, id, id⟩

theorem Lasts.trans (h : i.Lasts j) (h' : j.Lasts k) : i.Lasts k where
  view := h'.view.trans h.view
  accepted a ha := h'.accepted a (h.accepted a ha)
  prepares x hx := h'.prepares x (h.prepares x hx)
  commits x hx := h'.commits x (h.commits x hx)
  phase hi := h'.phase (h.phase hi)
  committed hi := h'.committed (h.committed hi)

theorem Stays.lasts (h : Stays c heard i actions j) : i.Lasts j := by
  induction h with
  | refl i => exact .refl i
  | head hmove hview _ ih =>
      rcases hmove.lasts_or_rises with hlasts | hrises
      · exact hlasts.trans ih
      · have hlater := hrises.later
        rw [hview] at hlater
        exact absurd hlater (UInt32.lt_irrefl _)

theorem countVotes_lasts : (countVotes c i).Ends fun _ j => i.Lasts j := by
  have hstays : (countVotes c i).Ends (Stays c [] i) := countVotes_stays
  exact hstays.imp fun _ _ hstays => hstays.lasts

/-- What the instance is built on. -/
def base (i : Instance) : Base :=
  ⟨i.parent, i.parentDigest, i.committee⟩

theorem Moves.base_eq (h : Moves c heard i actions j) : j.base = i.base := by
  refine h.preserves (p := fun k => k.base = i.base) ?_ rfl
  intro k l asked hmove hk
  obtain ⟨hparent, hdigest, hcommittee, -⟩ := hmove.base
  rw [← hk, base, base, hparent, hdigest, hcommittee]

theorem Moves.committee (h : Moves c heard i actions j) : j.committee = i.committee :=
  congrArg Base.committee h.base_eq

theorem Move.keeps_request
    {round : UInt32} {x : Address × Signed RoundChange} (h : Move c heard i actions j)
    (hview : j.view = i.view) (hx : x ∈ (i.changes.forRound round).entries) :
    x ∈ (j.changes.forRound round).entries := by
  cases h with
  | request m => exact RoundChanges.mem_forRound_add_of_mem hx
  | leave target hlater =>
      have hsame : target = i.view.round := congrArg View.round hview
      rw [hsame] at hlater
      exact absurd hlater (UInt32.lt_irrefl _)
  | depart target m hlater =>
      have hsame : target = i.view.round := congrArg View.round hview
      rw [hsame] at hlater
      exact absurd hlater (UInt32.lt_irrefl _)
  | _ => exact hx

/-- Requests are given up only when a round is left. -/
theorem Stays.keeps_request
    {round : UInt32} {x : Address × Signed RoundChange} (h : Stays c heard i actions j)
    (hx : x ∈ (i.changes.forRound round).entries) : x ∈ (j.changes.forRound round).entries := by
  induction h with
  | refl i => exact hx
  | head hmove hview _ ih => exact ih (hmove.keeps_request hview hx)

/-! ## From round to round -/

theorem Departs.view
    {round : UInt32} (h : Departs c i round actions j) : j.view = i.viewIn round := by
  cases h <;> rfl

/-- The requests for the new round are kept. -/
theorem Departs.keeps_request
    {round : UInt32} {x : Address × Signed RoundChange} (h : Departs c i round actions j)
    (hx : x ∈ (i.changes.forRound round).entries) : x ∈ (j.changes.forRound round).entries := by
  cases h with
  | silently => exact RoundChanges.mem_forRound_dropBelow_of_mem hx
  | announced m =>
      exact RoundChanges.mem_forRound_dropBelow_of_mem (RoundChanges.mem_forRound_add_of_mem hx)

theorem Departs.base_eq
    {round : UInt32} (h : Departs c i round actions j) : j.base = i.base := by
  cases h <;> rfl

theorem Course.base_eq
    {again : Prop} (h : Course c heard again i actions j) : j.base = i.base := by
  cases h with
  | stay hstays => exact hstays.moves.base_eq
  | leave hcounts _ _ _ _ hdeparts hstays =>
      rw [hstays.moves.base_eq, hdeparts.base_eq, hcounts.moves.base_eq]
  | reset _ _ _ hdeparts hstays => rw [hstays.moves.base_eq, hdeparts.base_eq]

/-! ## Whole steps -/

/-- Whatever an instance keeps for later might have been heard as messages. -/
theorem exists_keepsHeard (i : Instance) :
    ∃ heard, i.KeepsHeard heard ∧ ∀ view, .expiry view ∉ heard := by
  refine ⟨i.later.buckets.entries.flatMap fun e => e.2.map .message, ?_, ?_⟩
  · rintro m ⟨e, he, hm⟩
    exact List.mem_flatMap.mpr ⟨e, he, List.mem_map_of_mem hm⟩
  · intro view hview
    obtain ⟨e, -, hview⟩ := List.mem_flatMap.mp hview
    obtain ⟨m, -, hm⟩ := List.mem_map.mp hview
    contradiction

/-- The course of a step that receives a message, with nothing but messages behind it. -/
theorem exists_receive_course (c : Context) (i : Instance) (m : Message) :
    ∃ heard, (∀ view, .expiry view ∉ heard) ∧ (i.receive c m).Ends (Course c heard False i) := by
  obtain ⟨heard, hkeeps, hnone⟩ := i.exists_keepsHeard
  refine ⟨.message m :: heard, ?_, ?_⟩
  · intro view hview
    rcases List.mem_cons.mp hview with heq | hview
    · contradiction
    · exact hnone view hview
  · exact receive_course (fun m' hm' => List.mem_cons_of_mem _ (hkeeps m' hm')) List.mem_cons_self

/-- Steps for several messages keep what each of them keeps. -/
theorem forEach_ends
    {p : Instance → Prop} {next : Instance → Message → Step Instance} {kept : List Message}
    (hnext : ∀ j m, p j → (next j m).Ends fun _ => p) (hi : p i) :
    (Step.forEach kept next i).Ends fun _ => p := by
  induction kept generalizing i with
  | nil => exact Step.ends_done hi
  | cons m rest ih =>
      rw [Step.forEach_cons]
      exact Step.ends_andThen (hnext i m hi) fun _ _ hok => ih ((hnext i m hi).of_ok hok)

theorem receive_base : (i.receive c m).Ends fun _ j => j.base = i.base := by
  obtain ⟨heard, -, hcourse⟩ := exists_receive_course c i m
  exact hcourse.imp fun _ _ h => h.base_eq

theorem forEach_base
    {kept : List Message} :
    (Step.forEach kept (receive c) i).Ends fun _ j => j.base = i.base :=
  forEach_ends (p := fun j => j.base = i.base)
    (fun _ _ hj => receive_base.imp fun _ _ h => h.trans hj) rfl

theorem expire_base {view : View} : (i.expire c view).Ends fun _ j => j.base = i.base := by
  obtain ⟨heard, hkeeps, -⟩ := i.exists_keepsHeard
  have hkeeps' : i.KeepsHeard (.expiry view :: heard) :=
    fun m' hm' => List.mem_cons_of_mem _ (hkeeps m' hm')
  exact (expire_course hkeeps' List.mem_cons_self).imp fun _ _ h => h.base_eq

theorem start_base : (i.start c).Ends fun _ j => j.base = i.base :=
  (start_stays []).imp fun _ _ ⟨_, _, hstays⟩ => hstays.moves.base_eq

theorem receive_height : (i.receive c m).Ends fun _ j => j.height = i.height :=
  receive_base.imp fun _ _ h => congrArg Base.height h

theorem forEach_height
    {kept : List Message} :
    (Step.forEach kept (receive c) i).Ends fun _ j => j.height = i.height :=
  forEach_base.imp fun _ _ h => congrArg Base.height h

theorem expire_height {view : View} : (i.expire c view).Ends fun _ j => j.height = i.height :=
  expire_base.imp fun _ _ h => congrArg Base.height h

theorem start_height : (i.start c).Ends fun _ j => j.height = i.height :=
  start_base.imp fun _ _ h => congrArg Base.height h

end Instance

end QuorumChain
