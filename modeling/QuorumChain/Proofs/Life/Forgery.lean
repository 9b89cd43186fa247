import Mathlib.Data.List.Infix
import QuorumChain.Proofs.Life.Basic
import QuorumChain.Proofs.Node.Four

/-!
# Messages that nobody signed

A message whose signature is not its author's does nothing in an instance.  But a message of a
later height is kept before its signature is looked at.  It waits in the room of others, and is
dropped when its height comes.  As long as there is room, two nodes of which one keeps such a
message answer alike; if room is short, it may displace the messages that the node needs.
-/

namespace QuorumChain

/-- Whether a payload can be written and its signature is the author's. -/
def Signed.isGenuine {P : Type} [Payload P] (scheme : Scheme) (m : Signed P) : Bool :=
  match Payload.signingDigest scheme.hash m.payload with
  | .ok d => scheme.verify m.author d m.signature
  | .error _ => false

namespace Message

/-- Whether the signature of a message is its author's. -/
def isGenuine (scheme : Scheme) : Message → Bool
  | .proposal m => m.signed.isGenuine scheme
  | .prepare m => m.isGenuine scheme
  | .commit m => m.isGenuine scheme
  | .roundChange m => m.isGenuine scheme

end Message

theorem Signed.isGenuine_of_check
    {P : Type} [Payload P] {m : Signed P} {scheme : Scheme} {committee : Committee} {u : Unit}
    (h : m.check scheme committee = .ok u) : m.isGenuine scheme = true := by
  simp only [check, bind_eq_ok, mapError_eq_ok, require_eq_ok] at h
  obtain ⟨d, hd, _, hverify, -⟩ := h
  rw [isGenuine, hd]
  exact hverify

theorem Message.isGenuine_of_authenticate
    {m : Message} {scheme : Scheme} {committee : Committee} {u : Unit}
    (h : m.authenticate scheme committee = .ok u) : m.isGenuine scheme = true := by
  cases m <;> exact Signed.isGenuine_of_check h

theorem Instance.receive_of_forged
    {c : Context} {m : Message} (h : m.isGenuine c.scheme = false) (i : Instance) :
    i.receive c m = Step.done i := by
  have htriage : triage c i m = .stale := by
    rw [triage]
    split
    · rename_i admission hm
      obtain ⟨_, hauthentic, -⟩ := bind_eq_ok.mp hm
      rw [Message.isGenuine_of_authenticate hauthentic] at h
      contradiction
    · rfl
  unfold receive process
  rw [htriage]

/-- An item that is stepped over may stand anywhere in a list. -/
theorem Step.forEach_gains
    {σ α : Type} {next : σ → α → Step σ} {x : α} {l l' : List α}
    (hx : ∀ s, next s x = Step.done s) (h : Backlog.Gains x l l') (s : σ) :
    Step.forEach l' next s = Step.forEach l next s := by
  obtain ⟨front, back, rfl, rfl⟩ := h
  induction front generalizing s with
  | nil => rw [List.nil_append, List.nil_append, forEach_cons, hx, done_andThen]
  | cons a front ih =>
      rw [List.cons_append, List.cons_append, forEach_cons, forEach_cons]
      congr 1
      funext t
      exact ih t

namespace Node

variable {s : Setup} {n : Node} {x : Message} {early : Backlog UInt64 Message}

/-- A message of a height that a node has not reached yet. -/
def Awaits (n : Node) (x : Message) : Prop :=
  ∃ i, n.current = some i ∧ i.height < x.view.height

/-- A backlog is that of a node, or holds a message besides that the node awaits. -/
inductive Shadows (n : Node) (x : Message) (early : Backlog UInt64 Message) : Prop
  | same (heq : early = n.early)
  | more (hawaits : n.Awaits x) (htidy : early.Tidy) (hlimit : early.limit = n.early.limit)
      (hgains : Backlog.Gains (x.view.height, x) n.early.toList early.toList)

/-- While a message is awaited, there is room for all that are kept. -/
def Roomy (s : Setup) (n : Node) (x : Message) (occasions : List Occasion) : Prop :=
  ∀ earlier o later m, occasions = earlier ++ o :: later → o.event = .message m →
    (n.after s earlier).Awaits x → (n.after s earlier).Defers s m →
      (n.after s earlier).early.count < (n.after s earlier).early.limit

theorem Roomy.tail
    {o : Occasion} {rest : List Occasion} (h : n.Roomy s x (o :: rest)) :
    (n.meet s o).node.Roomy s x rest := by
  intro earlier o' later m heq
  exact h (o :: earlier) o' later m (by rw [heq]; rfl)

/-! ## One event -/

/-- Two nodes that differ in their early messages only answer alike. -/
def Alike (x : Message) (r r' : Reaction) : Prop :=
  r'.result = r.result ∧ ∃ early, r'.node = { r.node with early } ∧ r.node.Shadows x early

theorem alike_refl (x : Message) (r : Reaction) : Alike x r r :=
  ⟨rfl, r.node.early, rfl, .same rfl⟩

/-- A message that is awaited still is while the height does not reach it. -/
theorem Shadows.deciding
    {j : Instance} (h : n.Shadows x early) (hj : n.Awaits x → j.height < x.view.height) :
    Shadows { n with current := some j } x early := by
  cases h with
  | same heq => exact .same heq
  | more hawaits htidy hlimit hgains => exact .more ⟨j, rfl, hj hawaits⟩ htidy hlimit hgains

theorem alike_ofStep
    (hshadows : n.Shadows x early) {step : Step Instance}
    (hstep : n.Awaits x → step.outcome.1.height < x.view.height) :
    Alike x (n.ofStep step) (ofStep { n with early } step) := by
  cases step with
  | error broken => exact ⟨rfl, early, rfl, hshadows.deciding hstep⟩
  | ok result => exact ⟨rfl, early, rfl, hshadows.deciding hstep⟩

theorem alike_ofOpening
    (hshadows : n.Shadows x early) {step : Step Instance}
    (hstep : ∀ {j actions}, step = .ok (j, actions) → j.height < x.view.height) :
    Alike x (n.ofOpening step) (ofOpening { n with early } step) := by
  cases step with
  | error broken => exact ⟨rfl, early, rfl, hshadows⟩
  | ok result => exact ⟨rfl, early, rfl, hshadows.deciding fun _ => hstep rfl⟩

theorem alike_message
    (htidy : n.early.Tidy) (hshadows : n.Shadows x early) (m : Message)
    (hroom : n.Awaits x → n.Defers s m → early.count < early.limit) :
    Alike x (n.handle s (.message m)) (handle s { n with early } (.message m)) := by
  rw [handle, handle]
  rcases onMessage_cases s n m with hdefers | ⟨i, hi, hheight⟩ | ⟨hfar, hother, hignore⟩
  · have hdefers' : Defers s { n with early } m := hdefers
    rw [onMessage_of_defers hdefers, onMessage_of_defers hdefers']
    refine ⟨rfl, _, rfl, ?_⟩
    cases hshadows with
    | same heq => exact .same (by rw [heq]; rfl)
    | more hawaits htidy' hlimit hgains =>
        have hroom' := hroom hawaits hdefers
        have hcount : n.early.count < n.early.limit := by
          obtain ⟨front, back, hlist, hlist'⟩ := hgains
          rw [htidy.count, ← hlimit, hlist]
          rw [htidy'.count, hlist'] at hroom'
          simp only [List.length_append, List.length_cons] at hroom' ⊢
          omega
        refine .more hawaits (htidy'.push _ m) ?_ ?_
        · dsimp only [ignore]
          rw [Backlog.push_of_lt hroom', Backlog.push_of_lt hcount]
          exact hlimit
        · dsimp only [ignore]
          rw [Backlog.push_of_lt hroom', Backlog.push_of_lt hcount]
          exact hgains.append _ m
  · rw [onMessage_of_height hi hheight, onMessage_of_height (n := { n with early }) hi hheight]
    refine alike_ofStep hshadows ?_
    rintro ⟨i', hi', hlt⟩
    rw [hi] at hi'
    cases hi'
    have hheight : (i.receive (n.context s) m).outcome.1.height = i.height :=
      Instance.receive_height
    rwa [hheight]
  · rw [hignore, onMessage_of_other (n := { n with early }) hfar hother]
    exact ⟨rfl, early, rfl, hshadows⟩

/-- What is taken up at a height does the same with or without the message. -/
theorem forEach_release
    {c : Context} (hx : x.isGenuine c.scheme = false)
    (hgains : Backlog.Gains (x.view.height, x) n.early.toList early.toList) (height : UInt64) :
    Step.forEach (early.release height).1 (Instance.receive c) =
      Step.forEach (n.early.release height).1 (Instance.receive c) := by
  funext i
  rw [Backlog.release_eq_filter, Backlog.release_eq_filter]
  by_cases heq : compare height x.view.height = .eq
  · have hmore := hgains.filter_of_pos (p := fun y => compare height y.1 == .eq)
      (by simpa using heq)
    exact Step.forEach_gains (Instance.receive_of_forged hx) (hmore.map (·.2)) i
  · rw [hgains.filter_of_neg (p := fun y => compare height y.1 == .eq) (by simpa using heq)]

theorem alike_startHeight
    (hx : x.isGenuine s.scheme = false) (htidy : n.early.Tidy) (hshadows : n.Shadows x early)
    (head : Header) : Alike x (startHeight s n head) (startHeight s { n with early } head) := by
  cases hshadows with
  | same heq =>
      rw [heq]
      exact alike_refl x _
  | more hawaits htidy' hlimit hgains =>
      rcases startHeight_cases s n head with ⟨committees, e, -, hfails⟩ | ⟨b, committees, i, first,
        hopens, hopened⟩
      · have hn := hfails n.early
        rw [hn, hfails early]
        exact ⟨rfl, early, rfl, .more hawaits htidy' hlimit hgains⟩
      · have hn := hopened n.early
        rw [hn, hopened early, forEach_release (c := n.context s) hx hgains]
        by_cases hlt : b.height < x.view.height
        · have hcompare := Std.compare_eq_lt.mpr hlt
          have hstill : Shadows { n with committees, early := (n.early.release b.height).2 } x
              (early.release b.height).2 := by
            refine .more hawaits (htidy'.release _) hlimit ?_
            rw [Backlog.toList_release, Backlog.toList_release]
            exact hgains.filter_of_pos (by simpa using hcompare)
          refine alike_ofOpening hstill ?_
          intro j actions hstep
          obtain ⟨k, _, second, hfirst, hrest, -⟩ := Step.andThen_eq_ok.mp hstep
          cases hfirst
          rwa [Instance.forEach_height.of_ok hrest, hopens.height]
        · -- The message has been taken up or dropped.
          have hcompare : compare b.height x.view.height ≠ .lt := fun h =>
            hlt (Std.compare_eq_lt.mp h)
          have hsame : (early.release b.height).2 = (n.early.release b.height).2 := by
            refine (htidy'.release _).ext (htidy.release _) hlimit ?_
            rw [Backlog.toList_release, Backlog.toList_release]
            exact hgains.filter_of_neg (by simpa using hcompare)
          rw [hsame]
          exact alike_refl x _

/-- Every event is answered alike. -/
theorem alike_handle
    (hx : x.isGenuine s.scheme = false) (htidy : n.early.Tidy) (hshadows : n.Shadows x early)
    (e : Event)
    (hroom : ∀ m, e = .message m → n.Awaits x → n.Defers s m → early.count < early.limit) :
    Alike x (n.handle s e) (handle s { n with early } e) := by
  have hsame : Alike x n.ignore (ignore { n with early }) := ⟨rfl, early, rfl, hshadows⟩
  cases e with
  | message m => exact alike_message htidy hshadows m (hroom m rfl)
  | expiry view =>
      rw [handle, handle, onExpiry, onExpiry]
      dsimp only
      split
      · exact hsame
      · rename_i i hi
        split
        · refine alike_ofStep hshadows ?_
          rintro ⟨i', hi', hlt⟩
          rw [hi] at hi'
          cases hi'
          have hheight : (i.expire (n.context s) view).outcome.1.height = i.height :=
            Instance.expire_height
          rwa [hheight]
        · exact hsame
  | newHead head =>
      rw [handle, handle, onNewHead, onNewHead]
      dsimp only
      split
      · exact hsame
      · split
        · exact alike_startHeight hx htidy hshadows head
        · exact hsame
  | requestVote v =>
      refine ⟨rfl, early, rfl, ?_⟩
      cases hshadows with
      | same heq => exact .same heq
      | more hawaits htidy' hlimit hgains => exact .more hawaits htidy' hlimit hgains
  | discardVote subject =>
      refine ⟨rfl, early, rfl, ?_⟩
      cases hshadows with
      | same heq => exact .same heq
      | more hawaits htidy' hlimit hgains => exact .more hawaits htidy' hlimit hgains
  | shutdown => exact hsame

/-! ## All events -/

theorem answers_of_shadows
    (hx : x.isGenuine s.scheme = false) (htidy : n.early.Tidy) (hshadows : n.Shadows x early)
    {occasions : List Occasion} (hroom : Roomy s { n with early } x occasions) :
    answers s { n with early } occasions = answers s n occasions ∧
      (after s { n with early } occasions).current = (after s n occasions).current := by
  induction occasions generalizing n early with
  | nil => exact ⟨rfl, rfl⟩
  | cons o rest ih =>
      have halike : Alike x (n.meet s o) (meet s { n with early } o) :=
        alike_handle (s := { s with execution := o.execution }) hx htidy hshadows o.event
          fun m hm => hroom [] o rest m rfl hm
      have htidy' : (n.meet s o).node.early.Tidy := tidy_handle htidy o.event
      obtain ⟨hresult, early', hnode, hshadows'⟩ := halike
      have hroom' := hroom.tail
      rw [hnode] at hroom'
      obtain ⟨hanswers, hcurrent⟩ := ih htidy' hshadows' hroom'
      rw [answers, answers, after_cons, after_cons, hresult, hnode, hanswers]
      exact ⟨rfl, hcurrent⟩

/-- A forged message that is not kept for its height leaves the node as it is. -/
theorem handle_forged
    (hx : x.isGenuine s.scheme = false)
    (hdropped : n.Defers s x → n.early.push? x.view.height x = none) :
    n.handle s (.message x) = ⟨n, .ok []⟩ := by
  rw [handle]
  rcases onMessage_cases s n x with hdefers | ⟨i, hi, hheight⟩ | ⟨-, -, hignore⟩
  · rw [onMessage_of_defers hdefers, Backlog.push_eq_self.mpr (hdropped hdefers)]
    rfl
  · rw [onMessage_of_height hi hheight, Instance.receive_of_forged hx]
    show (⟨{ n with current := some i }, .ok []⟩ : Reaction) = _
    rw [← hi]
  · exact hignore

/-- A message that nobody signed asks for nothing and changes no later answer, if it is not kept
for a later height or if there is room for all early messages while it is awaited. -/
theorem forged_message_harmless
    (s : Setup) (headers : List Header) (head : Header) (earlier later : List Occasion)
    (x : Message) (hx : x.isGenuine s.scheme = false)
    (hroom : let n := (launch s headers head).node.after s earlier
      n.Defers s x → (n.early.push? x.view.height x).isSome →
        n.Roomy s x (⟨s.execution, .message x⟩ :: later)) :
    let n := (launch s headers head).node.after s earlier
    let n' := (n.handle s (.message x)).node
    (n.handle s (.message x)).result = .ok [] ∧ n'.answers s later = n.answers s later ∧
      (n'.after s later).view? = (n.after s later).view? ∧
        (n'.after s later).committee? = (n.after s later).committee? := by
  have htidy := tidy_life s headers head earlier
  dsimp only at hroom ⊢
  generalize (launch s headers head).node.after s earlier = n at hroom htidy ⊢
  by_cases hkeeps : n.Defers s x ∧ (n.early.push? x.view.height x).isSome
  · obtain ⟨hdefers, hsome⟩ := hkeeps
    have hroom := hroom hdefers hsome
    have hkept :
        n.handle s (.message x) = ignore { n with early := n.early.push x.view.height x } :=
      onMessage_of_defers hdefers
    have hawaits : n.Awaits x := by
      obtain ⟨i, hi, hlt, -⟩ := hdefers
      exact ⟨i, hi, hlt⟩
    have hfree : n.early.count < n.early.limit := hroom [] _ later x rfl rfl hawaits hdefers
    have hshadows : n.Shadows x (n.early.push x.view.height x) := by
      rw [Backlog.push_of_lt hfree]
      exact .more hawaits (htidy.append _ x) rfl (Backlog.gains_append n.early _ x)
    have hroom' : (n.handle s (.message x)).node.Roomy s x later := hroom.tail
    rw [hkept] at hroom' ⊢
    obtain ⟨hanswers, hcurrent⟩ := answers_of_shadows hx htidy hshadows hroom'
    refine ⟨rfl, hanswers, ?_, ?_⟩
    · exact congrArg (Option.map Instance.view) hcurrent
    · exact congrArg (Option.map Instance.committee) hcurrent
  · have hidle : n.handle s (.message x) = ⟨n, .ok []⟩ := by
      refine handle_forged hx fun hdefers => ?_
      simpa using fun hsome => hkeeps ⟨hdefers, hsome⟩
    rw [hidle]
    exact ⟨rfl, rfl, rfl, rfl⟩

/-- With room for three early messages, a member that keeps a forged prepare prepares the
proposal of the next height all the same. -/
theorem forged_message_harmless_of_room :
    let s := Four.cramped 3 0
    let n := (launch s [] Four.first.header).node
    let n' := (n.handle s (.message Four.forged)).node
    let later := s.execution.during (Four.arrivals [Four.proposeNext] ++ [.newHead Four.head])
    Four.forged.isGenuine s.scheme = false ∧ n' ≠ n ∧ n'.answers s later = n.answers s later ∧
      n.answers s later ≠ [.ok [], .ok []] := by
  dsimp only
  have hforged : Four.forged.isGenuine (Four.cramped 3 0).scheme = false := by decide +kernel
  have hcounts : ∀ earlier ∈ ((Four.cramped 3 0).execution.during
        (.message Four.forged :: (Four.arrivals [Four.proposeNext] ++ [.newHead Four.head]))).inits,
      let n :=
        after (Four.cramped 3 0) (launch (Four.cramped 3 0) [] Four.first.header).node earlier
      n.early.count < n.early.limit := by
    decide +kernel
  refine ⟨hforged, by decide +kernel, ?_, by decide +kernel⟩
  refine (forged_message_harmless (Four.cramped 3 0) [] Four.first.header [] _ Four.forged hforged
    fun _ _ earlier o later m heq _ _ _ => ?_).2.1
  exact hcounts earlier ((List.mem_inits _ _).mpr ⟨o :: later, heq.symm⟩)

/-- With room for one early message only, the forged prepare keeps the proposal out, and nothing is
prepared. -/
theorem forged_message_displaces :
    let s := Four.cramped 1 0
    let n := (launch s [] Four.first.header).node
    let n' := (n.handle s (.message Four.forged)).node
    let later := s.execution.during (Four.arrivals [Four.proposeNext] ++ [.newHead Four.head])
    Four.forged.isGenuine s.scheme = false ∧ n'.answers s later ≠ n.answers s later := by
  decide +kernel

end Node

end QuorumChain
