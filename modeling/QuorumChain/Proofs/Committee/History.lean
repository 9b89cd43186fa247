import QuorumChain.Proofs.Committee.Cache
import QuorumChain.Proofs.Node.Four

/-!
# Caches with a history

Whatever a cache was asked before, it gives the answer that an empty one gives.  Caches are asked
for the committee behind a header, and to check chains.  A chain that is bad from some header on
leaves behind what was remembered before that header.

A digest leaves out the round and the seals of a header.  The committee behind a header depends on
neither, although it is found under the digest.
-/

namespace QuorumChain

/-- Those of some headers that have a digest. -/
def Header.digested (H : HashFunction) (known : Set Header) : Set Header :=
  {h | h ∈ known ∧ ∃ d, h.digest H = .ok d}

/-- The committee behind a header that has a digest, from the header alone. -/
def Header.derived (H : HashFunction) (h : Header) : Except Fault Committee := do
  let _ ← (h.digest H).mapError fun e => .badChain h.number (.extraData e)
  h.nextCommittee

namespace CommitteeCache

variable {H : HashFunction} {c : CommitteeCache} {h g : Header} {known : Set Header}

/-! ## Calls -/

/-- What a cache is used for. -/
inductive Call where
  /-- The committee behind a header is asked for. -/
  | after (h : Header)
  /-- A chain is checked. -/
  | replay (verify : Address → Digest → Signature → Bool) (headers : List Header)

/-- The headers in a call. -/
def Call.headers : Call → List Header
  | .after h => [h]
  | .replay _ headers => headers

/-- The cache that a call leaves. -/
def serve (H : HashFunction) (c : CommitteeCache) : Call → CommitteeCache
  | .after h => (c.ask H h).2
  | .replay verify headers => (c.audit ⟨H, verify⟩ headers).2

theorem after_of_digest_error
    {e : ExtraDataError} (hd : h.digest H = .error e) :
    c.after H h = .error (.badChain h.number (.extraData e)) := by
  rw [after, hd]
  rfl

theorem after_of_next_error
    {d : Digest} {e : Fault} (hd : h.digest H = .ok d) (hfind : c.find? d = none)
    (hnext : h.nextCommittee = .error e) : c.after H h = .error e := by
  simp only [after, hd, mapError_ok, bind, Except.bind, hfind, hnext]

section

variable (hfree : Set.InjOn H (Header.writing '' Header.digested H known))
  (hc : c.Faithful H (Header.digested H known))

include hfree hc

/-- A cache of known headers answers for one of them what the header alone says. -/
theorem Faithful.after_eq (hh : h ∈ known) : (c.after H h).map Prod.fst = h.derived H := by
  rw [Header.derived]
  cases hd : h.digest H with
  | error e =>
      rw [after_of_digest_error hd]
      rfl
  | ok d =>
      cases hfind : c.find? d with
      | some found =>
          have hnext : h.nextCommittee = .ok found.1 :=
            hc.nextCommittee hfree ⟨hh, d, hd⟩ hd (of_find? hfind).1
          rw [after_of_find? hd hfind, hnext]
          rfl
      | none =>
          cases hnext : h.nextCommittee with
          | error e =>
              rw [after_of_next_error hd hfind hnext]
              rfl
          | ok committee =>
              rw [after_of_next hd hfind hnext]
              rfl

end

/-! ## What is remembered -/

section

variable (hc : c.Faithful H (Header.digested H known))

include hc

/-- Only known headers are remembered after one was asked about. -/
theorem Faithful.ask (hh : h ∈ known) : (c.ask H h).2.Faithful H (Header.digested H known) := by
  rw [CommitteeCache.ask]
  cases hafter : c.after H h with
  | error e => exact hc
  | ok found =>
      obtain ⟨d, hd, -⟩ := after_cases hafter
      exact (hc.provenance ⟨hh, d, hd⟩ hafter).1

theorem Faithful.askIf
    (hh : h ∈ known) (check : Except Fault Unit) :
    (c.askIf H check h).2.Faithful H (Header.digested H known) := by
  cases check with
  | error e => exact hc
  | ok u => exact hc.ask hh

end

section

variable (scheme : Scheme) {headers : List Header}
  (hc : c.Faithful scheme.hash (Header.digested scheme.hash known))
  (hheaders : ∀ h ∈ headers, h ∈ known)

include hc hheaders

theorem Faithful.walk
    (committee : Committee) (parent : Header) :
    (walk scheme c committee parent headers).2.Faithful scheme.hash
      (Header.digested scheme.hash known) := by
  induction headers generalizing c committee parent with
  | nil => exact hc
  | cons h rest ih =>
      obtain ⟨hh, hrest⟩ := List.forall_mem_cons.mp hheaders
      have hleft := hc.askIf hh (checkLink scheme committee parent h)
      rw [CommitteeCache.walk]
      generalize c.askIf scheme.hash (checkLink scheme committee parent h) h = left at hleft ⊢
      rcases left with ⟨_ | next, c'⟩
      · exact hleft
      · exact ih hleft hrest next h

theorem Faithful.audit :
    (c.audit scheme headers).2.Faithful scheme.hash (Header.digested scheme.hash known) := by
  cases headers with
  | nil => exact hc
  | cons first rest =>
      obtain ⟨hfirst, hrest⟩ := List.forall_mem_cons.mp hheaders
      have hleft := hc.askIf hfirst
        (require (first.number == 0) (.badChain first.number .noGenesis))
      rw [CommitteeCache.audit]
      generalize c.askIf scheme.hash _ first = left at hleft ⊢
      rcases left with ⟨_ | committee, c'⟩
      · exact hleft
      · exact Faithful.walk scheme hleft hrest committee first

end

/-- A call about known headers leaves a cache of known headers. -/
theorem Faithful.serve
    {call : Call} (hc : c.Faithful H (Header.digested H known))
    (hcall : ∀ g ∈ call.headers, g ∈ known) :
    (c.serve H call).Faithful H (Header.digested H known) := by
  cases call with
  | after h => exact hc.ask (hcall h List.mem_cons_self)
  | replay verify headers => exact Faithful.audit ⟨H, verify⟩ hc hcall

theorem Faithful.foldl_serve
    {calls : List Call} (hc : c.Faithful H (Header.digested H known))
    (hcalls : ∀ call ∈ calls, ∀ g ∈ call.headers, g ∈ known) :
    (calls.foldl (CommitteeCache.serve H) c).Faithful H (Header.digested H known) := by
  induction calls generalizing c with
  | nil => exact hc
  | cons call rest ih =>
      obtain ⟨hcall, hrest⟩ := List.forall_mem_cons.mp hcalls
      exact ih (hc.serve hcall) hrest

/-- If no two of the strings hashed for known headers collide, a cache that has served calls about
them answers for each of them as an empty cache does, be it with a committee or with a failure, and
gives the same answer for all headers with one digest. -/
theorem after_independent
    {calls : List Call} (hfree : Set.InjOn H (Header.writing '' Header.digested H known))
    (hcalls : ∀ call ∈ calls, ∀ g ∈ call.headers, g ∈ known) (hh : h ∈ known) :
    (∀ capacity fresh, ((calls.foldl (serve H) (empty capacity)).after H h).map Prod.fst =
      ((empty fresh).after H h).map Prod.fst) ∧
    ∀ capacity, ∀ g ∈ known, ∀ d, h.digest H = .ok d → g.digest H = .ok d →
      ((calls.foldl (serve H) (empty capacity)).after H g).map Prod.fst =
        ((calls.foldl (serve H) (empty capacity)).after H h).map Prod.fst := by
  have hserved : ∀ capacity,
      (calls.foldl (serve H) (empty capacity)).Faithful H (Header.digested H known) := by
    intro capacity
    exact (faithful_empty H _ capacity).foldl_serve hcalls
  constructor
  · intro capacity fresh
    rw [(hserved capacity).after_eq hfree hh, (faithful_empty H _ fresh).after_eq hfree hh]
  · intro capacity g hg d hd he
    rw [(hserved capacity).after_eq hfree hg, (hserved capacity).after_eq hfree hh]
    have hwriting : g.writing = h.writing := by
      apply hfree (Set.mem_image_of_mem _ ⟨hg, d, he⟩) (Set.mem_image_of_mem _ ⟨hh, d, hd⟩)
      rw [← (Header.digest_eq_ok he).2, ← (Header.digest_eq_ok hd).2]
    rw [Header.derived, Header.derived, hd, he, Header.nextCommittee_congr he hd hwriting]
    rfl

/-- A cache with room for one committee, which has to be derived again after each other header, and
which was left behind by a chain with a block that nobody sealed. -/
theorem after_independent_of_four :
    let calls := [.after Four.first.header, .after Four.head, .after Four.head,
      .replay (Four.setup 0).scheme.verify [Four.first.header, Four.odd.header]]
    let known := {h | h ∈ [Four.first.header, Four.head, Four.odd.header, (Four.fresh 0).header]}
    let served := calls.foldl (serve Four.hash) (empty 1)
    Set.InjOn Four.hash (Header.writing '' Header.digested Four.hash known) ∧
      (∀ call ∈ calls, ∀ g ∈ call.headers, g ∈ known) ∧ Four.head ∈ known ∧
      (served.after Four.hash Four.head).map Prod.fst = .ok Four.committee ∧
      (served.after Four.hash (Four.fresh 0).header).map Prod.fst = .ok Four.committee := by
  intro calls known served
  have hcalls : ∀ call ∈ calls, ∀ g ∈ call.headers, g ∈ known := by
    show ∀ call ∈ calls, ∀ g ∈ call.headers,
      g ∈ [Four.first.header, Four.head, Four.odd.header, (Four.fresh 0).header]
    simp [calls, Call.headers]
  have hwritings : ∀ h ∈ [Four.first.header, Four.head, Four.odd.header, (Four.fresh 0).header],
      h.writing ∈ [Four.first.header.writing, Four.head.writing, Four.odd.header.writing] := by
    decide +kernel
  have hdistinct : ([Four.first.header.writing, Four.head.writing, Four.odd.header.writing].map
      Four.hash).Nodup := by
    decide +kernel
  have hfree : Set.InjOn Four.hash (Header.writing '' Header.digested Four.hash known) := by
    rintro _ ⟨h, ⟨hh, -⟩, rfl⟩ _ ⟨g, ⟨hg, -⟩, rfl⟩ hhash
    exact List.inj_on_of_nodup_map hdistinct (hwritings h hh) (hwritings g hg) hhash
  have hhead : Four.head ∈ known := by
    show Four.head ∈ [Four.first.header, Four.head, Four.odd.header, (Four.fresh 0).header]
    simp
  have hfresh : (Four.fresh 0).header ∈ known := by
    show (Four.fresh 0).header ∈
      [Four.first.header, Four.head, Four.odd.header, (Four.fresh 0).header]
    simp
  obtain ⟨hanswer, hsame⟩ := after_independent hfree hcalls hhead
  have hempty : ((empty 1).after Four.hash Four.head).map Prod.fst = .ok Four.committee := by
    decide +kernel
  have hd : ∃ d, Four.head.digest Four.hash = .ok d ∧
      (Four.fresh 0).header.digest Four.hash = .ok d :=
    ⟨Four.digest (Four.fresh 0), by decide +kernel, by decide +kernel⟩
  obtain ⟨d, hd, he⟩ := hd
  refine ⟨hfree, hcalls, hhead, (hanswer 1 1).trans hempty, ?_⟩
  rw [hsame 1 _ hfresh d hd he]
  exact (hanswer 1 1).trans hempty

end CommitteeCache

end QuorumChain
