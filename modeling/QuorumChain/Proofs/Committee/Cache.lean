import QuorumChain.Committee.Cache
import QuorumChain.Proofs.Chain.SameBlock
import QuorumChain.Proofs.Chain.Sealing

/-!
# What a cache of committees may hold

The committee behind a header depends on the header alone, and headers of one block have the same
committee behind them.  So a cache that is filled from headers whose writings do not collide never
changes an answer: a committee found in it is the one that would have been derived.
-/

namespace QuorumChain

variable {H : HashFunction} {scheme : Scheme} {h g parent : Header} {d : Digest}
  {committee committee' : Committee}

theorem Header.SameBlock.nextCommittee_eq
    {x y : ExtraData} (hx : h.extraData = .ok x) (hy : g.extraData = .ok y)
    (hsame : h.SameBlock g x y) : h.nextCommittee = g.nextCommittee := by
  have hvote : h.carriedVote = g.carriedVote := by
    rw [Header.carriedVote, Header.carriedVote, hsame.nonce, hsame.coinbase]
  simp only [Header.nextCommittee, hx, hy, mapError_ok, bind, Except.bind, hsame.validators,
    hsame.number, hvote]

/-- Headers whose digests are taken over one writing have the same committee behind them. -/
theorem Header.nextCommittee_congr
    {e : Digest} (hd : h.digest H = .ok d) (he : g.digest H = .ok e)
    (hwriting : h.writing = g.writing) : h.nextCommittee = g.nextCommittee := by
  obtain ⟨⟨x, hx⟩, -⟩ := Header.digest_eq_ok hd
  obtain ⟨⟨y, hy⟩, -⟩ := Header.digest_eq_ok he
  exact (Header.sameBlock_of_writing hx hy hd he hwriting).nextCommittee_eq hx hy

namespace CommitteeCache

variable {c c' : CommitteeCache} {known : Set Header}

/-- What is found under a digest is an entry; it becomes the first one, and the others are kept. -/
theorem of_find?
    (hfind : c.find? d = some (committee, c')) :
    (d, committee) ∈ c.entries ∧
      c'.entries = (d, committee) :: c.entries.filter (·.1 != d) := by
  obtain ⟨⟨key, remembered⟩, he, heq⟩ := Option.map_eq_some_iff.mp hfind
  have hkey : (key == d) = true :=
    List.find?_some (p := fun e : Digest × Committee => e.1 == d) he
  obtain rfl := beq_iff_eq.mp hkey
  cases heq
  exact ⟨List.mem_of_find?_eq_some he, rfl⟩

theorem find?_of_first
    {rest : List (Digest × Committee)} (hentries : c.entries = (d, committee) :: rest) :
    ∃ c', c.find? d = some (committee, c') := by
  have hfirst : ((d, committee) :: rest).find? (·.1 == d) = some (d, committee) := by
    simp
  rw [find?, hentries, hfirst]
  exact ⟨_, rfl⟩

theorem after_of_find?
    {found : Committee × CommitteeCache} (hd : h.digest H = .ok d)
    (hfind : c.find? d = some found) : c.after H h = .ok found := by
  simp only [after, hd, mapError_ok, bind, Except.bind, hfind]
  rfl

theorem after_of_next
    (hd : h.digest H = .ok d) (hfind : c.find? d = none) (hnext : h.nextCommittee = .ok committee) :
    c.after H h = .ok (committee, c.put d committee) := by
  simp only [after, hd, mapError_ok, bind, Except.bind, hfind, hnext]
  rfl

/-- A committee comes out of the cache or is derived and remembered. -/
theorem after_eq_ok
    (hafter : c.after H h = .ok (committee, c')) :
    ∃ d, h.digest H = .ok d ∧ (c.find? d = some (committee, c') ∨
      (c.find? d = none ∧ h.nextCommittee = .ok committee ∧ c' = c.put d committee)) := by
  obtain ⟨d, hd, hafter⟩ := bind_eq_ok.mp hafter
  refine ⟨d, mapError_eq_ok.mp hd, ?_⟩
  split at hafter
  · rename_i found hfind
    obtain rfl := pure_eq_ok.mp hafter
    exact .inl hfind
  · rename_i hfind
    obtain ⟨derived, hderived, hafter⟩ := bind_eq_ok.mp hafter
    cases pure_eq_ok.mp hafter
    exact .inr ⟨hfind, hderived, rfl⟩

/-- What is remembered afterwards is the committee asked for, or was remembered before. -/
theorem after_cases
    (hafter : c.after H h = .ok (committee, c')) :
    ∃ d, h.digest H = .ok d ∧ ((d, committee) ∈ c.entries ∨ h.nextCommittee = .ok committee) ∧
      ∀ e ∈ c'.entries, e = (d, committee) ∨ e ∈ c.entries := by
  obtain ⟨d, hd, hfind | ⟨-, hnext, rfl⟩⟩ := after_eq_ok hafter
  · obtain ⟨hentry, hentries⟩ := of_find? hfind
    refine ⟨d, hd, .inl hentry, fun e he => ?_⟩
    rw [hentries] at he
    exact (List.mem_cons.mp he).imp_right fun hrest => (List.mem_filter.mp hrest).1
  · refine ⟨d, hd, .inr hnext, fun e he => ?_⟩
    exact (List.mem_cons.mp (List.mem_of_mem_take he)).imp_right
      fun hrest => (List.mem_filter.mp hrest).1

/-- Asked for the same committee again, a cache gives the same answer. -/
theorem after_again
    (hafter : c.after H h = .ok (committee, c')) : ∃ c'', c'.after H h = .ok (committee, c'') := by
  obtain ⟨d, hd, hfind | ⟨-, hnext, rfl⟩⟩ := after_eq_ok hafter
  · obtain ⟨c'', hagain⟩ := find?_of_first (of_find? hfind).2
    exact ⟨c'', after_of_find? hd hagain⟩
  · cases hcapacity : c.capacity with
    | zero =>
        -- A cache without room remembers nothing and derives the committee again.
        have hnone : (c.put d committee).find? d = none := by
          rw [find?, put, hcapacity, List.take_zero]
          rfl
        exact ⟨_, after_of_next hd hnone hnext⟩
    | succ capacity =>
        have hentries : (c.put d committee).entries =
            (d, committee) :: (c.entries.filter (·.1 != d)).take capacity := by
          rw [put, hcapacity, List.take_succ_cons]
        obtain ⟨c'', hagain⟩ := find?_of_first hentries
        exact ⟨c'', after_of_find? hd hagain⟩

/-- The committees in a cache are those behind known headers, each under the digest of its
header. -/
def Faithful (H : HashFunction) (known : Set Header) (c : CommitteeCache) : Prop :=
  ∀ e ∈ c.entries, ∃ h ∈ known, h.digest H = .ok e.1 ∧ h.nextCommittee = .ok e.2

theorem faithful_empty (H : HashFunction) (known : Set Header) (capacity : Nat) :
    (empty capacity).Faithful H known :=
  fun _ he => absurd he List.not_mem_nil

/-- A cache that is asked about a known header stays faithful, even if writings collide, and its
answer is the committee behind some known header with the same digest. -/
theorem Faithful.provenance
    (hc : c.Faithful H known) (hh : h ∈ known) (hafter : c.after H h = .ok (committee, c')) :
    c'.Faithful H known ∧ ∃ d, h.digest H = .ok d ∧
      ∃ g ∈ known, g.digest H = .ok d ∧ g.nextCommittee = .ok committee := by
  obtain ⟨d, hd, hfound, hentries⟩ := after_cases hafter
  have hsource : ∃ g ∈ known, g.digest H = .ok d ∧ g.nextCommittee = .ok committee := by
    rcases hfound with hentry | hnext
    · exact hc _ hentry
    · exact ⟨h, hh, hd, hnext⟩
  refine ⟨fun e he => ?_, d, hd, hsource⟩
  rcases hentries e he with rfl | hold
  · exact hsource
  · exact hc e hold

section

variable (hfree : Set.InjOn H (Header.writing '' known))

include hfree in
/-- What is remembered under the digest of a known header is the committee behind that header. -/
theorem Faithful.nextCommittee
    (hc : c.Faithful H known) (hh : h ∈ known) (hd : h.digest H = .ok d)
    (he : (d, committee) ∈ c.entries) : h.nextCommittee = .ok committee := by
  obtain ⟨g, hg, hgd, hnext⟩ := hc _ he
  have hwriting : h.writing = g.writing := by
    apply hfree (Set.mem_image_of_mem _ hh) (Set.mem_image_of_mem _ hg)
    rw [← (Header.digest_eq_ok hd).2, ← (Header.digest_eq_ok hgd).2]
  rw [Header.nextCommittee_congr hd hgd hwriting]
  exact hnext

include hfree in
/-- A cache that is asked for the committee behind a known header gives it and stays faithful. -/
theorem Faithful.of_after
    (hc : c.Faithful H known) (hh : h ∈ known) (hafter : c.after H h = .ok (committee, c')) :
    h.nextCommittee = .ok committee ∧ c'.Faithful H known := by
  obtain ⟨d, hd, hfound, -⟩ := after_cases hafter
  exact ⟨hfound.elim (hc.nextCommittee hfree hh hd) id, (hc.provenance hh hafter).1⟩

include hfree in
/-- A cache that is asked for the committee behind a known header with a digest gives an answer if
there is one. -/
theorem Faithful.exists_after
    (hc : c.Faithful H known) (hh : h ∈ known) (hd : h.digest H = .ok d)
    (hnext : h.nextCommittee = .ok committee) : ∃ c', c.after H h = .ok (committee, c') := by
  cases hfind : c.find? d with
  | none => exact ⟨_, after_of_next hd hfind hnext⟩
  | some found =>
      obtain ⟨remembered, c'⟩ := found
      have hsame := hc.nextCommittee hfree hh hd (of_find? hfind).1
      rw [hnext] at hsame
      cases hsame
      exact ⟨c', after_of_find? hd hfind⟩

end

/-! ## Links -/

/-- A header follows its parent if it has the next number, names the parent and carries the
seals of a quorum. -/
theorem checkLink_eq_ok
    {parentDigest : Digest} (hdigest : parent.digest scheme.hash = .ok parentDigest) :
    checkLink scheme committee parent h = .ok () ↔
      h.number = parent.number + 1 ∧ h.parent = parentDigest ∧
        ∃ signers, h.checkCommitted scheme committee = .ok signers := by
  simp only [checkLink, hdigest, mapError_ok, bind_eq_ok, require_eq_ok, mapError_eq_ok,
    beq_iff_eq, pure_eq_ok, Except.ok.injEq]
  constructor
  · rintro ⟨_, hnumber, digest, rfl, _, hparent, signers, hcheck, -⟩
    exact ⟨hnumber, hparent, signers, hcheck⟩
  · rintro ⟨hnumber, hparent, signers, hcheck⟩
    exact ⟨(), hnumber, parentDigest, rfl, (), hparent, signers, hcheck, trivial⟩

/-! ## Chains -/

/-- Headers follow a parent one after the other, each sealed by the committee behind the one before.
The last index is the committee behind the last of them. -/
inductive Chained (scheme : Scheme) : Committee → Header → List Header → Committee → Prop
  | nil {committee : Committee} {parent : Header} : Chained scheme committee parent [] committee
  | cons {committee next last : Committee} {parent h : Header} {rest : List Header}
      (hlink : checkLink scheme committee parent h = .ok ()) (hnext : h.nextCommittee = .ok next)
      (hrest : Chained scheme next h rest last) :
      Chained scheme committee parent (h :: rest) last

theorem of_checkLink
    (hlink : checkLink scheme committee parent h = .ok ()) :
    h.number = parent.number + 1 ∧ ∃ signers, h.checkCommitted scheme committee = .ok signers := by
  simp only [checkLink, bind_eq_ok, require_eq_ok, beq_iff_eq, mapError_eq_ok] at hlink
  obtain ⟨_, hnumber, _, -, _, -, signers, hcheck, -⟩ := hlink
  exact ⟨hnumber, signers, hcheck⟩

theorem digest_of_checkLink
    (hlink : checkLink scheme committee parent h = .ok ()) : ∃ d, h.digest scheme.hash = .ok d := by
  obtain ⟨-, signers, hcheck⟩ := of_checkLink hlink
  obtain ⟨-, d, -, hd, -⟩ := Header.quorate_of_checkCommitted hcheck
  exact ⟨d, hd⟩

section

variable (hfree : Set.InjOn scheme.hash (Header.writing '' known))

include hfree in
/-- A chain is followed, whatever the cache remembers of known headers, exactly if it is linked. -/
theorem Faithful.follow_iff
    {headers : List Header} {last : Committee} (hc : c.Faithful scheme.hash known)
    (hknown : ∀ h ∈ headers, h ∈ known) :
    (∃ c', c.follow scheme committee parent headers = .ok (last, c')) ↔
      Chained scheme committee parent headers last := by
  induction headers generalizing c committee parent with
  | nil =>
      constructor
      · rintro ⟨c', ⟨⟩⟩
        exact .nil
      · rintro ⟨⟩
        exact ⟨c, rfl⟩
  | cons h rest ih =>
      have hh : h ∈ known := hknown h List.mem_cons_self
      have hrestKnown : ∀ g ∈ rest, g ∈ known := fun g hg => hknown g (List.mem_cons_of_mem h hg)
      constructor
      · rintro ⟨c', hfollow⟩
        obtain ⟨⟨⟩, hlink, hfollow⟩ := bind_eq_ok.mp hfollow
        obtain ⟨⟨next, c₁⟩, hafter, hrest⟩ := bind_eq_ok.mp hfollow
        obtain ⟨hnext, hc₁⟩ := hc.of_after hfree hh hafter
        exact .cons hlink hnext ((ih hc₁ hrestKnown).mp ⟨c', hrest⟩)
      · rintro (_ | ⟨hlink, hnext, hrest⟩)
        obtain ⟨d, hd⟩ := digest_of_checkLink hlink
        obtain ⟨c₁, hafter⟩ := hc.exists_after hfree hh hd hnext
        obtain ⟨c', hfollow⟩ := (ih (hc.of_after hfree hh hafter).2 hrestKnown).mpr hrest
        exact ⟨c', bind_eq_ok.mpr ⟨(), hlink, bind_eq_ok.mpr ⟨(_, c₁), hafter, hfollow⟩⟩⟩

include hfree in
/-- A chain passes the check from its first header on exactly if that header is one of a first block
and has a committee behind it, and the others are linked to it. -/
theorem Faithful.replay_iff
    {first : Header} {rest : List Header} (hc : c.Faithful scheme.hash known)
    (hknown : ∀ h ∈ first :: rest, h ∈ known) (last : Committee) :
    (∃ c', c.replay scheme (first :: rest) = .ok (last, c')) ↔
      first.number = 0 ∧ (∃ d, first.digest scheme.hash = .ok d) ∧
        ∃ committee, first.nextCommittee = .ok committee ∧
          Chained scheme committee first rest last := by
  have hfirst : first ∈ known := hknown first List.mem_cons_self
  have hrestKnown : ∀ g ∈ rest, g ∈ known := fun g hg => hknown g (List.mem_cons_of_mem first hg)
  constructor
  · rintro ⟨c', hreplay⟩
    obtain ⟨⟨⟩, hnumber, hreplay⟩ := bind_eq_ok.mp hreplay
    obtain ⟨⟨committee, c₁⟩, hafter, hfollow⟩ := bind_eq_ok.mp hreplay
    obtain ⟨d, hd, -⟩ := after_cases hafter
    obtain ⟨hnext, hc₁⟩ := hc.of_after hfree hfirst hafter
    exact ⟨beq_iff_eq.mp (require_eq_ok.mp hnumber), ⟨d, hd⟩, committee, hnext,
      (hc₁.follow_iff hfree hrestKnown).mp ⟨c', hfollow⟩⟩
  · rintro ⟨hnumber, ⟨d, hd⟩, committee, hnext, hchained⟩
    obtain ⟨c₁, hafter⟩ := hc.exists_after hfree hfirst hd hnext
    obtain ⟨c', hfollow⟩ :=
      ((hc.of_after hfree hfirst hafter).2.follow_iff hfree hrestKnown).mpr hchained
    have hzero : (first.number == 0) = true := beq_iff_eq.mpr hnumber
    exact ⟨c', bind_eq_ok.mpr ⟨(), require_eq_ok.mpr hzero,
      bind_eq_ok.mpr ⟨(_, c₁), hafter, hfollow⟩⟩⟩

end

/-! ## What a check leaves behind -/

/-- A check, a request for a committee and what is done with both, in one. -/
theorem bind_after_eq
    {α : Type} (check : Except Fault Unit)
    (f : Committee × CommitteeCache → Except Fault α) :
    (check >>= fun _ => c.after H h >>= f) =
      (c.askIf H check h).1 >>= fun committee => f (committee, (c.askIf H check h).2) := by
  cases check with
  | error e => rfl
  | ok u =>
      simp only [bind, Except.bind, askIf, ask]
      cases c.after H h <;> rfl

theorem follow_eq_walk
    (scheme : Scheme) (c : CommitteeCache) (committee : Committee) (parent : Header)
    (headers : List Header) :
    follow scheme c committee parent headers =
      (walk scheme c committee parent headers).1.map
        fun last => (last, (walk scheme c committee parent headers).2) := by
  induction headers generalizing c committee parent with
  | nil => rfl
  | cons h rest ih =>
      rw [follow, walk, bind_after_eq]
      rcases c.askIf scheme.hash (checkLink scheme committee parent h) h with ⟨_ | next, c'⟩
      · rfl
      · exact ih c' next h

theorem replay_eq_audit
    (c : CommitteeCache) (scheme : Scheme) (headers : List Header) :
    c.replay scheme headers =
      (c.audit scheme headers).1.map fun last => (last, (c.audit scheme headers).2) := by
  cases headers with
  | nil => rfl
  | cons first rest =>
      rw [replay, audit, bind_after_eq]
      rcases c.askIf scheme.hash
        (require (first.number == 0) (.badChain first.number .noGenesis)) first with
          ⟨_ | committee, c'⟩
      · rfl
      · exact follow_eq_walk scheme c' committee first rest

end CommitteeCache

end QuorumChain
