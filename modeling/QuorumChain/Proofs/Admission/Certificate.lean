import QuorumChain.Admission.Basic
import QuorumChain.Proofs.Message.Writing

/-!
# What certificates show

A prepared certificate that passes its check holds prepares of distinct members for one view and one
digest; a round-change certificate holds requests of distinct members for one view.  The latest
prepared certificate of the requests is one of theirs, and none of theirs is later.

The facts are stated for any notion of credible votes: a vote that was received is credible because
its signature was checked, a vote of the node itself because the node has cast it.
-/

namespace QuorumChain

/-! ## Prepared certificates -/

/-- A prepared certificate of a height holds a quorum of credible prepares for its block. -/
structure PreparedCertificate.Backs
    (c : PreparedCertificate) (H : HashFunction) (committee : Committee) (height : UInt64)
    (credible : Signed Prepare → Prop) (d : Digest) : Prop where
  height : c.view.height = height
  digest : c.block.header.digest H = .ok d
  payload : ∀ p ∈ c.prepares, p.payload = ⟨c.view, d⟩
  credible : ∀ p ∈ c.prepares, credible p
  nodup : (c.prepares.map (·.author)).Nodup
  quorum : committee.quorum ≤ c.prepares.length

theorem PreparedCertificate.Backs.mono
    {c : PreparedCertificate} {H : HashFunction} {committee : Committee} {height : UInt64}
    {credible credible' : Signed Prepare → Prop} {d : Digest}
    (h : c.Backs H committee height credible d)
    (himp : ∀ p ∈ c.prepares, credible p → credible' p) :
    c.Backs H committee height credible' d :=
  { h with credible := fun p hp => himp p hp (h.credible p hp) }

theorem Header.digestInMessage_eq_ok
    {h : Header} {H : HashFunction} {d : Digest} :
    h.digestInMessage H = .ok d ↔ h.digest H = .ok d :=
  mapError_eq_ok

/-- A list is good, of distinct keys and without those met before, exactly if its first item is good
and new, and the rest is so beside the first key. -/
theorem forall_fresh_cons
    {α β : Type} {key : α → β} {good : α → Prop} {known : List β} {a : α} {rest : List α} :
    ((∀ x ∈ a :: rest, good x ∧ key x ∉ known) ∧ ((a :: rest).map key).Nodup) ↔
      (good a ∧ key a ∉ known) ∧
        (∀ x ∈ rest, good x ∧ key x ∉ key a :: known) ∧ (rest.map key).Nodup := by
  rw [List.forall_mem_cons, List.map_cons, List.nodup_cons]
  simp only [List.mem_cons, not_or, List.mem_map, not_exists, not_and]
  constructor
  · rintro ⟨⟨ha, hrest⟩, hfirst, hnodup⟩
    exact ⟨ha, fun x hx => ⟨(hrest x hx).1, hfirst x hx, (hrest x hx).2⟩, hnodup⟩
  · rintro ⟨ha, hrest, hnodup⟩
    exact ⟨⟨ha, fun x hx => ⟨(hrest x hx).1, (hrest x hx).2.2⟩⟩, fun x hx => (hrest x hx).2.1,
      hnodup⟩

theorem PreparedCertificate.checkPrepares_eq_ok
    {scheme : Scheme} {committee : Committee} {view : View} {digest : Digest}
    {known : List Address} {prepares : List (Signed Prepare)} {u : Unit} :
    checkPrepares scheme committee view digest known prepares = .ok u ↔
      (∀ p ∈ prepares, (p.check scheme committee = .ok () ∧ p.payload = ⟨view, digest⟩) ∧
        p.author ∉ known) ∧ (prepares.map (·.author)).Nodup := by
  induction prepares generalizing known with
  | nil => simp [checkPrepares]
  | cons m rest ih =>
      simp only [forall_fresh_cons, checkPrepares, bind_eq_ok, require_eq_ok, beq_iff_eq,
        Bool.not_eq_true', List.contains_eq_mem, decide_eq_false_iff_not, ih]
      constructor
      · rintro ⟨_, hcheck, _, hview, _, hdigest, _, hnew, hrest⟩
        exact ⟨⟨⟨hcheck, by rw [← hview, ← hdigest]⟩, hnew⟩, hrest⟩
      · rintro ⟨⟨⟨hcheck, hpayload⟩, hnew⟩, hrest⟩
        exact ⟨(), hcheck, (), by rw [hpayload], (), by rw [hpayload], (), hnew, hrest⟩

/-- A prepared certificate passes its check exactly if its proposal is the proposer's, with a
block of the height, and it backs the digest of the block. -/
theorem PreparedCertificate.check_eq_ok
    {c : PreparedCertificate} {scheme : Scheme} {committee : Committee} {height : UInt64}
    {d : Digest} :
    c.check scheme committee height = .ok d ↔
      c.proposal.check scheme committee = .ok () ∧
        c.proposal.author = committee.proposer c.view ∧ c.block.header.number = height ∧
          c.Backs scheme.hash committee height (fun p => p.check scheme committee = .ok ()) d := by
  simp only [check, bind_eq_ok, require_eq_ok, beq_iff_eq, decide_eq_true_eq, pure_eq_ok,
    Header.digestInMessage_eq_ok, checkPrepares_eq_ok]
  constructor
  · rintro ⟨_, hheight, _, hsigned, _, hauthor, _, hnumber, d', hdigest, _, ⟨hall, hnodup⟩, _,
      hquorum, rfl⟩
    exact ⟨hsigned, hauthor, hnumber, hheight, hdigest, fun p hp => (hall p hp).1.2,
      fun p hp => (hall p hp).1.1, hnodup, hquorum⟩
  · rintro ⟨hsigned, hauthor, hnumber, hbacks⟩
    refine ⟨(), hbacks.height, (), hsigned, (), hauthor, (), hnumber, d, hbacks.digest, (),
      ⟨?_, hbacks.nodup⟩, (), hbacks.quorum, rfl⟩
    intro p hp
    exact ⟨⟨hbacks.credible p hp, hbacks.payload p hp⟩, List.not_mem_nil⟩

/-- A prepared certificate that passes its check backs the digest of its block. -/
theorem PreparedCertificate.backs_of_check
    {c : PreparedCertificate} {scheme : Scheme} {committee : Committee} {height : UInt64}
    {d : Digest} (h : c.check scheme committee height = .ok d) :
    c.Backs scheme.hash committee height (fun p => p.check scheme committee = .ok ()) d :=
  (check_eq_ok.mp h).2.2.2

/-! ## Requests -/

/-- What a request carries is a certificate of its height and of an earlier round. -/
def RoundChange.Upheld
    (p : RoundChange) (H : HashFunction) (committee : Committee)
    (credible : Signed Prepare → Prop) : Prop :=
  ∀ c, p.prepared = some c →
    c.view.round < p.view.round ∧ ∃ d, c.Backs H committee p.view.height credible d

/-- A request passes its check exactly if the certificate that it carries passes, and is of an
earlier round. -/
theorem RoundChange.check_eq_ok
    {p : RoundChange} {scheme : Scheme} {committee : Committee} {u : Unit} :
    p.check scheme committee = .ok u ↔
      ∀ c, p.prepared = some c →
        c.view.round < p.view.round ∧ ∃ d, c.check scheme committee p.view.height = .ok d := by
  rw [check]
  cases hc : p.prepared with
  | none => simp
  | some c =>
      simp only [bind_eq_ok, require_eq_ok, decide_eq_true_eq, Option.some.injEq,
        forall_eq']
      exact ⟨fun ⟨d, hcheck, hearlier⟩ => ⟨hearlier, d, hcheck⟩,
        fun ⟨hearlier, d, hcheck⟩ => ⟨d, hcheck, hearlier⟩⟩

theorem RoundChange.upheld_of_check
    {p : RoundChange} {scheme : Scheme} {committee : Committee} {u : Unit}
    (h : p.check scheme committee = .ok u) :
    p.Upheld scheme.hash committee (fun m => m.check scheme committee = .ok ()) := by
  intro c hc
  obtain ⟨hearlier, d, hcheck⟩ := RoundChange.check_eq_ok.mp h c hc
  exact ⟨hearlier, d, PreparedCertificate.backs_of_check hcheck⟩

/-! ## Round-change certificates -/

/-- A round-change certificate holds a quorum of credible requests for a view. -/
structure RoundChangeCertificate.Justifies
    (c : RoundChangeCertificate) (committee : Committee) (credible : Signed RoundChange → Prop)
    (view : View) : Prop where
  view : ∀ q ∈ c.requests, q.payload.view = view
  credible : ∀ q ∈ c.requests, credible q
  nodup : (c.requests.map (·.author)).Nodup
  quorum : committee.quorum ≤ c.requests.length

theorem RoundChangeCertificate.Justifies.mono
    {c : RoundChangeCertificate} {committee : Committee}
    {credible credible' : Signed RoundChange → Prop} {view : View}
    (h : c.Justifies committee credible view)
    (himp : ∀ q ∈ c.requests, credible q → credible' q) :
    c.Justifies committee credible' view :=
  { h with credible := fun q hq => himp q hq (h.credible q hq) }

theorem RoundChangeCertificate.checkRequests_eq_ok
    {scheme : Scheme} {committee : Committee} {target : View} {known : List Address}
    {requests : List (Signed RoundChange)} {u : Unit} :
    checkRequests scheme committee target known requests = .ok u ↔
      (∀ q ∈ requests, (q.payload.view = target ∧ q.check scheme committee = .ok () ∧
        q.payload.check scheme committee = .ok ()) ∧ q.author ∉ known) ∧
          (requests.map (·.author)).Nodup := by
  induction requests generalizing known with
  | nil => simp [checkRequests]
  | cons m rest ih =>
      simp only [forall_fresh_cons, checkRequests, bind_eq_ok, require_eq_ok, beq_iff_eq,
        Bool.not_eq_true', List.contains_eq_mem, decide_eq_false_iff_not, ih]
      constructor
      · rintro ⟨_, hview, _, hcheck, _, hpayload, _, hnew, hrest⟩
        exact ⟨⟨⟨hview, hcheck, hpayload⟩, hnew⟩, hrest⟩
      · rintro ⟨⟨⟨hview, hcheck, hpayload⟩, hnew⟩, hrest⟩
        exact ⟨(), hview, (), hcheck, (), hpayload, (), hnew, hrest⟩

/-- A round-change certificate passes its check exactly if it justifies the view by requests
that pass theirs. -/
theorem RoundChangeCertificate.check_eq_ok
    {c : RoundChangeCertificate} {scheme : Scheme} {committee : Committee} {target : View}
    {u : Unit} :
    c.check scheme committee target = .ok u ↔
      c.Justifies committee
        (fun q => q.check scheme committee = .ok () ∧ q.payload.check scheme committee = .ok ())
        target := by
  simp only [check, bind_eq_ok, require_eq_ok, decide_eq_true_eq, checkRequests_eq_ok]
  constructor
  · rintro ⟨_, ⟨hall, hnodup⟩, hquorum⟩
    exact ⟨fun q hq => (hall q hq).1.1, fun q hq => (hall q hq).1.2, hnodup, hquorum⟩
  · intro h
    refine ⟨(), ⟨?_, h.nodup⟩, h.quorum⟩
    intro q hq
    exact ⟨⟨h.view q hq, h.credible q hq⟩, List.not_mem_nil⟩

/-- A certificate justifies a block exactly if the block has the digest of the latest prepared
one, if there is one. -/
theorem RoundChangeCertificate.checkReproposal_eq_ok
    {c : RoundChangeCertificate} {H : HashFunction} {b : Block} {u : Unit} :
    c.checkReproposal H b = .ok u ↔
      ∀ p, c.latestPrepared = some p →
        ∃ d, p.block.header.digest H = .ok d ∧ b.header.digest H = .ok d := by
  rw [checkReproposal]
  cases hlatest : c.latestPrepared with
  | none => simp
  | some p =>
      simp only [bind_eq_ok, require_eq_ok, beq_iff_eq, Header.digestInMessage_eq_ok,
        Option.some.injEq, forall_eq']
      constructor
      · rintro ⟨d, hd, d', hd', rfl⟩
        exact ⟨d, hd, hd'⟩
      · rintro ⟨d, hd, hd'⟩
        exact ⟨d, hd, d, hd', rfl⟩

/-! ## The latest prepared certificate -/

/-- Views of one height are ordered by their rounds. -/
theorem View.compare_eq_gt
    {v w : View} (hheight : v.height = w.height) : compare v w = .gt ↔ w.round < v.round := by
  have hcompare : compare v w = compare v.round w.round := by
    show (compare v.height w.height).then (compare v.round w.round) = _
    rw [hheight, Std.ReflOrd.compare_self]
    rfl
  rw [hcompare]
  exact Std.compare_eq_gt

namespace RoundChangeCertificate

/-- The later of two certificates is one of them, and neither is later. -/
theorem exists_later
    {height : UInt64} {a : PreparedCertificate} (ha : a.view.height = height)
    {start : Option PreparedCertificate} (hstart : ∀ c, start = some c → c.view.height = height) :
    ∃ next, later start a = some next ∧ (start = some next ∨ next = a) ∧
      (∀ c, start = some c → c.view.round ≤ next.view.round) ∧
        a.view.round ≤ next.view.round := by
  cases start with
  | none => exact ⟨a, rfl, .inr rfl, by simp, UInt32.le_refl _⟩
  | some s =>
      have hs : s.view.height = a.view.height := (hstart s rfl).trans ha.symm
      rw [later]
      split
      · rename_i hgt
        rw [View.compare_eq_gt hs] at hgt
        refine ⟨s, rfl, .inl rfl, ?_, UInt32.le_of_lt hgt⟩
        intro c hc
        cases hc
        exact UInt32.le_refl _
      · rename_i hnot
        rw [View.compare_eq_gt hs, UInt32.not_lt] at hnot
        refine ⟨a, rfl, .inr rfl, ?_, UInt32.le_refl _⟩
        intro c hc
        cases hc
        exact hnot

theorem foldl_later
    {height : UInt64} {certificates : List PreparedCertificate}
    (hheight : ∀ c ∈ certificates, c.view.height = height)
    {start : Option PreparedCertificate} (hstart : ∀ c, start = some c → c.view.height = height) :
    (certificates.foldl later start = none → start = none ∧ certificates = []) ∧
      ∀ best, certificates.foldl later start = some best →
        (start = some best ∨ best ∈ certificates) ∧
          (∀ c, start = some c → c.view.round ≤ best.view.round) ∧
            ∀ c ∈ certificates, c.view.round ≤ best.view.round := by
  induction certificates generalizing start with
  | nil =>
      refine ⟨fun h => ⟨h, rfl⟩, ?_⟩
      intro best hbest
      change start = some best at hbest
      subst hbest
      refine ⟨.inl rfl, ?_, by simp⟩
      intro c hc
      cases hc
      exact UInt32.le_refl _
  | cons a rest ih =>
      have ha : a.view.height = height := hheight a List.mem_cons_self
      obtain ⟨next, hnext, hone, hstartLe, haLe⟩ := exists_later ha hstart
      have hnextHeight : ∀ c, some next = some c → c.view.height = height := by
        intro c hc
        cases hc
        rcases hone with hone | rfl
        · exact hstart next hone
        · exact ha
      rw [List.foldl_cons, hnext]
      obtain ⟨hnone, hsome⟩ := ih (fun c hc => hheight c (List.mem_cons_of_mem a hc)) hnextHeight
      refine ⟨fun h => absurd (hnone h).1 (by simp), ?_⟩
      intro best hbest
      obtain ⟨hmem, hnextLe, hrestLe⟩ := hsome best hbest
      have hle := hnextLe next rfl
      refine ⟨?_, fun c hc => UInt32.le_trans (hstartLe c hc) hle, ?_⟩
      · rcases hmem with hmem | hmem
        · cases hmem
          rcases hone with hone | rfl
          · exact .inl hone
          · exact .inr List.mem_cons_self
        · exact .inr (List.mem_cons_of_mem a hmem)
      · intro c hc
        rcases List.mem_cons.mp hc with rfl | hc
        · exact UInt32.le_trans haLe hle
        · exact hrestLe c hc

variable {c : RoundChangeCertificate} {height : UInt64}

/-- The latest certificate is one of those carried and not earlier than any of them; if there is
none, none is carried. -/
theorem latestPrepared_carried
    (hheight : ∀ q ∈ c.requests, ∀ p, q.payload.prepared = some p → p.view.height = height) :
    (c.latestPrepared = none → c.requests.filterMap (·.payload.prepared) = []) ∧
      ∀ best, c.latestPrepared = some best →
        best ∈ c.requests.filterMap (·.payload.prepared) ∧
          ∀ p ∈ c.requests.filterMap (·.payload.prepared), p.view.round ≤ best.view.round := by
  have hall : ∀ p ∈ c.requests.filterMap (·.payload.prepared), p.view.height = height := by
    intro p hp
    obtain ⟨q, hq, hqp⟩ := List.mem_filterMap.mp hp
    exact hheight q hq p hqp
  have hstart : ∀ p, (none : Option PreparedCertificate) = some p → p.view.height = height := by
    intro p hp
    contradiction
  obtain ⟨hnone, hsome⟩ := foldl_later hall hstart
  refine ⟨fun h => (hnone h).2, ?_⟩
  intro best h
  obtain ⟨hmem, -, hle⟩ := hsome best h
  rcases hmem with hmem | hmem
  · contradiction
  · exact ⟨hmem, hle⟩

theorem prepared_eq_none
    (hheight : ∀ q ∈ c.requests, ∀ p, q.payload.prepared = some p → p.view.height = height)
    (h : c.latestPrepared = none) {q : Signed RoundChange} (hq : q ∈ c.requests) :
    q.payload.prepared = none :=
  List.filterMap_eq_nil_iff.mp ((latestPrepared_carried hheight).1 h) q hq

/-- The latest certificate is carried by a request, and no request carries a later one. -/
theorem latestPrepared_eq_some
    (hheight : ∀ q ∈ c.requests, ∀ p, q.payload.prepared = some p → p.view.height = height)
    {best : PreparedCertificate} (h : c.latestPrepared = some best) :
    (∃ q ∈ c.requests, q.payload.prepared = some best) ∧
      ∀ q ∈ c.requests, ∀ p, q.payload.prepared = some p → p.view.round ≤ best.view.round := by
  obtain ⟨hmem, hle⟩ := (latestPrepared_carried hheight).2 best h
  refine ⟨List.mem_filterMap.mp hmem, ?_⟩
  intro q hq p hp
  exact hle p (List.mem_filterMap.mpr ⟨q, hq, hp⟩)

/-- The latest certificate of a round-change certificate that passes its check passes its own. -/
theorem check_latestPrepared
    {scheme : Scheme} {committee : Committee} {target : View}
    (h : c.check scheme committee target = .ok ()) {best : PreparedCertificate}
    (hbest : c.latestPrepared = some best) :
    best.view.round < target.round ∧ ∃ d, best.check scheme committee target.height = .ok d := by
  have hjustifies := check_eq_ok.mp h
  have hcarried : ∀ q ∈ c.requests, ∀ p, q.payload.prepared = some p →
      p.view.round < target.round ∧ ∃ d, p.check scheme committee target.height = .ok d := by
    intro q hq p hp
    have hgood := RoundChange.check_eq_ok.mp (hjustifies.credible q hq).2 p hp
    rwa [hjustifies.view q hq] at hgood
  have hheight : ∀ q ∈ c.requests, ∀ p, q.payload.prepared = some p →
      p.view.height = target.height := by
    intro q hq p hp
    obtain ⟨-, d, hcheck⟩ := hcarried q hq p hp
    exact (PreparedCertificate.backs_of_check hcheck).height
  obtain ⟨⟨q, hq, hqbest⟩, -⟩ := latestPrepared_eq_some hheight hbest
  exact hcarried q hq best hqbest

end RoundChangeCertificate

end QuorumChain
