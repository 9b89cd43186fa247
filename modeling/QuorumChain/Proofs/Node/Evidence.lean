import QuorumChain.Proofs.Admission.Message
import QuorumChain.Proofs.Message.Attestation
import QuorumChain.Proofs.Node.Effect

/-!
# What a node goes by

Every vote that a node counts was received and checked, or is the node's own.  So whatever it
accepts, keeps or asks for rests on such votes: a certificate it keeps on a quorum of prepares, a
proposal of a later round on a quorum of requests.

The invariants are kept by every move, hence they hold in every reachable record.
-/

namespace QuorumChain

theorem SortedMap.nodup_map_values
    {κ α : Type} [Ord κ] [Std.LawfulEqOrd κ] {m : SortedMap κ α} {f : α → κ}
    (h : ∀ x ∈ m.entries, x.1 = f x.2) : (m.values.map f).Nodup := by
  have hkeys : m.values.map f = m.entries.map (·.1) := by
    rw [values, List.map_map]
    exact List.map_congr_left fun x hx => (h x hx).symm
  rw [hkeys]
  exact m.nodup_keys

theorem RoundChanges.certificate?_eq_some
    {t : RoundChanges} {round : UInt32} {c : RoundChangeCertificate}
    (h : t.certificate? round = some c) :
    c.requests = (t.forRound round).values ∧ t.quorum ≤ c.requests.length := by
  rw [certificate?] at h
  split at h
  · rename_i hquorum
    obtain ⟨byAuthor, hround, rfl⟩ := Option.map_eq_some_iff.mp h
    have hfor : t.forRound round = byAuthor := by rw [forRound, hround, Option.getD_some]
    rw [hasQuorum, decide_eq_true_eq, count, hfor, SortedMap.size] at hquorum
    rw [hfor]
    exact ⟨rfl, by simpa [SortedMap.values] using hquorum⟩
  · contradiction

namespace Record

variable (s : Setup) (b : Base)

/-! ## Evidence -/

/-- A vote of a member was received and checked, or the node has cast it. -/
def Credits {P : Type} [Payload P] [Carried P] (r : Record) (m : Signed P) : Prop :=
  m.author ∈ b.committee.members ∧
    ((∃ message, .message message ∈ r.heard ∧ m ∈ Carried.within message ∧
      m.check s.scheme b.committee = .ok ()) ∨ .broadcast (Carried.message m) ∈ r.made)

/-- A certificate rests on credited prepares for a digest. -/
def Supports (r : Record) (c : PreparedCertificate) (d : Digest) : Prop :=
  c.Backs s.scheme.hash b.committee b.height (r.Credits s b) d

/-- A request is credited, and so are the prepares it carries. -/
def Upholds (r : Record) (q : Signed RoundChange) : Prop :=
  r.Credits s b q ∧ q.payload.Upheld s.scheme.hash b.committee (r.Credits s b)

/-- A proposal was received or made, has a digest, and above round zero rests on credited
requests. -/
structure Grounds (r : Record) (m : JustifiedProposal) (d : Digest) : Prop where
  known : .message (.proposal m) ∈ r.heard ∨ .broadcast (.proposal m) ∈ r.made
  digest : m.signed.payload.block.header.digest s.scheme.hash = .ok d
  listed :
    (∃ x, m.signed.payload.block.header.extraData = .ok x ∧
      x.validators = b.committee.members) ∨
    (m.signed.payload.view.round ≠ 0 ∧
      ∃ c p, m.justification = some c ∧ c.latestPrepared = some p)
  justified : m.signed.payload.view.round ≠ 0 →
    ∃ c, m.justification = some c ∧
      c.Justifies b.committee (r.Upholds s b) m.signed.payload.view ∧
        ∀ p, c.latestPrepared = some p → p.block.header.digest s.scheme.hash = .ok d

/-- One record has heard and done all that another has. -/
structure Extends (r r' : Record) : Prop where
  heard : ∀ x ∈ r.heard, x ∈ r'.heard
  made : ∀ a ∈ r.made, a ∈ r'.made

theorem extends_turn (s : Setup) (r : Record) (t : Turn) : r.Extends (r.turn s t) := by
  obtain ⟨actions, hdone⟩ := exists_made_turn s r t
  constructor
  · intro x hx
    rw [heard_turn]
    exact List.mem_cons_of_mem _ hx
  · intro a ha
    rw [hdone]
    exact List.mem_append_left _ ha

variable {s b} {r r' : Record}

theorem Credits.mono
    {P : Type} [Payload P] [Carried P] {m : Signed P}
    (h : r.Credits s b m) (hle : r.Extends r') : r'.Credits s b m := by
  obtain ⟨hmember, hsource⟩ := h
  refine ⟨hmember, hsource.imp ?_ (hle.made _)⟩
  rintro ⟨message, hheard, hwithin, hcheck⟩
  exact ⟨message, hle.heard _ hheard, hwithin, hcheck⟩

theorem Supports.mono
    {c : PreparedCertificate} {d : Digest} (h : r.Supports s b c d) (hle : r.Extends r') :
    r'.Supports s b c d :=
  PreparedCertificate.Backs.mono h fun _ _ hp => hp.mono hle

theorem Upholds.mono
    {q : Signed RoundChange} (h : r.Upholds s b q) (hle : r.Extends r') : r'.Upholds s b q := by
  refine ⟨h.1.mono hle, ?_⟩
  intro c hc
  obtain ⟨hearlier, d, hbacks⟩ := h.2 c hc
  exact ⟨hearlier, d, hbacks.mono fun _ _ hp => hp.mono hle⟩

theorem Grounds.mono
    {m : JustifiedProposal} {d : Digest} (h : r.Grounds s b m d) (hle : r.Extends r') :
    r'.Grounds s b m d where
  known := h.known.imp (hle.heard _) (hle.made _)
  digest := h.digest
  listed := h.listed
  justified hround := by
    obtain ⟨c, hc, hjustifies, hlatest⟩ := h.justified hround
    exact ⟨c, hc, hjustifies.mono fun _ _ hq => hq.mono hle, hlatest⟩

/-- The certificates that credited requests carry are of their height. -/
theorem height_of_justifies
    {c : RoundChangeCertificate} {view : View}
    (h : c.Justifies b.committee (r.Upholds s b) view) :
    ∀ q ∈ c.requests, ∀ p, q.payload.prepared = some p → p.view.height = view.height := by
  intro q hq p hp
  obtain ⟨-, d, hbacks⟩ := (h.credible q hq).2 p hp
  rw [hbacks.height, h.view q hq]

/-- A block that is proposed again was prepared in an earlier round. -/
theorem Grounds.supports_latest
    {m : JustifiedProposal} {d : Digest} (h : r.Grounds s b m d)
    (hheight : m.signed.payload.view.height = b.height)
    (hround : m.signed.payload.view.round ≠ 0) {c : RoundChangeCertificate}
    (hc : m.justification = some c) {best : PreparedCertificate}
    (hbest : c.latestPrepared = some best) :
    best.view.round < m.signed.payload.view.round ∧ r.Supports s b best d := by
  obtain ⟨c', hc', hjustifies, hlatest⟩ := h.justified hround
  obtain rfl : c = c' := Option.some.inj (hc.symm.trans hc')
  obtain ⟨⟨q, hq, hqbest⟩, -⟩ :=
    RoundChangeCertificate.latestPrepared_eq_some (height_of_justifies hjustifies) hbest
  obtain ⟨hearlier, d', hbacks⟩ := (hjustifies.credible q hq).2 best hqbest
  have hdigest := hlatest best hbest
  rw [hbacks.digest] at hdigest
  cases hdigest
  rw [hjustifies.view q hq] at hearlier hbacks
  rw [hheight] at hbacks
  exact ⟨hearlier, hbacks⟩

/-! ## Evidence in messages -/

theorem credits_of_check
    {P : Type} [Payload P] [Carried P] {m : Signed P} {message : Message}
    (hheard : .message message ∈ r.heard) (hwithin : m ∈ Carried.within message)
    (hcheck : m.check s.scheme b.committee = .ok ()) : r.Credits s b m :=
  ⟨(Signed.check_eq_ok.mp hcheck).2.2, .inl ⟨message, hheard, hwithin, hcheck⟩⟩

/-- What a checked request carries is credited. -/
theorem upholds_of_check
    {q : Signed RoundChange} {message : Message} (hheard : .message message ∈ r.heard)
    (hwithin : q ∈ Carried.within message)
    (hprepares : ∀ p ∈ q.payload.prepares, p ∈ Carried.within message)
    (hcheck : q.check s.scheme b.committee = .ok ())
    (hpayload : q.payload.check s.scheme b.committee = .ok ()) :
    r.Upholds s b q := by
  refine ⟨credits_of_check hheard hwithin hcheck, ?_⟩
  intro c hc
  obtain ⟨hearlier, d, hbacks⟩ := RoundChange.upheld_of_check hpayload c hc
  refine ⟨hearlier, d, hbacks.mono ?_⟩
  intro p hp hgood
  have hcarried : p ∈ q.payload.prepares := by
    rw [RoundChange.prepares, hc]
    exact hp
  exact credits_of_check hheard (hprepares p hcarried) hgood

theorem grounds_of_passes
    {m : JustifiedProposal} {d : Digest} (hheard : .message (.proposal m) ∈ r.heard)
    (h : m.Passes s.scheme b.parent b.parentDigest b.committee d) : r.Grounds s b m d where
  known := .inl hheard
  digest := h.digest
  listed := by
    obtain ⟨x, hx⟩ := h.header
    exact .inl ⟨x, hx.extraData, hx.validators⟩
  justified hround := by
    obtain ⟨c, hc, hjustifies, hlatest⟩ := h.justified hround
    refine ⟨c, hc, hjustifies.mono ?_, hlatest⟩
    intro q hq hgood
    have hrequest : q ∈ m.requests := by
      rw [JustifiedProposal.requests, hc]
      exact hq
    refine upholds_of_check hheard hrequest ?_ hgood.1 hgood.2
    intro p hp
    exact List.mem_flatMap.mpr ⟨q, hrequest, hp⟩

end Record

end QuorumChain
