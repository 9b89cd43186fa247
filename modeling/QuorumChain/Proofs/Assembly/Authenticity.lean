import QuorumChain.Proofs.Assembly.Basic
import QuorumChain.Proofs.Message.Separation

/-!
# Authenticity

A vote that a node counts and whose author is not faulty was cast by its author.  Signatures are
over digests only, so the author might have signed the digest for another purpose; that is excluded
by what the digests are taken of.  Payloads of different kinds have different writings, and a seal
is over the digest of a header, whose writing is none of a prepare or a commit.  The writing of a
request could be that of a header if it carried few prepares; but the headers that members seal
list the whole committee, and requests carry a quorum.
-/

namespace QuorumChain.Assembly

variable {ι : Type} [DecidableEq ι] {N : Assembly ι} {run : List (Happening ι)}

/-! ## What members have said -/

/-- Somebody has prepared a digest in a view. -/
def Prepared (N : Assembly ι) (run : List (Happening ι)) (a : Address) (v : View) (d : Digest) :
    Prop :=
  ∃ x p, N.address x = a ∧ .broadcast (.prepare p) ∈ (N.record run x).made ∧ p.payload = ⟨v, d⟩

/-- Somebody has committed a digest in a view. -/
def Committed (N : Assembly ι) (run : List (Happening ι)) (a : Address) (v : View) (d : Digest) :
    Prop :=
  ∃ x p, N.address x = a ∧ .broadcast (.commit p) ∈ (N.record run x).made ∧
    p.payload.view = v ∧ p.payload.digest = d

/-- Somebody has asked for a view with some certificate. -/
def Asked
    (N : Assembly ι) (run : List (Happening ι)) (a : Address) (v : View)
    (prepared : Option PreparedCertificate) : Prop :=
  ∃ x q, N.address x = a ∧ .broadcast (.roundChange q) ∈ (N.record run x).made ∧
    q.payload = ⟨v, prepared⟩

/-- A digest is that of a header that was hashed in the run and lists the committee. -/
def Listed (N : Assembly ι) (run : List (Happening ι)) (d : Digest) : Prop :=
  ∃ (h : Header) (y : ExtraData), h.extraData = .ok y ∧ y.validators = N.base.committee.members ∧
    h.writing ∈ N.writings run ∧ d = N.hash h.writing

variable (hrun : N.Run run) (hnever : N.NeverResets run) (hfree : N.CollisionFree run)
  {x : ι}

/-! ## Headers behind digests -/

/-- The header of a proposal that was received or made is hashed in the run. -/
theorem writing_of_grounds
    {m : JustifiedProposal} {d : Digest}
    (h : (N.record run x).Grounds (N.setup x) N.base m d) :
    m.signed.payload.block.header.writing ∈ N.writings run ∧
      d = N.hash m.signed.payload.block.header.writing ∧
        ∃ y, m.signed.payload.block.header.extraData = .ok y := by
  obtain ⟨hextra, hd⟩ := Header.digest_eq_ok h.digest
  rw [N.hash_eq x] at hd
  exact ⟨.inl ⟨x, .proposal m, h.known, List.mem_cons_of_mem _ List.mem_cons_self⟩, hd, hextra⟩

include hnever

/-- A digest that a member has prepared is that of a header hashed in the run. -/
theorem header_of_prepare
    {p : Signed Prepare} (hp : .broadcast (.prepare p) ∈ (N.record run x).made) :
    ∃ (h : Header) (y : ExtraData), h.extraData = .ok y ∧ h.writing ∈ N.writings run ∧
      p.payload.digest = N.hash h.writing := by
  obtain ⟨-, m, -, hgrounds⟩ := (hnever.reachable x).logged.prepares p hp
  obtain ⟨hwriting, hd, y, hy⟩ := writing_of_grounds hgrounds
  exact ⟨_, y, hy, hwriting, hd⟩

theorem header_of_commit
    {p : Signed Commit} (hp : .broadcast (.commit p) ∈ (N.record run x).made) :
    ∃ (h : Header) (y : ExtraData), h.extraData = .ok y ∧ h.writing ∈ N.writings run ∧
      p.payload.digest = N.hash h.writing := by
  obtain ⟨-, -, ⟨p', hp', hsame⟩, -⟩ := (hnever.reachable x).logged.commits p hp
  obtain ⟨h, y, hy, hwriting, hd⟩ := header_of_prepare hnever hp'
  rw [hsame] at hd
  exact ⟨h, y, hy, hwriting, hd⟩

/-! ## Votes of those who are not faulty -/

/-- Behind a signature that was made stands a message of its author; the signature is over the
message itself or is the seal in it. -/
theorem sent_of_made
    {t : Attestation} (h : N.Made run t) :
    ∃ y sent, N.address y = t.author ∧ .broadcast sent ∈ (N.record run y).made ∧ sent.Writable ∧
      sent.writing ∈ N.writings run ∧
        (N.hash sent.writing = t.digest ∨
          ∃ c, sent = .commit c ∧ c.payload.digest = t.digest) := by
  obtain ⟨y, sent, hsent, ht⟩ := h
  have hauthored := (hnever.reachable y).authored hsent
  have hauthor : t.author = N.address y := by
    have hsigned := hauthored.signed
    rw [N.hash_eq y] at hsigned
    exact (hsigned _ ht).1
  have hwriting : sent.writing ∈ N.writings run :=
    writing_of_made hsent (by cases sent <;> exact List.mem_cons_self)
  refine ⟨y, sent, hauthor.symm, hsent, hauthored.writable, hwriting, ?_⟩
  cases sent with
  | commit c =>
      rcases List.mem_cons.mp ht with rfl | ht
      · exact .inl rfl
      · obtain rfl := List.mem_singleton.mp ht
        exact .inr ⟨c, rfl, rfl⟩
  | _ =>
      obtain rfl := List.mem_singleton.mp ht
      exact .inl rfl

omit hnever in
/-- A signature that was made elsewhere is not under a message of this height: it would be written
differently. -/
theorem MadeElsewhere.height_ne
    {t : Attestation} {m : Message} {known : Set Octets} (h : N.MadeElsewhere t)
    (hinj : Set.InjOn N.hash known) (hknown : N.writings run ⊆ known) (hwritable : m.Writable)
    (hwriting : m.writing ∈ known) (hdigest : t.digest = N.hash m.writing) :
    m.view.height ≠ N.base.height := by
  obtain ⟨other, hother, -, hother'⟩ := h
  have heq := hinj (hknown (writing_of_elsewhere hother)) hwriting (hother'.symm.trans hdigest)
  rw [← Message.view_of_writing (N.elsewhere_writable _ hother) hwritable heq]
  exact N.elsewhere_height _ hother

/-- Behind a signature under a vote of this height stands that vote, or a commit that seals its
digest: messages of other heights are written differently. -/
theorem cast_or_sealed_of_made
    {P : Type} [Payload P] [Carried P] [LawfulCarried P] {m : Signed P} {known : Set Octets}
    (hinj : Set.InjOn N.hash known) (hknown : N.writings run ⊆ known)
    (hmade : N.Made run (m.attestation N.hash) ∨ N.MadeElsewhere (m.attestation N.hash))
    (hheight : (Payload.view m.payload).height = N.base.height)
    (hwritable : Payload.Writable m.payload) (hwriting : Payload.writing m.payload ∈ known) :
    (∃ y m', N.address y = m.author ∧
      .broadcast (Carried.message m') ∈ (N.record run y).made ∧ m'.payload = m.payload) ∨
    ∃ y p, .broadcast (.commit p) ∈ (N.record run y).made ∧
      p.payload.digest = N.hash (Payload.writing m.payload) := by
  rcases hmade with hmade | helsewhere
  · obtain ⟨y, sent, haddress, hsent, hsentWritable, hsentWriting, hdigest | ⟨c, rfl, hdigest⟩⟩ :=
      sent_of_made hnever hmade
    · have heq := hinj (hknown hsentWriting) hwriting hdigest
      obtain ⟨m', rfl, hpayload⟩ := LawfulCarried.ofWriting hsentWritable hwritable heq
      exact .inl ⟨y, m', haddress, hsent, hpayload⟩
    · exact .inr ⟨y, c, hsent, hdigest⟩
  · have hne := helsewhere.height_ne (m := Carried.message m) hinj hknown
      ((LawfulCarried.writable m).mpr hwritable) (by rwa [LawfulCarried.writing])
      (congrArg N.hash (LawfulCarried.writing m).symm)
    rw [LawfulCarried.view] at hne
    exact absurd hheight hne

include hrun hfree

/-- A credited vote of this height whose author is not faulty was cast by him, or the digest that it
signs is one that somebody has sealed. -/
theorem cast_or_sealed
    {P : Type} [Payload P] [Carried P] [LawfulCarried P] {m : Signed P}
    (hcredits : (N.record run x).Credits (N.setup x) N.base m)
    (hheight : (Payload.view m.payload).height = N.base.height) (hhonest : m.author ∉ N.faulty) :
    (∃ y m', N.address y = m.author ∧
      .broadcast (Carried.message m') ∈ (N.record run y).made ∧ m'.payload = m.payload) ∨
    (Payload.writing m.payload ∈ N.writings run ∧
      ∃ y p, .broadcast (.commit p) ∈ (N.record run y).made ∧
        p.payload.digest = N.hash (Payload.writing m.payload)) := by
  obtain ⟨-, ⟨message, hheard, hwithin, hcheck⟩ | hown⟩ := hcredits
  · obtain ⟨hwritable, hverify, -⟩ := Signed.check_eq_ok.mp hcheck
    rw [N.hash_eq x] at hverify
    have hwriting : Payload.writing m.payload ∈ N.writings run :=
      writing_of_heard hheard (LawfulCarried.written hwithin)
    have hmade := hrun.made_of_heard hheard (LawfulCarried.attested hwithin) hhonest hverify
    exact (cast_or_sealed_of_made hnever hfree subset_rfl hmade hheight hwritable hwriting).imp id
      fun hsealed => ⟨hwriting, hsealed⟩
  · left
    have hauthor := ((hnever.reachable x).authored hown)
    have haddress : m.author = N.address x := by
      have hcarried : (Carried.message m).author = m.author := LawfulCarried.author m
      rw [← hcarried]
      exact hauthor.author
    exact ⟨x, m, haddress.symm, hown, rfl⟩

/-- A credited prepare of somebody who is not faulty was cast by him. -/
theorem prepared_of_credits
    {p : Signed Prepare} (hcredits : (N.record run x).Credits (N.setup x) N.base p)
    (hheight : p.payload.view.height = N.base.height) (hhonest : p.author ∉ N.faulty) :
    N.Prepared run p.author p.payload.view p.payload.digest := by
  rcases cast_or_sealed hrun hnever hfree hcredits hheight hhonest with
    ⟨y, p', haddress, hsent, hpayload⟩ | ⟨hwriting, y, c, hsent, hdigest⟩
  · exact ⟨y, p', haddress, hsent, hpayload⟩
  · obtain ⟨h, z, hz, hheader, hd⟩ := header_of_commit hnever hsent
    have heq := hfree hwriting hheader (hdigest.symm.trans hd)
    exact absurd heq (Prepare.writing_ne_header hz)

theorem committed_of_credits
    {p : Signed Commit} (hcredits : (N.record run x).Credits (N.setup x) N.base p)
    (hheight : p.payload.view.height = N.base.height) (hhonest : p.author ∉ N.faulty) :
    N.Committed run p.author p.payload.view p.payload.digest := by
  rcases cast_or_sealed hrun hnever hfree hcredits hheight hhonest with
    ⟨y, p', haddress, hsent, hpayload⟩ | ⟨hwriting, y, c, hsent, hdigest⟩
  · exact ⟨y, p', haddress, hsent, by rw [hpayload], by rw [hpayload]⟩
  · obtain ⟨h, z, hz, hheader, hd⟩ := header_of_commit hnever hsent
    have heq := hfree hwriting hheader (hdigest.symm.trans hd)
    exact absurd heq (Commit.writing_ne_header hz)

/-- Of the prepares that support a certificate, those of members who are not faulty were cast by
them. -/
theorem quorate_of_supports
    {c : PreparedCertificate} {d : Digest}
    (h : (N.record run x).Supports (N.setup x) N.base c d) :
    N.base.committee.Quorate fun a => a ∉ N.faulty → N.Prepared run a c.view d := by
  refine Committee.quorate_of_votes h.nodup (fun p hp => ?_) h.quorum
  have hcredits := h.credible p hp
  refine ⟨hcredits.1, ?_⟩
  intro hhonest
  have hheight : p.payload.view.height = N.base.height := by
    rw [h.payload p hp]
    exact h.height
  have hprepared := prepared_of_credits hrun hnever hfree hcredits hheight hhonest
  rwa [h.payload p hp] at hprepared

/-- Whatever a member has prepared lists the committee: a proposer writes it into a new block, the
others check it, and a block that is proposed again was prepared in an earlier round. -/
theorem listed_of_prepared
    {a : Address} {v : View} {d : Digest} (h : N.Prepared run a v d) : N.Listed run d := by
  obtain ⟨n, hn⟩ : ∃ n, v.round.toNat = n := ⟨_, rfl⟩
  induction n using Nat.strongRecOn generalizing a v d with
  | ind n ih =>
      obtain ⟨y, p, -, hp, hpayload⟩ := h
      obtain ⟨⟨⟨hheight, -⟩, -⟩, m, hview, hgrounds⟩ := (hnever.reachable y).logged.prepares p hp
      rw [hpayload] at hheight hview hgrounds
      obtain ⟨hwriting, hd, -⟩ := writing_of_grounds hgrounds
      rcases hgrounds.listed with ⟨z, hz, hvalidators⟩ | ⟨hround, c, best, hc, hbest⟩
      · exact ⟨_, z, hz, hvalidators, hwriting, hd⟩
      · obtain ⟨hearlier, hsupports⟩ :=
          hgrounds.supports_latest (by rw [hview, hheight]) hround hc hbest
        rw [hview] at hearlier
        have hquorate := quorate_of_supports hrun hnever hfree hsupports
        obtain ⟨a', -, hhonest, hprepared⟩ := hquorate.exists_honest N.few
        refine ih _ ?_ (hprepared hhonest) rfl
        rw [← hn]
        exact hearlier

/-- Nobody has sealed the digest of a request that carries no less than a quorum of prepares. -/
theorem request_not_sealed
    {q : RoundChange} {known : Set Octets} (hinj : Set.InjOn N.hash known)
    (hknown : N.writings run ⊆ known) (hwriting : Payload.writing q ∈ known)
    (hprepares : ∀ c, q.prepared = some c → N.base.committee.quorum ≤ c.prepares.length)
    {y : ι} {p : Signed Commit} (hsent : .broadcast (.commit p) ∈ (N.record run y).made) :
    p.payload.digest ≠ N.hash (Payload.writing q) := by
  intro hdigest
  obtain ⟨-, -, ⟨p', hp', hsame⟩, -⟩ := (hnever.reachable y).logged.commits p hsent
  obtain ⟨h, z, hz, hvalidators, hheader, hd⟩ :=
    listed_of_prepared hrun hnever hfree ⟨y, p', rfl, hp', hsame⟩
  have heq := hinj hwriting (hknown hheader) (hdigest.symm.trans hd)
  exact absurd heq (MessageKind.writing_ne_header (k := .roundChange) hz
    (MessageKind.outlists_of_quorum hvalidators hprepares))

theorem asked_of_upholds
    {q : Signed RoundChange} (hupholds : (N.record run x).Upholds (N.setup x) N.base q)
    (hheight : q.payload.view.height = N.base.height) (hhonest : q.author ∉ N.faulty) :
    N.Asked run q.author q.payload.view q.payload.prepared := by
  rcases cast_or_sealed hrun hnever hfree hupholds.1 hheight hhonest with
    ⟨y, q', haddress, hsent, hpayload⟩ | ⟨hwriting, y, c, hsent, hdigest⟩
  · exact ⟨y, q', haddress, hsent, hpayload⟩
  · refine absurd hdigest (request_not_sealed hrun hnever hfree hfree subset_rfl hwriting
      ?_ hsent)
    intro b hb
    obtain ⟨-, d, hbacks⟩ := hupholds.2 b hb
    exact hbacks.quorum

end QuorumChain.Assembly
