import QuorumChain.Admission.Certificate
import QuorumChain.Proofs.Chain.Identity

/-!
# What is signed

A signature is over the hash of a payload's writing: the number of its kind and its fields.  The
writing determines the payload, and payloads of different kinds never share one.  A seal is over
the digest of a block, so it is also compared with the writing of a header.  Headers are longer
than prepares and commits; a request that carries a quorum of prepares is longer than any header
that lists the committee.
-/

namespace QuorumChain

open Wire Wire.Format

/-! ## The formats of messages -/

theorem View.format_lawful : View.format.Lawful :=
  via_lawful (pair_lawful u64_lawful u32_lawful) (fun _ => rfl) (fun _ => rfl)

theorem MessageKind.format_lawful : MessageKind.format.Lawful :=
  enumeration_lawful (fun a => by cases a <;> decide) (by decide) (by decide)

theorem Body.format_lawful : Body.format.Lawful :=
  via_lawful (list_lawful octets_lawful) (fun _ => rfl) (fun _ => rfl)

theorem Block.format_lawful : Block.format.Lawful :=
  via_lawful (pair_lawful Header.format_lawful Body.format_lawful) (fun _ => rfl) (fun _ => rfl)

theorem Proposal.format_lawful : Proposal.format.Lawful :=
  via_lawful (pair_lawful View.format_lawful Block.format_lawful) (fun _ => rfl) (fun _ => rfl)

theorem Prepare.format_lawful : Prepare.format.Lawful :=
  via_lawful (pair_lawful View.format_lawful (fixed_lawful 32)) (fun _ => rfl) (fun _ => rfl)

theorem Commit.format_lawful : Commit.format.Lawful :=
  via_lawful (pair_lawful View.format_lawful <| pair_lawful (fixed_lawful 32) (fixed_lawful 64))
    (fun _ => rfl) (fun _ => rfl)

theorem Signed.format_lawful
    {P : Type} {f : Format P} (hf : f.Lawful) : (Signed.format f).Lawful :=
  via_lawful (pair_lawful hf <| pair_lawful (fixed_lawful 20) (fixed_lawful 64))
    (fun _ => rfl) (fun _ => rfl)

theorem PreparedCertificate.format_lawful : PreparedCertificate.format.Lawful :=
  via_lawful
    (pair_lawful (Signed.format_lawful Proposal.format_lawful) <|
      list_lawful (Signed.format_lawful Prepare.format_lawful))
    (fun _ => rfl) (fun _ => rfl)

theorem RoundChange.format_lawful : RoundChange.format.Lawful :=
  via_lawful (pair_lawful View.format_lawful (option_lawful PreparedCertificate.format_lawful))
    (fun _ => rfl) (fun _ => rfl)

/-- A type of payloads whose format is lawful. -/
class LawfulPayload (P : Type) [Payload P] : Prop where
  /-- The format is lawful. -/
  lawful : (Payload.format (P := P)).Lawful

instance : LawfulPayload Proposal := ⟨Proposal.format_lawful⟩

instance : LawfulPayload Prepare := ⟨Prepare.format_lawful⟩

instance : LawfulPayload Commit := ⟨Commit.format_lawful⟩

instance : LawfulPayload RoundChange := ⟨RoundChange.format_lawful⟩

/-! ## The writing behind a signature -/

namespace Payload

variable {P Q : Type} [Payload P] [Payload Q]

/-- The octets that are hashed to sign a payload. -/
def writing (p : P) : Octets :=
  (signingFormat P).write (kind P, p)

/-- Whether a payload can be written. -/
def Writable (p : P) : Prop :=
  (format (P := P)).excess p = none

theorem writing_eq (p : P) :
    writing p = MessageKind.format.write (kind P) ++ (format (P := P)).write p := rfl

/-- A payload has a signing digest if it can be written; the digest is the hash of its writing. -/
theorem signingDigest_eq_ok
    {H : HashFunction} {p : P} {d : Digest} :
    signingDigest H p = .ok d ↔ Writable p ∧ d = H (writing p) := by
  have hexcess : (signingFormat P).excess (kind P, p) = none ↔ Writable p := by
    rw [signingFormat, pair_excess_eq_none]
    exact and_iff_right rfl
  simp only [signingDigest, HashFunction.ofValue, map_eq_ok, Format.encode_eq_ok, hexcess]
  constructor
  · rintro ⟨_, ⟨hp, rfl⟩, rfl⟩
    exact ⟨hp, rfl⟩
  · rintro ⟨hp, rfl⟩
    exact ⟨_, ⟨hp, rfl⟩, rfl⟩

theorem length_write_kind (k : MessageKind) : (MessageKind.format.write k).length = 1 := by
  cases k <;> rfl

theorem length_writing (p : P) :
    (writing p).length = 1 + ((format (P := P)).write p).length := by
  rw [writing_eq, List.length_append, length_write_kind]

theorem writing_inj
    [LawfulPayload P] {p q : P} (hp : Writable p) (hq : Writable q)
    (h : writing p = writing q) : p = q := by
  rw [writing_eq, writing_eq, List.append_right_inj] at h
  exact LawfulPayload.lawful.write_inj hp hq h

/-- Payloads of different kinds are written differently. -/
theorem writing_ne
    {p : P} {q : Q} (hkind : kind P ≠ kind Q) : writing p ≠ writing q := by
  intro h
  rw [writing_eq, writing_eq] at h
  obtain ⟨hwrite, -⟩ := List.append_inj h (by rw [length_write_kind, length_write_kind])
  apply hkind
  exact MessageKind.format_lawful.write_inj rfl rfl hwrite

end Payload

/-- The digest that a signed payload's signature is over. -/
def Signed.digest {P : Type} [Payload P] (H : HashFunction) (m : Signed P) : Digest :=
  H (Payload.writing m.payload)

/-- A signed payload is good if it can be written, its signature is its author's and the author is a
member. -/
theorem Signed.check_eq_ok
    {P : Type} [Payload P] {m : Signed P} {scheme : Scheme} {committee : Committee} {u : Unit} :
    m.check scheme committee = .ok u ↔
      Payload.Writable m.payload ∧
        scheme.verify m.author (m.digest scheme.hash) m.signature = true ∧
          m.author ∈ committee.members := by
  simp only [check, bind_eq_ok, mapError_eq_ok, Payload.signingDigest_eq_ok, require_eq_ok,
    Committee.contains, List.contains_iff_mem]
  constructor
  · rintro ⟨_, ⟨hp, rfl⟩, _, hverify, hmember⟩
    exact ⟨hp, hverify, hmember⟩
  · rintro ⟨hp, hverify, hmember⟩
    exact ⟨_, ⟨hp, rfl⟩, (), hverify, hmember⟩

namespace Signer

variable {s : Signer} {H : HashFunction} {view : View}

theorem signed_eq_ok
    {P : Type} [Payload P] {p : P} {m : Signed P} :
    s.signed H p = .ok m ↔
      Payload.Writable p ∧ m = ⟨p, s.address, s.sign (H (Payload.writing p))⟩ := by
  simp only [signed, bind_eq_ok, Payload.signingDigest_eq_ok, pure_eq_ok]
  constructor
  · rintro ⟨_, ⟨hp, rfl⟩, rfl⟩
    exact ⟨hp, rfl⟩
  · rintro ⟨hp, rfl⟩
    exact ⟨_, ⟨hp, rfl⟩, rfl⟩

theorem prepare_eq_ok
    {d : Digest} {p : Signed Prepare} (h : s.prepare H view d = .ok p) :
    Payload.Writable p.payload ∧ p.payload = ⟨view, d⟩ ∧ p.author = s.address ∧
      p.signature = s.sign (p.digest H) := by
  obtain ⟨hwritable, rfl⟩ := Signer.signed_eq_ok.mp h
  exact ⟨hwritable, rfl, rfl, rfl⟩

theorem commit_eq_ok
    {d : Digest} {p : Signed Commit} (h : s.commit H view d = .ok p) :
    Payload.Writable p.payload ∧ p.payload = ⟨view, d, s.sign d⟩ ∧ p.author = s.address ∧
      p.signature = s.sign (p.digest H) := by
  obtain ⟨hwritable, rfl⟩ := Signer.signed_eq_ok.mp h
  exact ⟨hwritable, rfl, rfl, rfl⟩

theorem roundChange_eq_ok
    {prepared : Option PreparedCertificate} {q : Signed RoundChange}
    (h : s.roundChange H view prepared = .ok q) :
    Payload.Writable q.payload ∧ q.payload = ⟨view, prepared⟩ ∧ q.author = s.address ∧
      q.signature = s.sign (q.digest H) := by
  obtain ⟨hwritable, rfl⟩ := Signer.signed_eq_ok.mp h
  exact ⟨hwritable, rfl, rfl, rfl⟩

theorem proposal_eq_ok
    {block : Block} {c : Option RoundChangeCertificate} {m : JustifiedProposal}
    (h : s.proposal H view block c = .ok m) :
    Payload.Writable m.signed.payload ∧ m.signed.payload = ⟨view, block⟩ ∧
      m.justification = c ∧ m.signed.author = s.address ∧
        m.signed.signature = s.sign (m.signed.digest H) := by
  obtain ⟨signed, hsigned, hm⟩ := bind_eq_ok.mp h
  obtain ⟨hwritable, rfl⟩ := Signer.signed_eq_ok.mp hsigned
  obtain rfl := pure_eq_ok.mp hm
  exact ⟨hwritable, rfl, rfl, rfl, rfl⟩

end Signer

/-! ## Lengths -/

theorem View.length_write (v : View) : (View.format.write v).length = 12 := by
  show (Octets.ofNatLE 8 _ ++ Octets.ofNatLE 4 _).length = 12
  rw [List.length_append, Octets.length_ofNatLE, Octets.length_ofNatLE]

theorem length_flatMap_const
    {α : Type} {f : α → Octets} {k : Nat} (hf : ∀ a, (f a).length = k) (items : List α) :
    (items.flatMap f).length = k * items.length := by
  induction items with
  | nil => rfl
  | cons a rest ih =>
      rw [List.flatMap_cons, List.length_append, hf, ih, List.length_cons, Nat.mul_succ,
        Nat.add_comm]

theorem Prepare.length_write (p : Prepare) : (Prepare.format.write p).length = 44 := by
  show (View.format.write p.view ++ p.digest.octets).length = 44
  rw [List.length_append, View.length_write, p.digest.length_eq]

theorem Commit.length_write (p : Commit) : (Commit.format.write p).length = 108 := by
  show (View.format.write p.view ++ (p.digest.octets ++ p.committedSeal.octets)).length = 108
  rw [List.length_append, List.length_append, View.length_write, p.digest.length_eq,
    p.committedSeal.length_eq]

theorem Signed.length_write
    {P : Type} {f : Format P} (m : Signed P) :
    ((Signed.format f).write m).length = (f.write m.payload).length + 84 := by
  show (f.write m.payload ++ (m.author.octets ++ m.signature.octets)).length = _
  rw [List.length_append, List.length_append, m.author.length_eq, m.signature.length_eq]

/-- A header takes its fields and, behind a length of one to five octets, its extra-data. -/
theorem Header.length_write (h : Header) :
    (Header.format.write h).length = 140 + (writeCount h.extra.length).length + h.extra.length := by
  show (h.parent.octets ++ (Octets.ofNatLE 8 _ ++ (Octets.ofNatLE 8 _ ++ (h.coinbase.octets ++
    (Octets.ofNatLE 8 _ ++ (h.stateRoot.octets ++ (h.bodyRoot.octets ++
      (writeCount h.extra.length ++ h.extra)))))))).length = _
  simp only [List.length_append, Octets.length_ofNatLE, h.parent.length_eq, h.coinbase.length_eq,
    h.stateRoot.length_eq, h.bodyRoot.length_eq]
  omega

/-- The length of extra-data: the validators, the vote, the round and the seals. -/
theorem ExtraData.length_write (x : ExtraData) :
    (ExtraData.format.write x).length =
      (writeCount x.validators.length).length + 20 * x.validators.length +
        (if x.vote.isSome then 22 else 1) + 4 +
          (writeCount x.seals.length).length + 64 * x.seals.length := by
  have hvote : ((option Vote.format).write x.vote).length = if x.vote.isSome then 22 else 1 := by
    cases x.vote with
    | none => rfl
    | some v =>
        obtain ⟨subject, kind⟩ := v
        show (1 :: (subject.octets ++ VoteKind.format.write kind)).length = 22
        rw [List.length_cons, List.length_append, subject.length_eq]
        cases kind <;> rfl
  show ((writeCount _ ++ x.validators.flatMap (fixed 20).write) ++
    ((option Vote.format).write x.vote ++ (Octets.ofNatLE 4 _ ++
      (writeCount _ ++ x.seals.flatMap (fixed 64).write)))).length = _
  simp only [List.length_append, hvote, Octets.length_ofNatLE,
    length_flatMap_const (f := (fixed 20).write) (fun a => a.length_eq),
    length_flatMap_const (f := (fixed 64).write) (fun a => a.length_eq)]
  omega

/-- The writing behind the digest of a header has more than 140 octets, and not many more than
twenty for each validator listed. -/
theorem Header.length_writing
    {h : Header} {x : ExtraData} (hx : h.extraData = .ok x) :
    140 < h.writing.length ∧ h.writing.length ≤ 177 + 20 * x.validators.length := by
  have hlength := ExtraData.length_write x.identity
  have hcount := length_writeCount x.validators.length
  have houter := length_writeCount (ExtraData.format.write x.identity).length
  have hseals : (writeCount x.identity.seals.length).length = 1 := rfl
  have hnone : x.identity.seals.length = 0 := rfl
  have hvalidators : x.identity.validators = x.validators := rfl
  have hvote : (if x.identity.vote.isSome then 22 else 1) ≤ 22 := by
    split <;> omega
  rw [writing_eq hx, length_write]
  dsimp only
  rw [hseals, hnone, hvalidators] at hlength
  omega

theorem Block.length_write (b : Block) :
    (Header.format.write b.header).length + 1 ≤ (Block.format.write b).length := by
  have hbody := length_writeCount b.body.transactions.length
  show _ ≤ (Header.format.write b.header ++
    (writeCount b.body.transactions.length ++ b.body.transactions.flatMap octets.write)).length
  rw [List.length_append, List.length_append]
  omega

/-- A prepared certificate takes more octets than the header of its block and its prepares. -/
theorem PreparedCertificate.length_write (c : PreparedCertificate) :
    (Header.format.write c.block.header).length + 98 + 128 * c.prepares.length ≤
      (PreparedCertificate.format.write c).length := by
  have hblock := Block.length_write c.block
  have hproposal : (Proposal.format.write c.proposal.payload).length =
      12 + (Block.format.write c.block).length := by
    show (View.format.write _ ++ Block.format.write _).length = _
    rw [List.length_append, View.length_write]
    rfl
  have hsigned := Signed.length_write (f := Proposal.format) c.proposal
  have hprepares := length_flatMap_const (f := (Signed.format Prepare.format).write) (k := 128)
    (fun m => by rw [Signed.length_write, Prepare.length_write]) c.prepares
  have hcount := length_writeCount c.prepares.length
  show _ ≤ ((Signed.format Proposal.format).write c.proposal ++
    (writeCount c.prepares.length ++
      c.prepares.flatMap (Signed.format Prepare.format).write)).length
  rw [List.length_append, List.length_append, hprepares]
  omega

/-! ## Seals and signatures -/

/-- A prepare is not written as a header is. -/
theorem Prepare.writing_ne_header
    {p : Prepare} {h : Header} {x : ExtraData} (hx : h.extraData = .ok x) :
    Payload.writing p ≠ h.writing := by
  intro heq
  have hshort : (Payload.writing p).length = 45 := by
    rw [Payload.length_writing]
    show 1 + (Prepare.format.write p).length = 45
    rw [Prepare.length_write]
  have hlong := (Header.length_writing hx).1
  rw [← heq] at hlong
  omega

theorem Commit.writing_ne_header
    {p : Commit} {h : Header} {x : ExtraData} (hx : h.extraData = .ok x) :
    Payload.writing p ≠ h.writing := by
  intro heq
  have hshort : (Payload.writing p).length = 109 := by
    rw [Payload.length_writing]
    show 1 + (Commit.format.write p).length = 109
    rw [Commit.length_write]
  have hlong := (Header.length_writing hx).1
  rw [← heq] at hlong
  omega

theorem RoundChange.length_writing (p : RoundChange) :
    (Payload.writing p).length =
      13 + ((option PreparedCertificate.format).write p.prepared).length := by
  rw [Payload.length_writing]
  show 1 + (View.format.write p.view ++
    (option PreparedCertificate.format).write p.prepared).length = _
  rw [List.length_append, View.length_write]
  omega

/-- A request is not written as a header is, if the certificate it carries takes more octets. -/
theorem RoundChange.writing_ne_header_of_lt
    {p : RoundChange} {h : Header} {x : ExtraData} (hx : h.extraData = .ok x)
    (hp : ∀ c, p.prepared = some c →
      h.writing.length < 14 + (PreparedCertificate.format.write c).length) :
    Payload.writing p ≠ h.writing := by
  intro heq
  have hlong := (Header.length_writing hx).1
  have hlength := RoundChange.length_writing p
  rw [heq] at hlength
  cases hprepared : p.prepared with
  | none =>
      rw [hprepared] at hlength
      have hnone : ((option PreparedCertificate.format).write none).length = 1 := rfl
      omega
  | some c =>
      rw [hprepared] at hlength
      have hsome : ((option PreparedCertificate.format).write (some c)).length =
          (PreparedCertificate.format.write c).length + 1 := rfl
      have hlt := hp c hprepared
      omega

/-- A certificate takes more octets than a header, if its prepares are at least half as many as the
validators that the header lists. -/
theorem PreparedCertificate.length_writing_lt
    {c : PreparedCertificate} {h : Header} {x : ExtraData} (hx : h.extraData = .ok x)
    (hc : x.validators.length ≤ 2 * c.prepares.length) :
    h.writing.length < 14 + (PreparedCertificate.format.write c).length := by
  have hbound := (Header.length_writing hx).2
  have hheader := Header.length_write c.block.header
  have hcertificate := PreparedCertificate.length_write c
  omega

end QuorumChain
