import QuorumChain.Proofs.Message.Capacity
import QuorumChain.Proofs.Node.Four

/-!
# One writing for each message

Messages carry certificates, which carry signed payloads, and those of requests carry certificates
again.  The format of messages is lawful because those of its parts are: what a message writes is
read back as that message, and nothing else is read as it.  Whether a message can be written depends
on lengths alone, since no sequence in it may have more than `Wire.maxLength` items.

What an author signs is the writing of a payload behind the number of its kind, so payloads that are
signed over the same octets are one payload of one kind.
-/

namespace QuorumChain

open Wire Wire.Format

/-! ## The format of messages -/

theorem RoundChangeCertificate.format_lawful : RoundChangeCertificate.format.Lawful :=
  via_lawful (list_lawful (Signed.format_lawful RoundChange.format_lawful))
    (fun _ => rfl) (fun _ => rfl)

theorem JustifiedProposal.format_lawful : JustifiedProposal.format.Lawful :=
  via_lawful
    (pair_lawful (Signed.format_lawful Proposal.format_lawful) <|
      option_lawful RoundChangeCertificate.format_lawful)
    (fun _ => rfl) (fun _ => rfl)

namespace Message

section

variable {α : Type} {f : Format α} (hf : f.Lawful) (number : ℕ) (wrap : α → Message)
  (hwrite : ∀ a, write (wrap a) = writeCount number ++ f.write a)
  (hexcess : ∀ a, excess (wrap a) = f.excess a)

include hf hwrite hexcess

/-- A message of a kind is read back behind the number of that kind. -/
theorem read_write_of_kind
    (hnumber : number < 4294967296)
    (hread : ∀ bytes,
      readKind number bytes = (f.read bytes).map fun (a, rest) => (wrap a, rest))
    {a : α} (rest : Octets) (ha : excess (wrap a) = none) :
    format.read (write (wrap a) ++ rest) = .ok (wrap a, rest) := by
  have hcount := readCount_writeCount (f.write a ++ rest) hnumber
  have hfields := hf.read_write a rest (by rwa [← hexcess])
  rw [hwrite, List.append_assoc]
  simp only [format, hcount, bind, Except.bind, hread, hfields]
  rfl

/-- What is read behind the number of a kind is a message that is written with that number. -/
theorem write_of_read_kind
    {bytes rest : Octets} {m : Message}
    (hread : (f.read bytes).map (fun (a, rest) => (wrap a, rest)) = .ok (m, rest)) :
    writeCount number ++ bytes = write m ++ rest ∧ excess m = none := by
  obtain ⟨⟨a, tail⟩, hfields, heq⟩ := map_eq_ok.mp hread
  cases heq
  obtain ⟨hbytes, ha⟩ := hf.write_of_read bytes a rest hfields
  rw [hwrite, hexcess, hbytes, List.append_assoc]
  exact ⟨rfl, ha⟩

end

theorem format_lawful : format.Lawful where
  read_write m rest hm := by
    cases m with
    | proposal m =>
        exact read_write_of_kind JustifiedProposal.format_lawful 0 .proposal
          (fun _ => rfl) (fun _ => rfl) (by decide) (fun _ => rfl) rest hm
    | prepare m =>
        exact read_write_of_kind (Signed.format_lawful Prepare.format_lawful) 1 .prepare
          (fun _ => rfl) (fun _ => rfl) (by decide) (fun _ => rfl) rest hm
    | commit m =>
        exact read_write_of_kind (Signed.format_lawful Commit.format_lawful) 2 .commit
          (fun _ => rfl) (fun _ => rfl) (by decide) (fun _ => rfl) rest hm
    | roundChange m =>
        exact read_write_of_kind (Signed.format_lawful RoundChange.format_lawful) 3 .roundChange
          (fun _ => rfl) (fun _ => rfl) (by decide) (fun _ => rfl) rest hm
  write_of_read bytes m rest h := by
    obtain ⟨⟨number, tail⟩, hcount, h⟩ := bind_eq_ok.mp h
    obtain ⟨rfl, -⟩ := eq_writeCount_of_readCount hcount
    match number, h with
    | 0, h =>
        exact write_of_read_kind JustifiedProposal.format_lawful 0 .proposal
          (fun _ => rfl) (fun _ => rfl) h
    | 1, h =>
        exact write_of_read_kind (Signed.format_lawful Prepare.format_lawful) 1 .prepare
          (fun _ => rfl) (fun _ => rfl) h
    | 2, h =>
        exact write_of_read_kind (Signed.format_lawful Commit.format_lawful) 2 .commit
          (fun _ => rfl) (fun _ => rfl) h
    | 3, h =>
        exact write_of_read_kind (Signed.format_lawful RoundChange.format_lawful) 3 .roundChange
          (fun _ => rfl) (fun _ => rfl) h

end Message

/-! ## What can be written -/

/-- No sequence in a prepared certificate is too long. -/
structure PreparedCertificate.Fits (c : PreparedCertificate) : Prop where
  block : c.block.Fits
  prepares : c.prepares.length ≤ maxLength

/-- No sequence in a request is too long. -/
def RoundChange.Fits (p : RoundChange) : Prop :=
  ∀ c, p.prepared = some c → c.Fits

/-- No sequence in a round-change certificate is too long. -/
structure RoundChangeCertificate.Fits (c : RoundChangeCertificate) : Prop where
  requests : c.requests.length ≤ maxLength
  request : ∀ q ∈ c.requests, q.payload.Fits

/-- No sequence in a message is too long. -/
def Message.Fits : Message → Prop
  | .proposal m => m.signed.payload.block.Fits ∧ ∀ c, m.justification = some c → c.Fits
  | .prepare _ => True
  | .commit _ => True
  | .roundChange m => m.payload.Fits

theorem Wire.Format.option_excess_eq_none
    {α : Type} {f : Format α} {a? : Option α} :
    (option f).excess a? = none ↔ ∀ a, a? = some a → f.excess a = none := by
  cases a? with
  | none => exact ⟨fun _ a ha => (nomatch ha), fun _ => rfl⟩
  | some a =>
      constructor
      · rintro h _ ⟨⟩
        exact h
      · intro h
        exact h a rfl

theorem Signed.excess_eq_none
    {P : Type} {f : Format P} {m : Signed P} :
    (Signed.format f).excess m = none ↔ f.excess m.payload = none := by
  show (pair _ _).excess _ = none ↔ _
  rw [pair_excess_eq_none]
  exact and_iff_left rfl

theorem Proposal.fits_iff {p : Proposal} : Proposal.format.excess p = none ↔ p.block.Fits := by
  rw [← Block.fits_iff]
  exact pair_excess_eq_none.trans (and_iff_right rfl)

theorem PreparedCertificate.fits_iff
    {c : PreparedCertificate} : PreparedCertificate.format.excess c = none ↔ c.Fits := by
  show (pair _ _).excess (c.proposal, c.prepares) = none ↔ _
  rw [pair_excess_eq_none, Signed.excess_eq_none, Proposal.fits_iff, list_excess_eq_none]
  constructor
  · rintro ⟨hblock, hlength, -⟩
    exact ⟨hblock, hlength⟩
  · rintro ⟨hblock, hlength⟩
    exact ⟨hblock, hlength, fun _ _ => rfl⟩

theorem RoundChange.fits_iff
    {p : RoundChange} : RoundChange.format.excess p = none ↔ p.Fits := by
  show (pair _ _).excess (p.view, p.prepared) = none ↔ _
  rw [pair_excess_eq_none, option_excess_eq_none]
  simp only [PreparedCertificate.fits_iff]
  exact and_iff_right rfl

theorem RoundChangeCertificate.fits_iff
    {c : RoundChangeCertificate} : RoundChangeCertificate.format.excess c = none ↔ c.Fits := by
  show (list _).excess c.requests = none ↔ _
  rw [list_excess_eq_none]
  simp only [Signed.excess_eq_none, RoundChange.fits_iff]
  constructor
  · rintro ⟨hlength, hitems⟩
    exact ⟨hlength, hitems⟩
  · rintro ⟨hlength, hitems⟩
    exact ⟨hlength, hitems⟩

/-- A message can be written exactly if no sequence in it is too long. -/
theorem Message.fits_iff {m : Message} : Message.format.excess m = none ↔ m.Fits := by
  cases m with
  | proposal m =>
      show (pair _ _).excess (m.signed, m.justification) = none ↔ _
      rw [pair_excess_eq_none, Signed.excess_eq_none, Proposal.fits_iff, option_excess_eq_none]
      simp only [RoundChangeCertificate.fits_iff]
      rfl
  | prepare m => exact iff_of_true rfl trivial
  | commit m => exact iff_of_true rfl trivial
  | roundChange m => exact Signed.excess_eq_none.trans RoundChange.fits_iff

/-! ## What is signed -/

/-- The payloads of a kind. -/
abbrev MessageKind.Content : MessageKind → Type
  | .proposal => Proposal
  | .prepare => Prepare
  | .commit => Commit
  | .roundChange => RoundChange

instance MessageKind.instPayload : (k : MessageKind) → Payload k.Content
  | .proposal => inferInstanceAs (Payload Proposal)
  | .prepare => inferInstanceAs (Payload Prepare)
  | .commit => inferInstanceAs (Payload Commit)
  | .roundChange => inferInstanceAs (Payload RoundChange)

instance MessageKind.instLawfulPayload : (k : MessageKind) → LawfulPayload k.Content
  | .proposal => inferInstanceAs (LawfulPayload Proposal)
  | .prepare => inferInstanceAs (LawfulPayload Prepare)
  | .commit => inferInstanceAs (LawfulPayload Commit)
  | .roundChange => inferInstanceAs (LawfulPayload RoundChange)

theorem MessageKind.kind_content (k : MessageKind) : Payload.kind k.Content = k := by
  cases k <;> rfl

namespace Payload

/-- The octets that are hashed to sign a payload, unless a sequence in it is too long. -/
def hashed {P : Type} [Payload P] (p : P) : Except WireError Octets :=
  (signingFormat P).encode (kind P, p)

theorem signingDigest_eq_hashed
    {P : Type} [Payload P] (H : HashFunction) (p : P) : signingDigest H p = (hashed p).map H := rfl

theorem hashed_eq_ok
    {P : Type} [Payload P] {p : P} {bytes : Octets} :
    hashed p = .ok bytes ↔ Writable p ∧ bytes = writing p := by
  rw [hashed, encode_eq_ok, signingFormat, pair_excess_eq_none]
  exact and_congr_left fun _ => and_iff_right rfl

/-- Payloads that are signed over the same octets are one payload of one kind. -/
theorem eq_of_hashed
    {k l : MessageKind} {p : k.Content} {q : l.Content} {bytes : Octets}
    (hp : hashed p = .ok bytes) (hq : hashed q = .ok bytes) :
    (⟨k, p⟩ : (k : MessageKind) × k.Content) = ⟨l, q⟩ := by
  obtain ⟨hwritableP, hwritingP⟩ := hashed_eq_ok.mp hp
  obtain ⟨hwritableQ, hwritingQ⟩ := hashed_eq_ok.mp hq
  have hwriting : writing p = writing q := hwritingP.symm.trans hwritingQ
  by_cases hkind : k = l
  · subst hkind
    rw [writing_inj hwritableP hwritableQ hwriting]
  · refine absurd hwriting (writing_ne ?_)
    rwa [MessageKind.kind_content, MessageKind.kind_content]

end Payload

/-! ## Canonicity -/

/-- A message in which no sequence is too long is read back from its octets; octets are read as a
message only if they are its writing, so it has no second one; and payloads that are signed over the
same octets are one payload of one kind. -/
theorem Message.canonical :
    (∀ m : Message, m.Fits →
      ∃ bytes, format.encode m = .ok bytes ∧ format.decode bytes = .ok m) ∧
    (∀ bytes m, format.decode bytes = .ok m → m.Fits ∧ format.encode m = .ok bytes) ∧
    (∀ bytes bytes' m, format.decode bytes = .ok m → format.decode bytes' = .ok m →
      bytes = bytes') ∧
    (∀ (k : MessageKind) (p : k.Content) (H : HashFunction),
      Payload.signingDigest H p = (Payload.hashed p).map H) ∧
    ∀ (k l : MessageKind) (p : k.Content) (q : l.Content) (bytes : Octets),
      Payload.hashed p = .ok bytes → Payload.hashed q = .ok bytes →
        (⟨k, p⟩ : (k : MessageKind) × k.Content) = ⟨l, q⟩ := by
  have hencoded : ∀ bytes m, format.decode bytes = .ok m →
      m.Fits ∧ format.encode m = .ok bytes := by
    intro bytes m hm
    obtain ⟨hbytes, hexcess⟩ := format_lawful.write_of_decode hm
    exact ⟨fits_iff.mp hexcess, encode_eq_ok.mpr ⟨hexcess, hbytes⟩⟩
  refine ⟨?_, hencoded, ?_, ?_, ?_⟩
  · intro m hm
    have hexcess := fits_iff.mpr hm
    exact ⟨format.write m, encode_eq_ok.mpr ⟨hexcess, rfl⟩, format_lawful.decode_write hexcess⟩
  · intro bytes bytes' m hm hm'
    have hsame := (hencoded bytes m hm).2.symm.trans (hencoded bytes' m hm').2
    exact Except.ok.inj hsame
  · intro k p H
    exact Payload.signingDigest_eq_hashed H p
  · intro k l p q bytes hp hq
    exact Payload.eq_of_hashed hp hq

/-- A proposal justified by a request that carries a prepared certificate is read back. -/
theorem Message.canonical_of_four :
    let prepared := (Four.prepared (Four.fresh 0)).toOption
    let request : Signed RoundChange := ⟨⟨⟨1, 1⟩, prepared⟩, Four.address 1, .zero⟩
    let m : Message := .proposal ⟨⟨⟨⟨1, 1⟩, Four.fresh 0⟩, Four.address 2, .zero⟩, some ⟨[request]⟩⟩
    prepared.isSome = true ∧
      ∃ bytes, format.encode m = .ok bytes ∧ format.decode bytes = .ok m := by
  intro prepared request m
  have hfits : m.Fits := Message.fits_iff.mp (by decide +kernel)
  exact ⟨by decide +kernel, Message.canonical.1 m hfits⟩

end QuorumChain
