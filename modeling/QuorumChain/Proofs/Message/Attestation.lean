import QuorumChain.Admission.Basic
import QuorumChain.Proofs.Message.Writing

/-!
# What messages attest

A message carries signatures: its author's, those of the votes and requests inside it and, in a
commit, the seal.  Each is a signature of somebody over a digest.  Behind the digests of payloads
and blocks stand octet strings; all of them that a message brings along are its writings.

Votes and requests are messages of their own and also occur inside other messages.
-/

namespace QuorumChain

/-! ## What messages carry -/

/-- The prepares inside a request. -/
def RoundChange.prepares (p : RoundChange) : List (Signed Prepare) :=
  match p.prepared with
  | none => []
  | some c => c.prepares

/-- The requests inside a proposal. -/
def JustifiedProposal.requests (m : JustifiedProposal) : List (Signed RoundChange) :=
  match m.justification with
  | none => []
  | some c => c.requests

/-- A type of payloads that are messages of their own and that other messages may carry. -/
class Carried (P : Type) [Payload P] where
  /-- The message of its own. -/
  message : Signed P → Message
  /-- What a message carries. -/
  within : Message → List (Signed P)

instance : Carried Prepare where
  message := .prepare
  within
    | .proposal m => m.requests.flatMap (·.payload.prepares)
    | .prepare m => [m]
    | .commit _ => []
    | .roundChange m => m.payload.prepares

instance : Carried Commit where
  message := .commit
  within
    | .commit m => [m]
    | _ => []

instance : Carried RoundChange where
  message := .roundChange
  within
    | .proposal m => m.requests
    | .roundChange m => [m]
    | _ => []

/-! ## Signatures -/

/-- Somebody's signature over a digest. -/
structure Attestation where
  author : Address
  digest : Digest
  signature : Signature
deriving DecidableEq

/-- The signature under a payload. -/
def Signed.attestation {P : Type} [Payload P] (H : HashFunction) (m : Signed P) : Attestation :=
  ⟨m.author, m.digest H, m.signature⟩

/-- The seal in a commit. -/
def Commit.sealing (m : Signed Commit) : Attestation :=
  ⟨m.author, m.payload.digest, m.payload.committedSeal⟩

/-- The signatures in a prepared certificate. -/
def PreparedCertificate.attestations (H : HashFunction) (c : PreparedCertificate) :
    List Attestation :=
  c.proposal.attestation H :: c.prepares.map (·.attestation H)

/-- The signatures in a request: its author's and those of the certificate it carries. -/
def RoundChange.attestations (H : HashFunction) (q : Signed RoundChange) : List Attestation :=
  q.attestation H ::
    match q.payload.prepared with
    | none => []
    | some c => c.attestations H

namespace Message

/-- All signatures in a message. -/
def attestations (H : HashFunction) : Message → List Attestation
  | .proposal m => m.signed.attestation H :: m.requests.flatMap (RoundChange.attestations H)
  | .prepare m => [m.attestation H]
  | .commit m => [m.attestation H, Commit.sealing m]
  | .roundChange m => RoundChange.attestations H m

/-- The signatures that its author makes for a message. -/
def signatures (H : HashFunction) : Message → List Attestation
  | .proposal m => [m.signed.attestation H]
  | .prepare m => [m.attestation H]
  | .commit m => [m.attestation H, Commit.sealing m]
  | .roundChange m => [m.attestation H]

/-- Whether the payload of a message can be written. -/
def Writable : Message → Prop
  | .proposal m => Payload.Writable m.signed.payload
  | .prepare m => Payload.Writable m.payload
  | .commit m => Payload.Writable m.payload
  | .roundChange m => Payload.Writable m.payload

/-- The writing of the payload of a message. -/
def writing : Message → Octets
  | .proposal m => Payload.writing m.signed.payload
  | .prepare m => Payload.writing m.payload
  | .commit m => Payload.writing m.payload
  | .roundChange m => Payload.writing m.payload

/-- Messages that are written alike are of one view. -/
theorem view_of_writing
    {m m' : Message} (hm : m.Writable) (hm' : m'.Writable) (heq : m.writing = m'.writing) :
    m.view = m'.view := by
  cases m <;> cases m' <;>
    first
    | exact congrArg Payload.view (Payload.writing_inj hm hm' heq)
    | exact absurd heq (Payload.writing_ne (by decide))

end Message

/-! ## Writings -/

/-- The writings in a prepared certificate. -/
def PreparedCertificate.writings (c : PreparedCertificate) : List Octets :=
  Payload.writing c.proposal.payload :: c.block.header.writing ::
    c.prepares.map (Payload.writing ·.payload)

/-- The writings in a request. -/
def RoundChange.writings (p : RoundChange) : List Octets :=
  Payload.writing p ::
    match p.prepared with
    | none => []
    | some c => c.writings

/-- The octet strings that are hashed for a message: those of payloads and of headers. -/
def Message.writings : Message → List Octets
  | .proposal m =>
    Payload.writing m.signed.payload :: m.signed.payload.block.header.writing ::
      m.requests.flatMap (·.payload.writings)
  | .prepare m => [Payload.writing m.payload]
  | .commit m => [Payload.writing m.payload]
  | .roundChange m => m.payload.writings

/-- A vote of its own is written as its payload, is of its view and is authenticated as a
message, what a message carries is attested and written in it, and a message with the writing of
a payload is one with that payload. -/
class LawfulCarried (P : Type) [Payload P] [Carried P] : Prop where
  author : ∀ m : Signed P, (Carried.message m).author = m.author
  view : ∀ m : Signed P, (Carried.message m).view = Payload.view m.payload
  writing : ∀ m : Signed P, (Carried.message m).writing = Payload.writing m.payload
  writable : ∀ m : Signed P, (Carried.message m).Writable ↔ Payload.Writable m.payload
  authenticate : ∀ (scheme : Scheme) (committee : Committee) (m : Signed P),
    (Carried.message m).authenticate scheme committee = m.check scheme committee
  attested : ∀ {H : HashFunction} {message : Message} {m : Signed P},
    m ∈ Carried.within message → m.attestation H ∈ message.attestations H
  written : ∀ {message : Message} {m : Signed P},
    m ∈ Carried.within message → Payload.writing m.payload ∈ message.writings
  ofWriting : ∀ {message : Message} {p : P}, message.Writable → Payload.Writable p →
    message.writing = Payload.writing p →
      ∃ m : Signed P, message = Carried.message m ∧ m.payload = p

theorem RoundChange.mem_prepares
    {p : RoundChange} {m : Signed Prepare} (hm : m ∈ p.prepares) :
    ∃ c, p.prepared = some c ∧ m ∈ c.prepares := by
  rw [prepares] at hm
  cases hc : p.prepared with
  | none =>
      rw [hc] at hm
      exact absurd hm List.not_mem_nil
  | some c =>
      rw [hc] at hm
      exact ⟨c, rfl, hm⟩

theorem RoundChange.prepare_attested
    {H : HashFunction} {q : Signed RoundChange} {m : Signed Prepare}
    (hm : m ∈ q.payload.prepares) : m.attestation H ∈ RoundChange.attestations H q := by
  obtain ⟨c, hc, hm⟩ := RoundChange.mem_prepares hm
  rw [RoundChange.attestations, hc]
  exact List.mem_cons_of_mem _ (List.mem_cons_of_mem _ (List.mem_map_of_mem hm))

theorem RoundChange.prepare_written
    {p : RoundChange} {m : Signed Prepare} (hm : m ∈ p.prepares) :
    Payload.writing m.payload ∈ p.writings := by
  obtain ⟨c, hc, hm⟩ := RoundChange.mem_prepares hm
  rw [RoundChange.writings, hc]
  exact List.mem_cons_of_mem _ (List.mem_cons_of_mem _ (List.mem_cons_of_mem _
    (List.mem_map.mpr ⟨m, hm, rfl⟩)))

instance : LawfulCarried Prepare where
  author _ := rfl
  view _ := rfl
  writing _ := rfl
  writable _ := Iff.rfl
  authenticate _ _ _ := rfl
  attested {H message m} hm := by
    cases message with
    | proposal p =>
        obtain ⟨q, hq, hm⟩ := List.mem_flatMap.mp hm
        exact List.mem_cons_of_mem _ (List.mem_flatMap.mpr ⟨q, hq, RoundChange.prepare_attested hm⟩)
    | prepare p =>
        obtain rfl := List.mem_singleton.mp hm
        exact List.mem_cons_self
    | commit p => exact absurd hm List.not_mem_nil
    | roundChange q => exact RoundChange.prepare_attested hm
  written {message m} hm := by
    cases message with
    | proposal p =>
        obtain ⟨q, hq, hm⟩ := List.mem_flatMap.mp hm
        exact List.mem_cons_of_mem _ (List.mem_cons_of_mem _
          (List.mem_flatMap.mpr ⟨q, hq, RoundChange.prepare_written hm⟩))
    | prepare p =>
        obtain rfl := List.mem_singleton.mp hm
        exact List.mem_cons_self
    | commit p => exact absurd hm List.not_mem_nil
    | roundChange q => exact RoundChange.prepare_written hm
  ofWriting {message p} hmessage hp heq := by
    cases message with
    | prepare m => exact ⟨m, rfl, Payload.writing_inj hmessage hp heq⟩
    | _ => exact absurd heq (Payload.writing_ne (by decide))

instance : LawfulCarried Commit where
  author _ := rfl
  view _ := rfl
  writing _ := rfl
  writable _ := Iff.rfl
  authenticate _ _ _ := rfl
  attested {H message m} hm := by
    cases message with
    | commit p =>
        obtain rfl := List.mem_singleton.mp hm
        exact List.mem_cons_self
    | _ => exact absurd hm List.not_mem_nil
  written {message m} hm := by
    cases message with
    | commit p =>
        obtain rfl := List.mem_singleton.mp hm
        exact List.mem_cons_self
    | _ => exact absurd hm List.not_mem_nil
  ofWriting {message p} hmessage hp heq := by
    cases message with
    | commit m => exact ⟨m, rfl, Payload.writing_inj hmessage hp heq⟩
    | _ => exact absurd heq (Payload.writing_ne (by decide))

instance : LawfulCarried RoundChange where
  author _ := rfl
  view _ := rfl
  writing _ := rfl
  writable _ := Iff.rfl
  authenticate _ _ _ := rfl
  attested {H message m} hm := by
    cases message with
    | proposal p =>
        exact List.mem_cons_of_mem _ (List.mem_flatMap.mpr ⟨m, hm, List.mem_cons_self⟩)
    | roundChange q =>
        obtain rfl := List.mem_singleton.mp hm
        exact List.mem_cons_self
    | _ => exact absurd hm List.not_mem_nil
  written {message m} hm := by
    cases message with
    | proposal p =>
        exact List.mem_cons_of_mem _ (List.mem_cons_of_mem _
          (List.mem_flatMap.mpr ⟨m, hm, List.mem_cons_self⟩))
    | roundChange q =>
        obtain rfl := List.mem_singleton.mp hm
        exact List.mem_cons_self
    | _ => exact absurd hm List.not_mem_nil
  ofWriting {message p} hmessage hp heq := by
    cases message with
    | roundChange m => exact ⟨m, rfl, Payload.writing_inj hmessage hp heq⟩
    | _ => exact absurd heq (Payload.writing_ne (by decide))

end QuorumChain
