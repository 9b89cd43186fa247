import QuorumChain.Chain.Block

/-!
# Extra-data

The extra-data of a header lists the validators that may seal the block, the vote the block casts,
the round it was proposed in and the seals that committed it.  Only the first two belong to the
identity of the block: its digest is taken over the extra-data with round zero and no seals, so it
is the same before and after sealing and in every round.
-/

namespace QuorumChain

/-- What a vote wants to do with its subject. -/
inductive VoteKind where
  /-- Make the subject a validator. -/
  | add
  /-- Take the subject out of the validators. -/
  | drop
deriving DecidableEq, Repr

/-- A vote about a validator. -/
structure Vote where
  subject : Address
  kind : VoteKind
deriving DecidableEq

/-- The contents of the extra-data. -/
structure ExtraData where
  /-- The validators of the block's height, in order. -/
  validators : List Address
  /-- The vote that the block casts. -/
  vote : Option Vote
  /-- The round the block was proposed in. -/
  round : UInt32
  /-- The seals of those who committed the block. -/
  seals : List Signature
deriving DecidableEq

/-- Why extra-data cannot be read or written. -/
inductive ExtraDataError where
  /-- The octets are no writing of extra-data. -/
  | malformed (cause : WireError)
  /-- The extra-data cannot be written. -/
  | unwritable (cause : WireError)
  /-- No validator is listed. -/
  | noValidators
  /-- A validator is listed again. -/
  | repeatedValidator (a : Address)
  /-- The header cannot be written, so it has no digest. -/
  | unhashable (cause : WireError)
deriving DecidableEq

/-- The wording of the complaint. -/
def ExtraDataError.message : ExtraDataError → String
  | .malformed cause => "Malformed extra data: " ++ cause.message
  | .unwritable cause => "Extra data encoding failed: " ++ cause.message
  | .noValidators => "Extra data lists no validators"
  | .repeatedValidator a => "Validator " ++ a.text ++ " listed twice in extra data"
  | .unhashable cause => "Header hashing failed: Encoding error: " ++ cause.message

open Wire

/-- The direction of a vote is written as its place in the enumeration. -/
def VoteKind.format : Format VoteKind :=
  .enumeration [.add, .drop]

/-- A vote is written as its subject and its direction. -/
def Vote.format : Format Vote :=
  (Format.pair (.fixed 20) VoteKind.format).via (fun v => (v.subject, v.kind))
    (fun (subject, kind) => ⟨subject, kind⟩)

/-- The first entry of a list that repeats an earlier one. -/
def firstRepeat? {α : Type} [DecidableEq α] : List α → List α → Option α
  | _, [] => none
  | seen, a :: rest => if a ∈ seen then some a else firstRepeat? (a :: seen) rest

namespace ExtraData

/-- Extra-data is written as its fields in order. -/
def format : Format ExtraData :=
  (Format.pair (.list (.fixed 20)) <| .pair (.option Vote.format) <| .pair .u32 <|
    .list (.fixed 64)).via
    (fun x => (x.validators, x.vote, x.round, x.seals))
    (fun (validators, vote, round, seals) => ⟨validators, vote, round, seals⟩)

/-- The octets of extra-data. -/
def encode (x : ExtraData) : Except ExtraDataError Octets :=
  (format.encode x).mapError .unwritable

/-- Read extra-data; validators must be listed, none of them twice. -/
def decode (bytes : Octets) : Except ExtraDataError ExtraData := do
  let x ← (format.decode bytes).mapError .malformed
  if x.validators.isEmpty then throw .noValidators
  match firstRepeat? [] x.validators with
  | some a => throw (.repeatedValidator a)
  | none => return x

/-- The part that belongs to the identity of a block. -/
def identity (x : ExtraData) : ExtraData :=
  { x with round := 0, seals := [] }

end ExtraData

namespace Header

/-- The extra-data of a header. -/
def extraData (h : Header) : Except ExtraDataError ExtraData :=
  ExtraData.decode h.extra

/-- The digest of a block: what votes name, what seals sign and what children call their parent. -/
def digest (H : HashFunction) (h : Header) : Except ExtraDataError Digest := do
  let x ← h.extraData
  let identity ← x.identity.encode
  (h.digestWith H identity).mapError .unhashable

/-- The header with other extra-data. -/
def withExtraData (h : Header) (x : ExtraData) : Except ExtraDataError Header := do
  return { h with extra := ← x.encode }

/-- The header as proposed in another round, without seals. -/
def withRound (h : Header) (round : UInt32) : Except ExtraDataError Header := do
  let x ← h.extraData
  h.withExtraData { x with round, seals := [] }

/-- The header with other seals. -/
def withSeals (h : Header) (seals : List Signature) : Except ExtraDataError Header := do
  let x ← h.extraData
  h.withExtraData { x with seals }

end Header

end QuorumChain
