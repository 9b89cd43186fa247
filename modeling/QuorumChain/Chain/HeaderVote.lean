import QuorumChain.Chain.ExtraData

/-!
# The vote in a header

Beside the extra-data, a header casts its vote through two fields of its own: the coinbase names
the subject and the nonce gives the direction.  The zero coinbase casts no vote; its nonce must
still be that of one of the directions.  The two writings of the vote have to agree.
-/

namespace QuorumChain

/-- The nonce of a vote to add. -/
def addNonce : UInt64 := 0xffffffffffffffff

/-- The nonce of a vote to drop, and of a header without a vote. -/
def dropNonce : UInt64 := 0

/-- The nonce of a direction. -/
def VoteKind.nonce : VoteKind → UInt64
  | .add => addNonce
  | .drop => dropNonce

/-- The direction of a nonce. -/
def VoteKind.ofNonce? (nonce : UInt64) : Option VoteKind :=
  if nonce = addNonce then some .add else if nonce = dropNonce then some .drop else none

/-- The name of a direction. -/
def VoteKind.name : VoteKind → String
  | .add => "ADD"
  | .drop => "DROP"

/-- The form of a vote inside a message. -/
def Vote.shown (v : Vote) : String :=
  "Vote \x7b subject: " ++ v.subject.shown ++ ", vote_type: " ++
    (match v.kind with
    | .add => "Add"
    | .drop => "Drop") ++ " \x7d"

/-- The form of a vote that may be missing. -/
def Vote.shown? : Option Vote → String
  | none => "None"
  | some v => "Some(" ++ v.shown ++ ")"

/-- What is wrong with the vote of a header. -/
inductive VoteError where
  /-- The nonce gives no direction. -/
  | badNonce (nonce : UInt64)
  /-- The extra-data and the header fields cast different votes. -/
  | disagreement (recorded carried : Option Vote)
  /-- The extra-data cannot be read. -/
  | extraData (cause : ExtraDataError)
deriving DecidableEq

/-- The wording of the complaint. -/
def VoteError.message : VoteError → String
  | .badNonce nonce => "Nonce 0x" ++ Text.hexDigits nonce.toNat ++ " is not a vote value"
  | .disagreement recorded carried =>
    "Extra-data vote " ++ Vote.shown? recorded ++ " does not match header vote fields " ++
      Vote.shown? carried
  | .extraData cause => cause.message

namespace Header

/-- The vote in the coinbase and the nonce. -/
def carriedVote (h : Header) : Except VoteError (Option Vote) :=
  match VoteKind.ofNonce? h.nonce with
  | none => .error (.badNonce h.nonce)
  | some kind => .ok (if h.coinbase = Address.zero then none else some ⟨h.coinbase, kind⟩)

/-- The header with a vote in its coinbase and nonce. -/
def withVote (h : Header) : Option Vote → Header
  | some v => { h with coinbase := v.subject, nonce := v.kind.nonce }
  | none => { h with coinbase := Address.zero, nonce := dropNonce }

/-- The vote in the header fields must be the one that the extra-data records. -/
def checkVote (h : Header) (x : ExtraData) : Except VoteError Unit := do
  let carried ← h.carriedVote
  if carried = x.vote then return () else throw (.disagreement x.vote carried)

end Header

end QuorumChain
