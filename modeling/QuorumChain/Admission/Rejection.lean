import QuorumChain.Chain.Fault

/-!
# Why messages are refused

A refused message changes nothing.  The causes are data; their wording stands beside them.
-/

namespace QuorumChain

/-- What is wrong with a certificate. -/
inductive CertificateDefect where
  /-- A prepared certificate belongs to another height. -/
  | otherHeight (got expected : UInt64)
  /-- The prepared proposal is not the proposer's. -/
  | notProposer (author proposer : Address)
  /-- The prepared block does not have the number of the height. -/
  | wrongNumber
  /-- A prepare is about another view. -/
  | strayPrepare (got expected : View)
  /-- A prepare names another block. -/
  | otherDigest
  /-- A member's prepare occurs twice. -/
  | repeatedPrepare (a : Address)
  /-- The prepares are no quorum. -/
  | tooFewPrepares (got needed : Nat)
  /-- The block was not prepared before the round that is asked for. -/
  | notEarlier (prepared target : UInt32)
  /-- A request asks for another view. -/
  | strayRequest (got expected : View)
  /-- A member's request occurs twice. -/
  | repeatedRequest (a : Address)
  /-- The requests are no quorum. -/
  | tooFewRequests (got needed : Nat)
deriving DecidableEq

/-- The wording of the complaint. -/
def CertificateDefect.message : CertificateDefect → String
  | .otherHeight got expected =>
    "prepared certificate for height " ++ toString got ++ " used at height " ++ toString expected
  | .notProposer author proposer =>
    "prepared proposal signed by " ++ author.text ++ " instead of proposer " ++ proposer.text
  | .wrongNumber => "prepared block has the wrong number"
  | .strayPrepare got expected =>
    "prepare for " ++ got.text ++ " inside certificate for " ++ expected.text
  | .otherDigest => "prepare digest differs from prepared block"
  | .repeatedPrepare a => "duplicate prepare from " ++ a.text
  | .tooFewPrepares got needed =>
    toString got ++ " prepares, " ++ toString needed ++ " required"
  | .notEarlier prepared target =>
    "prepared round " ++ toString prepared ++ " is not below target round " ++ toString target
  | .strayRequest got expected =>
    "round change for " ++ got.text ++ " inside certificate for " ++ expected.text
  | .repeatedRequest a => "duplicate round change from " ++ a.text
  | .tooFewRequests got needed =>
    toString got ++ " round changes, " ++ toString needed ++ " required"

/-- Why a message is refused. -/
inductive Rejection where
  /-- The signature is not the author's. -/
  | badSignature (author : Address)
  /-- The author is no member. -/
  | notMember (author : Address)
  /-- A proposal comes from somebody else than the proposer of its view. -/
  | notProposer (author proposer : Address) (view : View)
  /-- A vote is for another block than the one proposed. -/
  | otherDigest (expected got : Digest)
  /-- The seal of a commit is not the author's. -/
  | badSeal (author : Address)
  /-- A block is proposed for another height than its own. -/
  | wrongHeight (expected got : UInt64)
  /-- A proposal above round zero lacks its justification. -/
  | unjustified (view : View)
  /-- A proposal of round zero carries a justification. -/
  | needlessJustification
  /-- A certificate is wrong. -/
  | badCertificate (defect : CertificateDefect)
  /-- The block proposed is not the one that has to be proposed again. -/
  | otherReproposal (expected got : Digest)
  /-- The header of the block breaks the rules. -/
  | badHeader (cause : HeaderError)
  /-- The execution engine refuses the block. -/
  | badExecution (cause : ExecutionError)
  /-- The payload cannot be written, so there is nothing to verify. -/
  | unwritable (cause : WireError)
deriving DecidableEq

/-- The wording of the complaint. -/
def Rejection.message : Rejection → String
  | .badSignature author => "Signature does not verify for " ++ author.text
  | .notMember author => "Author " ++ author.text ++ " is not in the validator set"
  | .notProposer author proposer view =>
    "Proposal from " ++ author.text ++ " but " ++ proposer.text ++ " is the proposer of " ++
      view.text
  | .otherDigest expected got =>
    "Digest " ++ got.text ++ " does not match proposal " ++ expected.text
  | .badSeal author => "Committed seal from " ++ author.text ++ " does not verify"
  | .wrongHeight expected got =>
    "Block #" ++ toString got ++ " proposed for height " ++ toString expected
  | .unjustified view => "Proposal for " ++ view.text ++ " lacks a round-change certificate"
  | .needlessJustification => "Round 0 proposal carries a round-change certificate"
  | .badCertificate defect => "Invalid certificate: " ++ defect.message
  | .otherReproposal expected _ =>
    "Proposal does not re-propose the latest prepared block " ++ expected.text
  | .badHeader cause => "Invalid header: " ++ cause.message
  | .badExecution cause => "Block rejected by execution: " ++ cause.message
  | .unwritable cause => "Malformed message: Encoding error: " ++ cause.message

end QuorumChain
