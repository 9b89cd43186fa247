import QuorumChain.Admission.Rejection
import QuorumChain.Json.Value

/-!
# Errors as JSON

An error is reported with a code that tells its cause and with its message.
-/

namespace QuorumChain

/-- A type of errors that can be reported. -/
class Reportable (ε : Type) where
  /-- The code of a cause. -/
  code : ε → String
  /-- The wording of a cause. -/
  message : ε → String

instance : Reportable IdentifierError where
  code
    | .wrongLength .. => "InvalidLength"
    | .notHex _ => "InvalidData"
  message := IdentifierError.message

instance : Reportable WireError where
  code
    | .endOfInput => "Eof"
    | .remainingInput => "RemainingInput"
    | .tooLong _ => "ExceededMaxLen"
    | .badOptionTag => "ExpectedOption"
    | .superfluousGroup => "NonCanonicalUleb128Encoding"
    | .oversizedNumber => "IntegerOverflowDuringUleb128Decoding"
    | .unknownVariant .. => "Custom"
  message := WireError.message

instance : Reportable ExtraDataError where
  code
    | .malformed _ => "Malformed"
    | .unwritable _ => "Encoding"
    | .noValidators => "EmptyValidators"
    | .repeatedValidator _ => "DuplicateValidator"
    | .unhashable _ => "Hashing"
  message := ExtraDataError.message

instance : Reportable VoteError where
  code
    | .badNonce _ => "InvalidNonce"
    | .disagreement .. => "Mismatch"
    | .extraData _ => "ExtraData"
  message := VoteError.message

instance : Reportable HeaderError where
  code
    | .wrongNumber .. => "NumberMismatch"
    | .wrongParent .. => "ParentMismatch"
    | .timeReversal .. => "TimestampRegression"
    | .wrongCommittee => "ValidatorMismatch"
    | .wrongRound .. => "RoundMismatch"
    | .sealedEarly _ => "UnexpectedSeals"
    | .tooFewSeals .. => "InsufficientSeals"
    | .foreignSeal _ => "InvalidSeal"
    | .repeatedSeal _ => "DuplicateSeal"
    | .extraData _ => "ExtraData"
    | .vote _ => "Vote"
  message := HeaderError.message

instance : Reportable ExecutionError where
  code
    | .buildFailed _ => "BuildFailed"
    | .invalidBlock _ => "InvalidBlock"
  message := ExecutionError.message

instance : Reportable Fault where
  code
    | .emptyCommittee => "EmptyValidatorSet"
    | .badChain .. => "InvalidCanonicalHeader"
    | .unusableSigner _ => "SignerUnusable"
    | .unwritable _ => "Encoding"
    | .extraData _ => "ExtraData"
    | .vote _ => "HeaderVote"
    | .execution _ => "Execution"
    | .mailboxClosed => "MailboxClosed"
  message := Fault.message

instance : Reportable Rejection where
  code
    | .badSignature _ => "InvalidSignature"
    | .notMember _ => "UnknownAuthor"
    | .notProposer .. => "NotProposer"
    | .otherDigest .. => "DigestMismatch"
    | .badSeal _ => "InvalidSeal"
    | .wrongHeight .. => "HeightMismatch"
    | .unjustified _ => "MissingCertificate"
    | .needlessJustification => "UnexpectedCertificate"
    | .badCertificate _ => "InvalidCertificate"
    | .otherReproposal .. => "BadReproposal"
    | .badHeader _ => "InvalidHeader"
    | .badExecution _ => "BlockRejected"
    | .unwritable _ => "Malformed"
  message := Rejection.message

/-- An error that is ready to be reported. -/
structure Failure where
  code : String
  /-- The wording, if it is to be shown. -/
  message : Option String

namespace Failure

/-- The report of an error. -/
def of {ε : Type} [Reportable ε] (e : ε) : Failure :=
  ⟨Reportable.code e, some (Reportable.message e)⟩

/-- The fields of a report. -/
def fields (f : Failure) : List (String × Json) :=
  ("error", .text f.code) :: (f.message.map fun s => ("message", Json.text s)).toList

/-- A report as JSON. -/
def report (f : Failure) : Json :=
  .object f.fields

end Failure

end QuorumChain
