import QuorumChain.Node.Instance
import QuorumChain.Report.Chain
import QuorumChain.Report.Error

/-!
# Messages, rounds and actions as JSON

Certificates are shown by their authors.  Where values are large, the digest of their writing
identifies them.
-/

namespace QuorumChain

/-- The digest of the writing of a value, which identifies it. -/
def Wire.Format.reportId {α : Type} (f : Wire.Format α) (H : HashFunction) (a : α) : Json :=
  (H (f.write a)).report

def PreparedCertificate.report (H : HashFunction) (c : PreparedCertificate) : Json :=
  .object [("round", c.view.report), ("digest", c.block.header.reportDigest H),
    ("proposer", c.proposal.author.report),
    ("prepares", Address.reportAll (c.prepares.map (·.author))),
    ("id", PreparedCertificate.format.reportId H c)]

def RoundChangeCertificate.report (H : HashFunction) (c : RoundChangeCertificate) : Json :=
  .object [("authors", Address.reportAll (c.requests.map (·.author))),
    ("latest_prepared", .option (·.view.report) c.latestPrepared),
    ("id", RoundChangeCertificate.format.reportId H c)]

/-- What is particular to the kind of a message. -/
def Message.contentFields (H : HashFunction) : Message → List (String × Json)
  | .proposal p =>
    let h := p.signed.payload.block.header
    [("digest", h.reportDigest H), ("extra", h.extra.report),
      ("certificate", .option (·.report H) p.justification)]
  | .prepare p => [("digest", p.payload.digest.report)]
  | .commit p => [("digest", p.payload.digest.report), ("seal", p.payload.committedSeal.report)]
  | .roundChange p => [("prepared", .option (·.report H) p.payload.prepared)]

def Message.report (H : HashFunction) (m : Message) : Json :=
  .object <| [("kind", .text m.kind.name), ("author", m.author.report), ("round", m.view.report),
    ("signature", m.signature.report), ("id", Message.format.reportId H m)] ++ m.contentFields H

def Action.report (H : HashFunction) : Action → Json
  | .broadcast m => .object [("broadcast", m.report H)]
  | .startTimer view after =>
    .object [("schedule", view.report), ("secs", .nat after.seconds),
      ("nanos", .nat after.subsecond)]
  | .stopTimer => .text "cancel"
  | .importBlock b => .object [("import", b.report H)]

/-- The name of a phase. -/
def Phase.name : Phase → String
  | .newRound => "NewRound"
  | .prepared => "Prepared"
  | .committed => "Committed"

/-- A round: how many votes it has for its proposal, and whether they decide. -/
def Round.report (r : Round) : Json :=
  .object [("round", r.view.report), ("proposer", r.proposer.report),
    ("phase", .text r.phase.name),
    ("proposal", .option (fun a => a.1.signed.author.report) r.accepted),
    ("digest", .option Fixed.report r.digest), ("prepares", .nat r.matchingPrepares.length),
    ("commits", .nat r.matchingCommits.length), ("prepared_quorum", .bool r.hasPreparedQuorum),
    ("commit_quorum", .bool r.hasCommitQuorum)]

def Instance.report (H : HashFunction) (i : Instance) : Json :=
  .object [("height", .nat i.height.toNat), ("round", i.view.report),
    ("phase", .text i.round.phase.name), ("is_validator", .bool i.isMember),
    ("validators", .nat i.committee.size), ("parent_hash", i.parentDigest.report),
    ("committed", .option Fixed.report i.committed?),
    ("prepared", .option (·.report H) i.prepared)]

/-- A step that broke down is reported by its cause. -/
instance {σ : Type} : Reportable (Breakdown σ) where
  code b := Reportable.code b.cause
  message b := Reportable.message b.cause

end QuorumChain
