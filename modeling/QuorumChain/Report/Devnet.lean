import QuorumChain.Devnet.Run
import QuorumChain.Report.Chain
import QuorumChain.Report.Error

/-!
# Development networks as JSON
-/

namespace QuorumChain

def DevnetError.failure (e : DevnetError) : Failure :=
  ⟨"Devnet", some e.message⟩

/-- What came out of a run that was to reach a height.  Rounds are told only where time does not
decide them. -/
def DevnetReport.report (H : HashFunction) (s : DevnetSettings) (r : DevnetReport) : Json :=
  let block (b : Block) : Json :=
    .object [("number", .nat b.header.number.toNat), ("digest", b.header.reportDigest H)]
  let rounds := if s.silent.isEmpty
    then [("rounds", Json.each (fun n => .nat n.toNat) (r.rounds.take s.blocks))] else []
  .object ([("validators", Address.reportAll r.validators),
    ("reached", .each (fun h => .bool (s.blocks ≤ h.toNat)) r.heights),
    ("chain", .each block (r.chain.take (s.blocks + 1)))] ++ rounds)

end QuorumChain
