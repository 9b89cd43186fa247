import QuorumChain.Report.Error
import QuorumChain.Report.Node
import QuorumChain.Simulation.Clock

/-!
# Engines as JSON
-/

namespace QuorumChain

/-- A block that was offered to a chain, and the word on it. -/
def Block.reportImport (H : HashFunction) (b : Block) (defect : Option ImportDefect) : Json :=
  .list [.nat b.header.number.toNat, b.header.reportDigest H,
    .text ((defect.map ImportDefect.message).getD "Accepted")]

def PromptResult.report : PromptResult → Json
  | .slept => .text "slept"
  | .settled => .text "settled"
  | .released => .text "dropped"
  | .sent => .text "sent"
  | .unreachable => .text "no handle"
  | .refused cause => (Failure.of cause).report

/-- A moment of a rehearsal; `listens` tells whether anybody receives the messages. -/
def Moment.report (H : HashFunction) (listens : Bool) (m : Moment) : Json :=
  .object [("result", .option PromptResult.report m.result),
    ("sent", .each (·.report H) (if listens then m.journal.sent else [])),
    ("imports", .each (fun (b, defect) => b.reportImport H defect) m.journal.imports),
    ("height", .nat m.height.toNat), ("closed", .bool m.isClosed)]

def Ending.report : Ending → Json
  | .stopped => .text "stopped"
  | .failed cause => (Failure.of cause).report

end QuorumChain
