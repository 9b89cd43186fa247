import QuorumChain.Report.Error
import QuorumChain.Report.Node
import QuorumChain.Simulation.Network

/-!
# Networks as JSON

The past of a network is told in one line for each episode: the station, the impulse, and the
actions or the code of the failure.
-/

namespace QuorumChain

/-- An action in a word. -/
def Action.word : Action → String
  | .broadcast m => m.kind.name ++ "@" ++ m.view.text
  | .startTimer view after =>
    "TIMER@" ++ view.text ++ "+" ++ toString after.milliseconds ++ "ms"
  | .stopTimer => "CANCEL"
  | .importBlock b => "IMPORT#" ++ toString b.header.number

/-- The name of an impulse. -/
def Impulse.text : Impulse → String
  | .start => "start"
  | .outside => "event"
  | .sync number => "sync " ++ toString number
  | .head number => "head " ++ toString number
  | .expiry view => "expiry " ++ view.text
  | .delivery kind view sender => kind.name ++ "@" ++ view.text ++ " from " ++ toString sender

/-- An episode in a line. -/
def Episode.text (e : Episode) : String :=
  toString e.station ++ " " ++ e.impulse.text ++
    match e.result with
    | .ok actions => " => " ++ " ".intercalate (actions.map Action.word)
    | .error cause => " !" ++ Reportable.code cause

/-- A block of a station's chain. -/
def Block.reportAgreed (H : HashFunction) (b : Block) : Json :=
  let h := b.header
  let extra := h.extraData.toOption
  .object [("digest", h.reportDigest H), ("id", Block.format.reportId H b),
    ("coinbase", h.coinbase.report), ("nonce", .nat h.nonce.toNat),
    ("round", .option (fun x => .nat x.round.toNat) extra),
    ("seals", .option (fun x => .nat x.seals.length) extra),
    ("validators", .option (fun x => .nat x.validators.length) extra)]

def Station.report (H : HashFunction) (s : Station) : Json :=
  .object [("round", .option View.report s.node.view?), ("timer", .option View.report s.timer),
    ("alive", .bool s.isAlive),
    ("validators", .option (fun c => Address.reportAll c.members) s.node.committee?),
    ("chain", .each (·.reportAgreed H) s.chain)]

/-- A network after a number of steps. -/
def Network.report (H : HashFunction) (c : Scenario) (steps : Nat) (n : Network) : Json :=
  .object [("steps", .nat steps), ("done", .bool (n.isDone c)), ("in_flight", .nat n.queue.length),
    ("trace", .each (.text ·.text) n.past.reverse),
    ("nodes", .each (·.report H) n.stations)]

end QuorumChain
