import QuorumChain.Config.Source
import QuorumChain.Report.Error

/-!
# Configurations as JSON
-/

namespace QuorumChain

/-- The report of a complaint; what is wrong with a file is not told. -/
def ConfigError.failure (e : ConfigError) : Failure :=
  match e with
  | .unreadable => ⟨"Io", none⟩
  | .malformed => ⟨"Parse", none⟩
  | .badVariable .. => ⟨"InvalidEnv", some e.message⟩
  | .noTimeout | .noMailbox | .noValidators | .unknownSilent .. => ⟨"Invalid", some e.message⟩

/-- A complaint, if there is one. -/
def ConfigError.reportOption : Option ConfigError → Json
  | none => .text "ok"
  | some e => e.failure.report

def Settings.report (s : Settings) : Json :=
  .object [("round_timeout_base_ms", .nat s.roundTimeoutMs),
    ("mailbox_capacity", .nat s.mailboxCapacity),
    ("future_message_limit", .nat s.futureMessageLimit),
    ("future_height_window", .nat s.futureHeightWindow),
    ("validator_cache_size", .nat s.committeeCacheSize)]

def DevnetSettings.report (s : DevnetSettings) : Json :=
  .object [("validators", .nat s.validators), ("blocks", .nat s.blocks),
    ("silent", .each .nat s.silent), ("timeout_secs", .nat s.timeoutSecs)]

/-- A configuration, changed by an environment as far as possible, and what is wrong with it. -/
def Config.report (c : Config) (environment : String → Option String) : Json :=
  let (c, defect) := c.override environment
  let base := c.consensus.baseTimeout
  let checked := match c.check with
    | .ok () => none
    | .error e => some e
  .object [("apply_env", ConfigError.reportOption defect),
    ("config", .object [("consensus", c.consensus.report), ("devnet", c.devnet.report)]),
    ("validate", ConfigError.reportOption checked),
    ("round_timeout_base", .list [.nat base.seconds, .nat base.subsecond])]

end QuorumChain
