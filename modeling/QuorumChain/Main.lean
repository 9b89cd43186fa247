import QuorumChain.Cli.Run

/-!
# The program

The program reads the file that a command needs, the environment and a fresh secret, runs the
command, and writes what it leaves behind.  It exits with 2 if the command line cannot be
understood and with 1 if the command fails.
-/

open QuorumChain

/-- How the program is to be called. -/
def usage : String :=
  "usage: quorum-chain [-c FILE] devnet [-v N] [-b N] [--silent N,...] [--round-timeout-ms N]\n" ++
  "       quorum-chain keygen -o FILE [--dev-index N]\n" ++
  "       quorum-chain inspect FILE"

/-- The contents of a file, if it can be read. -/
def readFile? (path : String) : IO (Option Octets) := do
  try return some (← IO.FS.readBinFile path).toList
  catch _ => return none

/-- The values of the environment variables that replace parts of a configuration. -/
def readEnvironment : IO (List (String × String)) :=
  Config.knownVariables.filterMapM fun v => do
    return (← IO.getEnv v.name).map (v.name, ·)

/-- Write what a command leaves behind. -/
def finish (o : Outcome) : IO UInt32 := do
  match o.file with
  | some (path, contents) => IO.FS.writeFile path contents
  | none => pure ()
  for line in o.lines do IO.println line
  return 0

/-- Do what the arguments ask for. -/
def main (arguments : List String) : IO UInt32 := do
  match Invocation.parse arguments with
  | .error .help =>
    IO.println usage
    return 0
  | .error .malformed =>
    IO.eprintln usage
    return 2
  | .ok i =>
    let contents ← match i.input? with
      | some path => readFile? path
      | none => pure none
    let environment ← readEnvironment
    let secret := Fixed.ofPadded (← IO.getRandomBytes 32).toList
    match i.run contents (fun name => environment.lookup name) secret with
    | .error message =>
      IO.eprintln ("Error: " ++ message)
      return 1
    | .ok o =>
      try finish o
      catch e =>
        IO.eprintln ("Error: " ++ toString e)
        return 1
