import KeywordTree.Command
import KeywordTree.CommandLine.Arguments

/-! Running the program on its arguments. Everything it does to its surroundings goes
through a host; the rest is the text of standard error and an exit code. -/
namespace KeywordTree.CommandLine

structure Exit where
  code : Nat
  errors : String
  deriving DecidableEq, Repr

def versionText : String := "reserved_switch 1.0.0\n"

def usageText : String :=
  "Generate minimal-cost switches recognizing a fixed set of reserved words\n\n" ++
  "Usage: reserved_switch [OPTIONS] <COMMAND>\n\n" ++
  "Commands:\n" ++
  "  generate [OPTIONS] <OUTPUT> <SOURCE> [READER_ARGS]...\n" ++
  "  verify [OPTIONS] <SOURCE> [READER_ARGS]...\n" ++
  "  stats [OPTIONS] <SOURCE> [READER_ARGS]...\n"

/-- The lines of a verbose log: all but the finest level, the level right-aligned. -/
def logText (verbose : Bool) (events : List Event) : String :=
  if verbose then
    Report.unlines <| (events.filter fun event => event.level ≠ .trace).map fun event =>
      Report.padLeft 5 ' ' event.level.name ++ " " ++ event.target ++ ": " ++ event.message
  else ""

/-- What a request leads to: a log, a report and, if it failed, why. -/
structure Completion where
  events : List Event
  report : String := ""
  error? : Option CommandError := none

def Completion.of {α : Type} (logged : Logged α) (report : α → String) : Completion :=
  match logged.result with
  | .error error => { events := logged.events, error? := some error }
  | .ok value => { events := logged.events, report := report value }

def Request.generator (request : Request) : Generator where
  config := ⟨request.ifThreshold, request.tailThreshold, request.indent⟩
  vocabulary := .prefixed request.prefixText

variable {m : Type → Type} [Monad m]

/-- Verify a tree and time that. Failures are reported and then fail the command. -/
def verifyTree (host : Host m) (tree : Tree) (probes seed : Nat) (events : List Event) : m Completion := do
  let start ← host.clock
  let draws ← host.draw probes seed (ascending (tree.words.map Word.length))
  let findings := Report.Findings.of (tree.verify draws)
  let stop ← host.clock
  return {
    events
    report := findings.report false (stop - start)
    error? := if findings.failures.isEmpty then none
      else some { context := toString findings.failures.length ++ " verification failures" } }

def Request.perform (host : Host m) (request : Request) : m Completion := do
  match request.task with
  | .generate output =>
    let logged ← runGenerate host request.generator output request.source request.features
    return Completion.of logged fun generated => generated.report false
  | .stats =>
    let logged ← loadTree host request.generator request.source request.features
    return Completion.of logged fun tree => Report.summaryReport false tree.summary
  | .verify probes seed =>
    let logged ← loadTree host request.generator request.source request.features
    match logged.result with
    | .error error => return { events := logged.events, error? := some error }
    | .ok tree => verifyTree host tree probes seed logged.events

def run (host : Host m) (args : List String) : m Exit := do
  match parse args with
  | .error .usage => return ⟨2, usageText⟩
  | .error .help => do
    host.print usageText
    return ⟨0, ""⟩
  | .error .version => do
    host.print versionText
    return ⟨0, ""⟩
  | .ok request => do
    let completion ← request.perform host
    let log := logText request.verbose (.configured request.generator.config :: completion.events)
    match completion.error? with
    | none => return ⟨0, log ++ completion.report⟩
    | some error => return ⟨1, log ++ completion.report ++ error.report⟩

end KeywordTree.CommandLine
