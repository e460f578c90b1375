import KeywordTree.Generator
import KeywordTree.Report.Basic
import KeywordTree.WordList.Load

/-! The work of the commands: from the name of a word list to its tree, or to its listing
in a file or on standard output. -/
namespace KeywordTree

/-- A failed command: what was attempted, and the errors behind it, outermost first. -/
structure CommandError where
  context : String
  causes : List String := []
  deriving DecidableEq, Repr

/-- The text of a failure. A cause alone is not numbered. -/
def CommandError.report (error : CommandError) : String :=
  let causes := match error.causes with
    | [] => []
    | [cause] => ["", "Caused by:", "    " ++ cause]
    | many => "" :: "Caused by:" ::
      many.mapIdx fun i cause => Report.padLeft 5 ' ' (toString i) ++ ": " ++ cause
  Report.unlines (("Error: " ++ error.context) :: causes)

structure Logged (α : Type) where
  events : List Event
  result : Except CommandError α

def loadFailure (source : String) (error : LoadError) : CommandError :=
  ⟨"Failed to load reserved words from '" ++ source ++ "'", error.chain⟩

variable {m : Type → Type} [Monad m]

def loadTree (host : Host m) (generator : Generator) (source : String) (features : List String) :
    m (Logged Tree) := do
  match ← loadWords host source features with
  | .error error => return ⟨[], .error (loadFailure source error)⟩
  | .ok words =>
    let built := generator.build words
    return ⟨built.events, built.result.mapError fun error =>
      ⟨"Failed to build decision tree", [error.message]⟩⟩

/-- Generate the listing of a word list into a file or onto standard output. Nothing is
written unless the whole text exists. -/
def runGenerate (host : Host m) (generator : Generator) (output source : String)
    (features : List String) : m (Logged Report.Generated) := do
  match ← loadWords host source features with
  | .error error => return ⟨[], .error (loadFailure source error)⟩
  | .ok words =>
    let composed := generator.compose words
    match composed.result with
    | .error error =>
      return ⟨composed.events, .error ⟨"Failed to generate reserved word switch", [error.message]⟩⟩
    | .ok (tree, code) =>
      let generated : Report.Generated :=
        { output, words := tree.words.length, bytes := code.utf8ByteSize, census := tree.census }
      if output = Report.standardOutput then
        host.print code
        return ⟨composed.events, .ok generated⟩
      else
        match ← host.write output (Text.encode code) with
        | .error error =>
          return ⟨composed.events, .error ⟨"Failed to write '" ++ output ++ "'", [error.message]⟩⟩
        | .ok () => return ⟨composed.events, .ok generated⟩

end KeywordTree
