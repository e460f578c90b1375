import KeywordTree.Choice
import KeywordTree.Columns
import KeywordTree.Tree.Basic

/-! Building the decision tree of a corpus: a dispatch on the length, below it
dispatches on columns until one word is left, and a leaf for that word. -/
namespace KeywordTree

def Word.checks (word : Word) : List Nat → Except BuildError (List Check)
  | [] => .ok []
  | column :: rest =>
    match word.letters[column]? with
    | none => .error (.pastEnd column)
    | some expected => (word.checks rest).map fun found => ⟨column, expected⟩ :: found

/-- The leaf of a word that is alone. With no column left it is certain, a long tail is
left to a guess, and a short one is compared. -/
def leaf (config : Config) (word : Word) (columns : Columns) : Traced Node :=
  if columns.isExhausted then pure (.accept word)
  else if config.tailThreshold < columns.pending.length then do
    Traced.note (.tailElided word.text columns.pending.length)
    pure (.guess word columns.pending.length)
  else do
    let checks ← Traced.lift (word.checks columns.pending)
    pure (.verify checks word .reject)

def growArms (grow : Nat → List Word → Traced Node) :
    List (Nat × List Word) → Traced (List (Nat × Node))
  | [] => pure []
  | (key, words) :: rest => do
    let node ← grow key words
    let arms ← growArms grow rest
    pure ((key, node) :: arms)

/-- The tree of words of one length. Every dispatch spends a pending column, also one
that does not divide the words. -/
def dispatchColumns (config : Config) (words : List Word) (columns : Columns) : Traced Node :=
  match words with
  | [] => Traced.fail .noCandidates
  | [word] => leaf config word columns
  | first :: second :: rest =>
    let words := first :: second :: rest
    if columns.isExhausted then
      Traced.fail (.columnsExhausted first.length (words.map Word.text))
    else do
      let choice ← choose config words columns.pending
      Traced.note (.columnDispatch choice.column choice.mode words.length columns.pending.length)
      -- One pending column less is also why the recursion ends.
      match _ : columns.consume choice.slot with
      | .error error => Traced.fail error
      | .ok remaining =>
        let groups ← Traced.lift (byColumn words choice.column)
        let arms ← growArms (fun _ group => dispatchColumns config group remaining) groups
        pure (.dispatch (.column choice.column) choice.mode arms .reject)
termination_by columns.pending.length
decreasing_by
  have := Columns.length_pending_of_consume ‹columns.consume choice.slot = .ok remaining›
  omega

/-- The decision tree of a corpus. The order of the words given is irrelevant. -/
def build (config : Config) (corpus : List Word) : Traced Tree :=
  if corpus.isEmpty then Traced.fail .emptyCorpus
  else do
    let words := canonical corpus
    let groups := byLength words
    let mode := config.lengthMode groups.length
    Traced.note (.lengthDispatch groups.length mode)
    let arms ← growArms (fun length group =>
      dispatchColumns config group (Columns.all length)) groups
    pure ⟨words, .dispatch .length mode arms .reject⟩

end KeywordTree
