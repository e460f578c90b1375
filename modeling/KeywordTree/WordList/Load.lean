import KeywordTree.Files.Host
import KeywordTree.WordList.Basic

/-! Loading a word list by the name of its source. -/
namespace KeywordTree

inductive LoadError where
  | unreadable (error : FileError)
  | list (error : WordList.ListError)
  deriving DecidableEq, Repr

namespace LoadError

def message : LoadError → String
  | unreadable error => "Failed to read word list: " ++ error.message
  | list error => error.message

def source? : LoadError → Option String
  | unreadable error => some error.message
  | list error => error.source?

/-- The message followed by that of the error behind it. -/
def chain (error : LoadError) : List String := error.message :: error.source?.toList

end LoadError

/-- The source that stands for the list that needs no file. -/
def standardSource : String := "default"

def wordsOfBytes (bytes : Bytes) (features : List String) : Except LoadError (List Word) :=
  match Text.decode? bytes with
  | none => .error (.unreadable .notText)
  | some text => (WordList.parseText text features).mapError .list

def loadWords {m : Type → Type} [Monad m] (host : Host m) (source : String) (features : List String) :
    m (Except LoadError (List Word)) := do
  if source = standardSource then
    return (WordList.standard features).mapError .list
  else
    match ← host.read source with
    | .error error => return .error (.unreadable error)
    | .ok bytes => return wordsOfBytes bytes features

end KeywordTree
