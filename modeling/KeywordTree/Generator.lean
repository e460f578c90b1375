import KeywordTree.Listing
import KeywordTree.Sink
import KeywordTree.Tree.Build
import KeywordTree.Tree.Census

/-! Building a tree, rendering it and handing the text to a sink. Nothing is offered to
the sink before the whole text exists. -/
namespace KeywordTree

inductive GenerateError where
  | build (error : BuildError)
  | sink (reason : String)
  deriving DecidableEq, Repr

namespace GenerateError

def message : GenerateError → String
  | build error => error.message
  | sink reason => "Failed to write generated code: " ++ reason

def source? : GenerateError → Option String
  | build _ => none
  | sink reason => some reason

end GenerateError

/-- What is fixed for all corpora: the shape of the trees and the names in the text. -/
structure Generator where
  config : Config := {}
  vocabulary : Vocabulary := .standard
  deriving DecidableEq, Repr

structure Generation where
  events : List Event
  taken : Bytes
  /-- Nothing while the sink is still waited for. -/
  result? : Option (Except GenerateError Tree)

namespace Generator

def build (generator : Generator) (corpus : List Word) : Traced Tree :=
  KeywordTree.build generator.config corpus

def render (generator : Generator) (tree : Tree) : String :=
  tree.render generator.vocabulary generator.config.baseIndent

def finished (generator : Generator) (tree : Tree) : Event :=
  .generated tree.words.length (generator.render tree).utf8ByteSize tree.census.guessed
    tree.census.maxDepth

def compose (generator : Generator) (corpus : List Word) : Traced (Tree × String) := do
  let tree ← generator.build corpus
  Traced.note (generator.finished tree)
  pure (tree, generator.render tree)

/-- Build the tree of a corpus and deliver its text to a sink. -/
def generate (generator : Generator) (corpus : List Word) (responses : List Response) : Generation :=
  let built := generator.build corpus
  match built.result with
  | .error error => ⟨built.events, [], some (.error (.build error))⟩
  | .ok tree =>
    let delivery := deliver responses (Text.encode (generator.render tree))
    match delivery.ending with
    | .complete => ⟨built.events ++ [generator.finished tree], delivery.taken, some (.ok tree)⟩
    | .failed reason => ⟨built.events, delivery.taken, some (.error (.sink reason))⟩
    | .waiting => ⟨built.events, delivery.taken, none⟩

end Generator

end KeywordTree
