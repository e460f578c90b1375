import KeywordTree.Tree.Basic
import Std.Data.HashSet

/-! Checking a tree against its own words and against strings that are no words: all
strings that differ from a word in one letter, and any further draws. -/
namespace KeywordTree

/-- The strings that have another letter in one column, by column and then by letter. -/
def Word.substitutions (word : Word) : List Candidate :=
  (List.range word.length).flatMap fun column =>
    (alphabet.filter fun letter => word.letters[column]? != some letter).map fun letter =>
      word.letters.set column letter

/-- The members not met before, each at its first occurrence. -/
def unseen (seen : Std.HashSet Candidate) : List Candidate → List Candidate
  | [] => []
  | candidate :: rest =>
    if seen.contains candidate then unseen seen rest
    else candidate :: unseen (seen.insert candidate) rest

/-- The strings to try: the substitutions of all words and then the draws, without the
words themselves and without repetition. -/
def probes (words : List Word) (draws : List Candidate) : List Candidate :=
  unseen (Std.HashSet.ofList (words.map Word.letters)) (words.flatMap Word.substitutions ++ draws)

inductive Failure where
  | misdirected (word : Word) (found : Option Nat)
  | confirmed (probe : Candidate)
  | mistaken (probe : Candidate) (word : Word)
  deriving DecidableEq

def Candidate.text (candidate : Candidate) : String := String.ofList (candidate.map Char.ofUInt8)

def Failure.message : Failure → String
  | .misdirected word found =>
    let shown := match found with
      | none => "None"
      | some index => "Some(" ++ toString index ++ ")"
    "'" ++ word.text ++ "' (" ++ toString word.index ++ ") yielded " ++ shown ++
      " instead of its own index"
  | .confirmed probe => "'" ++ Candidate.text probe ++ "' confirmed as a reserved word"
  | .mistaken probe word =>
    "'" ++ Candidate.text probe ++ "' matched '" ++ word.text ++ "' (" ++ toString word.index ++ ")"

def Tree.wordFailure? (tree : Tree) (word : Word) : Option Failure :=
  let found := (tree.evaluate word.letters).index?
  if found = some word.index then none else some (.misdirected word found)

def Tree.guesses (tree : Tree) (word : Word) : Bool :=
  match tree.evaluate word.letters with
  | .guessed found => found.index == word.index
  | _ => false

def Tree.probeFailure? (tree : Tree) (probe : Candidate) : Option Failure :=
  match tree.evaluate probe with
  | .rejected => none
  -- A guess is compared with its word before it counts.
  | .guessed word => if word.letters = probe then some (.confirmed probe) else none
  | .accepted word => some (.mistaken probe word)

def Tree.misguesses (tree : Tree) (probe : Candidate) : Bool :=
  match tree.evaluate probe with
  | .guessed word => word.letters != probe
  | _ => false

structure Verification where
  wordsChecked : Nat
  wordsGuessed : Nat
  probesChecked : Nat
  /-- Strings that are guessed and then not confirmed. -/
  falseGuesses : Nat
  failures : List Failure
  deriving DecidableEq

def Verification.passed (verification : Verification) : Bool := verification.failures.isEmpty

def Tree.verify (tree : Tree) (draws : List Candidate) : Verification :=
  let tried := probes tree.words draws
  { wordsChecked := tree.words.length
    wordsGuessed := tree.words.countP tree.guesses
    probesChecked := tried.length
    falseGuesses := tried.countP tree.misguesses
    failures := tree.words.filterMap tree.wordFailure? ++ tried.filterMap tree.probeFailure? }

end KeywordTree
