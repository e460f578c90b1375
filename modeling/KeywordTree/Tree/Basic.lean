import KeywordTree.Config
import KeywordTree.Text.Bytes
import KeywordTree.Word

/-! Decision trees over byte strings and how one is followed. -/
namespace KeywordTree

/-- A string to be recognised, as its UTF-8 bytes. Any bytes are allowed. -/
abbrev Candidate := Bytes

inductive Subject where
  | length
  | column (k : Nat)
  deriving DecidableEq, Repr

/-- The number a dispatch branches on: the length, or the code in a column. A column
past the end of the candidate has none. -/
def Subject.read (candidate : Candidate) : Subject → Option Nat
  | .length => some candidate.length
  | .column k => (candidate[k]?).map UInt8.toNat

structure Check where
  column : Nat
  expected : UInt8
  deriving DecidableEq, Repr

def Check.holds (candidate : Candidate) (check : Check) : Bool :=
  candidate[check.column]? == some check.expected

inductive Node where
  /-- Branch on a number. The first arm with that key is taken, or `otherwise`. -/
  | dispatch (subject : Subject) (mode : Mode) (arms : List (Nat × Node)) (otherwise : Node)
  /-- Compare the letters not tested yet, then accept. -/
  | verify (checks : List Check) (word : Word) (otherwise : Node)
  | accept (word : Word)
  /-- Accept with this many columns untested. -/
  | guess (word : Word) (unverified : Nat)
  | reject

structure Tree where
  words : List Word
  root : Node

inductive Outcome where
  | accepted (word : Word)
  | guessed (word : Word)
  | rejected
  deriving DecidableEq

namespace Outcome

def word? : Outcome → Option Word
  | accepted word => some word
  | guessed word => some word
  | rejected => none

def index? (outcome : Outcome) : Option Nat := outcome.word?.map Word.index

/-- The index after comparing a guessed word with the whole candidate. -/
def confirm (candidate : Candidate) : Outcome → Option Nat
  | accepted word => some word.index
  | guessed word => if word.letters = candidate then some word.index else none
  | rejected => none

end Outcome

mutual

def Node.evaluate (candidate : Candidate) : Node → Outcome
  | .dispatch subject _ arms otherwise =>
    match subject.read candidate with
    | none => otherwise.evaluate candidate
    | some key =>
      match evaluateArm candidate key arms with
      | some outcome => outcome
      | none => otherwise.evaluate candidate
  | .verify checks word otherwise =>
    if checks.all (Check.holds candidate) then .accepted word else otherwise.evaluate candidate
  | .accept word => .accepted word
  | .guess word _ => .guessed word
  | .reject => .rejected

def evaluateArm (candidate : Candidate) (key : Nat) : List (Nat × Node) → Option Outcome
  | [] => none
  | (k, node) :: rest =>
    if k = key then some (node.evaluate candidate) else evaluateArm candidate key rest

end

def Tree.evaluate (tree : Tree) (candidate : Candidate) : Outcome := tree.root.evaluate candidate

/-- The index of the reserved word a text is, if it is one. -/
def Tree.recognize (tree : Tree) (text : String) : Option Nat :=
  (tree.evaluate (Text.encode text)).confirm (Text.encode text)

end KeywordTree
