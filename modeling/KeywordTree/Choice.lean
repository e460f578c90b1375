import KeywordTree.Event
import KeywordTree.Grouping

/-! Which column to test next. A column on which all words agree is taken at once.
Otherwise few branches are preferred, and where every column has many, a narrow range
of codes. Among equals the earliest slot wins. -/
namespace KeywordTree

/-- How a column divides the words: the number of different codes, and the distance
from the least code to the greatest, both included. -/
structure ColumnStats where
  column : Nat
  distinct : Nat
  span : Nat
  deriving DecidableEq, Repr

/-- Without words there is nothing to measure. -/
def ColumnStats.measure (words : List Word) (column : Nat) : Except BuildError (Option ColumnStats) :=
  if words.isEmpty then .ok none
  else (codesAt words column).map fun codes =>
    some { column, distinct := (ascending codes).length,
           span := (codes.max?).getD 0 - (codes.min?).getD 0 + 1 }

structure Choice where
  slot : Nat
  column : Nat
  mode : Mode
  deriving DecidableEq, Repr

inductive Scan where
  | shared (slot column : Nat)
  /-- Every column was measured; each comes with its slot. -/
  | measured (columns : List (Nat × ColumnStats))
  deriving DecidableEq, Repr

def scan (words : List Word) (slot : Nat) : List Nat → Traced Scan
  | [] => pure (.measured [])
  | column :: rest => do
    match ← Traced.lift (ColumnStats.measure words column) with
    | none => Traced.fail .noCandidates
    | some stats =>
      Traced.note (.columnStats stats.column stats.distinct stats.span)
      if stats.span = 1 then pure (.shared slot column)
      else
        match ← scan words (slot + 1) rest with
        | .shared s c => pure (.shared s c)
        | .measured found => pure (.measured ((slot, stats) :: found))

def firstLeast {α : Type} (size : α → Nat) : List α → Option α
  | [] => none
  | a :: rest =>
    match firstLeast size rest with
    | none => some a
    | some b => if size b < size a then some b else some a

def choose (config : Config) (words : List Word) (pending : List Nat) : Traced Choice :=
  match words with
  | [] => Traced.fail .noCandidates
  | first :: _ => do
    match ← scan words 0 pending with
    -- Such a column has to be tested on every way, and takes one test.
    | .shared slot column => pure ⟨slot, column, .ifChain⟩
    | .measured found =>
      match firstLeast (fun entry => entry.2.distinct) found,
          firstLeast (fun entry => entry.2.span) found with
      | some (fewestSlot, fewest), some (narrowestSlot, narrowest) =>
        if fewest.distinct ≤ config.ifThreshold then pure ⟨fewestSlot, fewest.column, .ifChain⟩
        else pure ⟨narrowestSlot, narrowest.column, .switch⟩
      | _, _ => Traced.fail (.columnsExhausted first.length (words.map Word.text))

end KeywordTree
