/-! What can go wrong while a decision tree is built. -/
namespace KeywordTree

inductive BuildError where
  | emptyCorpus
  | noCandidates
  /-- Every column of the given length was tested and these texts are still together. -/
  | columnsExhausted (length : Nat) (texts : List String)
  | pastEnd (column : Nat)
  | slotSpent (slot : Nat)
  deriving DecidableEq, Repr

def BuildError.message : BuildError → String
  | .emptyCorpus => "Reserved word list is empty"
  | .noCandidates => "Cannot select a column without candidates"
  | .columnsExhausted length texts =>
    "All " ++ toString length ++ " columns tested but " ++ toString texts.length ++
      " candidates remain (" ++ ", ".intercalate texts ++ "); duplicate words?"
  | .pastEnd column => "column " ++ toString column ++ " lies past the end of a word"
  | .slotSpent slot => "slot " ++ toString slot ++ " is already processed"

end KeywordTree
