/-! The three numbers that shape a tree and its listing, and the two ways to branch. -/
namespace KeywordTree

structure Config where
  /-- Fewer lengths than this, and up to this many letters, make a chain of tests. -/
  ifThreshold : Nat := 3
  /-- The longest untested tail that is still compared letter by letter. -/
  tailThreshold : Nat := 4
  baseIndent : Nat := 1
  deriving DecidableEq, Repr

/-- How a dispatch is written: as one switch or as a chain of tests. -/
inductive Mode where
  | switch
  | ifChain
  deriving DecidableEq, Repr

def Mode.name : Mode → String
  | .switch => "switch"
  | .ifChain => "if-chain"

def Config.lengthMode (config : Config) (distinct : Nat) : Mode :=
  if distinct < config.ifThreshold then .ifChain else .switch

end KeywordTree
