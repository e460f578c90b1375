import KeywordTree.Grouping
import KeywordTree.Tree.Basic

/-! The nodes of a tree in preorder with their depths, and what is counted there. -/
namespace KeywordTree

mutual

/-- A node, then the nodes of its arms in order, then those of its `otherwise`. -/
def Node.preorder (depth : Nat) : Node → List (Nat × Node)
  | .dispatch subject mode arms otherwise =>
    (depth, .dispatch subject mode arms otherwise) ::
      (preorderArms (depth + 1) arms ++ otherwise.preorder (depth + 1))
  | .verify checks word otherwise =>
    (depth, .verify checks word otherwise) :: otherwise.preorder (depth + 1)
  | .accept word => [(depth, .accept word)]
  | .guess word unverified => [(depth, .guess word unverified)]
  | .reject => [(depth, .reject)]

def preorderArms (depth : Nat) : List (Nat × Node) → List (Nat × Node)
  | [] => []
  | (_, node) :: rest => node.preorder depth ++ preorderArms depth rest

end

def Tree.nodes (tree : Tree) : List Node := (tree.root.preorder 0).map Prod.snd

namespace Node

def mode? : Node → Option Mode
  | dispatch _ mode _ _ => some mode
  | _ => none

/-- The word of a leaf that accepts after its letters are known. -/
def matched? : Node → Option Word
  | verify _ word _ => some word
  | accept word => some word
  | _ => none

def isVerify : Node → Bool
  | verify .. => true
  | _ => false

def isReject : Node → Bool
  | reject => true
  | _ => false

def guessed? : Node → Option (Word × Nat)
  | guess word unverified => some (word, unverified)
  | _ => none

end Node

/-- How many nodes of each kind a tree has, and how deep it goes below its root. -/
structure Census where
  nodes : Nat
  switches : Nat
  ifChains : Nat
  verifies : Nat
  /-- Leaves that accept for certain, the tail comparisons included. -/
  matched : Nat
  guessed : Nat
  rejected : Nat
  maxDepth : Nat
  deriving DecidableEq, Repr

def Tree.census (tree : Tree) : Census where
  nodes := tree.nodes.length
  switches := tree.nodes.countP fun node => node.mode? == some .switch
  ifChains := tree.nodes.countP fun node => node.mode? == some .ifChain
  verifies := tree.nodes.countP Node.isVerify
  matched := (tree.nodes.filterMap Node.matched?).length
  guessed := (tree.nodes.filterMap Node.guessed?).length
  rejected := tree.nodes.countP Node.isReject
  maxDepth := ((tree.root.preorder 0).map Prod.fst).foldl max 0

mutual

/-- The texts of the guess leaves below a node with their untested columns, in preorder. -/
def Node.guesses : Node → List (String × Nat)
  | .dispatch _ _ arms otherwise => armGuesses arms ++ otherwise.guesses
  | .verify _ _ otherwise => otherwise.guesses
  | .guess word unverified => [(word.text, unverified)]
  | .accept _ => []
  | .reject => []

def armGuesses : List (Nat × Node) → List (String × Nat)
  | [] => []
  | (_, node) :: rest => node.guesses ++ armGuesses rest

end

structure Summary where
  totalWords : Nat
  /-- Each word length with the number of words that have it, ascending. -/
  lengths : List (Nat × Nat)
  census : Census
  guessed : List (String × Nat)
  deriving DecidableEq, Repr

def Tree.summary (tree : Tree) : Summary where
  totalWords := tree.words.length
  lengths := (byLength tree.words).map fun group => (group.1, group.2.length)
  census := tree.census
  guessed := tree.root.guesses

end KeywordTree
