import KeywordTree.Tree.Basic

/-! The listing of a decision tree: text in the manner of C over five primitive names,
which the reader of the listing defines. -/
namespace KeywordTree

structure Vocabulary where
  length : String
  charAt : String
  matched : String
  noMatch : String
  guessMatch : String
  deriving DecidableEq, Repr

namespace Vocabulary

/-- The usual names, each after the given beginning. -/
def prefixed (start : String) : Vocabulary where
  length := start ++ "LENGTH"
  charAt := start ++ "CHAR_AT"
  matched := start ++ "MATCH"
  noMatch := start ++ "NO_MATCH"
  guessMatch := start ++ "GUESS_MATCH"

def standard : Vocabulary := prefixed ""

def subject (names : Vocabulary) : Subject → String
  | .length => names.length ++ "()"
  | .column k => names.charAt ++ "(" ++ toString k ++ ")"

/-- The call that ends a run, with the word it stands for. -/
def verdict (call : String) (word : Word) : String :=
  call ++ "(" ++ toString word.index ++ ") /* " ++ word.text ++ " */"

end Vocabulary

/-- The character literal of a code. Quotes, the backslash and three control characters
are escaped by a backslash, and what is not printable ASCII by its code. -/
def quote (code : Nat) : String :=
  let escaped :=
    if code = 9 then "\\t"
    else if code = 10 then "\\n"
    else if code = 13 then "\\r"
    else if code = 34 then "\\\""
    else if code = 39 then "\\'"
    else if code = 92 then "\\\\"
    else if 32 ≤ code ∧ code < 127 then String.singleton (Char.ofNat code)
    else "\\u\x7b" ++ String.ofList (Nat.toDigits 16 code) ++ "\x7d"
  "'" ++ escaped ++ "'"

/-- A key as it stands in the text: a length in decimal, a code as a character. -/
def Subject.label : Subject → Nat → String
  | .length, key => toString key
  | .column _, key => quote key

structure Line where
  level : Nat
  text : String
  deriving DecidableEq, Repr

/-- Four spaces for each level, the text and a newline. -/
def Line.render (line : Line) : String :=
  "".pushn ' ' (4 * line.level) ++ line.text ++ "\n"

def Vocabulary.equation (names : Vocabulary) (subject : Subject) (key : Nat) : String :=
  names.subject subject ++ " == " ++ subject.label key

def Vocabulary.conjunction (names : Vocabulary) (checks : List Check) : String :=
  " && ".intercalate (checks.map fun check => names.equation (.column check.column) check.expected.toNat)

mutual

/-- The lines of a node at a level. What follows a dispatch or a comparison is reached
when none of its branches is taken. -/
def Node.lines (names : Vocabulary) (level : Nat) : Node → List Line
  | .dispatch subject .switch arms otherwise =>
    ⟨level, "switch (" ++ names.subject subject ++ ") \x7b"⟩ ::
      (caseLines names subject level arms ++ ⟨level, "\x7d"⟩ :: otherwise.lines names level)
  | .dispatch subject .ifChain arms otherwise =>
    chainLines names subject level arms ++ otherwise.lines names level
  | .verify checks word otherwise =>
    ⟨level, "if (" ++ names.conjunction checks ++ ") \x7b"⟩ ::
      ⟨level + 1, Vocabulary.verdict names.matched word⟩ ::
      ⟨level, "\x7d"⟩ :: otherwise.lines names level
  | .accept word => [⟨level, Vocabulary.verdict names.matched word⟩]
  | .guess word _ => [⟨level, Vocabulary.verdict names.guessMatch word⟩]
  | .reject => [⟨level, names.noMatch ++ "()"⟩]

def caseLines (names : Vocabulary) (subject : Subject) (level : Nat) : List (Nat × Node) → List Line
  | [] => []
  | (key, node) :: rest =>
    ⟨level, "  case " ++ subject.label key ++ ":"⟩ ::
      (node.lines names (level + 1) ++ caseLines names subject level rest)

def chainLines (names : Vocabulary) (subject : Subject) (level : Nat) : List (Nat × Node) → List Line
  | [] => []
  | (key, node) :: rest =>
    ⟨level, "if (" ++ names.equation subject key ++ ") \x7b"⟩ ::
      (node.lines names (level + 1) ++ ⟨level, "\x7d"⟩ :: chainLines names subject level rest)

end

/-- The comment that lists the words of a corpus. -/
def headerLines (level : Nat) (words : List Word) : List Line :=
  ⟨level, "/*"⟩ ::
    ⟨level, " * Generating switch for the list of " ++ toString words.length ++ " entries:"⟩ ::
    (words.map (fun word => ⟨level, " * " ++ toString word.index ++ ": " ++ word.text⟩) ++
      [⟨level, " */"⟩])

def Tree.listing (names : Vocabulary) (level : Nat) (tree : Tree) : List Line :=
  headerLines level tree.words ++ tree.root.lines names level

def Tree.render (names : Vocabulary) (level : Nat) (tree : Tree) : String :=
  String.join ((tree.listing names level).map Line.render)

end KeywordTree
