import KeywordTree.Report.Number
import KeywordTree.Tree.Census
import KeywordTree.Verification

/-! The reports of the three commands, as text for a terminal. -/
namespace KeywordTree.Report

inductive Style where
  | green
  | yellow
  | cyan
  | brightYellow
  | boldGreen
  | boldYellow
  | boldRed
  | boldBrightCyan
  deriving DecidableEq, Repr

def Style.codes : Style → String
  | .green => "32"
  | .yellow => "33"
  | .cyan => "36"
  | .brightYellow => "93"
  | .boldGreen => "1;32"
  | .boldYellow => "1;33"
  | .boldRed => "1;31"
  | .boldBrightCyan => "1;96"

def reset : String := "\x1b[0m"

/-- Text in a style, if there is colour at all. A reset inside the text is followed by
the style again. -/
def paint (color : Bool) (style : Style) (text : String) : String :=
  let start := "\x1b[" ++ style.codes ++ "m"
  if color then start ++ text.replace reset (reset ++ start) ++ reset else text

def unlines (lines : List String) : String := String.join (lines.map (· ++ "\n"))

structure Generated where
  output : String
  words : Nat
  bytes : Nat
  census : Census
  deriving DecidableEq, Repr

def standardOutput : String := "-"

def Generated.report (color : Bool) (generated : Generated) : String :=
  let destination := if generated.output = standardOutput then "stdout" else generated.output
  unlines <|
    (paint color .boldGreen "Generated" ++ " " ++ toString generated.words ++ " reserved words → " ++
      paint color .brightYellow destination ++ " (" ++ byteCount generated.bytes ++ ")") ::
    (if generated.census.guessed = 0 then []
    else ["   " ++ paint color .yellow "note:" ++ " " ++ toString generated.census.guessed ++
      " leaves skip their tail comparison"])

/-- A title between two rules, after an empty line. -/
def heading (color : Bool) (title : String) : List String :=
  let rule := paint color .cyan ("".pushn '═' 60)
  ["", rule, " " ++ paint color .boldBrightCyan title ++ " ", rule]

def shownFailures : Nat := 20

/-- The counts of a verification, as far as its report shows them. -/
structure Findings where
  wordsChecked : Nat
  wordsGuessed : Nat
  probesChecked : Nat
  falseGuesses : Nat
  failures : List String
  deriving DecidableEq, Repr

def Findings.of (verification : Verification) : Findings where
  wordsChecked := verification.wordsChecked
  wordsGuessed := verification.wordsGuessed
  probesChecked := verification.probesChecked
  falseGuesses := verification.falseGuesses
  failures := verification.failures.map Failure.message

def Findings.report (color : Bool) (findings : Findings) (millis : Nat) : String :=
  unlines <| heading color "VERIFICATION" ++
    ["",
      "   Words checked:    " ++ toString findings.wordsChecked,
      "   Guessed words:    " ++ toString findings.wordsGuessed ++ " (" ++
        fixed 1 (percentage findings.wordsGuessed findings.wordsChecked) ++ "%)",
      "   Probes checked:   " ++ toString findings.probesChecked,
      "   False guesses:    " ++ paint color .yellow (toString findings.falseGuesses) ++ " (" ++
        fixed 2 (percentage findings.falseGuesses findings.probesChecked) ++ "% of probes)",
      "   Time taken:       " ++ fixed 2 (seconds millis) ++ "s",
      ""] ++
    (if findings.failures.isEmpty then [paint color .boldGreen "✅ Decision tree verified"]
    else
      paint color .boldRed ("❌ " ++ toString findings.failures.length ++ " failures") ::
        (findings.failures.take shownFailures).map ("   " ++ ·))

/-- One line for a word length, with a bar in proportion to the largest count. -/
def lengthLine (color : Bool) (largest : Nat) (group : Nat × Nat) : String :=
  "   " ++ padLeft 2 ' ' (toString group.1) ++ ": " ++
    paint color .green (bar (Float.ofNat group.2) (Float.ofNat largest) 30) ++ " " ++
    padLeft 3 ' ' (toString group.2)

def summaryReport (color : Bool) (summary : Summary) : String :=
  let largest := (summary.lengths.map Prod.snd).foldl max 0
  unlines <| heading color "DECISION TREE" ++
    ["",
      "📊 " ++ paint color .boldBrightCyan "Shape:",
      "   Words:            " ++ toString summary.totalWords,
      "   Nodes:            " ++ toString summary.census.nodes,
      "   Max depth:        " ++ toString summary.census.maxDepth,
      "   Switches:         " ++ toString summary.census.switches,
      "   If-chains:        " ++ toString summary.census.ifChains,
      "   Tail comparisons: " ++ toString summary.census.verifies,
      "   Guess leaves:     " ++ paint color .yellow (toString summary.census.guessed),
      "",
      "📈 " ++ paint color .boldBrightCyan "Lengths:"] ++
    summary.lengths.map (lengthLine color largest) ++
    (if summary.guessed.isEmpty then []
    else "" :: ("⚠️  " ++ paint color .boldYellow "Guessed words:") ::
      summary.guessed.map fun guess =>
        "   " ++ guess.1 ++ " (" ++ toString guess.2 ++ " columns unverified)")

end KeywordTree.Report
