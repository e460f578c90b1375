/-! The lines of a text. -/
namespace KeywordTree.Text

def dropReturn (line : List Char) : List Char :=
  if line.getLast? = some '\r' then line.dropLast else line

/-- The lines of a text. A newline ends a line and takes a carriage return before it
along; a last line that no newline ends counts unless it is empty. -/
def lines (text : List Char) : List (List Char) :=
  let pieces := text.splitOnP (· == '\n')
  let last := pieces.getLastD []
  pieces.dropLast.map dropReturn ++ if last.isEmpty then [] else [last]

end KeywordTree.Text
