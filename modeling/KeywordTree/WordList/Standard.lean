/-! The word list that needs no file. -/
namespace KeywordTree.WordList

/-- The reserved words of JavaScript, with comments and features as in a file. -/
def standardLines : List String := [
  "# Reserved words recognized by the JavaScript tokenizer.",
  "#",
  "# One entry per line. The entry's index is its ordinal position among the",
  "# entries of this file. An entry followed by `[feature]` is only included when",
  "# that feature is passed to the reader.",
  "",
  "false", "true", "null", "break", "case", "catch", "class", "const", "continue", "debugger",
  "default", "delete", "do", "else", "enum", "export", "extends", "finally", "for", "function",
  "if", "import", "in", "instanceof", "new", "return", "super", "switch", "this", "throw", "try",
  "typeof", "var", "void", "while", "with", "implements", "interface", "package", "private",
  "protected", "public", "as", "async", "await", "from", "get", "let", "meta", "of", "set",
  "static", "target", "yield",
  "using [explicit-resource-management]",
  "accessor [decorators]"]

end KeywordTree.WordList
