import KeywordTree.Text.Blank
import KeywordTree.Text.Lines
import KeywordTree.Word
import KeywordTree.WordList.Standard

/-! Reading a word list. A list has one entry a line, `word` or `word [feature]`; blank
lines and lines that start with `#` are skipped. An entry's index is its position among
all entries, so an entry whose feature is off leaves a gap. -/
namespace KeywordTree.WordList

/-- What is wrong with a list. Lines are numbered from one. -/
inductive ListError where
  | invalidWord (line : Nat) (text : String) (reason : WordError)
  | malformedEntry (line : Nat) (text : String)
  | duplicateWord (line firstLine : Nat) (text : String)
  | empty
  deriving DecidableEq, Repr

namespace ListError

def message : ListError → String
  | invalidWord line text reason =>
    "Line " ++ toString line ++ ": invalid reserved word '" ++ text ++ "': " ++ reason.message
  | malformedEntry line text =>
    "Line " ++ toString line ++ ": expected `word` or `word [feature]`, got '" ++ text ++ "'"
  | duplicateWord line firstLine text =>
    "Line " ++ toString line ++ ": '" ++ text ++ "' already listed on line " ++ toString firstLine
  | empty => "Word list has no enabled entries"

def source? : ListError → Option String
  | invalidWord _ _ reason => some reason.message
  | _ => none

end ListError

/-- A line that holds an entry: its number and its text without blanks around it. -/
structure EntryLine where
  line : Nat
  text : List Char
  deriving DecidableEq, Repr

def entryLines (line : Nat) : List String → List EntryLine
  | [] => []
  | raw :: rest =>
    let text := Text.trim raw.toList
    if text.isEmpty || text.head? == some '#' then entryLines (line + 1) rest
    else ⟨line, text⟩ :: entryLines (line + 1) rest

structure Entry where
  text : String
  feature? : Option String
  deriving DecidableEq, Repr

/-- What stands in a pair of square brackets, unless that is nothing. -/
def bracketed? : List Char → Option (List Char)
  | '[' :: rest =>
    if rest.getLast? = some ']' ∧ rest.dropLast ≠ [] then some rest.dropLast else none
  | _ => none

/-- Read `word` or `word [feature]`. -/
def Entry.ofText? (text : List Char) : Option Entry :=
  match Text.tokens text with
  | [word] => some ⟨String.ofList word, none⟩
  | [word, tag] => (bracketed? tag).map fun feature => ⟨String.ofList word, some (String.ofList feature)⟩
  | _ => none

/-- An entry is kept if it has no feature or one of the given ones. -/
def Entry.isEnabled (features : List String) (entry : Entry) : Bool :=
  match entry.feature? with
  | none => true
  | some feature => features.contains feature

/-- Read entry lines in order. The index of the next entry and the texts of all earlier
entries, with their lines, are given. -/
def readEntries (features : List String) (index : Nat) (earlier : List (String × Nat)) :
    List EntryLine → Except ListError (List Word)
  | [] => .ok []
  | ⟨line, text⟩ :: rest =>
    match Entry.ofText? text with
    | none => .error (.malformedEntry line (String.ofList text))
    | some entry =>
      match earlier.lookup entry.text with
      | some firstLine => .error (.duplicateWord line firstLine entry.text)
      | none =>
        let later := readEntries features (index + 1) ((entry.text, line) :: earlier) rest
        if entry.isEnabled features then
          match Word.ofText index entry.text with
          | .error reason => .error (.invalidWord line entry.text reason)
          | .ok word => later.map fun words => word :: words
        else later

def parse (lines features : List String) : Except ListError (List Word) :=
  match readEntries features 0 [] (entryLines 1 lines) with
  | .error error => .error error
  | .ok [] => .error .empty
  | .ok words => .ok words

def parseText (text : String) (features : List String) : Except ListError (List Word) :=
  parse ((Text.lines text.toList).map String.ofList) features

def standard (features : List String) : Except ListError (List Word) := parse standardLines features

end KeywordTree.WordList
