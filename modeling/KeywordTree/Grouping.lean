import KeywordTree.Word
import KeywordTree.Error

/-! Dividing words by a number read off each of them. The groups come in ascending
order of their key, and inside a group the words keep the order they had. -/
namespace KeywordTree

/-- Insert into a strictly ascending list; a member stays as it is. -/
def insertKey (key : Nat) : List Nat → List Nat
  | [] => [key]
  | first :: rest =>
    if key < first then key :: first :: rest
    else if key = first then first :: rest
    else first :: insertKey key rest

theorem mem_insertKey {key k : Nat} {keys : List Nat} : k ∈ insertKey key keys ↔ k = key ∨ k ∈ keys := by
  induction keys with
  | nil => simp [insertKey]
  | cons first rest ih => grind [insertKey]

theorem pairwise_insertKey (key : Nat) {keys : List Nat} (h : keys.Pairwise (· < ·)) :
    (insertKey key keys).Pairwise (· < ·) := by
  induction keys with
  | nil => simp [insertKey]
  | cons first rest ih => grind [insertKey, mem_insertKey, List.pairwise_cons]

/-- The different members of a list in ascending order. -/
def ascending (keys : List Nat) : List Nat := keys.foldr insertKey []

theorem mem_ascending {k : Nat} {keys : List Nat} : k ∈ ascending keys ↔ k ∈ keys := by
  induction keys with
  | nil => simp [ascending]
  | cons first rest ih => simpa [ascending, mem_insertKey] using or_congr_right ih

theorem pairwise_ascending (keys : List Nat) : (ascending keys).Pairwise (· < ·) := by
  induction keys with
  | nil => simp [ascending]
  | cons first rest ih => exact pairwise_insertKey first ih

/-- One group for each key that occurs. -/
def groupBy (key : Word → Nat) (words : List Word) : List (Nat × List Word) :=
  (ascending (words.map key)).map fun k => (k, words.filter fun word => key word == k)

def byLength (words : List Word) : List (Nat × List Word) := groupBy Word.length words

/-- The codes of all words in a column, in order, if every word has that column. -/
def codesAt (words : List Word) (column : Nat) : Except BuildError (List Nat) :=
  if words.all fun word => column < word.length then
    .ok (words.map fun word => (word.codeAt? column).getD 0)
  else .error (.pastEnd column)

def byColumn (words : List Word) (column : Nat) : Except BuildError (List (Nat × List Word)) :=
  (codesAt words column).map fun _ => groupBy (fun word => (word.codeAt? column).getD 0) words

/-- A corpus in its canonical order: by index, then by text. -/
def canonical (words : List Word) : List Word := words.mergeSort Word.precedes

end KeywordTree
