/-! Reserved words. A word is a position in the list it comes from together with a
non-empty text of the letters `a` to `z`; nothing else can be built. -/
namespace KeywordTree

inductive WordError where
  | empty
  | nonAscii
  | invalidCharacters
  deriving DecidableEq, Repr

def WordError.message : WordError → String
  | .empty => "Reserved word must not be empty"
  | .nonAscii => "Reserved word must contain only ASCII letters"
  | .invalidCharacters => "Reserved word must contain only lowercase letters"

def isLetter (code : UInt8) : Bool := 97 ≤ code && code ≤ 122

def alphabet : List UInt8 := (List.range 26).map fun i => UInt8.ofNat (97 + i)

structure Word where
  /-- The position among the entries of the list; gaps and repeats are allowed. -/
  index : Nat
  /-- The text as character codes, one per column. -/
  letters : List UInt8
  nonempty : letters ≠ []
  lower : letters.all isLetter = true
  deriving DecidableEq

namespace Word

/-- Read a text as a word. An empty text is reported before a character outside
ASCII, and that before any other character that is no lower-case letter. -/
def ofText (index : Nat) (text : String) : Except WordError Word :=
  let codes := text.toList.map Char.toUInt8
  if hne : codes ≠ [] then
    if text.toList.all fun c => c.toNat < 128 then
      if hlower : codes.all isLetter = true then .ok ⟨index, codes, hne, hlower⟩
      else .error .invalidCharacters
    else .error .nonAscii
  else .error .empty

def text (word : Word) : String := String.ofList (word.letters.map Char.ofUInt8)

def length (word : Word) : Nat := word.letters.length

/-- The code in a column; a column past the end has none. -/
def codeAt? (word : Word) (column : Nat) : Option Nat := (word.letters[column]?).map UInt8.toNat

/-- The order of a corpus: by index, and by text among equal indices. -/
def precedes (a b : Word) : Bool :=
  a.index < b.index || (a.index == b.index && decide (a.letters ≤ b.letters))

private theorem ofUInt8_toUInt8 (c : Char) (h : c.toNat < 128) : Char.ofUInt8 c.toUInt8 = c := by
  apply Char.ext
  apply UInt32.toNat_inj.mp
  change c.val.toNat % 256 = c.val.toNat
  exact Nat.mod_eq_of_lt (Nat.lt_trans h (by decide))

private theorem toUInt8_ofUInt8 (code : UInt8) : (Char.ofUInt8 code).toUInt8 = code := by
  apply UInt8.toNat_inj.mp
  change code.toNat % 256 = code.toNat
  exact Nat.mod_eq_of_lt code.toNat_lt

/-- A word has the text it was read from. -/
theorem text_of_ofText {index : Nat} {text : String} {word : Word}
    (h : ofText index text = .ok word) : word.index = index ∧ word.text = text := by
  simp only [ofText] at h
  split at h
  · split at h
    · rename_i hascii
      split at h
      · cases h
        refine ⟨rfl, ?_⟩
        simp only [Word.text, List.map_map]
        have hsame : text.toList.map (Char.ofUInt8 ∘ Char.toUInt8) = text.toList.map id := by
          apply List.map_congr_left
          intro c hc
          exact ofUInt8_toUInt8 c (by simpa using List.all_eq_true.mp hascii c hc)
        rw [hsame, List.map_id, String.ofList_toList]
      · cases h
    · cases h
  · cases h

/-- The text of a word is read back as that word. -/
theorem ofText_text (word : Word) : ofText word.index word.text = .ok word := by
  have hcodes : word.text.toList.map Char.toUInt8 = word.letters := by
    simp only [Word.text, String.toList_ofList, List.map_map]
    have hsame : word.letters.map (Char.toUInt8 ∘ Char.ofUInt8) = word.letters.map id :=
      List.map_congr_left fun code _ => toUInt8_ofUInt8 code
    rw [hsame, List.map_id]
  have hascii : (word.text.toList.all fun c => c.toNat < 128) = true := by
    simp only [Word.text, String.toList_ofList, List.all_map, List.all_eq_true]
    intro code hcode
    have hletter := List.all_eq_true.mp word.lower code hcode
    simp only [isLetter, Bool.and_eq_true, decide_eq_true_eq] at hletter
    have hbound : code.toNat ≤ 122 := UInt8.le_iff_toNat_le.mp hletter.2
    have hsame : (Char.ofUInt8 code).toNat = code.toNat := rfl
    simp only [Function.comp_apply, hsame, decide_eq_true_eq]
    omega
  simp only [ofText, hcodes, hascii, word.nonempty, word.lower, ne_eq, not_false_eq_true, ↓reduceDIte, ↓reduceIte]

end Word

end KeywordTree
