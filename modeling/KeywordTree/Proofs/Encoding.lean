import KeywordTree.Text.Bytes
import KeywordTree.Word
import Mathlib.Logic.Basic

/-! The text of a word, its letters and its UTF-8 bytes determine each other. -/
namespace KeywordTree

theorem Text.encode_injective : Function.Injective Text.encode := by
  intro a b h
  apply String.toByteArray_inj.mp
  apply ByteArray.ext
  exact Array.toList_inj.mp h

theorem Text.length_encode (text : String) : (Text.encode text).length = text.utf8ByteSize := by
  simp [Text.encode]

namespace Word

private theorem encode_letter {code : UInt8} (h : isLetter code = true) :
    String.utf8EncodeChar (Char.ofUInt8 code) = [code] := by
  simp only [isLetter, Bool.and_eq_true, decide_eq_true_eq] at h
  have hc : code.toNat ≤ 122 := UInt8.le_iff_toNat_le.mp h.2
  have hv : (Char.ofUInt8 code).val ≤ 127 := by
    apply UInt32.le_iff_toNat_le.mpr
    change code.toNat ≤ 127
    omega
  rw [String.utf8EncodeChar_eq_singleton (Char.utf8Size_eq_one_iff.mpr hv)]
  congr 1
  apply UInt8.toNat_inj.mp
  change code.toNat % 256 = code.toNat
  exact Nat.mod_eq_of_lt code.toNat_lt

private theorem flatMap_encode_letters {letters : List UInt8} (h : letters.all isLetter = true) :
    (letters.map Char.ofUInt8).flatMap String.utf8EncodeChar = letters := by
  induction letters with
  | nil => rfl
  | cons code rest ih =>
    simp only [List.all_cons, Bool.and_eq_true] at h
    rw [List.map_cons, List.flatMap_cons, encode_letter h.1, ih h.2]
    rfl

theorem encode_ofList {letters : List UInt8} (h : letters.all isLetter = true) :
    Text.encode (String.ofList (letters.map Char.ofUInt8)) = letters := by
  rw [Text.encode, String.toUTF8_eq_toByteArray, String.toByteArray_ofList, List.utf8Encode,
    List.toList_data_toByteArray]
  exact flatMap_encode_letters h

/-- The bytes of a word's text are its letters, so columns count bytes. -/
theorem encode_text (word : Word) : Text.encode word.text = word.letters := encode_ofList word.lower

theorem length_text (word : Word) : word.text.length = word.length := by
  simp [Word.text, Word.length]

theorem toNat_of_mem_text {word : Word} {c : Char} (h : c ∈ word.text.toList) : 97 ≤ c.toNat ∧ c.toNat ≤ 122 := by
  rw [Word.text, String.toList_ofList] at h
  obtain ⟨code, hcode, rfl⟩ := List.mem_map.mp h
  have hletter := List.all_eq_true.mp word.lower code hcode
  change 97 ≤ code.toNat ∧ code.toNat ≤ 122
  simpa [isLetter, UInt8.le_iff_toNat_le] using hletter

theorem not_mem_text {c : Char} (hc : c.toNat < 97) (word : Word) : c ∉ word.text.toList := by
  intro hm
  have hletter := toNat_of_mem_text hm
  omega

theorem text_eq_iff (word : Word) (text : String) : word.text = text ↔ word.letters = Text.encode text := by
  rw [← encode_text]
  exact Text.encode_injective.eq_iff.symm

theorem text_eq_text_iff (a b : Word) : a.text = b.text ↔ a.letters = b.letters := by
  rw [text_eq_iff, encode_text]

end Word

/-- The texts that words can have: one letter or more, each from `a` to `z`. -/
def Word.IsSpelling (text : String) : Prop := text ≠ "" ∧ ∀ c ∈ text.toList, 'a' ≤ c ∧ c ≤ 'z'

/-- A character is tested by the code it would have as one byte, so it has to be ASCII first. -/
theorem letter_iff (c : Char) :
    c.toNat < 128 ∧ isLetter c.toUInt8 = true ↔ 'a' ≤ c ∧ c ≤ 'z' := by
  have hcode : c.toUInt8.toNat = c.toNat % 256 := rfl
  have hlow : 'a' ≤ c ↔ 97 ≤ c.toNat := UInt32.le_iff_toNat_le
  have hhigh : c ≤ 'z' ↔ c.toNat ≤ 122 := UInt32.le_iff_toNat_le
  simp only [isLetter, Bool.and_eq_true, decide_eq_true_eq, UInt8.le_iff_toNat_le, hcode, hlow, hhigh]
  change _ ∧ 97 ≤ _ ∧ _ ≤ 122 ↔ _
  omega

theorem Word.exists_ofText_iff (index : Nat) {text : String} :
    (∃ word, Word.ofText index text = .ok word) ↔ Word.IsSpelling text := by
  have hletters : (text.toList.all fun c => c.toNat < 128) = true ∧ (text.toList.map Char.toUInt8).all isLetter = true ↔
      ∀ c ∈ text.toList, 'a' ≤ c ∧ c ≤ 'z' := by
    simp only [List.all_map, List.all_eq_true, ← forall₂_and, decide_eq_true_eq, Function.comp_apply, letter_iff]
  have hne : text.toList.map Char.toUInt8 ≠ [] ↔ text ≠ "" := by simp
  rw [Word.IsSpelling, ← hletters, ← hne]
  simp only [Word.ofText]
  constructor
  · rintro ⟨word, h⟩
    split at h
    · rename_i hpresent
      split at h
      · rename_i hascii
        split at h
        · rename_i hlower
          exact ⟨hpresent, hascii, hlower⟩
        · cases h
      · cases h
    · cases h
  · rintro ⟨hpresent, hascii, hlower⟩
    rw [dif_pos hpresent, if_pos hascii, dif_pos hlower]
    exact ⟨_, rfl⟩

/-- A text whose bytes are letters has one character for each of them. -/
theorem Text.toList_eq_map {text : String} (h : ∀ code ∈ Text.encode text, isLetter code = true) :
    text.toList = (Text.encode text).map Char.ofUInt8 := by
  have htext := Text.encode_injective (Word.encode_ofList (List.all_eq_true.mpr h))
  calc text.toList
    _ = (String.ofList ((Text.encode text).map Char.ofUInt8)).toList := by rw [htext]
    _ = (Text.encode text).map Char.ofUInt8 := String.toList_ofList

theorem Text.forall_letter_iff {text : String} :
    (∀ c ∈ text.toList, 'a' ≤ c ∧ c ≤ 'z') ↔ ∀ code ∈ Text.encode text, isLetter code = true := by
  constructor
  · intro h
    by_cases hne : text = ""
    · rw [hne]
      intro code hm
      cases hm
    · obtain ⟨word, hw⟩ := (Word.exists_ofText_iff 0).mpr ⟨hne, h⟩
      rw [← (Word.text_of_ofText hw).2, Word.encode_text]
      exact List.all_eq_true.mp word.lower
  · intro h
    rw [Text.toList_eq_map h, List.forall_mem_map]
    intro code hm
    have hletter : 97 ≤ code.toNat ∧ code.toNat ≤ 122 := by
      simpa [isLetter, UInt8.le_iff_toNat_le] using h code hm
    exact ⟨UInt32.le_iff_toNat_le.mpr hletter.1, UInt32.le_iff_toNat_le.mpr hletter.2⟩

end KeywordTree
