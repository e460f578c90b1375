import KeywordTree.Proofs.Encoding
import KeywordTree.Proofs.Probes
import Mathlib.Data.Finset.Card

/-! What the failures of a verification are. Nothing is assumed of the tree here: its words
may be repeated and its nodes may be anything. -/
namespace KeywordTree

/-- The word is led to its own index, for certain or by a guess. -/
def Tree.Directs (tree : Tree) (word : Word) : Prop :=
  ∃ found : Word, found.index = word.index ∧
    (tree.evaluate (Text.encode word.text) = .accepted found ∨ tree.evaluate (Text.encode word.text) = .guessed found)

/-- A text of letters that is no word, but as long as one and other than it in one position only. -/
structure Mistyped (words : List Word) (text : String) : Prop where
  letters : ∀ c ∈ text.toList, 'a' ≤ c ∧ c ≤ 'z'
  not_word : ∀ word ∈ words, word.text ≠ text
  near : ∃ word ∈ words, text.length = word.text.length ∧ ∃! k : Nat, text.toList[k]? ≠ word.text.toList[k]?

theorem Outcome.index?_eq_some_iff {outcome : Outcome} {i : Nat} :
    outcome.index? = some i ↔ ∃ found : Word, found.index = i ∧ (outcome = .accepted found ∨ outcome = .guessed found) := by
  cases outcome <;> simp [Outcome.index?, Outcome.word?]

section Words

variable {tree : Tree} {word : Word}

theorem directs_iff : tree.Directs word ↔ (tree.evaluate word.letters).index? = some word.index := by
  rw [Tree.Directs, Word.encode_text, Outcome.index?_eq_some_iff]

instance (tree : Tree) : DecidablePred tree.Directs := fun _ => decidable_of_iff _ directs_iff.symm

theorem wordFailure?_isSome_iff : (tree.wordFailure? word).isSome = true ↔ ¬ tree.Directs word := by
  rw [directs_iff, Tree.wordFailure?]
  split <;> simp_all

end Words

section Texts

variable {words : List Word} {text : String}

/-- Character by character is byte by byte. -/
theorem differs_iff {word : Word} (h : ∀ code ∈ Text.encode text, isLetter code = true) :
    (text.length = word.text.length ∧ ∃! k : Nat, text.toList[k]? ≠ word.text.toList[k]?) ↔
      ∃ k, word.DiffersAt k (Text.encode text) := by
  have hcode : Function.Injective Char.ofUInt8 := fun a b he => by
    apply UInt8.toNat_inj.mp
    exact congrArg Char.toNat he
  have hlength : text.length = (Text.encode text).length := by
    rw [← String.length_toList, Text.toList_eq_map h, List.length_map]
  have hsame (k : Nat) : text.toList[k]? = word.text.toList[k]? ↔ (Text.encode text)[k]? = word.letters[k]? := by
    rw [Text.toList_eq_map h, Word.text, String.toList_ofList, List.getElem?_map, List.getElem?_map]
    exact (Option.map_injective hcode).eq_iff
  simp only [ne_eq, hsame, hlength, Word.length_text]
  constructor
  · rintro ⟨he, k, hk, hu⟩
    exact ⟨k, he, hk, fun j hj => not_not.mp fun hn => hj (hu j hn)⟩
  · rintro ⟨k, he, hk, hs⟩
    exact ⟨he, k, hk, fun j hj => not_not.mp fun hn => hj (hs j hn)⟩

theorem mistyped_iff_nearMiss : Mistyped words text ↔ NearMiss words (Text.encode text) := by
  have hword (word : Word) : word.text ≠ text ↔ word.letters ≠ Text.encode text := (word.text_eq_iff text).not
  constructor
  · rintro ⟨hletters, hn, word, hw, hnear⟩
    have hcodes := Text.forall_letter_iff.mp hletters
    exact ⟨hcodes, fun word hm => (hword word).mp (hn word hm), word, hw, (differs_iff hcodes).mp hnear⟩
  · rintro ⟨hcodes, hn, word, hw, hnear⟩
    exact ⟨Text.forall_letter_iff.mpr hcodes, fun word hm => (hword word).mpr (hn word hm), word, hw,
      (differs_iff hcodes).mpr hnear⟩

end Texts

section Verdict

variable {tree : Tree} {probe : Candidate}

theorem probeFailure?_isSome_iff :
    (tree.probeFailure? probe).isSome = true ↔ (tree.evaluate probe).confirm probe ≠ none := by
  rw [Tree.probeFailure?]
  cases tree.evaluate probe with
  | accepted word => simp [Outcome.confirm]
  | guessed word =>
    by_cases he : word.letters = probe <;> simp [Outcome.confirm, he]
  | rejected => simp [Outcome.confirm]

def Tree.mistaken (tree : Tree) : List Candidate :=
  (probes tree.words []).filter fun probe => (tree.probeFailure? probe).isSome

theorem mem_mistaken {text : String} :
    Text.encode text ∈ tree.mistaken ↔ Mistyped tree.words text ∧ tree.recognize text ≠ none := by
  rw [Tree.mistaken, List.mem_filter, mem_probes_nil_iff, probeFailure?_isSome_iff, mistyped_iff_nearMiss]
  rfl

theorem encode_text_of_mistaken (h : probe ∈ tree.mistaken) : Text.encode (Candidate.text probe) = probe := by
  have hnear := mem_probes_nil_iff.mp (List.mem_filter.mp h).1
  exact Word.encode_ofList (List.all_eq_true.mpr hnear.letters)

theorem mem_map_text_mistaken {text : String} :
    text ∈ tree.mistaken.map Candidate.text ↔ Mistyped tree.words text ∧ tree.recognize text ≠ none := by
  rw [← mem_mistaken, List.mem_map]
  constructor
  · rintro ⟨probe, hp, rfl⟩
    rwa [encode_text_of_mistaken hp]
  · intro hm
    exact ⟨Text.encode text, hm, Text.encode_injective (encode_text_of_mistaken hm)⟩

theorem mistaken_eq_nil_iff :
    tree.mistaken = [] ↔ ∀ text, Mistyped tree.words text → tree.recognize text = none := by
  have htexts : tree.mistaken.map Candidate.text = [] ↔ tree.mistaken = [] := List.map_eq_nil_iff
  simp only [← htexts, List.eq_nil_iff_forall_not_mem, mem_map_text_mistaken, not_and, not_not]

theorem nodup_map_text_mistaken (tree : Tree) : (tree.mistaken.map Candidate.text).Nodup := by
  refine List.Nodup.map_on (fun a ha b hb he => ?_) ((nodup_probes tree.words []).filter _)
  rw [← encode_text_of_mistaken ha, he, encode_text_of_mistaken hb]

theorem length_failures (tree : Tree) :
    (tree.verify []).failures.length = (tree.words.countP fun word => ¬ tree.Directs word) + tree.mistaken.length := by
  rw [Tree.verify, List.length_append, List.length_filterMap_eq_countP, List.length_filterMap_eq_countP,
    Tree.mistaken, ← List.countP_eq_length_filter]
  congr 1
  apply List.countP_congr
  intro word _
  rw [wordFailure?_isSome_iff, decide_eq_true_eq]

end Verdict

/-- What a verification without draws says of any tree at all. It passes exactly if every
word is led to its own index and no text that misses a word by one letter is recognised.
There is one failure for each entry among the words that is led elsewhere, and one for each
of these texts that is recognised. -/
theorem verify_passed_iff (tree : Tree) :
    ((tree.verify []).passed = true ↔ (∀ word ∈ tree.words, tree.Directs word) ∧
      ∀ text, Mistyped tree.words text → tree.recognize text = none) ∧
    ∃ mistaken : Finset String, (∀ text, text ∈ mistaken ↔ Mistyped tree.words text ∧ tree.recognize text ≠ none) ∧
      (tree.verify []).failures.length = (tree.words.countP fun word => ¬ tree.Directs word) + mistaken.card := by
  refine ⟨?_, (tree.mistaken.map Candidate.text).toFinset, fun text => ?_, ?_⟩
  · rw [← mistaken_eq_nil_iff, Verification.passed, List.isEmpty_iff, ← List.length_eq_zero_iff, length_failures,
      Nat.add_eq_zero_iff, List.length_eq_zero_iff, List.countP_eq_zero]
    simp
  · rw [List.mem_toFinset, mem_map_text_mistaken]
  · rw [List.toFinset_card_of_nodup (nodup_map_text_mistaken tree), List.length_map, length_failures]

end KeywordTree
