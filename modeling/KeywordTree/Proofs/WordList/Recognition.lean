import KeywordTree.Generator
import KeywordTree.Proofs.Recognition
import KeywordTree.Proofs.WordList.Entries

/-! From a word list to a recognizer. A list that reads well has a tree, and the index that
the tree reports for a text is the position of the one entry that lists it. -/
namespace KeywordTree

namespace WordList

variable {lines features : List String} {words : List Word}

theorem parse_inv (h : parse lines features = .ok words) :
    words ≠ [] ∧ ∃ entries, Reading features 0 [] (entryLines 1 lines) entries words := by
  rw [parse] at h
  cases hr : readEntries features 0 [] (entryLines 1 lines) with
  | error error => simp [hr] at h
  | ok read =>
    cases read with
    | nil => simp [hr] at h
    | cons first rest =>
      simp only [hr, Except.ok.injEq] at h
      subst h
      exact ⟨List.cons_ne_nil _ _, exists_reading hr⟩

theorem Reading.getElem?_eq {index : Nat} {earlier : List (String × Nat)} {entries : List Entry}
    (h : Reading features index earlier (entryLines 1 lines) entries words) (i : Nat) :
    ((lines.filter holdsEntry)[i]?).map (fun line => Entry.ofText? (Text.trim line.toList)) =
      (entries[i]?).map some := by
  rw [← List.getElem?_map, ← List.getElem?_map, ← map_ofText?_entryLines 1, h.spelled]

theorem Reading.listed_iff {entries : List Entry} (h : Reading features 0 [] (entryLines 1 lines) entries words)
    {i : Nat} {text : String} :
    (∃ entry, entries[i]? = some entry ∧ entry.isEnabled features = true ∧ entry.text = text) ↔
      ∃ line, (lines.filter holdsEntry)[i]? = some line ∧ Lists features text line := by
  have hi := h.getElem?_eq i
  cases hl : (lines.filter holdsEntry)[i]? with
  | none =>
    rw [hl] at hi
    simp [Option.map_eq_none_iff.mp hi.symm]
  | some line =>
    rw [hl] at hi
    obtain ⟨entry, he, hs⟩ := Option.map_eq_some_iff.mp hi.symm
    simp [he, lists_iff hs.symm]

/-- From a list to a recognizer. Where a list reads well its words have a tree under every
configuration, and a text is recognized under an index exactly if, among the lines that
hold an entry, the one at that position lists the text without a feature or with one that
is given. Entries that are not kept count as well, so an index names one line. -/
theorem recognize_eq_some_iff_lists (generator : Generator) (h : parse lines features = .ok words) :
    ∃ tree, (generator.build words).result = .ok tree ∧ ∀ (text : String) (i : Nat),
      tree.recognize text = some i ↔
        ∃ line, (lines.filter holdsEntry)[i]? = some line ∧ Lists features text line := by
  obtain ⟨hne, entries, hreading⟩ := parse_inv h
  obtain ⟨tree, ht⟩ := exists_build generator.config hne hreading.nodup
  refine ⟨tree, ht, fun text i => ?_⟩
  rw [recognize_eq_some_iff ht, hreading.mem_labels_iff, hreading.listed_iff]

/-- A list with a comment, an entry that is not kept, and one with blanks around it. -/
def sampleLines : List String := ["# words", "do", "", "using [late]", "  of\t[new] "]

theorem recognize_eq_some_iff_lists_sampleLines :
    ∃ words tree, parse sampleLines ["new"] = .ok words ∧ (({} : Generator).build words).result = .ok tree ∧
      tree.recognize "of" = some 2 ∧ tree.recognize "using" ≠ some 1 := by
  have h : parse sampleLines ["new"] =
      .ok [⟨0, [100, 111], by decide, by decide⟩, ⟨2, [111, 102], by decide, by decide⟩] := by decide +kernel
  obtain ⟨tree, ht, hiff⟩ := recognize_eq_some_iff_lists {} h
  refine ⟨_, tree, h, ht, (hiff "of" 2).mpr ⟨"  of\t[new] ", by decide +kernel, by decide +kernel⟩, ?_⟩
  intro hi
  obtain ⟨line, hl, hlists⟩ := (hiff "using" 1).mp hi
  obtain rfl : "using [late]" = line := Option.some.inj (Eq.trans (by decide +kernel) hl)
  exact absurd hlists (by decide +kernel)

end WordList

end KeywordTree
