import KeywordTree.Proofs.WordList.Recognition
import Mathlib.Data.List.Forall2

/-! Which word lists can be read, said of their lines alone, and what reading them gives. -/
namespace KeywordTree

namespace WordList

def entered (line : String) : String := String.ofList ((Text.tokens line.toList).headD [])

/-- A line has one part, or two of which the second is a name in square brackets. -/
def WellFormed (line : String) : Prop :=
  ∃ word, Text.tokens line.toList = [word] ∨
    ∃ feature, feature ≠ [] ∧ Text.tokens line.toList = [word, '[' :: feature ++ [']']]

/-- A line has no feature, or one of those given. -/
def Enabled (features : List String) (line : String) : Prop := Lists features (entered line) line

instance (features : List String) (line : String) : Decidable (Enabled features line) :=
  inferInstanceAs (Decidable (Lists features (entered line) line))

/-- The demands on a list apart from having an entry that is kept. Entries that are not
kept have to be well formed and new, but may be no spelling of a word. -/
structure Readable (features lines : List String) : Prop where
  wellFormed : ∀ line ∈ lines.filter holdsEntry, WellFormed line
  distinct : ((lines.filter holdsEntry).map entered).Nodup
  spelling : ∀ line ∈ lines.filter holdsEntry, Enabled features line → Word.IsSpelling (entered line)

/-- The lines that are kept, each as its position among the lines that hold an entry and
its first part. -/
def keptLabels (features lines : List String) : List (Nat × String) :=
  ((lines.filter holdsEntry).zipIdx.filter fun line => Enabled features line.1).map fun line =>
    (line.2, entered line.1)

theorem Spells.entered_eq {line : String} {entry : Entry} (h : Spells line entry) : entered line = entry.text := by
  rw [entered, h.tokens_eq, Entry.spelling, List.headD_cons, String.ofList_toList]

theorem Spells.enabled_iff {line : String} {entry : Entry} (h : Spells line entry) (features : List String) :
    Enabled features line ↔ entry.isEnabled features = true := by
  rw [Enabled, lists_iff h, h.entered_eq]
  simp

theorem wellFormed_iff {line : String} : WellFormed line ↔ ∃ entry, Spells line entry := by
  simp only [WellFormed, Spells, Entry.ofText?_eq_some_iff, Text.tokens_trim]
  constructor
  · rintro ⟨word, ht | ⟨feature, hne, ht⟩⟩
    · exact ⟨⟨String.ofList word, none⟩, by simp [Entry.spelling, ht]⟩
    · exact ⟨⟨String.ofList word, some (String.ofList feature)⟩, by simp [Entry.spelling, ht], by simpa using hne⟩
  · rintro ⟨⟨text, feature?⟩, ht, hne⟩
    refine ⟨text.toList, ?_⟩
    cases feature? with
    | none => exact .inl (by simpa [Entry.spelling] using ht)
    | some feature => exact .inr ⟨feature.toList, by simpa using hne, by simpa [Entry.spelling] using ht⟩

section Spelled

variable {lines : List String} {entries : List Entry}

theorem exists_spelled_iff : (∃ entries, List.Forall₂ Spells lines entries) ↔ ∀ line ∈ lines, WellFormed line := by
  induction lines with
  | nil => exact iff_of_true ⟨[], .nil⟩ (by simp)
  | cons line rest ih =>
    rw [List.forall_mem_cons, ← ih, wellFormed_iff]
    constructor
    · rintro ⟨_, _ | ⟨h, hrest⟩⟩
      exact ⟨⟨_, h⟩, _, hrest⟩
    · rintro ⟨⟨entry, h⟩, entries, hrest⟩
      exact ⟨entry :: entries, .cons h hrest⟩

theorem map_entered (h : List.Forall₂ Spells lines entries) : lines.map entered = entries.map Entry.text := by
  induction h with
  | nil => rfl
  | cons hline _ ih => rw [List.map_cons, List.map_cons, ih, hline.entered_eq]

theorem forall_spelling_iff (h : List.Forall₂ Spells lines entries) (features : List String) :
    (∀ line ∈ lines, Enabled features line → Word.IsSpelling (entered line)) ↔
      ∀ entry ∈ entries, entry.isEnabled features = true → Word.IsSpelling entry.text := by
  induction h with
  | nil => simp
  | cons hline _ ih =>
    rw [List.forall_mem_cons, List.forall_mem_cons, ih, hline.enabled_iff, hline.entered_eq]

theorem labels_kept (h : List.Forall₂ Spells lines entries) (features : List String) (index : Nat) :
    ((lines.zipIdx index).filter fun line => Enabled features line.1).map (fun line => (line.2, entered line.1)) =
      (kept features index entries).map fun entry => (entry.2, entry.1.text) := by
  induction h generalizing index with
  | nil => rfl
  | @cons line entry _ _ hline _ ih =>
    rw [List.zipIdx_cons, List.filter_cons, kept_cons, List.map_append, ← ih]
    by_cases hon : entry.isEnabled features = true
    · simp [hon, (hline.enabled_iff features).mpr hon, hline.entered_eq]
    · simp [hon, mt (hline.enabled_iff features).mp hon]

theorem spelled_iff (number : Nat) : (entryLines number lines).map (fun line => Entry.ofText? line.text) =
    entries.map some ↔ List.Forall₂ Spells (lines.filter holdsEntry) entries := by
  rw [map_ofText?_entryLines, ← List.forall₂_eq_eq_eq, List.forall₂_map_left_iff, List.forall₂_map_right_iff]
  rfl

end Spelled

theorem exists_words_iff {items : List (Entry × Nat)} :
    (∃ words : List Word, items.map (fun item => Word.ofText item.2 item.1.text) = words.map .ok) ↔
      ∀ item ∈ items, Word.IsSpelling item.1.text := by
  induction items with
  | nil => exact iff_of_true ⟨[], rfl⟩ (by simp)
  | cons item rest ih =>
    rw [List.forall_mem_cons, ← ih, ← Word.exists_ofText_iff item.2]
    constructor
    · rintro ⟨words, h⟩
      cases words with
      | nil => cases h
      | cons word words =>
        obtain ⟨hword, hrest⟩ := List.cons.inj h
        exact ⟨⟨word, hword⟩, words, hrest⟩
    · rintro ⟨⟨word, hword⟩, words, hrest⟩
      exact ⟨word :: words, by rw [List.map_cons, List.map_cons, hword, hrest]⟩

section Kept

variable (features : List String) (index : Nat) (entries : List Entry)

theorem map_fst_kept : (kept features index entries).map Prod.fst = entries.filter (Entry.isEnabled features) :=
  map_fst_filter_zipIdx (Entry.isEnabled features) entries index

theorem pairwise_snd_kept : ((kept features index entries).map Prod.snd).Pairwise (· < ·) := by
  have hsub : ((kept features index entries).map Prod.snd).Sublist ((entries.zipIdx index).map Prod.snd) :=
    List.filter_sublist.map _
  rw [List.zipIdx_map_snd] at hsub
  exact (List.pairwise_lt_range').sublist hsub

theorem forall_mem_kept {P : Entry → Prop} : (∀ item ∈ kept features index entries, P item.1) ↔
    ∀ entry ∈ entries, entry.isEnabled features = true → P entry := by
  rw [← List.forall_mem_map, map_fst_kept, List.forall_mem_filter]

end Kept

section Reading

variable {lines features : List String} {entries : List Entry} {words : List Word}

theorem Reading.pairwise_index {index : Nat} {earlier : List (String × Nat)} {numbered : List EntryLine}
    (h : Reading features index earlier numbered entries words) : (words.map Word.index).Pairwise (· < ·) := by
  have hindex : words.map Word.index = (kept features index entries).map Prod.snd := by
    simpa [Function.comp_def] using congrArg (List.map Prod.fst) h.labels
  rw [hindex]
  exact pairwise_snd_kept features index entries

theorem Reading.labels_eq (h : Reading features 0 [] (entryLines 1 lines) entries words) :
    words.map (fun word => (word.index, word.text)) = keptLabels features lines := by
  rw [h.labels, keptLabels]
  exact (labels_kept ((spelled_iff 1).mp h.spelled) features 0).symm

theorem exists_reading_iff :
    (∃ entries words, Reading features 0 [] (entryLines 1 lines) entries words) ↔ Readable features lines := by
  constructor
  · rintro ⟨entries, words, h⟩
    have hspelled := (spelled_iff 1).mp h.spelled
    refine ⟨exists_spelled_iff.mp ⟨entries, hspelled⟩, ?_, ?_⟩
    · rw [map_entered hspelled]
      exact h.distinct
    · apply (forall_spelling_iff hspelled features).mpr
      exact (forall_mem_kept features 0 entries).mp (exists_words_iff.mp ⟨words, h.words_eq⟩)
  · intro h
    obtain ⟨entries, hspelled⟩ := exists_spelled_iff.mpr h.wellFormed
    have hspelling := (forall_spelling_iff hspelled features).mp h.spelling
    obtain ⟨words, hwords⟩ := exists_words_iff.mpr ((forall_mem_kept features 0 entries).mpr hspelling)
    refine ⟨entries, words, (spelled_iff 1).mpr hspelled, ?_, fun _ _ => rfl, hwords⟩
    rw [← map_entered hspelled]
    exact h.distinct

theorem readEntries_ne_empty (features : List String) (index : Nat) (earlier : List (String × Nat))
    (lines : List EntryLine) : readEntries features index earlier lines ≠ .error .empty := by
  induction lines generalizing index earlier with
  | nil => simp [readEntries]
  | cons first rest ih =>
    obtain ⟨line, text⟩ := first
    cases he : Entry.ofText? text with
    | none => simp [readEntries, he]
    | some entry =>
      cases hl : earlier.lookup entry.text with
      | some firstLine => simp [readEntries, he, hl]
      | none =>
        have hlater := ih (index + 1) ((entry.text, line) :: earlier)
        simp only [readEntries, he, hl]
        cases hr : readEntries features (index + 1) ((entry.text, line) :: earlier) rest with
        | error error =>
          rw [hr] at hlater
          split
          · cases Word.ofText index entry.text with
            | error reason => simp
            | ok word => exact hlater
          · exact hlater
        | ok words =>
          split
          · cases Word.ofText index entry.text with
            | error reason => simp
            | ok word => simp [Except.map]
          · simp

end Reading

section Parsing

variable {lines features : List String} {words : List Word}

theorem parse_eq_ok_iff : parse lines features = .ok words ↔
    words ≠ [] ∧ readEntries features 0 [] (entryLines 1 lines) = .ok words := by
  rw [parse]
  cases readEntries features 0 [] (entryLines 1 lines) with
  | error error => simp
  | ok read =>
    cases read with
    | nil => simp
    | cons first rest =>
      simp only [Except.ok.injEq, iff_and_self]
      rintro rfl
      exact List.cons_ne_nil _ _

theorem parse_eq_empty_iff : parse lines features = .error .empty ↔
    readEntries features 0 [] (entryLines 1 lines) = .ok [] := by
  rw [parse]
  cases hr : readEntries features 0 [] (entryLines 1 lines) with
  | error error =>
    have hne := readEntries_ne_empty features 0 [] (entryLines 1 lines)
    rw [hr] at hne
    exact iff_of_false hne (by simp)
  | ok read => cases read <;> simp

theorem exists_readEntries_iff :
    (∃ words, readEntries features 0 [] (entryLines 1 lines) = .ok words) ↔ Readable features lines := by
  rw [← exists_reading_iff]
  constructor
  · rintro ⟨words, h⟩
    obtain ⟨entries, hreading⟩ := exists_reading h
    exact ⟨entries, words, hreading⟩
  · rintro ⟨entries, words, hreading⟩
    exact ⟨words, hreading.readEntries_eq⟩

theorem keptLabels_eq_nil_iff :
    keptLabels features lines = [] ↔ ∀ line ∈ lines.filter holdsEntry, ¬ Enabled features line := by
  rw [keptLabels, List.map_eq_nil_iff, List.filter_eq_nil_iff]
  simp only [decide_eq_true_eq]
  rw [← List.forall_mem_map (f := Prod.fst) (P := fun line => ¬ Enabled features line), List.zipIdx_map_fst]

theorem eq_nil_iff_of_readEntries (h : readEntries features 0 [] (entryLines 1 lines) = .ok words) :
    words = [] ↔ ∀ line ∈ lines.filter holdsEntry, ¬ Enabled features line := by
  obtain ⟨entries, hreading⟩ := exists_reading h
  rw [← keptLabels_eq_nil_iff, ← hreading.labels_eq, List.map_eq_nil_iff]

end Parsing

/-- Which lists are accepted, and what they come to. A list is read exactly if every line
that holds an entry is well formed, no two of them begin with the same part, what begins a
line that is kept is the spelling of a word, and some line is kept. The words are then the
lines that are kept, in order, each under its position among all lines that hold an entry.
If only the last demand is not met, and in no other case, the list is reported as empty. -/
theorem parse_accepts_iff (lines features : List String) :
    ((∃ words, parse lines features = .ok words) ↔
      Readable features lines ∧ ∃ line ∈ lines.filter holdsEntry, Enabled features line) ∧
    (∀ words, parse lines features = .ok words →
      words.map (fun word => (word.index, word.text)) = keptLabels features lines ∧
      (words.map Word.index).Pairwise (· < ·) ∧ (words.map Word.text).Nodup) ∧
    (parse lines features = .error .empty ↔
      Readable features lines ∧ ∀ line ∈ lines.filter holdsEntry, ¬ Enabled features line) := by
  refine ⟨?_, ?_, ?_⟩
  · rw [← exists_readEntries_iff]
    simp only [parse_eq_ok_iff]
    constructor
    · rintro ⟨words, hne, h⟩
      have hkept := mt (eq_nil_iff_of_readEntries h).mpr hne
      push Not at hkept
      exact ⟨⟨words, h⟩, hkept⟩
    · rintro ⟨⟨words, h⟩, line, hm, hon⟩
      exact ⟨words, fun hnil => (eq_nil_iff_of_readEntries h).mp hnil line hm hon, h⟩
  · intro words h
    obtain ⟨_, entries, hreading⟩ := parse_inv h
    exact ⟨hreading.labels_eq, hreading.pairwise_index, hreading.nodup⟩
  · rw [parse_eq_empty_iff, ← exists_readEntries_iff]
    constructor
    · intro h
      exact ⟨⟨[], h⟩, (eq_nil_iff_of_readEntries h).mp rfl⟩
    · rintro ⟨⟨words, h⟩, hnone⟩
      obtain rfl := (eq_nil_iff_of_readEntries h).mpr hnone
      exact h

/-- An entry that is not kept and spells no word, a comment, and an entry with blanks around it. -/
def looseLines : List String := ["Re-do [off]", "#do", "\u2003go "]

theorem parse_accepts_iff_looseLines : Readable [] looseLines ∧ ∃ words, parse looseLines [] = .ok words ∧
    words.map (fun word => (word.index, word.text)) = [(1, "go")] ∧ parse looseLines ["off"] ≠ .error .empty := by
  obtain ⟨haccepted, hlabels, _⟩ := parse_accepts_iff looseLines []
  have hread : (parse looseLines []).toOption.isSome = true := by decide +kernel
  cases h : parse looseLines [] with
  | error error =>
    rw [h] at hread
    cases hread
  | ok words =>
    have hkept : keptLabels [] looseLines = [(1, "go")] := by decide +kernel
    refine ⟨(haccepted.mp ⟨words, h⟩).1, words, rfl, (hlabels words h).1.trans hkept, ?_⟩
    intro hempty
    obtain ⟨_, hnone⟩ := (parse_accepts_iff looseLines ["off"]).2.2.mp hempty
    exact absurd hnone (by decide +kernel)

end WordList

end KeywordTree
