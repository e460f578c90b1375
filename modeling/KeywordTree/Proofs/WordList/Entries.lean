import KeywordTree.WordList.Basic
import Mathlib.Data.List.DropRight
import Mathlib.Data.List.Nodup

/-! What a word list says, apart from how it is read: which lines hold an entry, how an
entry is spelled, and which words a list with all its entries comes to. -/
namespace KeywordTree

namespace Text

variable {c : Char}

theorem tokens_append_blank (h : isBlank c = true) (before after : List Char) :
    tokens (before ++ c :: after) = tokens before ++ tokens after := by
  rw [tokens, List.splitOnP_append_cons before after h, List.filter_append]
  rfl

private theorem tokens_dropWhile (text : List Char) : tokens (text.dropWhile isBlank) = tokens text := by
  induction text with
  | nil => rfl
  | cons c rest ih =>
    by_cases hc : isBlank c = true
    · rw [List.dropWhile_cons_of_pos hc, ih]
      exact (tokens_append_blank hc [] rest).symm
    · rw [List.dropWhile_cons_of_neg hc]

private theorem tokens_rdropWhile (text : List Char) : tokens (text.rdropWhile isBlank) = tokens text := by
  induction text using List.reverseRecOn with
  | nil => rfl
  | append_singleton rest c ih =>
    by_cases hc : isBlank c = true
    · rw [List.rdropWhile_concat_pos isBlank rest c hc, ih, tokens_append_blank hc]
      exact (List.append_nil _).symm
    · rw [List.rdropWhile_concat_neg isBlank rest c hc]

theorem tokens_trim (text : List Char) : tokens (trim text) = tokens text := by
  rw [← tokens_dropWhile text, ← tokens_rdropWhile (text.dropWhile isBlank)]
  rfl

end Text

namespace WordList

/-- A line holds an entry unless it is blank or starts, after blanks, with `#`. -/
def holdsEntry (line : String) : Bool :=
  !((Text.trim line.toList).isEmpty || (Text.trim line.toList).head? == some '#')

theorem entryLines_cons (number : Nat) (line : String) (rest : List String) :
    entryLines number (line :: rest) =
      if holdsEntry line then ⟨number, Text.trim line.toList⟩ :: entryLines (number + 1) rest
      else entryLines (number + 1) rest := by
  rw [entryLines, holdsEntry]
  cases (Text.trim line.toList).isEmpty || (Text.trim line.toList).head? == some '#' with
  | false => rfl
  | true => rfl

theorem entryLines_eq_map (number : Nat) (lines : List String) :
    entryLines number lines = ((lines.zipIdx number).filter fun line => holdsEntry line.1).map fun line =>
      ⟨line.2, Text.trim line.1.toList⟩ := by
  induction lines generalizing number with
  | nil => rfl
  | cons line rest ih =>
    rw [entryLines_cons, List.zipIdx_cons, List.filter_cons, ih]
    cases holdsEntry line with
    | false => rfl
    | true => rfl

theorem map_fst_filter_zipIdx {α : Type} (keep : α → Bool) (items : List α) (index : Nat) :
    ((items.zipIdx index).filter fun item => keep item.1).map Prod.fst = items.filter keep := by
  have hfilter := List.filter_map (f := Prod.fst) (p := keep) (l := items.zipIdx index)
  rw [List.zipIdx_map_fst] at hfilter
  exact hfilter.symm

theorem map_text_entryLines (number : Nat) (lines : List String) :
    (entryLines number lines).map EntryLine.text =
      (lines.filter holdsEntry).map fun line => Text.trim line.toList := by
  rw [entryLines_eq_map, List.map_map, ← map_fst_filter_zipIdx holdsEntry lines number, List.map_map]
  rfl

theorem entryLines_append (number : Nat) (before after : List String) :
    entryLines number (before ++ after) = entryLines number before ++ entryLines (number + before.length) after := by
  simp only [entryLines_eq_map, List.zipIdx_append, List.filter_append, List.map_append]

theorem map_ofText?_entryLines (number : Nat) (lines : List String) :
    (entryLines number lines).map (fun line => Entry.ofText? line.text) =
      (lines.filter holdsEntry).map fun line => Entry.ofText? (Text.trim line.toList) := by
  have htexts := congrArg (List.map Entry.ofText?) (map_text_entryLines number lines)
  rwa [List.map_map, List.map_map] at htexts

/-- The parts that an entry is written in: its word, and its feature in square brackets. -/
def Entry.spelling (entry : Entry) : List (List Char) :=
  entry.text.toList :: (entry.feature?.map fun feature => '[' :: feature.toList ++ [']']).toList

theorem bracketed?_eq_some_iff {tag feature : List Char} :
    bracketed? tag = some feature ↔ tag = '[' :: feature ++ [']'] ∧ feature ≠ [] := by
  constructor
  · intro h
    unfold bracketed? at h
    split at h
    · rename_i rest
      split at h
      · rename_i hlast
        obtain rfl := Option.some.inj h
        refine ⟨?_, hlast.2⟩
        rw [List.cons_append, List.dropLast_append_getLast? ']' hlast.1]
      · cases h
    · cases h
  · rintro ⟨rfl, hne⟩
    simp [bracketed?, hne]

/-- An entry is read from its spelling only, and a feature has a name. -/
theorem Entry.ofText?_eq_some_iff {text : List Char} {entry : Entry} :
    Entry.ofText? text = some entry ↔ Text.tokens text = entry.spelling ∧ entry.feature? ≠ some "" := by
  obtain ⟨word, feature?⟩ := entry
  rw [Entry.ofText?, Entry.spelling]
  constructor
  · intro h
    split at h
    · rename_i token ht
      obtain ⟨rfl, rfl⟩ := Entry.mk.inj (Option.some.inj h)
      simp [ht]
    · rename_i token tag ht
      obtain ⟨feature, hf, he⟩ := Option.map_eq_some_iff.mp h
      obtain ⟨rfl, rfl⟩ := Entry.mk.inj he
      obtain ⟨rfl, hne⟩ := bracketed?_eq_some_iff.mp hf
      simp [ht, hne]
    · cases h
  · rintro ⟨ht, hne⟩
    rw [ht]
    cases feature? with
    | none => simp
    | some feature =>
      have hf : bracketed? ('[' :: feature.toList ++ [']']) = some feature.toList :=
        bracketed?_eq_some_iff.mpr ⟨rfl, by simpa using hne⟩
      simp only [Option.map_some, Option.toList_some, hf, String.ofList_toList]

theorem Entry.spelling_injective : Function.Injective Entry.spelling := by
  rintro ⟨text, feature?⟩ ⟨text', feature?'⟩ h
  obtain ⟨htext, hfeature⟩ := List.cons.inj h
  obtain rfl : text = text' := String.toList_inj.mp htext
  obtain rfl : feature? = feature?' := by
    cases feature? <;> cases feature?' <;> simp_all [String.toList_inj]
  rfl

theorem Entry.isEnabled_iff {features : List String} {entry : Entry} :
    entry.isEnabled features = true ↔ entry.feature? = none ∨ ∃ feature ∈ features, entry.feature? = some feature := by
  rw [Entry.isEnabled]
  cases entry.feature? with
  | none => simp
  | some feature => simp

/-- A line lists a text: the text is all it says, or it adds one of the features. -/
def Lists (features : List String) (text : String) (line : String) : Prop :=
  Text.tokens line.toList = [text.toList] ∨
    ∃ feature ∈ features, Text.tokens line.toList = [text.toList, '[' :: feature.toList ++ [']']]

instance (features : List String) (text line : String) : Decidable (Lists features text line) :=
  inferInstanceAs (Decidable (_ ∨ ∃ feature ∈ features, _))

/-- A line spells an entry in the parts it has without the blanks around it. -/
def Spells (line : String) (entry : Entry) : Prop := Entry.ofText? (Text.trim line.toList) = some entry

theorem Spells.tokens_eq {line : String} {entry : Entry} (h : Spells line entry) :
    Text.tokens line.toList = entry.spelling := by
  rw [← Text.tokens_trim]
  exact (Entry.ofText?_eq_some_iff.mp h).1

theorem lists_iff {features : List String} {text line : String} {entry : Entry} (h : Spells line entry) :
    Lists features text line ↔ entry.isEnabled features = true ∧ entry.text = text := by
  rw [Lists, h.tokens_eq, Entry.isEnabled_iff]
  constructor
  · rintro (he | ⟨feature, hf, he⟩)
    · obtain rfl : entry = ⟨text, none⟩ := Entry.spelling_injective he
      exact ⟨.inl rfl, rfl⟩
    · obtain rfl : entry = ⟨text, some feature⟩ := Entry.spelling_injective he
      exact ⟨.inr ⟨feature, hf, rfl⟩, rfl⟩
  · rintro ⟨hnone | ⟨feature, hf, hsome⟩, rfl⟩
    · exact .inl (by simp [Entry.spelling, hnone])
    · exact .inr ⟨feature, hf, by simp [Entry.spelling, hsome]⟩

/-- The entries that are kept, each with its index: its position among all entries. -/
def kept (features : List String) (index : Nat) (entries : List Entry) : List (Entry × Nat) :=
  (entries.zipIdx index).filter fun entry => entry.1.isEnabled features

/-- A list that reads well: every line spells an entry, no word is entered twice, also
where it is not kept, nor entered earlier, and the words are those of the entries kept. -/
structure Reading (features : List String) (index : Nat) (earlier : List (String × Nat)) (lines : List EntryLine)
    (entries : List Entry) (words : List Word) : Prop where
  spelled : lines.map (fun line => Entry.ofText? line.text) = entries.map some
  distinct : (entries.map Entry.text).Nodup
  fresh : ∀ entry ∈ entries, earlier.lookup entry.text = none
  words_eq : (kept features index entries).map (fun entry => Word.ofText entry.2 entry.1.text) = words.map .ok

section Reading

variable {features : List String} {index : Nat} {earlier : List (String × Nat)} {lines : List EntryLine}
  {entries : List Entry} {words : List Word}

theorem kept_cons (features : List String) (index : Nat) (entry : Entry) (entries : List Entry) :
    kept features index (entry :: entries) =
      (if entry.isEnabled features then [(entry, index)] else []) ++ kept features (index + 1) entries := by
  rw [kept, List.zipIdx_cons, List.filter_cons]
  split
  · rfl
  · rfl

theorem Reading.cons {line : Nat} {text : List Char} {entry : Entry} {head : List Word}
    (he : Entry.ofText? text = some entry) (hl : earlier.lookup entry.text = none)
    (hhead : (if entry.isEnabled features then [Word.ofText index entry.text] else []) = head.map .ok)
    (h : Reading features (index + 1) ((entry.text, line) :: earlier) lines entries words) :
    Reading features index earlier (⟨line, text⟩ :: lines) (entry :: entries) (head ++ words) where
  spelled := by rw [List.map_cons, List.map_cons, h.spelled, he]
  distinct := by
    refine List.nodup_cons.mpr ⟨?_, h.distinct⟩
    intro hm
    -- The entry itself is among what is earlier for those after it, kept or not.
    obtain ⟨later, hlater, ht⟩ := List.mem_map.mp hm
    have hnone := h.fresh later hlater
    simp [ht] at hnone
  fresh := by
    intro later hm
    rcases List.mem_cons.mp hm with rfl | hm
    · exact hl
    · have hnone := h.fresh later hm
      rw [List.lookup_cons] at hnone
      split at hnone
      · cases hnone
      · exact hnone
  words_eq := by
    rw [kept_cons, List.map_append, List.map_append, ← hhead, h.words_eq]
    split
    · rfl
    · rfl

theorem exists_reading (h : readEntries features index earlier lines = .ok words) :
    ∃ entries, Reading features index earlier lines entries words := by
  induction lines generalizing index earlier words with
  | nil =>
    obtain rfl : [] = words := Except.ok.inj h
    exact ⟨[], rfl, List.nodup_nil, by simp, rfl⟩
  | cons first rest ih =>
    obtain ⟨line, text⟩ := first
    rw [readEntries] at h
    cases he : Entry.ofText? text with
    | none => simp [he] at h
    | some entry =>
      cases hl : earlier.lookup entry.text with
      | some firstLine => simp [he, hl] at h
      | none =>
        simp only [he, hl] at h
        split at h
        · rename_i hon
          cases hw : Word.ofText index entry.text with
          | error reason => simp [hw] at h
          | ok word =>
            cases hr : readEntries features (index + 1) ((entry.text, line) :: earlier) rest with
            | error error => simp [hw, hr, Except.map] at h
            | ok later =>
              simp only [hw, hr, Except.map, Except.ok.injEq] at h
              subst h
              obtain ⟨entries, hreading⟩ := ih hr
              have hhead : (if entry.isEnabled features then [Word.ofText index entry.text] else []) =
                  [word].map .ok := by
                rw [if_pos hon, hw, List.map_singleton]
              exact ⟨entry :: entries, hreading.cons he hl hhead⟩
        · -- An entry that is not kept only takes up an index.
          rename_i hoff
          obtain ⟨entries, hreading⟩ := ih h
          have hhead : (if entry.isEnabled features then [Word.ofText index entry.text] else []) =
              ([] : List Word).map .ok := if_neg hoff
          exact ⟨entry :: entries, hreading.cons he hl hhead⟩

theorem Reading.of_cons {line : Nat} {text : List Char}
    (h : Reading features index earlier (⟨line, text⟩ :: lines) entries words) :
    ∃ entry others head rest, entries = entry :: others ∧ words = head ++ rest ∧
      Entry.ofText? text = some entry ∧ earlier.lookup entry.text = none ∧
      (if entry.isEnabled features then [Word.ofText index entry.text] else []) = head.map .ok ∧
      Reading features (index + 1) ((entry.text, line) :: earlier) lines others rest := by
  cases entries with
  | nil => cases h.spelled
  | cons entry others =>
    obtain ⟨he, hspelled⟩ := List.cons.inj h.spelled
    obtain ⟨hnew, hdistinct⟩ := List.nodup_cons.mp h.distinct
    obtain ⟨hfresh, hlater⟩ := List.forall_mem_cons.mp h.fresh
    have hwords := h.words_eq
    rw [kept_cons, List.map_append] at hwords
    obtain ⟨head, rest, rfl, hhead, hrest⟩ := List.append_eq_map_iff.mp hwords
    refine ⟨entry, others, head, rest, rfl, rfl, he, hfresh, ?_, hspelled, hdistinct, ?_, hrest.symm⟩
    · rw [hhead]
      split
      · rfl
      · rfl
    · intro later hm
      have hne : later.text ≠ entry.text := fun ht => hnew (ht ▸ List.mem_map_of_mem hm)
      rw [List.lookup_cons, beq_false_of_ne hne]
      exact hlater later hm

/-- What is known after some lines: the texts that they enter, each with its line, the last
one first. -/
def noted (lines : List EntryLine) : List (String × Nat) :=
  (lines.map fun line => (String.ofList ((Text.tokens line.text).headD []), line.line)).reverse

theorem noted_append (before after : List EntryLine) : noted (before ++ after) = noted after ++ noted before := by
  rw [noted, List.map_append, List.reverse_append]
  rfl

theorem Reading.readEntries_append (h : Reading features index earlier lines entries words) (rest : List EntryLine) :
    readEntries features index earlier (lines ++ rest) =
      (readEntries features (index + lines.length) (noted lines ++ earlier) rest).map fun later => words ++ later := by
  induction lines generalizing index earlier entries words with
  | nil =>
    obtain rfl : entries = [] := List.map_eq_nil_iff.mp h.spelled.symm
    obtain rfl : words = [] := List.map_eq_nil_iff.mp h.words_eq.symm
    exact (congrFun Except.map_id _).symm
  | cons first lines ih =>
    obtain ⟨line, text⟩ := first
    obtain ⟨entry, others, head, tail, rfl, rfl, he, hl, hhead, hrest⟩ := h.of_cons
    have htext : String.ofList ((Text.tokens text).headD []) = entry.text := by
      rw [(Entry.ofText?_eq_some_iff.mp he).1, Entry.spelling, List.headD_cons, String.ofList_toList]
    -- The note on the first line stands below those on the lines after it, and above all earlier ones.
    have hnoted : noted (⟨line, text⟩ :: lines) ++ earlier = noted lines ++ (entry.text, line) :: earlier := by
      rw [← List.singleton_append, noted_append, List.append_assoc, ← htext]
      rfl
    rw [hnoted, List.length_cons, ← Nat.add_assoc, Nat.add_right_comm]
    simp only [List.cons_append, readEntries, he, hl, ih hrest]
    generalize readEntries features _ _ rest = result
    by_cases hon : entry.isEnabled features = true
    · rw [if_pos hon] at hhead ⊢
      obtain ⟨word, rfl, hword⟩ := List.map_eq_singleton_iff.mp hhead.symm
      rw [← hword]
      cases result <;> rfl
    · rw [if_neg hon] at hhead ⊢
      obtain rfl : head = [] := List.map_eq_nil_iff.mp hhead.symm
      rfl

theorem Reading.readEntries_eq (h : Reading features index earlier lines entries words) :
    readEntries features index earlier lines = .ok words := by
  have happend := h.readEntries_append []
  rw [List.append_nil, readEntries] at happend
  rw [happend, Except.map, List.append_nil]

private theorem labels_of_map_ofText {items : List (Entry × Nat)}
    (h : items.map (fun entry => Word.ofText entry.2 entry.1.text) = words.map .ok) :
    words.map (fun word => (word.index, word.text)) = items.map fun entry => (entry.2, entry.1.text) := by
  induction items generalizing words with
  | nil =>
    obtain rfl := List.map_eq_nil_iff.mp h.symm
    rfl
  | cons item rest ih =>
    cases words with
    | nil => cases h
    | cons word others =>
      obtain ⟨hword, hothers⟩ := List.cons.inj h
      obtain ⟨hindex, htext⟩ := Word.text_of_ofText hword
      rw [List.map_cons, List.map_cons, ih hothers, hindex, htext]

/-- The words are the entries kept, in order, under their positions among all entries. -/
theorem Reading.labels (h : Reading features index earlier lines entries words) :
    words.map (fun word => (word.index, word.text)) =
      (kept features index entries).map fun entry => (entry.2, entry.1.text) :=
  labels_of_map_ofText h.words_eq

theorem Reading.nodup (h : Reading features index earlier lines entries words) : (words.map Word.text).Nodup := by
  have htexts : words.map Word.text = (kept features index entries).map fun entry => entry.1.text := by
    simpa [Function.comp_def] using congrArg (List.map Prod.snd) h.labels
  have hall : (entries.zipIdx index).map (fun entry => entry.1.text) = entries.map Entry.text := by
    have hfirst := congrArg (List.map Entry.text) (List.zipIdx_map_fst index entries)
    rwa [List.map_map] at hfirst
  rw [htexts]
  refine List.Nodup.sublist (List.filter_sublist.map _) ?_
  rw [hall]
  exact h.distinct

theorem Reading.mem_labels_iff (h : Reading features 0 earlier lines entries words) {i : Nat} {text : String} :
    (∃ word ∈ words, word.index = i ∧ word.text = text) ↔
      ∃ entry, entries[i]? = some entry ∧ entry.isEnabled features = true ∧ entry.text = text := by
  have hlabels : (∃ word ∈ words, word.index = i ∧ word.text = text) ↔
      (i, text) ∈ words.map fun word => (word.index, word.text) := by
    simp
  rw [hlabels, h.labels, List.mem_map]
  constructor
  · rintro ⟨⟨entry, _⟩, hm, he⟩
    obtain ⟨rfl, rfl⟩ := Prod.mk.inj he
    obtain ⟨hm, hon⟩ := List.mem_filter.mp hm
    exact ⟨entry, List.mk_mem_zipIdx_iff_getElem?.mp hm, hon, rfl⟩
  · rintro ⟨entry, hi, hon, rfl⟩
    exact ⟨(entry, i), List.mem_filter.mpr ⟨List.mk_mem_zipIdx_iff_getElem?.mpr hi, hon⟩, rfl⟩

end Reading

end WordList

end KeywordTree
