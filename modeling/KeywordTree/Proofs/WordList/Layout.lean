import KeywordTree.Proofs.WordList.Acceptance

/-! The layout of a list: blank lines, comments, blanks around entries and the way lines
end. It has no part in what is read, except for the numbers of lines in a report. -/
namespace KeywordTree

namespace Text

variable {c : Char}

theorem trim_append_blank (h : isBlank c = true) (text : List Char) : trim (text ++ [c]) = trim text := by
  change ((text ++ [c]).dropWhile isBlank).rdropWhile isBlank = (text.dropWhile isBlank).rdropWhile isBlank
  rw [List.dropWhile_append]
  split
  · rename_i hall
    rw [List.isEmpty_iff.mp hall, List.dropWhile_cons_of_pos h, List.dropWhile_nil]
  · exact List.rdropWhile_concat_pos isBlank _ c h

theorem trim_trim (text : List Char) : trim (trim text) = trim text := by
  have hstart : (trim text).dropWhile isBlank = trim text := by
    rw [List.dropWhile_eq_self_iff]
    intro hl
    have hinitial : trim text <+: text.dropWhile isBlank := List.rdropWhile_prefix isBlank _
    rw [hinitial.getElem hl]
    exact List.dropWhile_eq_self_iff.mp (List.dropWhile_idempotent isBlank text) _
  change ((trim text).dropWhile isBlank).rdropWhile isBlank = trim text
  rw [hstart]
  exact List.rdropWhile_idempotent isBlank _

theorem trim_dropReturn (line : List Char) : trim (dropReturn line) = trim line := by
  rw [dropReturn]
  split
  · rename_i hlast
    have hblank : isBlank '\r' = true := by decide
    conv_rhs => rw [← List.dropLast_append_getLast? '\r' hlast, trim_append_blank hblank]
  · rfl

def withReturns (text : List Char) : List Char := text.flatMap fun c => if c = '\n' then ['\r', '\n'] else [c]

theorem splitOnP_withReturns (text : List Char) :
    List.Forall₂ (fun piece added => added = piece ∨ added = piece ++ ['\r']) (text.splitOnP (· == '\n'))
      ((withReturns text).splitOnP (· == '\n')) := by
  induction text with
  | nil => exact .cons (.inl rfl) .nil
  | cons c rest ih =>
    by_cases hc : c = '\n'
    · subst hc
      have hadded : withReturns ('\n' :: rest) = '\r' :: '\n' :: withReturns rest := rfl
      rw [hadded, List.splitOnP_cons_eq_if_modifyHead, List.splitOnP_cons_eq_if_modifyHead '\r',
        List.splitOnP_cons_eq_if_modifyHead '\n' (withReturns rest)]
      exact .cons (.inr rfl) ih
    · have hsame : withReturns (c :: rest) = c :: withReturns rest := by
        rw [withReturns, List.flatMap_cons, if_neg hc]
        rfl
      rw [hsame, List.splitOnP_cons_eq_if_modifyHead, List.splitOnP_cons_eq_if_modifyHead c,
        if_neg (by simpa using hc), if_neg (by simpa using hc)]
      -- The character goes in front of the first pieces, which differ at most at their ends.
      revert ih
      generalize rest.splitOnP (· == '\n') = pieces
      generalize (withReturns rest).splitOnP (· == '\n') = pieces'
      rintro (_ | ⟨hpiece, hpieces⟩)
      · exact .nil
      · refine .cons (hpiece.imp ?_ ?_) hpieces
        · rintro rfl
          rfl
        · rintro rfl
          rfl

theorem map_trim_withReturns (text : List Char) :
    ((withReturns text).splitOnP (· == '\n')).map trim = (text.splitOnP (· == '\n')).map trim := by
  have hpieces : List.Forall₂ (fun piece added => trim piece = trim added) (text.splitOnP (· == '\n'))
      ((withReturns text).splitOnP (· == '\n')) := by
    refine (splitOnP_withReturns text).imp ?_
    rintro piece added (rfl | rfl)
    · rfl
    · exact (trim_append_blank (by decide) piece).symm
  rw [eq_comm, ← List.forall₂_eq_eq_eq, List.forall₂_map_left_iff, List.forall₂_map_right_iff]
  exact hpieces

end Text

namespace WordList

/-- The text of the lines that hold an entry, without the blanks around it. -/
def entryTexts (lines : List String) : List (List Char) :=
  (lines.filter holdsEntry).map fun line => Text.trim line.toList

def entryNumbers (lines : List String) : List Nat :=
  ((lines.zipIdx 1).filter fun line => holdsEntry line.1).map Prod.snd

/-- Lines of two lists with these numbers hold the entry with the same position. -/
def SameEntry (lines lines' : List String) (number number' : Nat) : Prop :=
  ∃ n : Nat, (entryNumbers lines)[n]? = some number ∧ (entryNumbers lines')[n]? = some number'

/-- Errors of one kind that agree in all but the numbers of lines, and have related numbers. -/
inductive ListError.Matches (R : Nat → Nat → Prop) : ListError → ListError → Prop where
  | invalidWord {line line' : Nat} (h : R line line') (text : String) (reason : WordError) :
    Matches R (.invalidWord line text reason) (.invalidWord line' text reason)
  | malformedEntry {line line' : Nat} (h : R line line') (text : String) :
    Matches R (.malformedEntry line text) (.malformedEntry line' text)
  | duplicateWord {line line' first first' : Nat} (h : R line line') (hfirst : R first first') (text : String) :
    Matches R (.duplicateWord line first text) (.duplicateWord line' first' text)
  | empty : Matches R .empty .empty

inductive Alike (R : Nat → Nat → Prop) : Except ListError (List Word) → Except ListError (List Word) → Prop where
  | words (words : List Word) : Alike R (.ok words) (.ok words)
  | errors {error error' : ListError} (h : error.Matches R error') : Alike R (.error error) (.error error')

section Numbers

variable {R : Nat → Nat → Prop}

theorem Alike.cons {result result' : Except ListError (List Word)} (h : Alike R result result') (word : Word) :
    Alike R (result.map fun words => word :: words) (result'.map fun words => word :: words) := by
  cases h with
  | words words => exact .words (word :: words)
  | errors h => exact .errors h

theorem lookup_rel {earlier earlier' : List (String × Nat)}
    (h : List.Forall₂ (fun note note' => note.1 = note'.1 ∧ R note.2 note'.2) earlier earlier') (text : String) :
    Option.Rel R (earlier.lookup text) (earlier'.lookup text) := by
  induction h with
  | nil => exact .none
  | @cons note note' _ _ hnote _ ih =>
    obtain ⟨hsame, hrel⟩ := hnote
    rw [List.lookup_cons, List.lookup_cons, ← hsame]
    cases text == note.1 with
    | true => exact .some hrel
    | false => exact ih

/-- Reading the same texts from related lines comes to the same, also after lines that
were noted alike. -/
theorem readEntries_alike (features : List String) (index : Nat) {earlier earlier' : List (String × Nat)}
    {lines lines' : List EntryLine}
    (hlines : List.Forall₂ (fun line line' => R line.line line'.line ∧ line.text = line'.text) lines lines')
    (hearlier : List.Forall₂ (fun note note' => note.1 = note'.1 ∧ R note.2 note'.2) earlier earlier') :
    Alike R (readEntries features index earlier lines) (readEntries features index earlier' lines') := by
  induction hlines generalizing index earlier earlier' with
  | nil => exact .words []
  | @cons first first' rest rest' hfirst _ ih =>
    obtain ⟨line, text⟩ := first
    obtain ⟨line', text'⟩ := first'
    obtain ⟨hrel, rfl : text = text'⟩ := hfirst
    cases he : Entry.ofText? text with
    | none =>
      simp only [readEntries, he]
      exact .errors (.malformedEntry hrel _)
    | some entry =>
      -- Both readings note their line under the same text, so what they know stays related.
      have hlater := ih (index + 1) (.cons ⟨rfl, hrel⟩ hearlier : List.Forall₂ _ ((entry.text, line) :: earlier)
        ((entry.text, line') :: earlier'))
      have hnotes := lookup_rel hearlier entry.text
      simp only [readEntries, he]
      generalize earlier.lookup entry.text = found at hnotes ⊢
      generalize earlier'.lookup entry.text = found' at hnotes ⊢
      cases hnotes with
      | some hfirst => exact .errors (.duplicateWord hrel hfirst _)
      | none =>
        by_cases hon : entry.isEnabled features = true
        · simp only [hon, if_true]
          cases Word.ofText index entry.text with
          | error reason => exact .errors (.invalidWord hrel _ reason)
          | ok word => exact hlater.cons word
        · simp only [hon, Bool.false_eq_true, if_false]
          exact hlater

end Numbers

section Lines

variable {lines lines' : List String}

theorem map_line_entryLines (lines : List String) : (entryLines 1 lines).map EntryLine.line = entryNumbers lines := by
  rw [entryLines_eq_map, List.map_map]
  rfl

theorem forall₂_entryLines (h : entryTexts lines = entryTexts lines') :
    List.Forall₂ (fun line line' => SameEntry lines lines' line.line line'.line ∧ line.text = line'.text)
      (entryLines 1 lines) (entryLines 1 lines') := by
  have htexts : (entryLines 1 lines).map EntryLine.text = (entryLines 1 lines').map EntryLine.text := by
    rw [map_text_entryLines, map_text_entryLines]
    exact h
  rw [List.forall₂_iff_get]
  refine ⟨by simpa using congrArg List.length htexts, fun n hn hn' => ⟨⟨n, ?_, ?_⟩, ?_⟩⟩
  · rw [← map_line_entryLines, List.getElem?_map, List.getElem?_eq_getElem hn]
    rfl
  · rw [← map_line_entryLines, List.getElem?_map, List.getElem?_eq_getElem hn']
    rfl
  · have htext := congrArg (fun texts => texts[n]?) htexts
    simpa [List.getElem?_eq_getElem hn, List.getElem?_eq_getElem hn'] using htext

theorem parse_alike (features : List String) (h : entryTexts lines = entryTexts lines') :
    Alike (SameEntry lines lines') (parse lines features) (parse lines' features) := by
  have hread := readEntries_alike features 0 (forall₂_entryLines h) .nil
  rw [parse, parse]
  generalize readEntries features 0 [] (entryLines 1 lines) = result at hread ⊢
  generalize readEntries features 0 [] (entryLines 1 lines') = result' at hread ⊢
  cases hread with
  | errors h => exact .errors h
  | words words =>
    cases words with
    | nil => exact .errors .empty
    | cons word words => exact .words (word :: words)

theorem entryLines_congr (number : Nat)
    (h : lines.map (fun line => Text.trim line.toList) = lines'.map fun line => Text.trim line.toList) :
    entryLines number lines = entryLines number lines' := by
  induction lines generalizing lines' number with
  | nil =>
    obtain rfl := List.map_eq_nil_iff.mp h.symm
    rfl
  | cons line rest ih =>
    cases lines' with
    | nil => cases h
    | cons line' rest' =>
      obtain ⟨hline : Text.trim line.toList = Text.trim line'.toList, hrest⟩ := List.cons.inj h
      have hholds : holdsEntry line = holdsEntry line' := by
        rw [holdsEntry, hline, holdsEntry]
      rw [entryLines_cons, entryLines_cons, hholds, hline, ih (number + 1) hrest]

theorem parse_congr (features : List String) (h : entryLines 1 lines = entryLines 1 lines') :
    parse lines features = parse lines' features := by
  rw [parse, parse, h]

end Lines

section Contents

variable {pieces pieces' : List (List Char)}

theorem entryLines_map_ofList (number : Nat) (h : pieces.map Text.trim = pieces'.map Text.trim) :
    entryLines number (pieces.map String.ofList) = entryLines number (pieces'.map String.ofList) := by
  apply entryLines_congr
  simpa [Function.comp_def] using h

/-- The lines of a text hold the entries of the pieces between its newlines: a carriage
return at the end of a line is a blank, and so is a last piece that is no line. -/
theorem entryLines_lines (number : Nat) (text : List Char) :
    entryLines number ((Text.lines text).map String.ofList) =
      entryLines number ((text.splitOnP (· == '\n')).map String.ofList) := by
  obtain ⟨body, last, hpieces⟩ : ∃ body last, text.splitOnP (· == '\n') = body ++ [last] :=
    ⟨_, _, (List.dropLast_concat_getLast (List.splitOnP_ne_nil _ text)).symm⟩
  have hbody : entryLines number ((body.map Text.dropReturn).map String.ofList) =
      entryLines number (body.map String.ofList) := by
    apply entryLines_map_ofList
    rw [List.map_map]
    exact List.map_congr_left fun line _ => Text.trim_dropReturn line
  have hlast (number : Nat) : entryLines number ((if last.isEmpty then [] else [last]).map String.ofList) =
      entryLines number [String.ofList last] := by
    cases last with
    | nil => rfl
    | cons c rest => rfl
  rw [Text.lines, hpieces]
  simp only [List.dropLast_concat, List.getLastD_concat, List.map_append, entryLines_append, List.length_map, hbody,
    hlast, List.map_singleton]

theorem parseText_eq (content : String) (features : List String) :
    parseText content features = parse ((content.toList.splitOnP (· == '\n')).map String.ofList) features :=
  parse_congr features (entryLines_lines 1 content.toList)

end Contents

/-- Layout does not matter. Lists with the same entries give the same words, or are both
empty, or have errors that differ in nothing but the numbers of lines, which then are those
of the same entries. The content of a file can have a carriage return put before every
newline, a newline put at its end, or the blanks around its lines taken off, whether the
lines are handed over as such or are those of another content, and even errors stay as they
are. -/
theorem parse_layout_independent (features : List String) :
    (∀ lines lines', entryTexts lines = entryTexts lines' →
      Alike (SameEntry lines lines') (parse lines features) (parse lines' features)) ∧
    ∀ content : String,
      parseText (String.ofList (Text.withReturns content.toList)) features = parseText content features ∧
      parseText (content ++ "\n") features = parseText content features ∧
      parse ((Text.lines content.toList).map fun line => String.ofList (Text.trim line)) features =
        parseText content features ∧
      ∀ content' : String, (Text.lines content'.toList).map Text.trim = (Text.lines content.toList).map Text.trim →
        parseText content' features = parseText content features := by
  refine ⟨fun lines lines' h => parse_alike features h, fun content => ⟨?_, ?_, ?_, fun content' h => ?_⟩⟩
  · rw [parseText_eq, parseText_eq, String.toList_ofList]
    exact parse_congr features (entryLines_map_ofList 1 (Text.map_trim_withReturns content.toList))
  · rw [parseText_eq, parseText_eq, String.toList_append]
    refine parse_congr features ?_
    have hsplit : (content.toList ++ "\n".toList).splitOnP (· == '\n') =
        content.toList.splitOnP (· == '\n') ++ [[]] := List.splitOnP_append_cons content.toList [] rfl
    rw [hsplit, List.map_append, entryLines_append]
    exact List.append_nil _
  · refine parse_congr features ?_
    have htrimmed : ((Text.lines content.toList).map Text.trim).map Text.trim = (Text.lines content.toList).map Text.trim := by
      simp [Function.comp_def, Text.trim_trim]
    have hmap := entryLines_map_ofList 1 htrimmed
    rwa [List.map_map] at hmap
  · exact parse_congr features (entryLines_map_ofList 1 h)

/-- An entry that is repeated. -/
def denseLines : List String := ["let", "let"]

/-- The same entries, with other lines between them and blanks around them. -/
def airyLines : List String := ["", "  let", "# let", "let\t"]

theorem parse_layout_independent_airyLines :
    entryTexts denseLines = entryTexts airyLines ∧
      Alike (SameEntry denseLines airyLines) (parse denseLines []) (parse airyLines []) ∧
      parse denseLines [] = .error (.duplicateWord 2 1 "let") ∧
      parse airyLines [] = .error (.duplicateWord 4 2 "let") ∧
      (Text.lines " let\r\nlet ".toList).map Text.trim = (Text.lines "let\n\tlet\n".toList).map Text.trim ∧
      parseText " let\r\nlet " [] = parseText "let\n\tlet\n" [] := by
  have hsame : entryTexts denseLines = entryTexts airyLines := by decide +kernel
  have hlines : (Text.lines " let\r\nlet ".toList).map Text.trim = (Text.lines "let\n\tlet\n".toList).map Text.trim := by
    decide +kernel
  obtain ⟨hlists, hcontents⟩ := parse_layout_independent []
  exact ⟨hsame, hlists _ _ hsame, by decide +kernel, by decide +kernel, hlines, (hcontents _).2.2.2 _ hlines⟩

end WordList

end KeywordTree
