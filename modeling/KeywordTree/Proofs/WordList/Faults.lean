import KeywordTree.Proofs.WordList.Acceptance

/-! What is reported about a list that cannot be read: the first line at fault and the
first thing that is wrong with it. Nothing after that line has a part in the report. -/
namespace KeywordTree

/-- Why a text is no spelling of a word. A character outside ASCII is reported before any
other that is no letter. -/
inductive Word.Misspelt : String → WordError → Prop where
  | empty : Misspelt "" .empty
  | nonAscii {text : String} {c : Char} (hc : c ∈ text.toList) (hcode : 128 ≤ c.toNat) : Misspelt text .nonAscii
  | invalidCharacters {text : String} {c : Char} (hascii : ∀ c ∈ text.toList, c.toNat < 128) (hc : c ∈ text.toList)
      (hletter : ¬ ('a' ≤ c ∧ c ≤ 'z')) : Misspelt text .invalidCharacters

theorem Word.exists_misspelt {text : String} (h : ¬ Word.IsSpelling text) : ∃ reason, Word.Misspelt text reason := by
  by_cases hempty : text = ""
  · subst hempty
    exact ⟨_, .empty⟩
  · by_cases hascii : ∀ c ∈ text.toList, c.toNat < 128
    · have hletters : ¬ ∀ c ∈ text.toList, 'a' ≤ c ∧ c ≤ 'z' := fun hl => h ⟨hempty, hl⟩
      obtain ⟨c, hc, hl⟩ := not_forall₂.mp hletters
      exact ⟨_, .invalidCharacters hascii hc hl⟩
    · obtain ⟨c, hc, hcode⟩ := not_forall₂.mp hascii
      exact ⟨_, .nonAscii hc (Nat.not_lt.mp hcode)⟩

theorem Word.Misspelt.ofText_eq {text : String} {reason : WordError} (h : Word.Misspelt text reason) (index : Nat) :
    Word.ofText index text = .error reason := by
  cases h with
  | empty => rfl
  | @nonAscii _ c hc hcode =>
    have hpresent : text.toList.map Char.toUInt8 ≠ [] := by simpa using List.ne_nil_of_mem hc
    have hascii : ¬ (text.toList.all fun c => c.toNat < 128) = true := by
      simpa using ⟨c, hc, hcode⟩
    simp only [Word.ofText, dif_pos hpresent, if_neg hascii]
  | @invalidCharacters _ c hascii hc hletter =>
    have hpresent : text.toList.map Char.toUInt8 ≠ [] := by simpa using List.ne_nil_of_mem hc
    have hall : (text.toList.all fun c => c.toNat < 128) = true := by simpa using hascii
    have hlower : ¬ (text.toList.map Char.toUInt8).all isLetter = true := by
      intro hl
      exact hletter ((letter_iff c).mp ⟨hascii c hc, List.all_eq_true.mp hl _ (List.mem_map_of_mem hc)⟩)
    simp only [Word.ofText, dif_pos hpresent, if_pos hall, dif_neg hlower]

namespace WordList

/-- A line that holds an entry and is malformed, or enters what a line before it entered, or
is kept and enters no spelling of a word. -/
def Offends (features before : List String) (line : String) : Prop :=
  holdsEntry line = true ∧
    (¬ WellFormed line ∨ (∃ earlier ∈ before.filter holdsEntry, entered earlier = entered line) ∨
      Enabled features line ∧ ¬ Word.IsSpelling (entered line))

/-- No line offends after those before it. -/
def InOrder (features lines : List String) : Prop :=
  ∀ before line, before ++ [line] <+: lines → ¬ Offends features before line

/-- The report on a line after those before it: the first of the three things that can be
wrong with it. A repeated text is reported with the only line before that has entered it. -/
inductive Fault (features before : List String) (line : String) : ListError → Prop where
  | malformed (hform : ¬ WellFormed line) :
    Fault features before line (.malformedEntry (before.length + 1) (String.ofList (Text.trim line.toList)))
  | duplicate {above between : List String} {first : String} (hform : WellFormed line)
      (hbefore : before = above ++ first :: between) (hfirst : holdsEntry first = true)
      (hsame : entered first = entered line)
      (honly : ∀ other ∈ (above ++ between).filter holdsEntry, entered other ≠ entered line) :
    Fault features before line (.duplicateWord (before.length + 1) (above.length + 1) (entered line))
  | invalid {reason : WordError} (hform : WellFormed line)
      (hnew : ∀ earlier ∈ before.filter holdsEntry, entered earlier ≠ entered line) (hon : Enabled features line)
      (hreason : Word.Misspelt (entered line) reason) :
    Fault features before line (.invalidWord (before.length + 1) (entered line) reason)

def ListError.line? : ListError → Option Nat
  | .invalidWord line _ _ => some line
  | .malformedEntry line _ => some line
  | .duplicateWord line _ _ => some line
  | .empty => none

section Order

variable {features lines before : List String} {line : String}

theorem not_offends_iff : ¬ Offends features before line ↔ (holdsEntry line = true → WellFormed line ∧
    (∀ earlier ∈ before.filter holdsEntry, entered earlier ≠ entered line) ∧
    (Enabled features line → Word.IsSpelling (entered line))) := by
  rw [Offends, not_and]
  refine imp_congr_right fun _ => ?_
  rw [not_or, not_or, not_not, not_and, not_not]
  simp only [not_exists, not_and, ne_eq]

theorem readable_concat :
    Readable features (before ++ [line]) ↔ Readable features before ∧ ¬ Offends features before line := by
  rw [not_offends_iff]
  by_cases hline : holdsEntry line = true
  · have hfilter : (before ++ [line]).filter holdsEntry = before.filter holdsEntry ++ [line] := by
      rw [List.filter_append, List.filter_cons_of_pos hline, List.filter_nil]
    have hnodup : ((before.filter holdsEntry ++ [line]).map entered).Nodup ↔
        ((before.filter holdsEntry).map entered).Nodup ∧
          ∀ earlier ∈ before.filter holdsEntry, entered earlier ≠ entered line := by
      rw [List.map_append, List.map_singleton, List.nodup_append, List.forall_mem_map]
      simp
    constructor
    · rintro ⟨hform, hdistinct, hspelling⟩
      rw [hfilter, List.forall_mem_append, List.forall_mem_singleton] at hform hspelling
      rw [hfilter, hnodup] at hdistinct
      exact ⟨⟨hform.1, hdistinct.1, hspelling.1⟩, fun _ => ⟨hform.2, hdistinct.2, hspelling.2⟩⟩
    · rintro ⟨⟨hform, hdistinct, hspelling⟩, hn⟩
      obtain ⟨hformLine, hnew, hspellingLine⟩ := hn hline
      refine ⟨?_, ?_, ?_⟩
      · rw [hfilter, List.forall_mem_append, List.forall_mem_singleton]
        exact ⟨hform, hformLine⟩
      · rw [hfilter, hnodup]
        exact ⟨hdistinct, hnew⟩
      · rw [hfilter, List.forall_mem_append, List.forall_mem_singleton]
        exact ⟨hspelling, hspellingLine⟩
  · have hfilter : (before ++ [line]).filter holdsEntry = before.filter holdsEntry := by
      rw [List.filter_append, List.filter_cons_of_neg hline, List.filter_nil, List.append_nil]
    constructor
    · rintro ⟨hform, hdistinct, hspelling⟩
      rw [hfilter] at hform hdistinct hspelling
      exact ⟨⟨hform, hdistinct, hspelling⟩, fun hn => absurd hn hline⟩
    · rintro ⟨⟨hform, hdistinct, hspelling⟩, _⟩
      exact ⟨hfilter ▸ hform, hfilter ▸ hdistinct, hfilter ▸ hspelling⟩

theorem inOrder_concat : InOrder features (before ++ [line]) ↔ InOrder features before ∧ ¬ Offends features before line := by
  simp only [InOrder, List.prefix_concat_iff]
  constructor
  · intro h
    exact ⟨fun b l hb => h b l (.inr hb), h before line (.inl rfl)⟩
  · rintro ⟨h, hline⟩ b l (he | hb)
    · obtain ⟨rfl, hl⟩ := List.append_inj' he rfl
      obtain rfl := List.singleton_inj.mp hl
      exact hline
    · exact h b l hb

theorem inOrder_nil : InOrder features [] := by
  intro before line h
  simp at h

theorem readable_iff_inOrder : Readable features lines ↔ InOrder features lines := by
  induction lines using List.reverseRecOn with
  | nil => exact iff_of_true ⟨by simp, by simp, by simp⟩ inOrder_nil
  | append_singleton before line ih => rw [readable_concat, inOrder_concat, ih]

theorem exists_first_offence (h : ¬ InOrder features lines) :
    ∃ before line, before ++ [line] <+: lines ∧ InOrder features before ∧ Offends features before line := by
  induction lines using List.reverseRecOn with
  | nil => exact absurd inOrder_nil h
  | append_singleton before line ih =>
    by_cases hbefore : InOrder features before
    · exact ⟨before, line, List.prefix_rfl, hbefore, by_contra fun hn => h (inOrder_concat.mpr ⟨hbefore, hn⟩)⟩
    · obtain ⟨above, first, hp, hfirst⟩ := ih hbefore
      exact ⟨above, first, hp.trans (List.prefix_append before [line]), hfirst⟩

end Order

section Notes

theorem map_fst_noted (number : Nat) (lines : List String) :
    (noted (entryLines number lines)).map Prod.fst = ((lines.filter holdsEntry).map entered).reverse := by
  have htexts := congrArg (List.map fun text => String.ofList ((Text.tokens text).headD [])) (map_text_entryLines number lines)
  simp only [List.map_map, Function.comp_def, Text.tokens_trim] at htexts
  rw [noted, List.map_reverse, List.map_map]
  exact congrArg List.reverse htexts

theorem lookup_noted_eq_none {number : Nat} {lines : List String} {text : String} :
    (noted (entryLines number lines)).lookup text = none ↔ ∀ line ∈ lines.filter holdsEntry, entered line ≠ text := by
  have hfirst : (∀ note ∈ noted (entryLines number lines), (text != note.1) = true) ↔
      ∀ other ∈ (noted (entryLines number lines)).map Prod.fst, other ≠ text := by
    rw [List.forall_mem_map]
    exact forall₂_congr fun note _ => by rw [bne_iff_ne, ne_comm]
  rw [List.lookup_eq_none_iff, hfirst, map_fst_noted]
  simp only [List.mem_reverse, List.forall_mem_map]

theorem lookup_noted_eq_some (number : Nat) (above : List String) {first : String} {between : List String}
    (hfirst : holdsEntry first = true)
    (honly : ∀ other ∈ between.filter holdsEntry, entered other ≠ entered first) :
    (noted (entryLines number (above ++ first :: between))).lookup (entered first) = some (number + above.length) := by
  have hnote : noted [⟨number + above.length, Text.trim first.toList⟩] = [(entered first, number + above.length)] := by
    rw [entered, ← Text.tokens_trim]
    rfl
  rw [entryLines_append, entryLines_cons, if_pos hfirst, noted_append, ← List.singleton_append, noted_append,
    List.append_assoc, List.lookup_append, lookup_noted_eq_none.mpr honly, hnote, List.singleton_append,
    List.lookup_cons_self, Option.none_or]

end Notes

section Report

variable {features lines before : List String} {line : String} {error : ListError}

/-- A line at fault ends the reading with its report, after what the lines before it left. -/
theorem Fault.readEntries_cons (h : Fault features before line error) (index : Nat) (rest : List EntryLine) :
    readEntries features index (noted (entryLines 1 before)) (⟨before.length + 1, Text.trim line.toList⟩ :: rest) =
      .error error := by
  cases h with
  | malformed hform =>
    have hnone : Entry.ofText? (Text.trim line.toList) = none :=
      Option.eq_none_iff_forall_ne_some.mpr fun entry he => hform (wellFormed_iff.mpr ⟨entry, he⟩)
    simp only [readEntries, hnone]
  | @duplicate above between first hform hbefore hfirst hsame honly =>
    obtain ⟨entry, he⟩ := wellFormed_iff.mp hform
    have hspelled : Entry.ofText? (Text.trim line.toList) = some entry := he
    have hbetween : ∀ other ∈ between.filter holdsEntry, entered other ≠ entered first := by
      intro other hm
      rw [hsame]
      apply honly
      rw [List.filter_append]
      exact List.mem_append_right _ hm
    have hlookup : (noted (entryLines 1 before)).lookup entry.text = some (above.length + 1) := by
      rw [← he.entered_eq, ← hsame, hbefore, lookup_noted_eq_some 1 above hfirst hbetween, Nat.add_comm]
    simp only [readEntries, hspelled, hlookup, he.entered_eq]
  | @invalid reason hform hnew hon hreason =>
    obtain ⟨entry, he⟩ := wellFormed_iff.mp hform
    have hspelled : Entry.ofText? (Text.trim line.toList) = some entry := he
    have hlookup : (noted (entryLines 1 before)).lookup entry.text = none :=
      lookup_noted_eq_none.mpr (he.entered_eq ▸ hnew)
    have hword : Word.ofText index entry.text = .error reason := (he.entered_eq ▸ hreason).ofText_eq index
    simp only [readEntries, hspelled, hlookup, (he.enabled_iff features).mp hon, hword, he.entered_eq, if_true]

theorem Fault.readEntries_eq (h : Fault features before line error) (hline : holdsEntry line = true)
    (hbefore : InOrder features before) (after : List String) :
    readEntries features 0 [] (entryLines 1 (before ++ line :: after)) = .error error := by
  obtain ⟨entries, words, hreading⟩ := exists_reading_iff.mpr (readable_iff_inOrder.mpr hbefore)
  rw [entryLines_append, entryLines_cons, if_pos hline, hreading.readEntries_append, List.append_nil, Nat.add_comm 1,
    h.readEntries_cons]
  rfl

theorem exists_fault (hbefore : InOrder features before)
    (h : Offends features before line) : ∃ error, Fault features before line error := by
  by_cases hform : WellFormed line
  · by_cases hnew : ∀ earlier ∈ before.filter holdsEntry, entered earlier ≠ entered line
    · obtain hmal | ⟨earlier, hm, he⟩ | ⟨hon, hspelling⟩ := h.2
      · exact absurd hform hmal
      · exact absurd he (hnew earlier hm)
      · obtain ⟨reason, hreason⟩ := Word.exists_misspelt hspelling
        exact ⟨_, .invalid hform hnew hon hreason⟩
    · obtain ⟨first, hm, hsame⟩ := not_forall₂.mp hnew
      obtain ⟨hm, hfirst⟩ := List.mem_filter.mp hm
      obtain ⟨above, between, rfl⟩ := List.append_of_mem hm
      refine ⟨_, .duplicate hform rfl hfirst (not_not.mp hsame) fun other ho he => ?_⟩
      -- Lines in order enter a text once, so no other line can share it with the first one.
      have hdistinct := (readable_iff_inOrder.mpr hbefore).distinct
      rw [List.filter_append, List.filter_cons_of_pos hfirst, List.map_append, List.map_cons,
        List.perm_middle.nodup_iff, List.nodup_cons, ← List.map_append, ← List.filter_append] at hdistinct
      exact hdistinct.1 (List.mem_map.mpr ⟨other, ho, he.trans (not_not.mp hsame).symm⟩)
  · exact ⟨_, .malformed hform⟩

theorem Fault.line?_eq (h : Fault features before line error) : error.line? = some (before.length + 1) := by
  cases h <;> rfl

theorem parse_eq_error_iff (hne : error ≠ .empty) :
    parse lines features = .error error ↔ readEntries features 0 [] (entryLines 1 lines) = .error error := by
  rw [parse]
  cases readEntries features 0 [] (entryLines 1 lines) with
  | error error => rfl
  | ok words => cases words <;> simp [hne.symm]

/-- The error that reading ends with is the report on the first line that offends. -/
theorem parse_eq_error_iff_fault (hne : error ≠ .empty) :
    parse lines features = .error error ↔ ∃ before line, before ++ [line] <+: lines ∧ InOrder features before ∧
      Offends features before line ∧ Fault features before line error := by
  have hreport {before : List String} {line : String} {error : ListError} (hp : before ++ [line] <+: lines)
      (hbefore : InOrder features before) (ho : Offends features before line)
      (hf : Fault features before line error) : readEntries features 0 [] (entryLines 1 lines) = .error error := by
    obtain ⟨after, rfl⟩ := hp
    rw [List.append_assoc, List.singleton_append]
    exact hf.readEntries_eq ho.1 hbefore after
  rw [parse_eq_error_iff hne]
  constructor
  · intro h
    have hn : ¬ InOrder features lines := by
      rw [← readable_iff_inOrder, ← exists_readEntries_iff, h]
      simp
    obtain ⟨before, line, hp, hbefore, ho⟩ := exists_first_offence hn
    obtain ⟨error', hf⟩ := exists_fault hbefore ho
    obtain rfl : error = error' := Except.error.inj (h.symm.trans (hreport hp hbefore ho hf))
    exact ⟨before, line, hp, hbefore, ho, hf⟩
  · rintro ⟨before, line, hp, hbefore, ho, hf⟩
    exact hreport hp hbefore ho hf

theorem exists_error_iff :
    (∃ error, error ≠ .empty ∧ parse lines features = .error error) ↔ ¬ InOrder features lines := by
  rw [← readable_iff_inOrder, ← exists_readEntries_iff]
  constructor
  · rintro ⟨error, hne, h⟩ ⟨words, hok⟩
    rw [parse_eq_error_iff hne, hok] at h
    cases h
  · intro hn
    cases hr : readEntries features 0 [] (entryLines 1 lines) with
    | ok words => exact absurd ⟨words, hr⟩ hn
    | error error =>
      have hne : error ≠ .empty := by
        rintro rfl
        exact readEntries_ne_empty _ _ _ _ hr
      exact ⟨error, hne, (parse_eq_error_iff hne).mpr hr⟩

end Report

/-- What is reported about a list. An error other than having no entry that is kept is
reported exactly if some line offends; it is then the report on the first line that does,
with the number of this line and the first thing that is wrong with it, and whatever else
comes after this line the list has the same report. -/
theorem parse_reports_first_offence (lines features : List String) :
    ((∃ error, error ≠ .empty ∧ parse lines features = .error error) ↔
      ∃ before line, before ++ [line] <+: lines ∧ Offends features before line) ∧
    (∀ error, error ≠ .empty → (parse lines features = .error error ↔
      ∃ before line, before ++ [line] <+: lines ∧ InOrder features before ∧ Offends features before line ∧
        Fault features before line error)) ∧
    ∀ error n, parse lines features = .error error → error.line? = some n →
      ∀ later, parse (lines.take n ++ later) features = .error error := by
  refine ⟨?_, fun error hne => parse_eq_error_iff_fault hne, fun error n h hn later => ?_⟩
  · rw [exists_error_iff]
    simp only [InOrder, not_forall, not_not, exists_prop]
  · have hne : error ≠ .empty := by
      rintro rfl
      cases hn
    obtain ⟨before, line, hp, hbefore, ho, hf⟩ := (parse_eq_error_iff_fault hne).mp h
    obtain rfl : before.length + 1 = n := Option.some.inj (hf.line?_eq.symm.trans hn)
    have htake : lines.take (before.length + 1) = before ++ [line] := by
      rw [List.prefix_iff_eq_take.mp hp]
      simp
    refine (parse_eq_error_iff_fault hne).mpr ⟨before, line, ?_, hbefore, ho, hf⟩
    rw [htake]
    exact List.prefix_append _ _

/-- A text that is entered again, and after that a line that spells no word. -/
def faultyLines : List String := ["pub", "# raw", " mut [x]", "pub [off]", "Box"]

theorem parse_reports_first_offence_faultyLines :
    parse faultyLines [] = .error (.duplicateWord 4 1 "pub") ∧
      (∃ before line, before ++ [line] <+: faultyLines ∧ InOrder [] before ∧
        Fault [] before line (.duplicateWord 4 1 "pub")) ∧
      ∀ later, parse (["pub", "# raw", " mut [x]", "pub [off]"] ++ later) [] = .error (.duplicateWord 4 1 "pub") := by
  obtain ⟨_, hreport, hlater⟩ := parse_reports_first_offence faultyLines []
  have h : parse faultyLines [] = .error (.duplicateWord 4 1 "pub") := by decide +kernel
  obtain ⟨before, line, hp, hbefore, _, hf⟩ := (hreport _ (by simp)).mp h
  exact ⟨h, ⟨before, line, hp, hbefore, hf⟩, hlater _ 4 h rfl⟩

end WordList

end KeywordTree
