import KeywordTree.Listing
import KeywordTree.Proofs.Encoding
import KeywordTree.Text.Lines
import Mathlib.Tactic.SplitIfs

/-! The lines of a listing as lines of its text. What a listing says on a line has no end of
line in it, so the text can be taken apart into the lines it was put together from. -/
namespace KeywordTree

private theorem toList_indent (n : Nat) : ("".pushn ' ' n).toList = List.replicate n ' ' := by
  rw [String.pushn_eq_repeat_push]
  induction n with
  | zero => rfl
  | succ n ih => rw [Nat.repeat, String.toList_push, ih, List.replicate_succ']

theorem Line.toList_render (line : Line) :
    line.render.toList = List.replicate (4 * line.level) ' ' ++ (line.text.toList ++ ['\n']) := by
  simp [Line.render, toList_indent]

def OneLine (text : String) : Prop := '\n' ∉ text.toList

theorem oneLine_append {a b : String} : OneLine (a ++ b) ↔ OneLine a ∧ OneLine b := by
  simp [OneLine]

theorem OneLine.between {before text after : String} (ht : OneLine text) (hb : OneLine before) (ha : OneLine after) :
    OneLine (before ++ text ++ after) :=
  oneLine_append.mpr ⟨oneLine_append.mpr ⟨hb, ht⟩, ha⟩

theorem not_mem_decimal {c : Char} (hc : c.isDigit = false) (n : Nat) : c ∉ Nat.toDigits 10 n := by
  intro hm
  have hdigit := Nat.isDigit_of_mem_toDigits (by decide) (by decide) hm
  rw [hc] at hdigit
  cases hdigit

/-- A character that no number has and that is no mark between the parts of a phrase. -/
structure Foreign (c : Char) : Prop where
  digit : c.isDigit = false
  mark : c ∉ "()=& /*".toList

theorem Foreign.decimal {c : Char} (hc : Foreign c) (n : Nat) : c ∉ (toString n).toList := by
  rw [Nat.toString_eq_ofList_toDigits, String.toList_ofList]
  exact not_mem_decimal hc.digit n

theorem foreign_newline : Foreign '\n' := ⟨rfl, by decide⟩

theorem oneLine_toString (n : Nat) : OneLine (toString n) := foreign_newline.decimal n

theorem oneLine_text (word : Word) : OneLine word.text := word.not_mem_text (by decide)

theorem not_mem_toDigits {base : Nat} (hb : 1 < base) {c : Char} (hc : ∀ digit, Nat.digitChar digit ≠ c) (n : Nat) :
    c ∉ Nat.toDigits base n := by
  induction n using Nat.strongRecOn with
  | ind n ih =>
    by_cases hn : n < base
    · rw [Nat.toDigits_of_lt_base hn, List.mem_singleton]
      exact (hc n).symm
    · rw [Nat.toDigits_of_base_le hb (by omega), List.mem_append, List.mem_singleton]
      rintro (hm | he)
      · exact ih (n / base) (Nat.div_lt_self (by omega) hb) hm
      · exact hc _ he.symm

theorem oneLine_quote (code : Nat) : OneLine (quote code) := by
  have hplain (hr : 32 ≤ code ∧ code < 127) : OneLine (String.singleton (Char.ofNat code)) := by
    have hcode : (Char.ofNat code).toNat = code := by
      rw [Char.ofNat, dif_pos (.inl (by omega))]
      rfl
    rw [OneLine, String.toList_singleton, List.mem_singleton]
    intro he
    have hten : 10 = code := by rwa [← he] at hcode
    omega
  have hhex : OneLine ("\\u\x7b" ++ String.ofList (Nat.toDigits 16 code) ++ "\x7d") := by
    have hdigits : '\n' ∉ Nat.toDigits 16 code :=
      not_mem_toDigits (by decide) (fun _ => Nat.digitChar_ne '\n' rfl) code
    simpa [OneLine] using hdigits
  refine OneLine.between ?_ (by simp [OneLine]) (by simp [OneLine])
  split_ifs with _ _ _ _ _ _ hr
  · simp [OneLine]
  · simp [OneLine]
  · simp [OneLine]
  · simp [OneLine]
  · simp [OneLine]
  · simp [OneLine]
  · exact hplain hr
  · exact hhex

theorem oneLine_label (subject : Subject) (key : Nat) : OneLine (subject.label key) := by
  cases subject with
  | length => exact oneLine_toString key
  | column k => exact oneLine_quote key

structure Vocabulary.OneLine (names : Vocabulary) : Prop where
  length : KeywordTree.OneLine names.length
  charAt : KeywordTree.OneLine names.charAt
  matched : KeywordTree.OneLine names.matched
  noMatch : KeywordTree.OneLine names.noMatch
  guessMatch : KeywordTree.OneLine names.guessMatch

/-- What the lines of a listing say below its header. -/
inductive Phrase (names : Vocabulary) : String → Prop where
  | switch (subject : Subject) : Phrase names ("switch (" ++ names.subject subject ++ ") \x7b")
  | case (subject : Subject) (key : Nat) : Phrase names ("  case " ++ subject.label key ++ ":")
  | test (subject : Subject) (key : Nat) : Phrase names ("if (" ++ names.equation subject key ++ ") \x7b")
  | tail (checks : List Check) : Phrase names ("if (" ++ names.conjunction checks ++ ") \x7b")
  | close : Phrase names "\x7d"
  | matched (word : Word) : Phrase names (Vocabulary.verdict names.matched word)
  | guessed (word : Word) : Phrase names (Vocabulary.verdict names.guessMatch word)
  | noMatch : Phrase names (names.noMatch ++ "()")

mutual

theorem Node.phrase_of_mem_lines (names : Vocabulary) (level : Nat) : (node : Node) →
    ∀ line ∈ node.lines names level, Phrase names line.text
  | .dispatch subject .switch arms otherwise => by
    rw [Node.lines, List.forall_mem_cons, List.forall_mem_append, List.forall_mem_cons]
    exact ⟨.switch subject, phrase_of_mem_caseLines names subject level arms, .close,
      Node.phrase_of_mem_lines names level otherwise⟩
  | .dispatch subject .ifChain arms otherwise => by
    rw [Node.lines, List.forall_mem_append]
    exact ⟨phrase_of_mem_chainLines names subject level arms, Node.phrase_of_mem_lines names level otherwise⟩
  | .verify checks word otherwise => by
    rw [Node.lines, List.forall_mem_cons, List.forall_mem_cons, List.forall_mem_cons]
    exact ⟨.tail checks, .matched word, .close, Node.phrase_of_mem_lines names level otherwise⟩
  | .accept word => by
    rw [Node.lines, List.forall_mem_singleton]
    exact .matched word
  | .guess word unverified => by
    rw [Node.lines, List.forall_mem_singleton]
    exact .guessed word
  | .reject => by
    rw [Node.lines, List.forall_mem_singleton]
    exact .noMatch

theorem phrase_of_mem_caseLines (names : Vocabulary) (subject : Subject) (level : Nat) : (arms : List (Nat × Node)) →
    ∀ line ∈ caseLines names subject level arms, Phrase names line.text
  | [] => nofun
  | (key, node) :: rest => by
    rw [caseLines, List.forall_mem_cons, List.forall_mem_append]
    exact ⟨.case subject key, Node.phrase_of_mem_lines names (level + 1) node,
      phrase_of_mem_caseLines names subject level rest⟩

theorem phrase_of_mem_chainLines (names : Vocabulary) (subject : Subject) (level : Nat) : (arms : List (Nat × Node)) →
    ∀ line ∈ chainLines names subject level arms, Phrase names line.text
  | [] => nofun
  | (key, node) :: rest => by
    rw [chainLines, List.forall_mem_cons, List.forall_mem_append, List.forall_mem_cons]
    exact ⟨.test subject key, Node.phrase_of_mem_lines names (level + 1) node, .close,
      phrase_of_mem_chainLines names subject level rest⟩

end

section Levels

variable (names : Vocabulary)

mutual

theorem Node.level_le (level : Nat) : (node : Node) → ∀ line ∈ node.lines names level, level ≤ line.level
  | .dispatch subject .switch arms otherwise => by
    simp only [Node.lines, List.forall_mem_cons, List.forall_mem_append]
    exact ⟨Nat.le_refl _, caseLines_level_le subject level arms, Nat.le_refl _, Node.level_le level otherwise⟩
  | .dispatch subject .ifChain arms otherwise => by
    simp only [Node.lines, List.forall_mem_append]
    exact ⟨chainLines_level_le subject level arms, Node.level_le level otherwise⟩
  | .verify checks word otherwise => by
    simp only [Node.lines, List.forall_mem_cons]
    exact ⟨Nat.le_refl _, Nat.le_succ _, Nat.le_refl _, Node.level_le level otherwise⟩
  | .accept word => by simp [Node.lines]
  | .guess word unverified => by simp [Node.lines]
  | .reject => by simp [Node.lines]

theorem caseLines_level_le (subject : Subject) (level : Nat) : (arms : List (Nat × Node)) →
    ∀ line ∈ caseLines names subject level arms, level ≤ line.level
  | [] => by simp [caseLines]
  | (key, node) :: rest => by
    simp only [caseLines, List.forall_mem_cons, List.forall_mem_append]
    refine ⟨Nat.le_refl _, fun line hm => ?_, caseLines_level_le subject level rest⟩
    exact Nat.le_of_succ_le (Node.level_le (level + 1) node line hm)

theorem chainLines_level_le (subject : Subject) (level : Nat) : (arms : List (Nat × Node)) →
    ∀ line ∈ chainLines names subject level arms, level ≤ line.level
  | [] => by simp [chainLines]
  | (key, node) :: rest => by
    simp only [chainLines, List.forall_mem_cons, List.forall_mem_append]
    refine ⟨Nat.le_refl _, fun line hm => ?_, Nat.le_refl _, chainLines_level_le subject level rest⟩
    exact Nat.le_of_succ_le (Node.level_le (level + 1) node line hm)

end

theorem caseLines_append (level : Nat) (subject : Subject) (a b : List (Nat × Node)) :
    caseLines names subject level (a ++ b) = caseLines names subject level a ++ caseLines names subject level b := by
  induction a with
  | nil => rfl
  | cons arm rest ih => simp only [List.cons_append, caseLines, ih, List.append_assoc]

theorem chainLines_append (level : Nat) (subject : Subject) (a b : List (Nat × Node)) :
    chainLines names subject level (a ++ b) = chainLines names subject level a ++ chainLines names subject level b := by
  induction a with
  | nil => rfl
  | cons arm rest ih => simp only [List.cons_append, chainLines, ih, List.append_assoc]

end Levels

section Phrases

variable {names : Vocabulary}

theorem toList_verdict (call : String) (word : Word) :
    (Vocabulary.verdict call word).toList = call.toList ++ '(' ::
      (Nat.toDigits 10 word.index ++ ')' :: (" /* ".toList ++ word.text.toList ++ " */".toList)) := by
  simp [Vocabulary.verdict]

theorem conjunction_cons_cons (names : Vocabulary) (check second : Check) (others : List Check) :
    names.conjunction (check :: second :: others) =
      names.equation (.column check.column) check.expected.toNat ++ " && " ++ names.conjunction (second :: others) := by
  rw [Vocabulary.conjunction, List.map_cons, List.map_cons, String.intercalate_cons_cons]
  rfl

namespace Foreign

variable {c : Char} (hc : Foreign c)
include hc

theorem subject (hl : c ∉ names.length.toList) (ha : c ∉ names.charAt.toList) (subject : Subject) :
    c ∉ (names.subject subject).toList := by
  have hm := hc.mark
  cases subject with
  | length => simp_all [Vocabulary.subject]
  | column k =>
    have hk := hc.decimal k
    simp_all [Vocabulary.subject]

theorem equation {subject : Subject} (hs : c ∉ (names.subject subject).toList) {key : Nat}
    (hk : c ∉ (subject.label key).toList) : c ∉ (names.equation subject key).toList := by
  have hm := hc.mark
  simp_all [Vocabulary.equation]

theorem conjunction (ha : ∀ k, c ∉ (names.subject (.column k)).toList) {checks : List Check}
    (hk : ∀ check ∈ checks, c ∉ (quote check.expected.toNat).toList) : c ∉ (names.conjunction checks).toList := by
  induction checks with
  | nil => simp [Vocabulary.conjunction]
  | cons check rest ih =>
    obtain ⟨hcheck, hrest⟩ := List.forall_mem_cons.mp hk
    have hfirst : c ∉ (names.equation (.column check.column) check.expected.toNat).toList :=
      hc.equation (ha check.column) hcheck
    cases rest with
    | nil =>
      rw [Vocabulary.conjunction, List.map_singleton, String.intercalate_singleton]
      exact hfirst
    | cons second others =>
      have hmore := ih hrest
      have hm := hc.mark
      rw [conjunction_cons_cons]
      simp_all

theorem verdict {call : String} (hn : c ∉ call.toList) (word : Word) (hw : c ∉ word.text.toList) :
    c ∉ (Vocabulary.verdict call word).toList := by
  have hm := hc.mark
  have hi := hc.decimal word.index
  simp_all [Vocabulary.verdict]

end Foreign

theorem Phrase.oneLine (hn : names.OneLine) {text : String} (h : Phrase names text) : OneLine text := by
  have hif : OneLine "if (" := by simp [OneLine]
  have hopen : OneLine ") \x7b" := by simp [OneLine]
  have hsubject := foreign_newline.subject hn.length hn.charAt
  have hverdict {call : String} (hc : OneLine call) (word : Word) : OneLine (Vocabulary.verdict call word) :=
    foreign_newline.verdict hc word (oneLine_text word)
  cases h with
  | switch subject => exact OneLine.between (hsubject subject) (by simp [OneLine]) hopen
  | case subject key => exact (oneLine_label subject key).between (by simp [OneLine]) (by simp [OneLine])
  | test subject key =>
    exact OneLine.between (foreign_newline.equation (hsubject subject) (oneLine_label subject key)) hif hopen
  | tail checks =>
    exact OneLine.between (foreign_newline.conjunction (fun k => hsubject (.column k)) fun _ _ => oneLine_quote _) hif hopen
  | close => simp [OneLine]
  | matched word => exact hverdict hn.matched word
  | guessed word => exact hverdict hn.guessMatch word
  | noMatch => exact oneLine_append.mpr ⟨hn.noMatch, by simp [OneLine]⟩

end Phrases

section Lines

/-- The characters of a line up to its newline. -/
def Line.shown (line : Line) : List Char := List.replicate (4 * line.level) ' ' ++ line.text.toList

/-- A line without the blanks that it begins with. -/
def unindented (line : List Char) : List Char := line.dropWhile (· == ' ')

theorem unindented_shown (line : Line) : unindented line.shown = unindented line.text.toList := by
  apply List.dropWhile_append_of_pos
  intro c hc
  rw [List.eq_of_mem_replicate hc]
  rfl

/-- A line that is read back from a text as it stands. -/
def Line.Plain (line : Line) : Prop := OneLine line.text ∧ line.text.toList.getLast? ≠ some '\r'

theorem getLast?_append_text {a b : String} {c : Char} (hb : b.toList.getLast? = some c) :
    (a ++ b).toList.getLast? = some c := by
  rw [String.toList_append, List.getLast?_append, hb, Option.some_or]

/-- Every phrase ends in a mark, whatever the names are. -/
theorem Phrase.getLast?_ne {names : Vocabulary} {text : String} (h : Phrase names text) :
    text.toList.getLast? ≠ some '\r' := by
  cases h with
  | switch | test | tail =>
    rw [getLast?_append_text (c := '\x7b') rfl]
    decide
  | case =>
    rw [getLast?_append_text (c := ':') rfl]
    decide
  | close => decide
  | matched | guessed =>
    rw [Vocabulary.verdict, getLast?_append_text (c := '/') rfl]
    decide
  | noMatch =>
    rw [getLast?_append_text (c := ')') rfl]
    decide

theorem plain_headerLines (level : Nat) (words : List Word) : ∀ line ∈ headerLines level words, line.Plain := by
  rw [headerLines, List.forall_mem_cons, List.forall_mem_cons, List.forall_mem_append, List.forall_mem_singleton,
    List.forall_mem_map]
  refine ⟨⟨by simp [OneLine], by simp⟩, ⟨?_, ?_⟩, fun word _ => ⟨?_, ?_⟩, by simp [OneLine], by simp⟩
  · exact (oneLine_toString words.length).between (by simp [OneLine]) (by simp [OneLine])
  · rw [getLast?_append_text (c := ':') rfl]
    decide
  · simp only [oneLine_append]
    exact ⟨⟨⟨by simp [OneLine], oneLine_toString _⟩, by simp [OneLine]⟩, oneLine_text word⟩
  · have hne : word.text.toList ≠ [] := by simp [Word.text, word.nonempty]
    rw [getLast?_append_text (List.getLast?_eq_some_getLast hne)]
    intro he
    have hletter := Word.toNat_of_mem_text (List.getLast_mem hne)
    rw [Option.some.inj he] at hletter
    exact absurd hletter.1 (by decide)

/-- The text that has these lines and ends each of them. -/
def Text.unlines (lines : List (List Char)) : List Char := lines.flatMap fun line => line ++ ['\n']

@[simp] theorem Text.unlines_nil : Text.unlines [] = [] := rfl

@[simp] theorem Text.unlines_cons (line : List Char) (rest : List (List Char)) :
    Text.unlines (line :: rest) = line ++ '\n' :: Text.unlines rest := by
  simp [Text.unlines]

@[simp] theorem Text.unlines_append (a b : List (List Char)) :
    Text.unlines (a ++ b) = Text.unlines a ++ Text.unlines b := List.flatMap_append

/-- Lines that are put together are taken apart again. -/
theorem Text.lines_unlines {lines : List (List Char)}
    (h : ∀ line ∈ lines, '\n' ∉ line ∧ line.getLast? ≠ some '\r') : Text.lines (Text.unlines lines) = lines := by
  have hpieces : (Text.unlines lines).splitOnP (· == '\n') = lines ++ [[]] := by
    induction lines with
    | nil => rfl
    | cons line rest ih =>
      obtain ⟨hline, hrest⟩ := List.forall_mem_cons.mp h
      rw [Text.unlines_cons, List.splitOnP_append_cons_of_forall_mem ?_ '\n' rfl, ih hrest, List.cons_append]
      intro c hc
      exact beq_false_of_ne fun he => hline.1 (he ▸ hc)
  have hkept : lines.map Text.dropReturn = lines.map id := by
    apply List.map_congr_left
    intro line hm
    rw [Text.dropReturn, if_neg (h line hm).2, id]
  rw [Text.lines, hpieces]
  simp [hkept]

theorem Line.Plain.shown {line : Line} (h : line.Plain) : '\n' ∉ line.shown ∧ line.shown.getLast? ≠ some '\r' := by
  have hblank : ∀ c ∈ List.replicate (4 * line.level) ' ', c = ' ' := fun c hc => List.eq_of_mem_replicate hc
  refine ⟨fun hm => ?_, fun he => ?_⟩
  · rcases List.mem_append.mp hm with hm | hm
    · exact absurd (hblank _ hm) (by decide)
    · exact h.1 hm
  · rw [Line.shown, List.getLast?_append, Option.or_eq_some_iff] at he
    rcases he with he | ⟨_, he⟩
    · exact h.2 he
    · exact absurd (hblank _ (List.mem_of_getLast? he)) (by decide)

theorem Tree.plain_listing {names : Vocabulary} (hn : names.OneLine) (level : Nat) (tree : Tree) :
    ∀ line ∈ tree.listing names level, line.Plain := by
  rw [Tree.listing, List.forall_mem_append]
  refine ⟨plain_headerLines level tree.words, fun line hm => ?_⟩
  have hphrase := tree.root.phrase_of_mem_lines names level line hm
  exact ⟨hphrase.oneLine hn, hphrase.getLast?_ne⟩

theorem Tree.toList_render (names : Vocabulary) (level : Nat) (tree : Tree) :
    (tree.render names level).toList = Text.unlines ((tree.listing names level).map Line.shown) := by
  simp [Tree.render, Text.unlines, String.toList_join, List.flatMap_map, Line.toList_render, Line.shown]

theorem Tree.lines_render {names : Vocabulary} (hn : names.OneLine) (level : Nat) (tree : Tree) :
    Text.lines (tree.render names level).toList = (tree.listing names level).map Line.shown := by
  rw [tree.toList_render, Text.lines_unlines]
  rw [List.forall_mem_map]
  exact fun line hm => (tree.plain_listing hn level line hm).shown

theorem oneLine_of_letters {start : String} (hs : ∀ c ∈ start.toList, c.isAlpha = true ∨ c = '_') : OneLine start := by
  intro hm
  rcases hs _ hm with hc | hc <;> cases hc

theorem Vocabulary.oneLine_prefixed {start : String} (hs : KeywordTree.OneLine start) :
    (Vocabulary.prefixed start).OneLine := by
  constructor <;> exact oneLine_append.mpr ⟨hs, by simp [KeywordTree.OneLine]⟩

end Lines

end KeywordTree
