import KeywordTree.Proofs.Canonical
import KeywordTree.Proofs.Census
import KeywordTree.Proofs.Lines
import Mathlib.Data.List.Basic

/-! Words are conserved. What is given as a corpus is found again at the leaves of the tree
and on the lines of its listing, every word once and nothing else. -/
namespace KeywordTree

section Lines

def reportNames : List String := ["MATCH", "GUESS_MATCH"]

def Reports (line : List Char) : Prop := ∃ call ∈ reportNames, call.toList <+: unindented line

/-- The line is the report of a word, with its index and its text. -/
def ReportOf (word : Word) (line : List Char) : Prop :=
  ∃ call ∈ reportNames, unindented line = (call ++ "(" ++ toString word.index ++ ") /* " ++ word.text ++ " */").toList

instance (line : List Char) : Decidable (Reports line) :=
  inferInstanceAs (Decidable (∃ call ∈ reportNames, call.toList <+: unindented line))

instance (word : Word) (line : List Char) : Decidable (ReportOf word line) :=
  inferInstanceAs (Decidable (∃ call ∈ reportNames,
    unindented line = (call ++ "(" ++ toString word.index ++ ") /* " ++ word.text ++ " */").toList))

variable {call : String} {word : Word}

theorem ReportOf.reports {line : List Char} (h : ReportOf word line) : Reports line := by
  obtain ⟨call, hc, he⟩ := h
  refine ⟨call, hc, ?_⟩
  rw [he]
  simp only [String.toList_append, List.append_assoc]
  exact List.prefix_append _ _

theorem reportOf_shown {line : Line} : ReportOf word line.shown ↔ ReportOf word line.text.toList := by
  rw [ReportOf, ReportOf, unindented_shown]

theorem unindented_verdict (hc : call ∈ reportNames) (word : Word) :
    unindented (Vocabulary.verdict call word).toList = (Vocabulary.verdict call word).toList := by
  rcases List.mem_pair.mp hc with rfl | rfl <;> simp [unindented, Vocabulary.verdict]

end Lines

section Verdicts

variable {call other : String} {word second : Word}

theorem Word.eq_of_index_text (hi : word.index = second.index) (ht : word.text = second.text) : word = second := by
  have hword := word.ofText_text
  rw [hi, ht, second.ofText_text] at hword
  exact (Except.ok.inj hword).symm

/-- The brackets of a report set its parts apart. -/
theorem verdict_inj (hc : '(' ∉ call.toList) :
    Vocabulary.verdict call word = Vocabulary.verdict other second ↔ call = other ∧ word = second := by
  constructor
  · intro he
    have hchars := congrArg String.toList he
    rw [toList_verdict, toList_verdict] at hchars
    have hopen : '(' ∉ Nat.toDigits 10 word.index ++ ')' :: (" /* ".toList ++ word.text.toList ++ " */".toList) := by
      simp [not_mem_decimal (c := '(') rfl, word.not_mem_text (c := '(') (by decide)]
    have hclose : ')' ∉ " /* ".toList ++ word.text.toList ++ " */".toList := by
      simp [word.not_mem_text (c := ')') (by decide)]
    obtain ⟨hcall, _, hrest⟩ := (List.append_cons_inj_of_notMem hc hopen).mp hchars
    obtain ⟨hindex, _, hcomment⟩ := (List.append_cons_inj_of_notMem (not_mem_decimal rfl _) hclose).mp hrest
    have htext := List.append_cancel_left (List.append_cancel_right hcomment)
    have hvalue := congrArg (fun digits => Nat.ofDigitChars 10 digits 0) hindex
    simp only [Nat.ofDigitChars_ten_toDigits] at hvalue
    exact ⟨String.toList_inj.mp hcall, Word.eq_of_index_text hvalue (String.toList_inj.mp htext)⟩
  · rintro ⟨rfl, rfl⟩
    rfl

theorem bracket_not_mem (hc : call ∈ reportNames) : '(' ∉ call.toList := by
  rcases List.mem_pair.mp hc with rfl | rfl <;> simp

theorem reportOf_verdict (hc : call ∈ reportNames) :
    ReportOf second (Vocabulary.verdict call word).toList ↔ word = second := by
  rw [ReportOf, unindented_verdict hc]
  constructor
  · rintro ⟨other, _, he⟩
    exact ((verdict_inj (bracket_not_mem hc)).mp (String.toList_inj.mp he)).2
  · rintro rfl
    exact ⟨call, hc, rfl⟩

end Verdicts

section Listing

def Leaf.reportName : Leaf → String
  | guess _ => "GUESS_MATCH"
  | _ => "MATCH"

def Route.report (route : Route) : String := Vocabulary.verdict route.leaf.reportName route.word

/-- What a line says if it calls one of the names for a report. -/
def Line.report? (line : Line) : Option String := if Reports line.shown then some line.text else none

theorem Leaf.reportName_mem (leaf : Leaf) : leaf.reportName ∈ reportNames := by
  cases leaf <;> simp [reportName, reportNames]

theorem report?_verdict (level : Nat) {call : String} (hc : call ∈ reportNames) (word : Word) :
    Line.report? ⟨level, Vocabulary.verdict call word⟩ = some (Vocabulary.verdict call word) := by
  have hreport : ReportOf word (Line.shown ⟨level, Vocabulary.verdict call word⟩) :=
    reportOf_shown.mpr ((reportOf_verdict hc).mpr rfl)
  exact if_pos hreport.reports

/-- A line is told from a report by the first character after its blanks. -/
theorem report?_eq_none {level : Nat} {text : String}
    (h : ∀ c ∈ (unindented text.toList).head?, c ≠ 'M' ∧ c ≠ 'G') : Line.report? ⟨level, text⟩ = none := by
  apply if_neg
  rintro ⟨call, hc, rest, he⟩
  rw [unindented_shown] at he
  rw [← he] at h
  rcases List.mem_pair.mp hc with rfl | rfl <;> simp at h

theorem standard_matched : Vocabulary.standard.matched = "MATCH" := rfl

theorem standard_guessMatch : Vocabulary.standard.guessMatch = "GUESS_MATCH" := rfl

mutual

/-- The reports in the listing of a node are those of its leaves, in their order. -/
theorem Node.filterMap_report?_lines (level : Nat) : (node : Node) →
    (node.lines .standard level).filterMap Line.report? = node.routes.map Route.report
  | .dispatch subject .switch arms otherwise => by
    rw [Node.lines, Node.routes, List.filterMap_cons_none (report?_eq_none (by simp [unindented])),
      List.filterMap_append, List.filterMap_cons_none (report?_eq_none (by simp [unindented])),
      filterMap_report?_caseLines, Node.filterMap_report?_lines, List.map_append, List.map_map]
    rfl
  | .dispatch subject .ifChain arms otherwise => by
    rw [Node.lines, Node.routes, List.filterMap_append, filterMap_report?_chainLines,
      Node.filterMap_report?_lines, List.map_append, List.map_map]
    rfl
  | .verify checks word otherwise => by
    rw [Node.lines, Node.routes, List.filterMap_cons_none (report?_eq_none (by simp [unindented])),
      standard_matched, List.filterMap_cons_some (report?_verdict (level + 1) (by decide) word),
      List.filterMap_cons_none (report?_eq_none (by simp [unindented])),
      Node.filterMap_report?_lines, List.map_cons, List.map_map]
    rfl
  | .accept word => by
    rw [Node.lines, standard_matched, List.filterMap_cons_some (report?_verdict level (by decide) word)]
    rfl
  | .guess word unverified => by
    rw [Node.lines, standard_guessMatch, List.filterMap_cons_some (report?_verdict level (by decide) word)]
    rfl
  | .reject => by
    rw [Node.lines, List.filterMap_cons_none]
    · rfl
    · exact report?_eq_none (by simp [unindented, Vocabulary.standard, Vocabulary.prefixed])

theorem filterMap_report?_caseLines (subject : Subject) (level : Nat) : (arms : List (Nat × Node)) →
    (caseLines .standard subject level arms).filterMap Line.report? = (armRoutes subject arms).map Route.report
  | [] => rfl
  | (key, node) :: rest => by
    rw [caseLines, armRoutes, List.filterMap_cons_none (report?_eq_none (by simp [unindented])),
      List.filterMap_append, Node.filterMap_report?_lines, filterMap_report?_caseLines, List.map_append, List.map_map]
    rfl

theorem filterMap_report?_chainLines (subject : Subject) (level : Nat) : (arms : List (Nat × Node)) →
    (chainLines .standard subject level arms).filterMap Line.report? = (armRoutes subject arms).map Route.report
  | [] => rfl
  | (key, node) :: rest => by
    rw [chainLines, armRoutes, List.filterMap_cons_none (report?_eq_none (by simp [unindented])),
      List.filterMap_append, Node.filterMap_report?_lines,
      List.filterMap_cons_none (report?_eq_none (by simp [unindented])), filterMap_report?_chainLines,
      List.map_append, List.map_map]
    rfl

end

/-- A word is reported on as many lines as there are leaves that carry it. -/
theorem Node.countP_reportOf (node : Node) (level : Nat) (word : Word) :
    ((node.lines .standard level).map Line.shown).countP (ReportOf word ·) =
      (node.routes.map Route.word).count word := by
  -- Only what is a report at all counts, and that is found at the leaves.
  have hlines : ((node.lines .standard level).map Line.shown).countP (ReportOf word ·) =
      ((node.lines .standard level).filterMap Line.report?).countP fun text => ReportOf word text.toList := by
    rw [List.countP_map, List.countP_filterMap]
    apply List.countP_congr
    intro line _
    by_cases hr : Reports line.shown
    · simp [Line.report?, hr, reportOf_shown]
    · simpa [Line.report?, hr] using fun h : ReportOf word line.shown => hr h.reports
  rw [hlines, node.filterMap_report?_lines, List.countP_map, List.count, List.countP_map]
  apply List.countP_congr
  intro route _
  simp [Route.report, reportOf_verdict route.leaf.reportName_mem]

theorem Node.exists_route_of_reports (node : Node) (level : Nat) {line : List Char}
    (hm : line ∈ (node.lines .standard level).map Line.shown) (hr : Reports line) :
    ∃ route ∈ node.routes, ReportOf route.word line := by
  obtain ⟨line, hline, rfl⟩ := List.mem_map.mp hm
  have hin : line.text ∈ (node.lines .standard level).filterMap Line.report? :=
    List.mem_filterMap.mpr ⟨line, hline, if_pos hr⟩
  rw [node.filterMap_report?_lines] at hin
  obtain ⟨route, hroute, he⟩ := List.mem_map.mp hin
  refine ⟨route, hroute, reportOf_shown.mpr ?_⟩
  rw [← he]
  exact (reportOf_verdict route.leaf.reportName_mem).mpr rfl

end Listing

def Node.word? : Node → Option Word
  | .verify _ word _ => some word
  | .accept word => some word
  | .guess word _ => some word
  | _ => none

section Built

variable {config : Config} {corpus : List Word} {tree : Tree}

theorem Tree.filterMap_word? (tree : Tree) : tree.nodes.filterMap Node.word? = tree.root.routes.map Route.word := by
  rw [tree.filterMap_nodes fun leaf => some leaf.1]
  · exact congrFun List.filterMap_eq_map tree.root.routes
  · intro node
    cases node <;> rfl

theorem words_eq_canonical (h : (build config corpus).result = .ok tree) :
    tree.words = canonical (tree.root.routes.map Route.word) := by
  rw [(build_inv h).2.1]
  exact (canonical_eq_of_perm (build_words_perm h)).symm

/-- Words are conserved, for every corpus that has a tree and every configuration. The leaves
of the tree carry the corpus, so the words of a built tree follow from its root alone. The
lines of its text, at every level, are a header with each word of the corpus once, by index
and then by text, and a body that reports each word on one line and nothing else. -/
theorem build_conserves_words (h : (build config corpus).result = .ok tree) :
    (tree.nodes.filterMap Node.word?).Perm corpus ∧
    (∀ config' corpus' tree', (build config' corpus').result = .ok tree' → tree'.root = tree.root →
      tree'.words = tree.words) ∧
    (tree.words.Perm corpus ∧
      tree.words.Pairwise fun v w => v.index < w.index ∨ v.index = w.index ∧ v.text ≤ w.text) ∧
    ∀ level, ∃ body,
      Text.lines (tree.render .standard level).toList =
        [Line.shown ⟨level, "/*"⟩,
          Line.shown ⟨level, " * Generating switch for the list of " ++ toString corpus.length ++ " entries:"⟩] ++
        tree.words.map (fun word => Line.shown ⟨level, " * " ++ toString word.index ++ ": " ++ word.text⟩) ++
        [Line.shown ⟨level, " */"⟩] ++ body ∧
      (∀ word ∈ corpus, body.countP (ReportOf word ·) = 1) ∧
      ∀ line ∈ body, Reports line → ∃ word ∈ corpus, ReportOf word line := by
  have hperm := build_words_perm h
  have hnodup : corpus.Nodup := List.Nodup.of_map Word.letters (distinct_of_build h)
  have hnames : Vocabulary.standard.OneLine := Vocabulary.oneLine_prefixed (by simp [OneLine])
  refine ⟨?_, ?_, ⟨words_perm_of_build h, ?_⟩,
    fun level => ⟨(tree.root.lines .standard level).map Line.shown, ?_, ?_, ?_⟩⟩
  · rw [tree.filterMap_word?]
    exact hperm
  · intro config' corpus' tree' h' hroot
    rw [words_eq_canonical h', words_eq_canonical h, hroot]
  · rw [(build_inv h).2.1]
    exact canonical_sorted corpus
  · rw [tree.lines_render hnames, Tree.listing, List.map_append, headerLines, (words_perm_of_build h).length_eq]
    simp
  · intro word hw
    rw [tree.root.countP_reportOf, hperm.count_eq, List.count_eq_one_of_mem hnodup hw]
  · intro line hm hr
    obtain ⟨route, hroute, hreport⟩ := tree.root.exists_route_of_reports level hm hr
    exact ⟨route.word, hperm.mem_iff.mp (List.mem_map_of_mem hroute), hreport⟩

end Built

theorem build_conserves_words_mixedWords :
    ∃ tree body, (build ⟨3, 0, 1⟩ mixedWords).result = .ok tree ∧
      Text.lines (tree.render .standard 0).toList =
        (["/*", " * Generating switch for the list of 4 entries:", " * 0: in", " * 2: of", " * 4: if", " * 4: yield",
          " */"].map String.toList) ++ body ∧
      ∀ word ∈ mixedWords, body.countP (ReportOf word ·) = 1 := by
  have hne : mixedWords ≠ [] := by decide
  obtain ⟨tree, h⟩ := exists_build ⟨3, 0, 1⟩ hne (by decide +kernel)
  obtain ⟨_, _, _, hlines⟩ := build_conserves_words h
  obtain ⟨body, htext, hcount, _⟩ := hlines 0
  refine ⟨tree, body, h, ?_, hcount⟩
  rw [htext, (build_inv h).2.1, canonical_eq_insertionSort]
  exact congrArg (· ++ body) (by decide +kernel)

end KeywordTree
