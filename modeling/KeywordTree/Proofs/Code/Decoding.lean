import KeywordTree.Proofs.Code.Execution
import KeywordTree.Proofs.Recognition
import KeywordTree.Tree.Equality

/-! A built tree is read back from its text. The program in the text tells how the tree
branches, and the words of the header what is at its leaves: the tests on the way to a leaf
leave one of them. -/
namespace KeywordTree
open Code

section Header

def listedWord? (line : List Char) : Option Word :=
  match unindented line with
  | '*' :: ' ' :: rest =>
    match rest.dropWhile Char.isDigit with
    | ':' :: ' ' :: text =>
      (Word.ofText (Nat.ofDigitChars 10 (rest.takeWhile Char.isDigit) 0) (String.ofList text)).toOption
    | _ => none
  | _ => none

theorem listedWord?_word (level : Nat) (word : Word) :
    listedWord? (Line.shown ⟨level, " * " ++ toString word.index ++ ": " ++ word.text⟩) = some word := by
  have hdigits : ∀ c ∈ Nat.toDigits 10 word.index, c.isDigit = true := fun c hm =>
    Nat.isDigit_of_mem_toDigits (by decide) (by decide) hm
  have hline : unindented (Line.shown ⟨level, " * " ++ toString word.index ++ ": " ++ word.text⟩) =
      '*' :: ' ' :: (Nat.toDigits 10 word.index ++ ':' :: ' ' :: word.text.toList) := by
    rw [unindented_shown]
    simp [unindented]
  have hafter : (Nat.toDigits 10 word.index ++ ':' :: ' ' :: word.text.toList).dropWhile Char.isDigit =
      ':' :: ' ' :: word.text.toList := by
    rw [List.dropWhile_append_of_pos hdigits]
    rfl
  have hbefore : (Nat.toDigits 10 word.index ++ ':' :: ' ' :: word.text.toList).takeWhile Char.isDigit =
      Nat.toDigits 10 word.index := by
    rw [List.takeWhile_append_of_pos hdigits]
    exact List.append_nil _
  simp only [listedWord?, hline, hafter, hbefore, Nat.ofDigitChars_ten_toDigits, String.ofList_toList, Word.ofText_text]
  rfl

/-- A line is told from those of the header by the first character after its blanks. -/
theorem listedWord?_eq_none {line : List Char} (h : ∀ c ∈ (unindented line).head?, c ≠ '*') :
    listedWord? line = none := by
  rw [listedWord?]
  split
  · rename_i rest he
    rw [he] at h
    exact absurd rfl (h '*' rfl)
  · rfl

theorem Phrase.lists_no_word {names : Vocabulary} (hn : names.Proper) {text : String} (h : Phrase names text)
    (level : Nat) : listedWord? (Line.shown ⟨level, text⟩) = none := by
  have hname {name : String} (hc : IsName name) (rest : List Char) :
      ∀ c ∈ (unindented (name.toList ++ '(' :: rest)).head?, c ≠ '*' := by
    rw [unindented_call hc]
    obtain ⟨⟨first, others, he, hf, _⟩, _⟩ := hc
    rintro c hm rfl
    rw [he, List.cons_append, List.head?_cons, Option.mem_some_iff] at hm
    rw [hm] at hf
    cases hf
  apply listedWord?_eq_none
  rw [unindented_shown]
  cases h with
  | switch | case | test | tail | close => simp [unindented]
  | matched word =>
    rw [toList_verdict]
    exact hname hn.matched _
  | guessed word =>
    rw [toList_verdict]
    exact hname hn.guessMatch _
  | noMatch =>
    rw [String.toList_append]
    exact hname hn.noMatch _

theorem filterMap_listedWord?_headerLines (level : Nat) (words : List Word) :
    ((headerLines level words).map Line.shown).filterMap listedWord? = words := by
  have hopen : listedWord? (Line.shown ⟨level, "/*"⟩) = none := by
    rw [listedWord?, unindented_shown]
    simp [unindented]
  have hclose : listedWord? (Line.shown ⟨level, " */"⟩) = none := by
    rw [listedWord?, unindented_shown]
    simp [unindented]
  have htitle : listedWord?
      (Line.shown ⟨level, " * Generating switch for the list of " ++ toString words.length ++ " entries:"⟩) = none := by
    rw [listedWord?, unindented_shown]
    simp [unindented]
  have hwords : words.filterMap (fun word =>
      listedWord? (Line.shown ⟨level, " * " ++ toString word.index ++ ": " ++ word.text⟩)) = words := by
    simp only [listedWord?_word, List.filterMap_some]
  rw [headerLines, List.map_cons, List.map_cons, List.filterMap_cons_none hopen, List.filterMap_cons_none htitle,
    List.map_append, List.filterMap_append, List.map_map, List.filterMap_map, List.map_singleton,
    List.filterMap_cons_none hclose, List.filterMap_nil, List.append_nil]
  exact hwords

theorem filterMap_listedWord?_listing {names : Vocabulary} (hn : names.Proper) (level : Nat) (tree : Tree) :
    ((tree.listing names level).map Line.shown).filterMap listedWord? = tree.words := by
  have hbody : ((tree.root.lines names level).map Line.shown).filterMap listedWord? = [] := by
    rw [List.filterMap_eq_nil_iff, List.forall_mem_map]
    exact fun line hm => (tree.root.phrase_of_mem_lines names level line hm).lists_no_word hn line.level
  rw [Tree.listing, List.map_append, List.filterMap_append, filterMap_listedWord?_headerLines, hbody, List.append_nil]

end Header

section Program

/-- The bodies of successive tests of one subject, by the values asked for. -/
def chainBodies : List Stmt → List (Nat × List Stmt)
  | .ifAll [test] body :: rest => (test.value, body) :: chainBodies rest
  | _ => []

/-- The subject that a block branches on, in which mode, and what it does by the value read. -/
def branches? : List Stmt → Option (Subject × Mode × List (Nat × List Stmt))
  | .switch subject cases :: _ => some (subject, .switch, cases)
  | .ifAll [test] body :: rest => some (test.subject, .ifChain, chainBodies (.ifAll [test] body :: rest))
  | _ => none

theorem chainBodies_program (subject : Subject) (arms : List (Nat × Node)) (verdict : Verdict) :
    chainBodies (chainProgram subject arms ++ [.exit verdict]) = caseBodies arms := by
  induction arms with
  | nil => rfl
  | cons arm rest ih => rw [chainProgram, List.cons_append, chainBodies, ih, caseBodies]

theorem branches?_program (subject : Subject) (mode : Mode) {arms : List (Nat × Node)} (hne : arms ≠ []) :
    branches? (Node.dispatch subject mode arms .reject).program = some (subject, mode, caseBodies arms) := by
  cases mode with
  | switch => rfl
  | ifChain =>
    rw [Node.program, Node.program, ← chainBodies_program subject arms .rejected]
    obtain ⟨arm, rest, rfl⟩ := List.exists_cons_of_ne_nil hne
    rfl

/-- The tree of a block that branches, if the tree of each body can be read. -/
def dispatchOf? (read : Subject → Nat → List Stmt → Option Node) (block : List Stmt) : Option Node := do
  let (subject, mode, bodies) ← branches? block
  let arms ← bodies.mapM fun body => (read subject body.1 body.2).map fun node => (body.1, node)
  some (.dispatch subject mode arms .reject)

theorem dispatchOf?_program {read : Subject → Nat → List Stmt → Option Node} {subject : Subject} {mode : Mode}
    {arms : List (Nat × Node)} (hne : arms ≠ []) (h : ∀ arm ∈ arms, read subject arm.1 arm.2.program = some arm.2) :
    dispatchOf? read (Node.dispatch subject mode arms .reject).program = some (.dispatch subject mode arms .reject) := by
  have harms : (caseBodies arms).mapM (fun body => (read subject body.1 body.2).map fun node => (body.1, node)) =
      some arms := by
    clear hne
    induction arms with
    | nil => rfl
    | cons arm rest ih =>
      obtain ⟨harm, hrest⟩ := List.forall_mem_cons.mp h
      rw [caseBodies, List.mapM_cons, harm, ih hrest]
      rfl
  rw [dispatchOf?, branches?_program subject mode hne]
  simp [harms]

def Code.Test.check? : Test → Option Check
  | ⟨.column k, value⟩ => some ⟨k, UInt8.ofNat value⟩
  | ⟨.length, _⟩ => none

theorem filterMap_check? (checks : List Check) : (checks.map Check.test).filterMap Test.check? = checks := by
  rw [List.filterMap_map]
  have hcheck : Test.check? ∘ Check.test = some := by
    funext check
    simp [Check.test, Test.check?]
  rw [hcheck, List.filterMap_some]

/-- The leaf that a block is for a word that is alone, with a number of columns not tested yet. -/
def leafOf? (pending : Nat) (word : Word) : List Stmt → Option Node
  | .ifAll tests _ :: _ => some (.verify (tests.filterMap Test.check?) word .reject)
  | .exit (.matched _) :: _ => some (.accept word)
  | .exit (.guessed _) :: _ => some (.guess word pending)
  | _ => none

def selected (words : List Word) (subject : Subject) (key : Nat) : List Word :=
  words.filter fun word => subject.read word.letters == some key

/-- The tree that a block is for these words, with a number of columns not tested yet. One word
has a leaf, and several have a dispatch, also where the two read alike. -/
def nodeOf? : Nat → List Word → List Stmt → Option Node
  | pending, [word], block => leafOf? pending word block
  | pending + 1, words, block => dispatchOf? (fun subject key => nodeOf? pending (selected words subject key)) block
  | 0, _, _ => none

/-- The tree with these words that a block is. Its arms start with all columns of their length. -/
def rootOf? (words : List Word) : List Stmt → Option Node :=
  dispatchOf? fun subject key => nodeOf? key (selected words subject key)

def Tree.decode? (names : Vocabulary) (text : String) : Option Tree := do
  let words := (Text.lines text.toList).filterMap listedWord?
  let block ← program? names text
  let root ← rootOf? words block
  some ⟨words, root⟩

end Program

section Built

variable {config : Config} {words : List Word}

theorem selected_length (words : List Word) (key : Nat) : selected words .length key = groupOf Word.length words key := by
  rw [selected, groupOf]
  refine List.filter_congr fun word _ => ?_
  simp [Subject.read, Word.length]

theorem selected_column {column : Nat} (h : ∀ word ∈ words, column < word.length) (key : Nat) :
    selected words (.column column) key = groupOf (codeIn column) words key := by
  rw [selected, groupOf]
  refine List.filter_congr fun word hw => ?_
  have hread : (Subject.column column).read word.letters = some (codeIn column word) := codeAt?_eq_some (h word hw)
  simp [hread]

theorem Grown.nodeOf?_program {columns : Columns} {node : Node} (h : Grown config words columns node) {length : Nat}
    (hf : Fits length words columns) : nodeOf? columns.pending.length words node.program = some node := by
  induction h with
  | accept _ => rw [nodeOf?, Node.program, leafOf?]
  | guess _ => rw [nodeOf?, Node.program, leafOf?]
  | verify _ _ _ => rw [nodeOf?, Node.program, leafOf?, filterMap_check?]
  | @dispatch words columns remaining choice arms hw hc hr hk _ ih =>
    have harms : arms ≠ [] := arms_ne_nil hk (by simpa using hf.nonempty)
    rw [← Columns.length_pending_of_consume hr, nodeOf?]
    · refine dispatchOf?_program harms fun arm ha => ?_
      rw [selected_column (hf.chosen_lt hc hr)]
      exact ih arm ha (hf.arm hc hr hk ha)
    · rintro word rfl
      simp at hw

theorem build_decode {corpus : List Word} {tree : Tree} (h : (build config corpus).result = .ok tree) {names : Vocabulary}
    (hn : names.Proper) (ho : names.OneLine) (level : Nat) : Tree.decode? names (tree.render names level) = some tree := by
  obtain ⟨hne, hwords, arms, hroot, hk, hg⟩ := build_inv h
  have harms : arms ≠ [] := by
    refine arms_ne_nil hk fun hnone => hne ?_
    rw [List.map_eq_nil_iff] at hnone
    exact List.nil_perm.mp (hnone ▸ canonical_perm corpus)
  have hread : rootOf? tree.words tree.root.program = some tree.root := by
    rw [hroot, rootOf?]
    refine dispatchOf?_program harms fun arm ha => ?_
    obtain ⟨hfits, hgrown⟩ := hg arm ha
    have hnode := hgrown.nodeOf?_program hfits
    have hpending : (Columns.all arm.1).pending.length = arm.1 := List.length_range
    rw [hpending] at hnode
    rw [selected_length, hwords]
    exact hnode
  rw [Tree.decode?, tree.lines_render ho, filterMap_listedWord?_listing hn, program?_render hn (build_legible h)]
  simp [hread]

end Built

/-- The text of a built tree determines the tree, with its words, modes, comparisons in their
order and numbers of columns left open. There is one reader for all corpora, configurations
and levels that gives every built tree back from its text, so two built trees with the same
text are the same. -/
theorem render_determines_tree {start : String} (hs : ∀ c ∈ start.toList, c.isAlpha = true ∨ c = '_') (level : Nat) :
    (∀ config corpus tree, (build config corpus).result = .ok tree →
      Tree.decode? (.prefixed start) (tree.render (.prefixed start) level) = some tree) ∧
    ∀ config corpus tree config' corpus' tree',
      (build config corpus).result = .ok tree → (build config' corpus').result = .ok tree' →
      tree.render (.prefixed start) level = tree'.render (.prefixed start) level → tree = tree' := by
  have hproper := Vocabulary.proper_prefixed hs
  have honeLine : (Vocabulary.prefixed start).OneLine := Vocabulary.oneLine_prefixed (oneLine_of_letters hs)
  refine ⟨fun config corpus tree h => build_decode h hproper honeLine level, ?_⟩
  intro config corpus tree config' corpus' tree' h h' htext
  have hread := build_decode h hproper honeLine level
  rw [htext, build_decode h' hproper honeLine level] at hread
  exact (Option.some.inj hread).symm

/-- Without the words, a comparison of one letter could not be told from a chain with one arm. -/
example (names : Vocabulary) (level : Nat) (word : Word) :
    (Node.verify [⟨0, 97⟩] word .reject).lines names level =
      (Node.dispatch (.column 0) .ifChain [(97, .accept word)] .reject).lines names level :=
  rfl

/-- The same words in two orders, with thresholds that make no difference to them. -/
theorem render_determines_tree_mixedWords : (∀ c ∈ "_W".toList, c.isAlpha = true ∨ c = '_') ∧
    ∃ tree tree', (build ⟨3, 1, 1⟩ mixedWords).result = .ok tree ∧
      (build ⟨4, 4, 0⟩ mixedWords.reverse).result = .ok tree' ∧
      tree.render (.prefixed "_W") 2 = tree'.render (.prefixed "_W") 2 ∧
      Tree.decode? (.prefixed "_W") (tree.render (.prefixed "_W") 2) = some tree ∧ tree = tree' := by
  have hs : ∀ c ∈ "_W".toList, c.isAlpha = true ∨ c = '_' := by simp
  obtain ⟨tree, h⟩ := exists_build ⟨3, 1, 1⟩ (by decide : mixedWords ≠ []) (by decide +kernel)
  obtain ⟨tree', h'⟩ := exists_build ⟨4, 4, 0⟩ (by decide : mixedWords.reverse ≠ []) (by decide +kernel)
  have hsame : (build ⟨3, 1, 1⟩ mixedWords).result.toOption = (build ⟨4, 4, 0⟩ mixedWords.reverse).result.toOption := by
    rw [build, build, canonical_eq_insertionSort, canonical_eq_insertionSort]
    decide +kernel
  have htext : tree.render (.prefixed "_W") 2 = tree'.render (.prefixed "_W") 2 := by
    rw [h, h'] at hsame
    rw [Option.some.inj hsame]
  obtain ⟨hdecode, hinjective⟩ := render_determines_tree hs 2
  exact ⟨hs, tree, tree', h, h', htext, hdecode _ _ _ h, hinjective _ _ _ _ _ _ h h' htext⟩

end KeywordTree
