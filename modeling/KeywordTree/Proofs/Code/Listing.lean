import KeywordTree.Proofs.Code.Program
import KeywordTree.Proofs.Lines

/-! The listing of a decision tree has the tokens of the tree's program: the comments and
the layout are skipped, and every name, number and literal is read as it was meant. -/
namespace KeywordTree
open Code

/-- The names are names to a reader, and a guess is told from a match. -/
structure Vocabulary.Proper (names : Vocabulary) : Prop where
  length : IsName names.length
  charAt : IsName names.charAt
  matched : IsName names.matched
  noMatch : IsName names.noMatch
  guessMatch : IsName names.guessMatch
  guess_ne : names.guessMatch ≠ names.matched

/-- The words of the language end in small letters. -/
private theorem isName_append {start ending : String} (hs : ∀ c ∈ start.toList, beginsName c = true)
    (he : ending.toList.all beginsName = true) {z : Char} (hl : ending.toList.getLast? = some z)
    (hu : z.isUpper = true) : IsName (start ++ ending) := by
  have hall : ∀ c ∈ (start ++ ending).toList, beginsName c = true := by
    intro c hc
    rw [String.toList_append, List.mem_append] at hc
    exact hc.elim (hs c) (List.all_eq_true.mp he c)
  have hlast : (start ++ ending).toList.getLast? = some z := by
    rw [String.toList_append, List.getLast?_append, hl, Option.some_or]
  have hword {word : List Char} {c : Char} (hw : word.getLast? = some c) (hc : c.isUpper = false) :
      (start ++ ending).toList ≠ word := by
    rintro rfl
    obtain rfl := Option.some.inj (hw.symm.trans hlast)
    exact absurd hu (by simp [hc])
  refine ⟨?_, ?_⟩
  · cases hlist : (start ++ ending).toList with
    | nil => simp [hlist] at hlast
    | cons c rest =>
      rw [hlist] at hall
      refine ⟨c, rest, rfl, hall c List.mem_cons_self, fun d hd => ?_⟩
      rw [continuesName, hall d (List.mem_cons_of_mem c hd), Bool.true_or]
  · rw [Token.ofName, if_neg (hword (c := 'f') rfl rfl), if_neg (hword (c := 'h') rfl rfl),
      if_neg (hword (c := 'e') rfl rfl), String.ofList_toList]

/-- Any beginning of letters and underscores gives names. -/
theorem Vocabulary.proper_prefixed {start : String} (hs : ∀ c ∈ start.toList, c.isAlpha = true ∨ c = '_') :
    (Vocabulary.prefixed start).Proper := by
  have hstart : ∀ c ∈ start.toList, beginsName c = true := by
    intro c hc
    simpa [beginsName] using hs c hc
  refine ⟨?_, ?_, ?_, ?_, ?_, ?_⟩
  · exact isName_append hstart rfl (z := 'H') rfl rfl
  · exact isName_append hstart rfl (z := 'T') rfl rfl
  · exact isName_append hstart rfl (z := 'H') rfl rfl
  · exact isName_append hstart rfl (z := 'H') rfl rfl
  · exact isName_append hstart rfl (z := 'H') rfl rfl
  · intro he
    have hlist := congrArg String.toList he
    simp only [Vocabulary.prefixed, String.toList_append, List.append_cancel_left_eq] at hlist
    exact absurd hlist (by decide)

theorem unindented_call {name : String} (h : IsName name) (rest : List Char) :
    unindented (name.toList ++ '(' :: rest) = name.toList ++ '(' :: rest := by
  obtain ⟨⟨c, others, he, hc, _⟩, _⟩ := h
  have hblank : ¬ (c == ' ') = true := by
    rw [beq_iff_eq]
    rintro rfl
    cases hc
  rw [he, List.cons_append]
  exact List.dropWhile_cons_of_neg hblank

/-- The codes that stand for themselves between quotes. -/
def Subject.Prints : Subject → Nat → Prop
  | .length, _ => True
  | .column _, key => 97 ≤ key ∧ key ≤ 122

theorem prints_letter {code : UInt8} (h : isLetter code = true) (column : Nat) :
    (Subject.column column).Prints code.toNat := by
  simpa [isLetter, UInt8.le_iff_toNat_le, Subject.Prints] using h

/-- Trees that can be listed: labels are distinct and print, and no condition is empty. -/
inductive Node.Legible : Node → Prop where
  | dispatch {subject : Subject} {mode : Mode} {arms : List (Nat × Node)} {otherwise : Node}
    (hk : (arms.map Prod.fst).Nodup) (hp : ∀ arm ∈ arms, subject.Prints arm.1)
    (ha : ∀ arm ∈ arms, arm.2.Legible) (ho : otherwise.Legible) :
    Node.Legible (.dispatch subject mode arms otherwise)
  | verify {checks : List Check} {word : Word} {otherwise : Node} (hne : checks ≠ [])
    (hp : ∀ check ∈ checks, isLetter check.expected = true) (ho : otherwise.Legible) :
    Node.Legible (.verify checks word otherwise)
  | accept (word : Word) : Node.Legible (.accept word)
  | guess (word : Word) (unverified : Nat) : Node.Legible (.guess word unverified)
  | reject : Node.Legible .reject

theorem caseBodies_eq_map (arms : List (Nat × Node)) :
    caseBodies arms = arms.map fun arm => (arm.1, arm.2.program) := by
  induction arms with
  | nil => rfl
  | cons arm rest ih => rw [caseBodies, ih, List.map_cons]

theorem chainProgram_eq_map (subject : Subject) (arms : List (Nat × Node)) :
    chainProgram subject arms = arms.map fun arm => .ifAll [⟨subject, arm.1⟩] arm.2.program := by
  induction arms with
  | nil => rfl
  | cons arm rest ih => rw [chainProgram, ih, List.map_cons]

theorem Node.Legible.regular {node : Node} (h : node.Legible) : ∀ stmt ∈ node.program, stmt.Regular := by
  induction h with
  | @dispatch subject mode arms otherwise hk _ _ _ iha iho =>
    intro stmt hm
    cases mode with
    | switch =>
      rw [Node.program, caseBodies_eq_map] at hm
      rcases List.mem_cons.mp hm with rfl | hm
      · refine .switch (by simpa [Function.comp_def] using hk) ?_
        intro arm harm
        obtain ⟨source, hs, rfl⟩ := List.mem_map.mp harm
        exact iha source hs
      · exact iho stmt hm
    | ifChain =>
      rw [Node.program, chainProgram_eq_map] at hm
      rcases List.mem_append.mp hm with hm | hm
      · obtain ⟨arm, harm, rfl⟩ := List.mem_map.mp hm
        exact .ifAll (by simp) (iha arm harm)
      · exact iho stmt hm
  | @verify checks word otherwise hne _ _ iho =>
    intro stmt hm
    rcases List.mem_cons.mp hm with rfl | hm
    · refine .ifAll (by simpa using hne) ?_
      intro stmt hs
      obtain rfl := List.mem_singleton.mp hs
      exact .exit _
    · exact iho stmt hm
  | accept word =>
    intro stmt hm
    obtain rfl := List.mem_singleton.mp hm
    exact .exit _
  | guess word unverified =>
    intro stmt hm
    obtain rfl := List.mem_singleton.mp hm
    exact .exit _
  | reject =>
    intro stmt hm
    obtain rfl := List.mem_singleton.mp hm
    exact .exit _

section Scanning

variable {names : Vocabulary}

theorem scans_subject (hn : names.Proper) (subject : Subject) :
    Scans (names.subject subject).toList (subjectTokens names subject) := by
  cases subject with
  | length =>
    have htext : (names.subject .length).toList = (names.length.toList ++ ['(']) ++ [')'] := by
      simp [Vocabulary.subject]
    rw [htext]
    exact (scans_call hn.length).append rfl
  | column k =>
    have htext : (names.subject (.column k)).toList =
        (names.charAt.toList ++ ['(']) ++ ((toString k).toList ++ [')']) := by
      simp [Vocabulary.subject]
    rw [htext]
    exact (scans_call hn.charAt).append (scans_number k ⟨rfl, rfl⟩)

theorem toNat_ofNat_letter {key : Nat} (h : 97 ≤ key ∧ key ≤ 122) : (Char.ofNat key).toNat = key := by
  rw [Char.ofNat, dif_pos (.inl (by omega))]
  rfl

theorem toList_quote {key : Nat} (h : 97 ≤ key ∧ key ≤ 122) : (quote key).toList = ['\x27', Char.ofNat key, '\x27'] := by
  rw [quote, if_neg (by omega), if_neg (by omega), if_neg (by omega), if_neg (by omega),
    if_neg (by omega), if_neg (by omega), if_pos (by omega)]
  simp

theorem scans_quote {key : Nat} (h : 97 ≤ key ∧ key ≤ 122) : Scans (quote key).toList [.letter key] := by
  have hcode := toNat_ofNat_letter h
  have hne (c : Char) (hc : c.toNat < 97) : Char.ofNat key ≠ c := by
    rintro rfl
    omega
  have hstep : Reading.quoted.step (Char.ofNat key) = some ([], .literal key) := by
    rw [Reading.step, if_neg, hcode]
    rintro (he | he | he)
    · exact hne _ (by decide) he
    · exact hne _ (by decide) he
    · exact hne _ (by decide) he
  rw [toList_quote h, Scans, scan_cons_of_step (s := .quoted) rfl, scan_cons_of_step hstep]
  rfl

theorem scans_label {subject : Subject} {key : Nat} (hp : subject.Prints key) {c : Char} {tokens : List Token}
    (hc : Separates c tokens) : Scans ((subject.label key).toList ++ [c]) (valueToken subject key :: tokens) := by
  cases subject with
  | length => exact scans_number key hc
  | column k => exact (scans_quote hp).append hc.scans

theorem label_inj {subject : Subject} {key key' : Nat} (hp : subject.Prints key) (hp' : subject.Prints key')
    (h : subject.label key = subject.label key') : key = key' := by
  have hs : Separates ':' [.colon] := ⟨rfl, rfl⟩
  have hscan := scans_label hp hs
  rw [h, Scans, scans_label hp' hs] at hscan
  cases subject <;> cases hscan <;> rfl

theorem scans_equation (hn : names.Proper) {subject : Subject} {key : Nat} (hp : subject.Prints key) {c : Char}
    {tokens : List Token} (hc : Separates c tokens) :
    Scans ((names.equation subject key).toList ++ [c]) (Test.tokens names ⟨subject, key⟩ ++ tokens) := by
  have htext : (names.equation subject key).toList ++ [c] =
      (names.subject subject).toList ++ (" == ".toList ++ ((subject.label key).toList ++ [c])) := by
    simp [Vocabulary.equation]
  have hequal : Scans " == ".toList [.equal] := rfl
  rw [htext, Test.tokens, List.append_assoc]
  exact (scans_subject hn subject).append (hequal.append (scans_label hp hc))

theorem scans_conjunction (hn : names.Proper) {checks : List Check} (hne : checks ≠ [])
    (hp : ∀ check ∈ checks, (Subject.column check.column).Prints check.expected.toNat) {c : Char}
    {tokens : List Token} (hc : Separates c tokens) :
    Scans ((names.conjunction checks).toList ++ [c]) (testsTokens names (checks.map Check.test) ++ tokens) := by
  induction checks with
  | nil => exact absurd rfl hne
  | cons check rest ih =>
    have hcheck := hp check List.mem_cons_self
    cases rest with
    | nil =>
      rw [Vocabulary.conjunction, List.map_singleton, String.intercalate_singleton]
      exact scans_equation hn hcheck hc
    | cons second others =>
      have hrest := ih (by simp) fun k hk => hp k (List.mem_cons_of_mem check hk)
      have htext : (names.conjunction (check :: second :: others)).toList ++ [c] =
          ((names.equation (.column check.column) check.expected.toNat).toList ++ [' ']) ++
            ("&& ".toList ++ ((names.conjunction (second :: others)).toList ++ [c])) := by
        simp [Vocabulary.conjunction]
      have hboth : Scans "&& ".toList [.both] := rfl
      have hfirst := scans_equation hn hcheck (c := ' ') ⟨rfl, rfl⟩
      rw [List.append_nil] at hfirst
      have htokens : testsTokens names ((check :: second :: others).map Check.test) ++ tokens =
          check.test.tokens names ++ ([.both] ++ (testsTokens names ((second :: others).map Check.test) ++ tokens)) := by
        simp [testsTokens]
      rw [htext, htokens]
      exact hfirst.append (hboth.append hrest)

/-- The lines of a listing and the tokens they hold. -/
def Writes (lines : List Line) (tokens : List Token) : Prop :=
  Scans (lines.flatMap fun line => line.render.toList) tokens

theorem Writes.nil : Writes [] [] := rfl

theorem Writes.append {a b : List Line} {ts us : List Token} (ha : Writes a ts) (hb : Writes b us) :
    Writes (a ++ b) (ts ++ us) := by
  rw [Writes, List.flatMap_append]
  exact Scans.append ha hb

theorem Writes.cons {level : Nat} {text : String} {lines : List Line} {ts us : List Token}
    (ht : Scans text.toList ts) (hl : Writes lines us) : Writes (⟨level, text⟩ :: lines) (ts ++ us) := by
  have hend : Scans ['\n'] [] := rfl
  have hline := (scans_blanks (4 * level)).append (ht.append hend)
  rw [List.nil_append, List.append_nil] at hline
  rw [Writes, List.flatMap_cons, Line.toList_render]
  exact hline.append hl

theorem scans_verdict {call : String} (hc : IsName call) (word : Word) :
    Scans (Vocabulary.verdict call word).toList [.name call, .opening, .number word.index, .closing] := by
  have htext : (Vocabulary.verdict call word).toList = (call.toList ++ ['(']) ++
      (((toString word.index).toList ++ [')']) ++ (" /* ".toList ++ (word.text.toList ++ " */".toList))) := by
    simp [Vocabulary.verdict]
  have hopen : Code.scan .between " /* ".toList = some ([], .comment false) := rfl
  have hclose : Code.scan (.comment false) " */".toList = some ([], .between) := rfl
  have hcomment : Scans (" /* ".toList ++ (word.text.toList ++ " */".toList)) [] :=
    scan_trans hopen (scan_trans (scan_comment (word.not_mem_text (by decide))) hclose)
  have hindex : Scans ((toString word.index).toList ++ [')']) [.number word.index, .closing] :=
    scans_number word.index ⟨rfl, rfl⟩
  rw [htext]
  exact (scans_call hc).append (hindex.append hcomment)

private theorem scans_blockEnd : Scans "\x7d".toList [.blockEnd] := rfl

theorem writes_caseLines {subject : Subject} {level : Nat} {arms : List (Nat × Node)}
    (hp : ∀ arm ∈ arms, subject.Prints arm.1)
    (ha : ∀ arm ∈ arms, Writes (arm.2.lines names (level + 1)) (blockTokens names arm.2.program)) :
    Writes (caseLines names subject level arms) (casesTokens names subject (caseBodies arms)) := by
  induction arms with
  | nil => exact .nil
  | cons arm rest ih =>
    obtain ⟨key, node⟩ := arm
    have hrest := ih (fun a hm => hp a (List.mem_cons_of_mem _ hm)) fun a hm => ha a (List.mem_cons_of_mem _ hm)
    have hword : Scans "  case ".toList [.caseWord] := rfl
    have hlabel := hword.append (scans_label (hp _ List.mem_cons_self) (c := ':') ⟨rfl, rfl⟩)
    have hline : Scans ("  case " ++ subject.label key ++ ":").toList
        [.caseWord, valueToken subject key, .colon] := by
      simpa using hlabel
    rw [caseLines, caseBodies, casesTokens]
    exact Writes.cons hline ((ha _ List.mem_cons_self).append hrest)

theorem writes_ifAll {condition : String} {tests : List Test}
    (hc : Scans (condition.toList ++ [')']) (testsTokens names tests ++ [.closing])) {level : Nat}
    {inner following : List Line} {body more : List Stmt} (hb : Writes inner (blockTokens names body))
    (hf : Writes following (blockTokens names more)) :
    Writes (⟨level, "if (" ++ condition ++ ") \x7b"⟩ :: (inner ++ ⟨level, "\x7d"⟩ :: following))
      (blockTokens names (.ifAll tests body :: more)) := by
  have hword : Scans "if (".toList [.ifWord, .opening] := rfl
  have hstart : Scans " \x7b".toList [.blockStart] := rfl
  have hline : Scans ("if (" ++ condition ++ ") \x7b").toList
      (.ifWord :: .opening :: (testsTokens names tests ++ [.closing, .blockStart])) := by
    simpa using hword.append (hc.append hstart)
  have htokens : blockTokens names (.ifAll tests body :: more) =
      (.ifWord :: .opening :: (testsTokens names tests ++ [.closing, .blockStart])) ++
        (blockTokens names body ++ ([.blockEnd] ++ blockTokens names more)) := by
    simp [blockTokens, Stmt.tokens]
  rw [htokens]
  exact Writes.cons hline (hb.append (Writes.cons scans_blockEnd hf))

theorem writes_chainLines (hn : names.Proper) {subject : Subject} {level : Nat} {arms : List (Nat × Node)}
    (hp : ∀ arm ∈ arms, subject.Prints arm.1)
    (ha : ∀ arm ∈ arms, Writes (arm.2.lines names (level + 1)) (blockTokens names arm.2.program)) :
    Writes (chainLines names subject level arms) (blockTokens names (chainProgram subject arms)) := by
  induction arms with
  | nil => exact .nil
  | cons arm rest ih =>
    obtain ⟨key, node⟩ := arm
    have hrest := ih (fun a hm => hp a (List.mem_cons_of_mem _ hm)) fun a hm => ha a (List.mem_cons_of_mem _ hm)
    rw [chainLines, chainProgram]
    exact writes_ifAll (scans_equation hn (hp _ List.mem_cons_self) ⟨rfl, rfl⟩) (ha _ List.mem_cons_self) hrest

/-- The lines of a tree that can be listed have the tokens of its program. -/
theorem Node.Legible.writes (hn : names.Proper) {node : Node} (h : node.Legible) (level : Nat) :
    Writes (node.lines names level) (blockTokens names node.program) := by
  induction h generalizing level with
  | @dispatch subject mode arms otherwise _ hp _ _ iha iho =>
    cases mode with
    | switch =>
      have hword : Scans "switch (".toList [.switchWord, .opening] := rfl
      have hstart : Scans ") \x7b".toList [.closing, .blockStart] := rfl
      have hline : Scans ("switch (" ++ names.subject subject ++ ") \x7b").toList
          (.switchWord :: .opening :: (subjectTokens names subject ++ [.closing, .blockStart])) := by
        simpa using hword.append ((scans_subject hn subject).append hstart)
      have htokens : blockTokens names (Node.dispatch subject .switch arms otherwise).program =
          (.switchWord :: .opening :: (subjectTokens names subject ++ [.closing, .blockStart])) ++
            (casesTokens names subject (caseBodies arms) ++ ([.blockEnd] ++ blockTokens names otherwise.program)) := by
        simp [Node.program, blockTokens, Stmt.tokens]
      have hcases : Writes (caseLines names subject level arms) (casesTokens names subject (caseBodies arms)) :=
        writes_caseLines hp fun arm harm => iha arm harm (level + 1)
      rw [Node.lines, htokens]
      exact Writes.cons hline (hcases.append (Writes.cons scans_blockEnd (iho level)))
    | ifChain =>
      have hchain : Writes (chainLines names subject level arms) (blockTokens names (chainProgram subject arms)) :=
        writes_chainLines hn hp fun arm harm => iha arm harm (level + 1)
      rw [Node.lines, Node.program, blockTokens_append]
      exact hchain.append (iho level)
  | @verify checks word otherwise hne hp _ iho =>
    have hprint : ∀ check ∈ checks, (Subject.column check.column).Prints check.expected.toNat :=
      fun check hm => prints_letter (hp check hm) check.column
    have hmatch : Writes [⟨level + 1, Vocabulary.verdict names.matched word⟩]
        (blockTokens names [.exit (.matched word.index)]) := .cons (scans_verdict hn.matched word) .nil
    exact writes_ifAll (scans_conjunction hn hne hprint ⟨rfl, rfl⟩) hmatch (iho level)
  | accept word => exact .cons (scans_verdict hn.matched word) .nil
  | guess word unverified => exact .cons (scans_verdict hn.guessMatch word) .nil
  | reject =>
    have hcall : (names.noMatch ++ "()").toList = (names.noMatch.toList ++ ['(']) ++ [')'] := by simp
    have hline : Scans (names.noMatch ++ "()").toList [.name names.noMatch, .opening, .closing] := by
      rw [hcall]
      exact (scans_call hn.noMatch).append rfl
    exact .cons hline .nil

private theorem scan_header_line (level : Nat) (text : String) (h : '*' ∉ text.toList) :
    Code.scan (.comment false) (Line.render ⟨level, " * " ++ text⟩).toList = some ([], .comment false) := by
  have hindent : Code.scan (.comment false) (List.replicate (4 * level) ' ') = some ([], .comment false) :=
    scan_comment (by simp)
  have hstar : Code.scan (.comment false) " * ".toList = some ([], .comment false) := rfl
  have hrest : Code.scan (.comment false) (text.toList ++ ['\n']) = some ([], .comment false) :=
    scan_comment (by simpa using h)
  rw [Line.toList_render, String.toList_append, List.append_assoc]
  exact scan_trans hindent (scan_trans hstar hrest)

private theorem scan_header_lines {lines : List Line}
    (h : ∀ line ∈ lines, Code.scan (.comment false) line.render.toList = some ([], .comment false)) :
    Code.scan (.comment false) (lines.flatMap fun line => line.render.toList) = some ([], .comment false) := by
  induction lines with
  | nil => rfl
  | cons line rest ih =>
    rw [List.flatMap_cons]
    exact scan_trans (h line List.mem_cons_self) (ih fun l hl => h l (List.mem_cons_of_mem line hl))

theorem writes_headerLines (level : Nat) (words : List Word) : Writes (headerLines level words) [] := by
  have hopen : Code.scan .between (Line.render ⟨level, "/*"⟩).toList = some ([], .comment false) := by
    have hmark : Code.scan .between ("/*".toList ++ ['\n']) = some ([], .comment false) := rfl
    rw [Line.toList_render]
    exact scan_trans (scans_blanks (4 * level)) hmark
  have hclose : Code.scan (.comment false) (Line.render ⟨level, " */"⟩).toList = some ([], .between) := by
    have hmark : Code.scan (.comment false) (" */".toList ++ ['\n']) = some ([], .between) := rfl
    rw [Line.toList_render]
    exact scan_trans (scan_comment (by simp)) hmark
  have hcount := scan_header_line level
    ("Generating switch for the list of " ++ (toString words.length ++ " entries:"))
    (by simp [not_mem_decimal (c := '*') rfl])
  have hwords : ∀ line ∈ words.map fun word => (⟨level, " * " ++ (toString word.index ++ (": " ++ word.text))⟩ : Line),
      Code.scan (.comment false) line.render.toList = some ([], .comment false) := by
    intro line hm
    obtain ⟨word, _, rfl⟩ := List.mem_map.mp hm
    have hstar : '*' ∉ word.text.toList := word.not_mem_text (by decide)
    exact scan_header_line level _ (by simp [not_mem_decimal (c := '*') rfl, hstar])
  have hsplit : " * Generating switch for the list of " = " * " ++ "Generating switch for the list of " := rfl
  have hall := scan_trans hopen (scan_trans hcount (scan_trans (scan_header_lines hwords) hclose))
  simpa only [Writes, Scans, headerLines, hsplit, String.append_assoc, List.flatMap_cons, List.flatMap_append,
    List.flatMap_nil, List.append_nil, List.nil_append] using hall

theorem program?_render (hn : names.Proper) {tree : Tree} (h : tree.root.Legible) (level : Nat) :
    program? names (tree.render names level) = some tree.root.program := by
  refine program?_eq_some hn.guess_ne h.regular ?_
  have hlines := (writes_headerLines level tree.words).append (h.writes hn level)
  rw [Tree.render, String.toList_join, List.flatMap_map]
  exact hlines

end Scanning

end KeywordTree
