import KeywordTree.Proofs.Code.Execution
import KeywordTree.Proofs.Recognition

/-! The blocks of a listing. Its braces nest, and how far a line is indented follows from the
braces on the lines before it. -/
namespace KeywordTree
open Code

section Braces

/-- The number of blocks that are open after a text. -/
def depthOf (text : List Char) : Nat := text.count '\x7b' - text.count '\x7d'

/-- The text leads from one number of open blocks to another, and ends no block in between
that is not open there. -/
structure Nests (depth : Nat) (text : List Char) (final : Nat) : Prop where
  total : depth + text.count '\x7b' = final + text.count '\x7d'
  bounded : ∀ before, before <+: text → before.count '\x7d' ≤ depth + before.count '\x7b'

namespace Nests

variable {depth next final : Nat} {a b text : List Char}

theorem append (ha : Nests depth a next) (hb : Nests next b final) : Nests depth (a ++ b) final where
  total := by
    have hfirst := ha.total
    have hsecond := hb.total
    rw [List.count_append, List.count_append]
    omega
  bounded before hp := by
    rcases List.prefix_or_prefix_of_prefix hp (List.prefix_append a b) with hp | ⟨rest, rfl⟩
    · exact ha.bounded before hp
    · have hfirst := ha.total
      have hsecond := hb.bounded rest ((List.prefix_append_right_inj a).mp hp)
      rw [List.count_append, List.count_append]
      omega

theorem of_not_mem (ho : '\x7b' ∉ text) (hc : '\x7d' ∉ text) (depth : Nat) : Nests depth text depth where
  total := by rw [List.count_eq_zero.mpr ho, List.count_eq_zero.mpr hc]
  bounded before hp := by
    rw [List.count_eq_zero.mpr fun hm => hc (hp.subset hm)]
    exact Nat.zero_le _

theorem opening (depth : Nat) : Nests depth ['\x7b'] (depth + 1) where
  total := by simp
  bounded before hp := by
    have hle : before.count '\x7d' ≤ ['\x7b'].count '\x7d' := hp.sublist.count_le _
    exact Nat.le_trans hle (Nat.zero_le _)

theorem closing (depth : Nat) : Nests (depth + 1) ['\x7d'] depth where
  total := by simp
  bounded before hp := by
    have hle : before.count '\x7d' ≤ 1 := hp.sublist.count_le _
    omega

theorem line {lines : List (List Char)} (ha : Nests depth a next) (hb : Nests next (Text.unlines lines) final) :
    Nests depth (Text.unlines (a :: lines)) final := by
  have hend : Nests next ['\n'] next := .of_not_mem (by simp) (by simp) next
  rw [Text.unlines_cons]
  exact ha.append (hend.append hb)

theorem depthOf_eq (h : Nests 0 text final) : depthOf text = final := by
  have htotal := h.total
  rw [depthOf]
  omega

end Nests

def Braceless (text : String) : Prop := ∀ c ∈ ['\x7b', '\x7d'], c ∉ text.toList

theorem braceless_append {a b : String} : Braceless (a ++ b) ↔ Braceless a ∧ Braceless b := by
  simp only [Braceless, String.toList_append, List.mem_append, not_or, forall₂_and]

theorem Braceless.nests {text : String} (h : Braceless text) (depth : Nat) : Nests depth text.toList depth :=
  .of_not_mem (h _ List.mem_cons_self) (h _ (List.mem_cons_of_mem _ List.mem_cons_self)) depth

theorem foreign_brace {c : Char} (hc : c ∈ ['\x7b', '\x7d']) : Foreign c := by
  rcases List.mem_pair.mp hc with rfl | rfl <;> exact ⟨rfl, by decide⟩

theorem braceless_toString (n : Nat) : Braceless (toString n) := fun _ hc => (foreign_brace hc).decimal n

theorem braceless_name {name : String} (h : IsName name) : Braceless name := by
  intro c hc
  rcases List.mem_pair.mp hc with rfl | rfl <;> exact h.not_mem rfl

theorem braceless_text (word : Word) : Braceless word.text := by
  intro c hc hm
  have hletter := (Word.toNat_of_mem_text hm).2
  rcases List.mem_pair.mp hc with rfl | rfl <;> exact absurd hletter (by decide)

theorem braceless_label {subject : Subject} {key : Nat} (hp : subject.Prints key) : Braceless (subject.label key) := by
  cases subject with
  | length => exact braceless_toString key
  | column k =>
    have hne (c : Char) (hc : 122 < c.toNat) : c ≠ Char.ofNat key := by
      rintro rfl
      rw [toNat_ofNat_letter hp] at hc
      exact absurd hp.2 (by omega)
    rw [Subject.label, Braceless, toList_quote hp]
    simp [hne '\x7b' (by decide), hne '\x7d' (by decide)]

variable {names : Vocabulary}

theorem braceless_subject (hn : names.Proper) (subject : Subject) : Braceless (names.subject subject) := fun c hc =>
  (foreign_brace hc).subject (braceless_name hn.length c hc) (braceless_name hn.charAt c hc) subject

theorem braceless_equation (hn : names.Proper) {subject : Subject} {key : Nat} (hp : subject.Prints key) :
    Braceless (names.equation subject key) := fun c hc =>
  (foreign_brace hc).equation (braceless_subject hn subject c hc) (braceless_label hp c hc)

theorem braceless_conjunction (hn : names.Proper) {checks : List Check}
    (hp : ∀ check ∈ checks, (Subject.column check.column).Prints check.expected.toNat) :
    Braceless (names.conjunction checks) := fun c hc =>
  (foreign_brace hc).conjunction (fun k => braceless_subject hn (.column k) c hc) fun check hm =>
    braceless_label (hp check hm) c hc

theorem braceless_verdict {call : String} (hn : IsName call) (word : Word) :
    Braceless (Vocabulary.verdict call word) := fun c hc =>
  (foreign_brace hc).verdict (braceless_name hn c hc) word (braceless_text word c hc)

end Braces

section Lines

def indentation (line : List Char) : Nat := (line.takeWhile (· == ' ')).length

/-- The line does nothing but end a block. -/
def IsClosing (line : List Char) : Prop := unindented line = ['\x7d']

def IsLabel (line : List Char) : Prop := "case ".toList <+: unindented line

/-- The line is indented as the number of open blocks before it asks for: a statement by that
number, what ends a block by one less, and a label half way in between. -/
structure Placed (base depth : Nat) (line : List Char) : Prop where
  closing : IsClosing line → 1 ≤ depth ∧ indentation line = 4 * (base + depth - 1)
  label : IsLabel line → 1 ≤ depth ∧ indentation line = 4 * (base + depth - 1) + 2
  statement : ¬ IsClosing line → ¬ IsLabel line → indentation line = 4 * (base + depth)

theorem indentation_shown (line : Line) :
    indentation line.shown = 4 * line.level + indentation line.text.toList := by
  have hblank : ∀ c ∈ List.replicate (4 * line.level) ' ', (c == ' ') = true := by
    intro c hc
    rw [List.eq_of_mem_replicate hc]
    rfl
  rw [indentation, Line.shown, List.takeWhile_append_of_pos hblank, List.length_append, List.length_replicate]
  rfl

/-- The line is well placed, and the number of open blocks after it is `next`. -/
structure Line.Steps (base depth : Nat) (line : Line) (next : Nat) : Prop where
  placed : Placed base depth line.shown
  nests : Nests depth line.shown next

theorem nests_shown {depth next : Nat} {text : String} (h : Nests depth text.toList next) (level : Nat) :
    Nests depth (Line.shown ⟨level, text⟩) next :=
  (Nests.of_not_mem (by simp) (by simp) depth).append h

/-- A text that begins with something other than a blank, and is neither of the other kinds. -/
structure IsStatement (text : List Char) : Prop where
  unindented_eq : unindented text = text
  not_closing : ¬ IsClosing text
  not_label : ¬ IsLabel text

variable {base depth next : Nat}

theorem steps_statement {text : String} (hs : IsStatement text.toList) (hn : Nests depth text.toList next) :
    Line.Steps base depth ⟨base + depth, text⟩ next := by
  have hblank : indentation text.toList = 0 := by
    have hlength := congrArg List.length (List.takeWhile_append_dropWhile (p := (· == ' ')) (l := text.toList))
    rw [List.length_append, ← unindented, hs.unindented_eq] at hlength
    rw [indentation]
    omega
  refine ⟨⟨fun hc => ?_, fun hl => ?_, fun _ _ => ?_⟩, nests_shown hn _⟩
  · rw [IsClosing, unindented_shown] at hc
    exact absurd hc hs.not_closing
  · rw [IsLabel, unindented_shown] at hl
    exact absurd hl hs.not_label
  · rw [indentation_shown, hblank, Nat.add_zero]

theorem steps_closing (base depth : Nat) : Line.Steps base (depth + 1) ⟨base + depth, "\x7d"⟩ depth := by
  have hclosing : unindented (Line.shown ⟨base + depth, "\x7d"⟩) = ['\x7d'] := by
    rw [unindented_shown]
    simp [unindented]
  have hblank : indentation (Line.shown ⟨base + depth, "\x7d"⟩) = 4 * (base + depth) := by
    rw [indentation_shown]
    simp [indentation]
  refine ⟨⟨fun _ => ⟨by omega, hblank⟩, fun hl => ?_, fun hn => absurd hclosing hn⟩, nests_shown (.closing depth) _⟩
  rw [IsLabel, hclosing] at hl
  simp at hl

theorem steps_label (base depth : Nat) {label : String} (h : Braceless label) :
    Line.Steps base (depth + 1) ⟨base + depth, "  case " ++ label ++ ":"⟩ (depth + 1) := by
  have hlabel : unindented (Line.shown ⟨base + depth, "  case " ++ label ++ ":"⟩) =
      "case ".toList ++ (label.toList ++ [':']) := by
    rw [unindented_shown]
    simp [unindented]
  have hblank : indentation (Line.shown ⟨base + depth, "  case " ++ label ++ ":"⟩) = 4 * (base + depth) + 2 := by
    rw [indentation_shown]
    simp [indentation]
  have hbraceless : Braceless ("  case " ++ label ++ ":") :=
    braceless_append.mpr ⟨braceless_append.mpr ⟨by simp [Braceless], h⟩, by simp [Braceless]⟩
  refine ⟨⟨fun hc => ?_, fun _ => ⟨by omega, hblank⟩, fun _ hn => absurd ?_ hn⟩, nests_shown (hbraceless.nests _) _⟩
  · rw [IsClosing, hlabel] at hc
    simp at hc
  · rw [IsLabel, hlabel]
    exact List.prefix_append _ _

theorem isStatement_call {name : String} (h : IsName name) (rest : List Char) :
    IsStatement (name.toList ++ '(' :: rest) := by
  have hsame := unindented_call h rest
  refine ⟨hsame, fun hc => ?_, fun hl => ?_⟩
  · rw [IsClosing, hsame] at hc
    have hm : '(' ∈ ['\x7d'] := hc ▸ List.mem_append_right _ List.mem_cons_self
    simp at hm
  · rw [IsLabel, hsame, List.append_cons] at hl
    -- Either the blank of the label is in the name, or the bracket after the name is in the label.
    rcases List.prefix_or_prefix_of_prefix hl (List.prefix_append (name.toList ++ ['(']) rest) with hp | hp
    · have hm : ' ' ∈ name.toList ++ ['('] := hp.subset (by simp)
      simp [h.not_mem (c := ' ') rfl] at hm
    · have hm : '(' ∈ "case ".toList := hp.subset (List.mem_append_right _ List.mem_cons_self)
      simp at hm

theorem steps_verdict {call : String} (hc : IsName call) (word : Word) :
    Line.Steps base depth ⟨base + depth, Vocabulary.verdict call word⟩ depth := by
  refine steps_statement ?_ ((braceless_verdict hc word).nests depth)
  rw [toList_verdict]
  exact isStatement_call hc _

theorem steps_noMatch {name : String} (hn : IsName name) :
    Line.Steps base depth ⟨base + depth, name ++ "()"⟩ depth := by
  have hbraceless : Braceless (name ++ "()") := braceless_append.mpr ⟨braceless_name hn, by simp [Braceless]⟩
  refine steps_statement ?_ (hbraceless.nests depth)
  rw [String.toList_append]
  exact isStatement_call hn _

theorem steps_opening {word : String} (hw : word = "if (" ∨ word = "switch (") {condition : String}
    (hc : Braceless condition) :
    Line.Steps base depth ⟨base + depth, word ++ condition ++ ") \x7b"⟩ (depth + 1) := by
  have hword : Braceless word := by rcases hw with rfl | rfl <;> simp [Braceless]
  have hhead : Braceless (word ++ condition ++ ") ") :=
    braceless_append.mpr ⟨braceless_append.mpr ⟨hword, hc⟩, by simp [Braceless]⟩
  have htext : (word ++ condition ++ ") \x7b").toList = (word ++ condition ++ ") ").toList ++ ['\x7b'] := by simp
  refine steps_statement ?_ ?_
  · rcases hw with rfl | rfl <;> constructor <;> simp [unindented, IsClosing, IsLabel]
  · rw [htext]
    exact (hhead.nests depth).append (.opening depth)

end Lines

/-- Lines that are all well placed, from one number of open blocks to another. -/
inductive Laid (base : Nat) : Nat → List Line → Nat → Prop where
  | nil (depth : Nat) : Laid base depth [] depth
  | cons {depth next final : Nat} {line : Line} {rest : List Line} (hs : line.Steps base depth next)
    (h : Laid base next rest final) : Laid base depth (line :: rest) final

namespace Laid

variable {base depth next final : Nat} {a b : List Line}

theorem append (ha : Laid base depth a next) (hb : Laid base next b final) : Laid base depth (a ++ b) final := by
  induction ha with
  | nil _ => exact hb
  | cons hs _ ih => exact .cons hs (ih hb)

theorem split (h : Laid base depth (a ++ b) final) : ∃ next, Laid base depth a next ∧ Laid base next b final := by
  induction a generalizing depth with
  | nil => exact ⟨depth, .nil depth, h⟩
  | cons line rest ih =>
    cases h with
    | cons hs h =>
      obtain ⟨next, ha, hb⟩ := ih h
      exact ⟨next, .cons hs ha, hb⟩

theorem placed {line : Line} (h : Laid base depth (a ++ line :: b) final) :
    ∃ next, Laid base depth a next ∧ Placed base next line.shown := by
  obtain ⟨next, ha, hb⟩ := h.split
  cases hb with
  | cons hs _ => exact ⟨next, ha, hs.placed⟩

theorem nests (h : Laid base depth a final) : Nests depth (Text.unlines (a.map Line.shown)) final := by
  induction h with
  | nil depth => exact .of_not_mem (by simp) (by simp) depth
  | cons hs _ ih => exact hs.nests.line ih

theorem block {word : String} (hw : word = "if (" ∨ word = "switch (") {condition : String} (hc : Braceless condition)
    (ha : Laid base (depth + 1) a (depth + 1)) (hb : Laid base depth b final) :
    Laid base depth (⟨base + depth, word ++ condition ++ ") \x7b"⟩ :: (a ++ ⟨base + depth, "\x7d"⟩ :: b)) final :=
  .cons (steps_opening hw hc) (ha.append (.cons (steps_closing base depth) hb))

end Laid

section Nodes

variable {names : Vocabulary} {base depth : Nat} {subject : Subject} {arms : List (Nat × Node)}

theorem laid_caseLines (hp : ∀ arm ∈ arms, subject.Prints arm.1)
    (ha : ∀ arm ∈ arms, Laid base (depth + 1) (arm.2.lines names (base + (depth + 1))) (depth + 1)) :
    Laid base (depth + 1) (caseLines names subject (base + depth) arms) (depth + 1) := by
  induction arms with
  | nil => exact .nil _
  | cons arm rest ih =>
    obtain ⟨hprint, hprints⟩ := List.forall_mem_cons.mp hp
    obtain ⟨harm, harms⟩ := List.forall_mem_cons.mp ha
    exact .cons (steps_label base depth (braceless_label hprint)) (harm.append (ih hprints harms))

theorem laid_chainLines (hn : names.Proper) (hp : ∀ arm ∈ arms, subject.Prints arm.1)
    (ha : ∀ arm ∈ arms, Laid base (depth + 1) (arm.2.lines names (base + (depth + 1))) (depth + 1)) :
    Laid base depth (chainLines names subject (base + depth) arms) depth := by
  induction arms with
  | nil => exact .nil _
  | cons arm rest ih =>
    obtain ⟨hprint, hprints⟩ := List.forall_mem_cons.mp hp
    obtain ⟨harm, harms⟩ := List.forall_mem_cons.mp ha
    exact .block (.inl rfl) (braceless_equation hn hprint) harm (ih hprints harms)

/-- The lines of a node leave as many blocks open as they find. -/
theorem Node.Legible.laid (hn : names.Proper) {node : Node} (h : node.Legible) (base depth : Nat) :
    Laid base depth (node.lines names (base + depth)) depth := by
  induction h generalizing depth with
  | @dispatch subject mode arms otherwise _ hp _ _ iha iho =>
    have harms (arm : Nat × Node) (hm : arm ∈ arms) := iha arm hm (depth + 1)
    cases mode with
    | switch => exact .block (.inr rfl) (braceless_subject hn subject) (laid_caseLines hp harms) (iho depth)
    | ifChain =>
      rw [Node.lines]
      exact (laid_chainLines hn hp harms).append (iho depth)
  | @verify checks word otherwise _ hp _ iho =>
    have hprint (check : Check) (hm : check ∈ checks) : (Subject.column check.column).Prints check.expected.toNat :=
      prints_letter (hp check hm) check.column
    have hmatch : Laid base (depth + 1) [⟨base + (depth + 1), Vocabulary.verdict names.matched word⟩] (depth + 1) :=
      .cons (steps_verdict hn.matched word) (.nil _)
    exact .block (.inl rfl) (braceless_conjunction hn hprint) hmatch (iho depth)
  | accept word => exact .cons (steps_verdict hn.matched word) (.nil _)
  | guess word _ => exact .cons (steps_verdict hn.guessMatch word) (.nil _)
  | reject => exact .cons (steps_noMatch hn.noMatch) (.nil _)

/-- What falls through a dispatch is listed last. -/
theorem getLast?_lines_dispatch (names : Vocabulary) (level : Nat) (subject : Subject) (mode : Mode)
    (arms : List (Nat × Node)) :
    ((Node.dispatch subject mode arms .reject).lines names level).getLast? = some ⟨level, names.noMatch ++ "()"⟩ := by
  cases mode with
  | switch =>
    rw [Node.lines, ← List.cons_append, List.getLast?_append]
    rfl
  | ifChain =>
    rw [Node.lines, List.getLast?_append]
    rfl

theorem braceless_headerLines (level : Nat) (words : List Word) :
    ∀ line ∈ headerLines level words, Braceless line.text := by
  rw [headerLines, List.forall_mem_cons, List.forall_mem_cons, List.forall_mem_append, List.forall_mem_singleton,
    List.forall_mem_map]
  refine ⟨by simp [Braceless], ?_, fun word _ => ?_, by simp [Braceless]⟩
  · simp only [braceless_append]
    exact ⟨⟨by simp [Braceless], braceless_toString _⟩, by simp [Braceless]⟩
  · simp only [braceless_append]
    exact ⟨⟨⟨by simp [Braceless], braceless_toString _⟩, by simp [Braceless]⟩, braceless_text word⟩

theorem nests_of_braceless {lines : List Line} (h : ∀ line ∈ lines, Braceless line.text) (depth : Nat) :
    Nests depth (Text.unlines (lines.map Line.shown)) depth := by
  induction lines with
  | nil => exact .of_not_mem (by simp) (by simp) depth
  | cons line rest ih =>
    obtain ⟨hline, hrest⟩ := List.forall_mem_cons.mp h
    exact .line (nests_shown (hline.nests depth) line.level) (ih hrest)

end Nodes

/-- The text of a built tree has the shape of its blocks. Its braces nest and match. All of it
is lines, and each line after the header is indented by the number of blocks that are open
before it. The last line, at the level of the text, rejects. -/
theorem render_blocks_nest {config : Config} {corpus : List Word} {tree : Tree}
    (h : (build config corpus).result = .ok tree) {start : String}
    (hs : ∀ c ∈ start.toList, c.isAlpha = true ∨ c = '_') (level : Nat) :
    let text := (tree.render (.prefixed start) level).toList
    let header := (headerLines level tree.words).map Line.shown
    (∀ before, before <+: text → before.count '\x7d' ≤ before.count '\x7b') ∧
    text.count '\x7d' = text.count '\x7b' ∧
    ∃ body, text = Text.unlines (header ++ body) ∧ (∀ line ∈ header ++ body, '\n' ∉ line) ∧
      (∀ before line after, body = before ++ line :: after →
        Placed level (depthOf (Text.unlines (header ++ before))) line) ∧
      body.getLast? = some (List.replicate (4 * level) ' ' ++ (start ++ "NO_MATCH()").toList) := by
  intro text header
  have hlaid : Laid level 0 (tree.root.lines (.prefixed start) level) 0 :=
    (build_legible h).laid (Vocabulary.proper_prefixed hs) level 0
  have hheader : Nests 0 (Text.unlines header) 0 := nests_of_braceless (braceless_headerLines level tree.words) 0
  have htext : text = Text.unlines (header ++ (tree.root.lines (.prefixed start) level).map Line.shown) := by
    rw [← List.map_append, ← Tree.listing]
    exact tree.toList_render _ level
  have hnests : Nests 0 text 0 := by
    rw [htext, Text.unlines_append]
    exact hheader.append hlaid.nests
  have hnames : (Vocabulary.prefixed start).OneLine := Vocabulary.oneLine_prefixed (oneLine_of_letters hs)
  refine ⟨fun before hp => ?_, ?_, _, htext, ?_, fun before line after he => ?_, ?_⟩
  · simpa using hnests.bounded before hp
  · simpa using hnests.total.symm
  · rw [← List.map_append, List.forall_mem_map, ← Tree.listing]
    exact fun line hm => (tree.plain_listing hnames level line hm).shown.1
  · obtain ⟨above, below, hsplit, rfl, hbelow⟩ := List.map_eq_append_iff.mp he
    obtain ⟨line, rest, rfl, rfl, _⟩ := List.map_eq_cons_iff.mp hbelow
    rw [hsplit] at hlaid
    obtain ⟨next, habove, hplaced⟩ := hlaid.placed
    rw [Text.unlines_append, (hheader.append habove.nests).depthOf_eq]
    exact hplaced
  · obtain ⟨_, _, arms, hroot, _⟩ := build_inv h
    rw [hroot, List.getLast?_map, getLast?_lines_dispatch]
    simp [Line.shown, Vocabulary.prefixed]

/-- A switch on the length, and below it chains, a tail comparison and a guess. -/
theorem render_blocks_nest_mixedWords : (∀ c ∈ "Kw_".toList, c.isAlpha = true ∨ c = '_') ∧
    ∃ tree body, (build ⟨2, 1, 1⟩ mixedWords).result = .ok tree ∧
      let text := (tree.render (.prefixed "Kw_") 1).toList
      let header := (headerLines 1 tree.words).map Line.shown
      text.count '\x7d' = text.count '\x7b' ∧ text = Text.unlines (header ++ body) ∧
        (∀ before line after, body = before ++ line :: after →
          Placed 1 (depthOf (Text.unlines (header ++ before))) line) ∧
        body.getLast? = some "    Kw_NO_MATCH()".toList := by
  have hs : ∀ c ∈ "Kw_".toList, c.isAlpha = true ∨ c = '_' := by simp
  obtain ⟨tree, h⟩ := exists_build ⟨2, 1, 1⟩ (by decide : mixedWords ≠ []) (by decide +kernel)
  obtain ⟨_, hcount, body, htext, _, hplaced, hlast⟩ := render_blocks_nest h hs 1
  exact ⟨hs, tree, body, h, hcount, htext, hplaced, hlast⟩

end KeywordTree
