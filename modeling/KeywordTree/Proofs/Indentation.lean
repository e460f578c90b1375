import KeywordTree.Proofs.Lines

/-! The level at which a listing starts only moves it: all its lines are indented further by
the same number of blanks, whatever the tree is. -/
namespace KeywordTree

/-- The text with blanks put in front of each of its lines. The flag says whether a line
starts here. -/
def Text.indent (blanks : List Char) : Bool → List Char → List Char
  | _, [] => []
  | true, c :: rest => blanks ++ c :: Text.indent blanks (c == '\n') rest
  | false, c :: rest => c :: Text.indent blanks (c == '\n') rest

section Text

variable {blanks line : List Char}

theorem Text.indent_append (h : '\n' ∉ line) (rest : List Char) :
    Text.indent blanks false (line ++ rest) = line ++ Text.indent blanks false rest := by
  induction line with
  | nil => rfl
  | cons c line ih =>
    have hc : c ≠ '\n' := fun he => h (he ▸ List.mem_cons_self)
    have hline := ih fun hm => h (List.mem_cons_of_mem c hm)
    rw [List.cons_append, Text.indent, beq_false_of_ne hc, hline, List.cons_append]

theorem Text.indent_line (h : '\n' ∉ line) (rest : List Char) :
    Text.indent blanks true (line ++ '\n' :: rest) = blanks ++ line ++ '\n' :: Text.indent blanks true rest := by
  -- A line that is empty starts with its newline.
  have hstart (text : List Char) (hne : text ≠ []) :
      Text.indent blanks true text = blanks ++ Text.indent blanks false text := by
    cases text with
    | nil => exact absurd rfl hne
    | cons c text => rfl
  rw [hstart _ (by simp), Text.indent_append h, List.append_assoc]
  rfl

theorem Text.indent_unlines {lines : List (List Char)} (h : ∀ line ∈ lines, '\n' ∉ line) :
    Text.indent blanks true (Text.unlines lines) = Text.unlines (lines.map (blanks ++ ·)) := by
  induction lines with
  | nil => rfl
  | cons line rest ih =>
    obtain ⟨hline, hrest⟩ := List.forall_mem_cons.mp h
    rw [Text.unlines_cons, Text.indent_line hline, ih hrest, List.map_cons, Text.unlines_cons]

end Text

def Line.raise (n : Nat) (line : Line) : Line := { line with level := n + line.level }

theorem Line.shown_raise (n : Nat) (line : Line) : (line.raise n).shown = List.replicate (4 * n) ' ' ++ line.shown := by
  simp only [Line.shown, Line.raise, Nat.mul_add, ← List.replicate_append_replicate, List.append_assoc]

section Levels

variable (names : Vocabulary) (n : Nat)

mutual

theorem Node.lines_raise (level : Nat) : (node : Node) →
    node.lines names (n + level) = (node.lines names level).map (Line.raise n)
  | .dispatch subject .switch arms otherwise => by
    simp only [Node.lines, List.map_cons, List.map_append, Node.lines_raise level otherwise,
      caseLines_raise subject level arms]
    rfl
  | .dispatch subject .ifChain arms otherwise => by
    simp only [Node.lines, List.map_append, Node.lines_raise level otherwise, chainLines_raise subject level arms]
  | .verify checks word otherwise => by
    simp only [Node.lines, List.map_cons, Node.lines_raise level otherwise]
    rfl
  | .accept word => rfl
  | .guess word unverified => rfl
  | .reject => rfl

theorem caseLines_raise (subject : Subject) (level : Nat) : (arms : List (Nat × Node)) →
    caseLines names subject (n + level) arms = (caseLines names subject level arms).map (Line.raise n)
  | [] => rfl
  | (key, node) :: rest => by
    simp only [caseLines, List.map_cons, List.map_append, Nat.add_assoc, Node.lines_raise (level + 1) node,
      caseLines_raise subject level rest]
    rfl

theorem chainLines_raise (subject : Subject) (level : Nat) : (arms : List (Nat × Node)) →
    chainLines names subject (n + level) arms = (chainLines names subject level arms).map (Line.raise n)
  | [] => rfl
  | (key, node) :: rest => by
    simp only [chainLines, List.map_cons, List.map_append, Nat.add_assoc, Node.lines_raise (level + 1) node,
      chainLines_raise subject level rest]
    rfl

end

theorem headerLines_raise (level : Nat) (words : List Word) :
    headerLines (n + level) words = (headerLines level words).map (Line.raise n) := by
  simp [headerLines, Line.raise]

theorem Tree.listing_raise (level : Nat) (tree : Tree) :
    tree.listing names (n + level) = (tree.listing names level).map (Line.raise n) := by
  rw [Tree.listing, Tree.listing, List.map_append, headerLines_raise, Node.lines_raise]

end Levels

/-- The level only moves the text of a tree. For every tree there is, and for all names that
fit on a line, the text at a level is the text at level zero with four blanks for each level
put in front of every line, so that no line is lost, broken or added. -/
theorem render_indent {names : Vocabulary} (hn : names.OneLine) (tree : Tree) (level : Nat) :
    tree.render names level =
      String.ofList (Text.indent (List.replicate (4 * level) ' ') true (tree.render names 0).toList) ∧
    (Text.lines (tree.render names level).toList).length = (Text.lines (tree.render names 0).toList).length := by
  have hlisting : tree.listing names level = (tree.listing names 0).map (Line.raise level) :=
    tree.listing_raise names level 0
  have hlines : ∀ line ∈ (tree.listing names 0).map Line.shown, '\n' ∉ line := by
    rw [List.forall_mem_map]
    exact fun line hm => (tree.plain_listing hn 0 line hm).shown.1
  constructor
  · apply String.toList_inj.mp
    rw [String.toList_ofList, tree.toList_render, tree.toList_render, Text.indent_unlines hlines, hlisting]
    simp only [List.map_map, Function.comp_def, Line.shown_raise]
  · rw [tree.lines_render hn, tree.lines_render hn, hlisting]
    simp only [List.length_map]

/-- A chain on a newline and on a byte outside ASCII, which no corpus leads to. -/
def strayChain : Tree := ⟨[], .dispatch (.column 0) .ifChain [(10, .reject), (233, .reject)] .reject⟩

theorem render_indent_strayChain :
    let names : Vocabulary := ⟨"len", "at", "hit", "miss", "maybe"⟩
    names.OneLine ∧
      strayChain.render names 2 =
        String.ofList (Text.indent (List.replicate 8 ' ') true (strayChain.render names 0).toList) ∧
      (Text.lines (strayChain.render names 2).toList).length = 10 := by
  intro names
  have hn : names.OneLine := by constructor <;> simp [OneLine, names]
  obtain ⟨htext, hcount⟩ := render_indent hn strayChain 2
  exact ⟨hn, htext, hcount.trans (by decide +kernel)⟩

end KeywordTree
